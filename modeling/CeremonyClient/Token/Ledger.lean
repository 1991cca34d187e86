import CeremonyClient.Token.ProcessFrame
import CeremonyClient.Token.Slots

set_option autoImplicit false

namespace Ceremony

open GoSem

variable {a : TokenApplication} {currentFrameNumber : UInt64} {held after : List Bytes} {outputs : List TokenOutput}
  {parallelismMap : Int → UInt64} {skipFailures : Bool} {lockMap : List Bytes} {slot out : Slot}

def isSpend : Option Request → Bool
  | some (.transfer _) => true
  | some (.split _) => true
  | some (.merge _) => true
  | _ => false

def isMint : Option Request → Bool
  | some (.mint _) => true
  | _ => false

structure Receipt (a : TokenApplication) (request : Option Request) (outputs : List TokenOutput) : Prop where
  spend : isSpend request = true → ∃ kind held after, request = some kind ∧ Spend a kind held after outputs
  quiet : isSpend request = false → deletedCoins outputs = []
  silent : isSpend request = false → isMint request = false → createdCoins outputs = []

theorem handler_receipt {request : Option Request} {handler : LockM Bytes (List TokenOutput)}
    (found : handlerOf a currentFrameNumber request = some handler) (ran : handler.on held = (.ok outputs, after)) :
    (∃ kind, request = some kind ∧ isSpend request = true ∧ Spend a kind held after outputs) ∨
      (isSpend request = false ∧ deletedCoins outputs = [] ∧ createdCoins outputs = []) := by
  rcases request with _ | (t | t | t | t | t | t | t | t | t) <;> cases found
  · exact Or.inl ⟨_, rfl, rfl, handle_transfer_spend ran⟩
  · exact Or.inl ⟨_, rfl, rfl, handle_split_spend ran⟩
  · exact Or.inl ⟨_, rfl, rfl, handle_merge_spend ran⟩
  · exact Or.inr ⟨rfl, handle_announce_no_coins ran⟩
  · exact Or.inr ⟨rfl, handle_join_no_coins ran⟩
  · rw [handle_change_output ran]
    exact Or.inr ⟨rfl, rfl, rfl⟩
  · rw [handle_change_output ran]
    exact Or.inr ⟨rfl, rfl, rfl⟩
  · rw [handle_change_output ran]
    exact Or.inr ⟨rfl, rfl, rfl⟩

theorem handle_mint_deletes_none {t : MintCoinRequest} {processed : ProcessedMint}
    (done : handleMint a currentFrameNumber t processed parallelismMap = .ok outputs) : deletedCoins outputs = [] := by
  simp only [handleMint, bind_ok_iff] at done
  obtain ⟨key, -, altAddrBytes, -, done⟩ := done
  have noCoin : deletedCoins (processed.deletedProof.toList.map TokenOutput.deletedProof) = [] := by
    cases processed.deletedProof <;> rfl
  split at done
  · simp only [handlePre2Mint, bind_ok_iff] at done
    obtain ⟨_, -, _, -, _, -, _, -, _, -, _, -, _, -, result⟩ := done
    cases result
    rfl
  · split at done
    · simp only [bind_ok_iff] at done
      obtain ⟨rings, -, done⟩ := done
      split at done
      · cases done
        rfl
      · split at done
        · simp only [bind_ok_iff] at done
          obtain ⟨storageBytes, -, result⟩ := done
          cases result
          rw [deleted_coins_append, noCoin]
          rfl
        · cases done
          rw [deleted_coins_append, deleted_coins_append, noCoin]
          split <;> rfl
    · cases done

def Slot.deleted (slot : Slot) : List Bytes := slot.success.elim [] deletedCoins

def Slot.Receipted (a : TokenApplication) (slot : Slot) : Prop :=
  ∀ outputs, slot.success = some outputs → Receipt a slot.transition.request outputs

theorem handle_slot_deleted (pending : slot.success = none)
    (done : handleSlot a currentFrameNumber skipFailures lockMap slot = .ok (out, after)) :
    out.deleted.Nodup ∧ (∀ address ∈ out.deleted, address ∉ lockMap ∧ address ∈ after) ∧ out.Receipted a := by
  rcases handle_slot_cases done with
    ⟨same, -⟩ | ⟨handler, success, -, found, ran, same⟩ | ⟨handler, cause, -, -, -, -, same⟩
  · subst same
    simp [Slot.deleted, Slot.Receipted, pending]
  · subst same
    have receipt := handler_receipt found ran
    rcases receipt with ⟨kind, isKind, spends, spend⟩ | ⟨notSpend, noDeleted, noCreated⟩
    · refine ⟨?_, ?_, ?_⟩
      · exact (spend.deleted ▸ spend.distinct : (deletedCoins success).Nodup)
      · intro address member
        have named : address ∈ spentAddresses kind := spend.deleted ▸ member
        refine ⟨spend.untouched address named, ?_⟩
        rw [spend.locked]
        exact List.mem_append_left _ (List.mem_reverse.mpr named)
      · intro outputs isSuccess
        cases isSuccess
        exact ⟨fun _ => ⟨kind, lockMap, after, isKind, spend⟩, fun not => (Bool.false_ne_true (not.symm.trans spends)).elim,
          fun not => (Bool.false_ne_true (not.symm.trans spends)).elim⟩
    · have none : Slot.deleted { slot with success := some success } = [] := noDeleted
      rw [none]
      refine ⟨List.nodup_nil, by simp, fun outputs isSuccess => ?_⟩
      cases isSuccess
      exact ⟨fun spends => (Bool.false_ne_true (notSpend.symm.trans spends)).elim, fun _ => noDeleted, fun _ _ => noCreated⟩
  · subst same
    simp [Slot.deleted, Slot.Receipted, pending]

theorem handled_deleted_distinct {selected handled : List Slot} (pending : ∀ slot ∈ selected, slot.success = none)
    (done : mapAccumM (handleSlot a currentFrameNumber skipFailures) lockMap selected = .ok (handled, after)) :
    (handled.flatMap Slot.deleted).Nodup ∧ ∀ address ∈ handled.flatMap Slot.deleted, address ∉ lockMap := by
  induction selected generalizing lockMap handled with
  | nil =>
      cases done
      simp
  | cons slot tail ih =>
      obtain ⟨out, between, outs, begun, ran, shape⟩ := map_accum_cons.mp done
      rw [List.forall_mem_cons] at pending
      obtain ⟨distinct, fresh, -⟩ := handle_slot_deleted pending.1 begun
      obtain ⟨restDistinct, restFresh⟩ := ih pending.2 ran
      have grows := handle_slot_grows begun
      rw [shape, List.flatMap_cons]
      refine ⟨List.nodup_append.mpr ⟨distinct, restDistinct, ?_⟩, fun address member => ?_⟩
      · intro address here other there same
        exact restFresh other there (same ▸ (fresh address here).2)
      · rcases List.mem_append.mp member with here | there
        · exact (fresh address here).1
        · exact fun locked => restFresh address there (grows locked)

theorem later_slot_deleted (handled : slot.Handled) (receipted : slot.Receipted a)
    (done : mintSlot a currentFrameNumber parallelismMap slot = .ok out) : out.deleted = slot.deleted ∧ out.Receipted a := by
  rcases mint_slot_cases done with
    ⟨same, -⟩ | ⟨t, processed, -, -, isMint, -, ⟨success, ran, same⟩ | ⟨cause, -, same⟩⟩
  · rw [same]
    exact ⟨rfl, receipted⟩
  · have pending := handled.minting (by rw [isMint]; simp)
    have noDeleted := handle_mint_deletes_none ran
    have request := mint_request isMint
    subst same
    refine ⟨by simp [Slot.deleted, pending, noDeleted], fun outputs isSuccess => ?_⟩
    cases isSuccess
    rw [show ({ slot with success := some success } : Slot).transition.request = some (.mint t) from request]
    exact ⟨fun spends => (by cases spends), fun _ => noDeleted, fun _ notMint => (by cases notMint)⟩
  · rw [same]
    exact ⟨rfl, receipted⟩

theorem receipted_of_same (slot out : Slot) (same : out.success = slot.success ∧ out.transition = slot.transition)
    (receipted : slot.Receipted a) : out.Receipted a := by
  intro outputs isSuccess
  rw [same.1] at isSuccess
  rw [same.2]
  exact receipted outputs isSuccess

theorem Passes.ledger {a : TokenApplication} {fuel : Nat} {currentFrameNumber : UInt64} {frame : ClockFrame}
    {requests : List TokenRequest} {skipFailures : Bool} {slots : List Slot}
    (run : Passes a fuel currentFrameNumber frame requests skipFailures slots) :
    (slots.flatMap Slot.deleted).Nodup ∧ ∀ slot ∈ slots, slot.Receipted a := by
  have pending : ∀ slot ∈ run.selected, slot.success = none := fun slot member => (run.selected_all slot member).pending
  have handled : ∀ slot ∈ run.handled, slot.Receipted a :=
    forall₂_transfer (fun slot out step before => step before)
      (map_accum_related (fun slot out => slot.success = none → out.Receipted a)
        (fun lockMap slot out after step before =>
          (handle_slot_deleted before step).2.2) run.handle)
      pending
  have processed : List.Forall₂ (fun slot out => out.success = slot.success ∧ out.transition = slot.transition)
      run.handled run.processed :=
    ((map_m_iff _ _ _).mp run.preProcess).imp fun slot out step => by
      rcases pre_process_slot_cases step with
        ⟨same, -⟩ | ⟨t, processed, -, -, -, same⟩ | ⟨t, -, -, same⟩ <;> rw [same] <;> exact ⟨rfl, rfl⟩
  have tallied : List.Forall₂ (fun slot out => out.success = slot.success ∧ out.transition = slot.transition)
      run.processed run.tallied :=
    map_accum_related _ (fun parallelismMap slot out after step => by
      rcases tally_slot_cases step with
        ⟨same, -⟩ | ⟨t, ring, parallelism, -, -, -, same, -⟩ | ⟨-, same, -⟩ <;> rw [same] <;> exact ⟨rfl, rfl⟩) run.tally
  have talliedReceipts := forall₂_transfer receipted_of_same tallied (forall₂_transfer receipted_of_same processed handled)
  have minted := forall₂_attach ((map_m_iff _ _ _).mp run.mint)
    (fun slot member => (⟨(run.tallied_all slot member).toHandled, talliedReceipts slot member⟩ : slot.Handled ∧ slot.Receipted a))
  have last := minted.imp fun slot out step =>
    later_slot_deleted step.2.1 step.2.2 step.1
  have sameDeleted : slots.map Slot.deleted = run.handled.map Slot.deleted :=
    (forall₂_map_eq (last.imp fun slot out step => step.1)).trans
      ((forall₂_map_eq (tallied.imp fun slot out same => by rw [Slot.deleted, same.1]; rfl)).trans
        (forall₂_map_eq (processed.imp fun slot out same => by rw [Slot.deleted, same.1]; rfl)))
  refine ⟨?_, forall₂_transfer (fun slot out step _ => step.2) last fun _ _ => trivial⟩
  rw [List.flatMap_def, sameDeleted, ← List.flatMap_def]
  exact (handled_deleted_distinct pending run.handle).1

def storedAmount (store : CoinStore) (address : Bytes) : Nat :=
  match store.getCoinByAddress address with
  | .ok coin => setBytes coin.amount
  | .error _ => 0

def Applied.outputsOf (applied : Applied) (kind : Option Request → Bool) : List TokenOutput :=
  (applied.receipts.filter fun receipt => kind receipt.1.request).flatMap Prod.snd

theorem stored_total {store : CoinStore} {owned : Coin → Prop} {addresses : List Bytes} {coins : List Coin}
    (each : List.Forall₂ (fun address coin => store.getCoinByAddress address = .ok coin ∧ owned coin) addresses coins) :
    totalAmount coins = (addresses.map (storedAmount store)).sum := by
  induction each with
  | nil => rfl
  | cons first rest ih =>
      simp only [totalAmount, List.map_cons, List.sum_cons] at ih ⊢
      rw [ih, storedAmount, first.1]

theorem spend_balanced {request : Request} (spend : Spend a request held after outputs) :
    totalAmount (createdCoins outputs) = ((deletedCoins outputs).map (storedAmount a.coinStore)).sum := by
  obtain ⟨key, coins, -, each, total, -⟩ := spend.stored
  rw [total, spend.deleted]
  exact stored_total each

theorem receipts_balanced {receipts : List (TokenRequest × List TokenOutput)}
    (each : ∀ receipt ∈ receipts, Receipt a receipt.1.request receipt.2) :
    totalAmount (createdCoins (Applied.outputsOf ⟨receipts, []⟩ isSpend)) =
        ((deletedCoins (receipts.flatMap Prod.snd)).map (storedAmount a.coinStore)).sum ∧
      totalAmount (createdCoins (receipts.flatMap Prod.snd)) =
        totalAmount (createdCoins (Applied.outputsOf ⟨receipts, []⟩ isSpend)) +
          totalAmount (createdCoins (Applied.outputsOf ⟨receipts, []⟩ isMint)) := by
  induction receipts with
  | nil => exact ⟨rfl, rfl⟩
  | cons receipt tail ih =>
      rw [List.forall_mem_cons] at each
      obtain ⟨balanced, split⟩ := ih each.2
      simp only [Applied.outputsOf, totalAmount] at balanced split ⊢
      simp only [List.flatMap_cons, created_coins_append, deleted_coins_append, List.map_append, List.sum_append]
      cases spends : isSpend receipt.1.request with
      | true =>
          obtain ⟨kind, held, after, isKind, spend⟩ := each.1.spend spends
          have notMint : isMint receipt.1.request = false := by
            rw [isKind] at spends ⊢
            cases kind <;> first | rfl | cases spends
          have same := spend_balanced spend
          rw [totalAmount] at same
          simp only [List.filter_cons, spends, notMint, if_true, Bool.false_eq_true, if_false, List.flatMap_cons,
            created_coins_append, List.map_append, List.sum_append]
          omega
      | false =>
          have quiet := each.1.quiet spends
          cases mints : isMint receipt.1.request with
          | true =>
              simp only [List.filter_cons, spends, mints, if_true, Bool.false_eq_true, if_false, List.flatMap_cons,
                created_coins_append, List.map_append, List.sum_append, quiet, List.map_nil, List.sum_nil]
              omega
          | false =>
              have silent := each.1.silent spends mints
              simp only [List.filter_cons, spends, mints, Bool.false_eq_true, if_false, quiet, silent, List.map_nil, List.sum_nil]
              omega

theorem receipts_deleted {slots : List Slot} :
    deletedCoins ((slots.filterMap Slot.receipt).flatMap Prod.snd) = slots.flatMap Slot.deleted := by
  induction slots with
  | nil => rfl
  | cons slot tail ih =>
      rw [List.flatMap_cons, ← ih, List.filterMap_cons]
      cases done : slot.success with
      | none => simp [Slot.receipt, Slot.deleted, done]
      | some outputs => simp [Slot.receipt, Slot.deleted, done]

theorem apply_transitions_receipts (a : TokenApplication) (fuel : Nat) (currentFrameNumber : UInt64)
    (transitions : List TokenRequest) (skipFailures : Bool) (applied : Applied)
    (done : applyTransitions a fuel currentFrameNumber transitions skipFailures = .ok applied) :
    (deletedCoins applied.outputs).Nodup ∧ ∀ receipt ∈ applied.receipts, Receipt a receipt.1.request receipt.2 := by
  obtain ⟨filter, frame, requests, slots, -, -, -, ⟨run⟩, receipts, -, -⟩ :=
    apply_transitions_ok done
  obtain ⟨distinct, each⟩ := run.ledger
  refine ⟨?_, fun receipt member => ?_⟩
  · rw [Applied.outputs, receipts, receipts_deleted]
    exact distinct
  · rw [receipts] at member
    obtain ⟨slot, inSlots, isReceipt⟩ := List.mem_filterMap.mp member
    obtain ⟨outputs, isSuccess, shape⟩ := Option.map_eq_some_iff.mp isReceipt
    rw [← shape]
    exact each slot inSlots outputs isSuccess

theorem deleted_coin_origin (a : TokenApplication) (applied : Applied) (address : Bytes)
    (each : ∀ receipt ∈ applied.receipts, Receipt a receipt.1.request receipt.2) (deleted : address ∈ deletedCoins applied.outputs) :
    ∃ transition ∈ applied.finalized, ∃ kind key coin, transition.request = some kind ∧ address ∈ spentAddresses kind ∧
      SignsRequest a.prim key kind ∧ a.coinStore.getCoinByAddress address = .ok coin ∧ OwnedByKey a.prim key coin := by
  obtain ⟨output, member, isDeleted⟩ := List.mem_filterMap.mp deleted
  obtain ⟨receipt, inReceipts, inOutputs⟩ := List.mem_flatMap.mp member
  have here : address ∈ deletedCoins receipt.2 := List.mem_filterMap.mpr ⟨output, inOutputs, isDeleted⟩
  cases spends : isSpend receipt.1.request with
  | false =>
      rw [(each receipt inReceipts).quiet spends] at here
      cases here
  | true =>
      obtain ⟨kind, held, after, isKind, spend⟩ := (each receipt inReceipts).spend spends
      obtain ⟨key, coins, signs, stored, -, -⟩ := spend.stored
      rw [spend.deleted] at here
      obtain ⟨coin, -, found, owned⟩ := forall₂_left_member stored address here
      exact ⟨receipt.1, List.mem_map.mpr ⟨receipt, inReceipts, rfl⟩, kind, key, coin, isKind, here, signs, found, owned⟩

def newCoinAddresses (prim : Primitives) (frameNumber : UInt64) (outputs : List (TokenOutput × Nat)) : List Bytes :=
  outputs.filterMap fun output => match output.1 with
    | .coin coin => (getAddressOfCoin prim coin frameNumber (UInt64.ofNat output.2)).toOption
    | _ => none

theorem frame_changes {prim : Primitives} {frameNumber : UInt64} {start : Nat} {addresses : List (Except GoError Bytes)}
    (computed : List.Forall₂ (fun output address => outputAddress prim frameNumber output = .ok address)
      ((outputs.map some).zipIdx start) addresses)
    (addressed : ∀ output ∈ (outputs.map some).zip addresses, ∀ coin, output.1 = some (.coin coin) → ∃ address, output.2 = .ok address) :
    (Table.writes (coinChanges frameNumber (outputs.map some) addresses)).map Prod.fst =
        newCoinAddresses prim frameNumber (outputs.zipIdx start) ∧
      (Table.writes (coinChanges frameNumber (outputs.map some) addresses)).map (fun entry => entry.2.2) = createdCoins outputs ∧
      Table.erasures (coinChanges frameNumber (outputs.map some) addresses) = deletedCoins outputs := by
  induction outputs generalizing start addresses with
  | nil =>
      cases computed
      exact ⟨rfl, rfl, rfl⟩
  | cons output tail ih =>
      rw [List.map_cons, List.zipIdx_cons] at computed
      cases computed with
      | @cons _ address _ rest first later =>
          rw [List.map_cons, List.zip_cons_cons, List.forall_mem_cons] at addressed
          obtain ⟨keys, coins, erased⟩ := ih later addressed.2
          cases output with
          | coin coin =>
              obtain ⟨found, isFound⟩ := addressed.1 coin rfl
              cases isFound
              have hashed : getAddressOfCoin prim coin frameNumber (UInt64.ofNat start) = .ok found := by
                rcases (attempt_ok_iff _ _).mp first with ⟨value, ran, same⟩ | ⟨cause, -, same⟩
                · cases same
                  exact ran
                · cases same
              refine ⟨(congrArg (List.cons found) keys).trans ?_, congrArg (List.cons coin) coins, erased⟩
              rw [newCoinAddresses, newCoinAddresses, List.zipIdx_cons, List.filterMap_cons]
              simp only [hashed]
              rfl
          | deletedCoin ref => exact ⟨keys, coins, congrArg (List.cons ref.address) erased⟩
          | _ => exact ⟨keys, coins, erased⟩

section Frames

variable {γ : Type}

-- A frame that carries the outputs of a call on the engine's own coins, and was processed.
structure FrameRun (e : TokenExecutionEngine γ) (a : TokenApplication) (frame : ClockFrame) (outputs : List TokenOutput)
    (state : FrameState γ) : Prop where
  reads : e.coinStore.view = a.coinStore
  carries : ∃ requests, getOutputsFromClockFrame e.codec frame = .ok (requests, some (outputs.map some))
  processed : ∃ triesAtFrame tries, processFrame e frame triesAtFrame = (.ok (some tries), state)

theorem FrameRun.changes {e : TokenExecutionEngine γ} {a : TokenApplication} {frame : ClockFrame} {outputs : List TokenOutput}
    {state : FrameState γ} (run : FrameRun e a frame outputs state) :
    ∃ changes, state.txn.coins = Table.run changes e.coinStore.coins ∧
      (Table.writes changes).map Prod.fst = newCoinAddresses e.prim frame.frameNumber outputs.zipIdx ∧
      (Table.writes changes).map (fun entry => entry.2.2) = createdCoins outputs ∧ Table.erasures changes = deletedCoins outputs := by
  obtain ⟨triesAtFrame, tries, done⟩ := run.processed
  obtain ⟨requests, carried⟩ := run.carries
  obtain ⟨requests', outputs', addresses, read, computed, addressed, after⟩ := process_frame_coins done
  rw [carried] at read
  cases read
  exact ⟨_, after, frame_changes ((map_m_iff _ _ _).mp computed) addressed⟩

-- GetAddressOfCoin yields no address twice and none that the store already has.
structure FreshAddresses (e : TokenExecutionEngine γ) (frame : ClockFrame) (outputs : List TokenOutput) : Prop where
  distinct : (newCoinAddresses e.prim frame.frameNumber outputs.zipIdx).Nodup
  unused : ∀ address ∈ newCoinAddresses e.prim frame.frameNumber outputs.zipIdx, address ∉ e.coinStore.coins

instance (e : TokenExecutionEngine γ) (frame : ClockFrame) (outputs : List TokenOutput) : Decidable (FreshAddresses e frame outputs) :=
  decidable_of_iff ((newCoinAddresses e.prim frame.frameNumber outputs.zipIdx).Nodup ∧
      ∀ address ∈ newCoinAddresses e.prim frame.frameNumber outputs.zipIdx, address ∉ e.coinStore.coins)
    ⟨fun fresh => ⟨fresh.1, fresh.2⟩, fun fresh => ⟨fresh.distinct, fresh.unused⟩⟩

theorem view_lookup (e : TokenExecutionEngine γ) (a : TokenApplication) (reads : e.coinStore.view = a.coinStore) (address : Bytes) (coin : Coin)
    (found : a.coinStore.getCoinByAddress address = .ok coin) :
    ∃ frameNumber, e.coinStore.coins.lookup address = some (frameNumber, coin) := by
  rw [← reads] at found
  exact PebbleCoinStore.get_coin_ok_iff.mp found

theorem FrameRun.total {e : TokenExecutionEngine γ} {a : TokenApplication} {frame : ClockFrame} {outputs : List TokenOutput}
    {state : FrameState γ} (run : FrameRun e a frame outputs state) (fresh : FreshAddresses e frame outputs)
    (distinct : (deletedCoins outputs).Nodup)
    (stored : ∀ address ∈ deletedCoins outputs, ∃ coin, a.coinStore.getCoinByAddress address = .ok coin) :
    state.txn.total + ((deletedCoins outputs).map (storedAmount a.coinStore)).sum =
      e.coinStore.total + totalAmount (createdCoins outputs) := by
  obtain ⟨changes, after, keys, coins, erased⟩ := run.changes
  have present : ∀ address ∈ Table.erasures changes, address ∈ e.coinStore.coins := by
    intro address member
    obtain ⟨coin, found⟩ := stored address (erased ▸ member)
    obtain ⟨frameNumber, lookup⟩ := view_lookup e a run.reads address coin found
    exact AList.lookup_isSome.mp (by rw [lookup]; rfl)
  have moved := Table.weigh_run (fun stored => setBytes stored.2.amount) changes e.coinStore.coins (keys ▸ fresh.distinct)
    (keys ▸ fresh.unused) (erased ▸ distinct) present
  have created : ((Table.writes changes).map fun entry => setBytes entry.2.2.amount).sum = totalAmount (createdCoins outputs) := by
    rw [totalAmount, ← coins, List.map_map]
    rfl
  have removed : ((Table.erasures changes).map (Table.weightAt (fun stored => setBytes stored.2.amount) e.coinStore.coins)).sum =
      ((deletedCoins outputs).map (storedAmount a.coinStore)).sum := by
    rw [erased]
    refine congrArg List.sum (List.map_congr_left fun address member => ?_)
    obtain ⟨coin, found⟩ := stored address member
    obtain ⟨frameNumber, lookup⟩ := view_lookup e a run.reads address coin found
    rw [Table.weightAt, lookup, storedAmount, found]
    rfl
  rw [created, removed, ← after] at moved
  exact moved

end Frames

theorem ledger_conservation (a : TokenApplication) (fuel : Nat) (currentFrameNumber : UInt64) (transitions : List TokenRequest)
    (skipFailures : Bool) (applied : Applied)
    (done : applyTransitions a fuel currentFrameNumber transitions skipFailures = .ok applied) :
    (deletedCoins applied.outputs).Nodup ∧
      (∀ address ∈ deletedCoins applied.outputs, ∃ coin, a.coinStore.getCoinByAddress address = .ok coin) ∧
      totalAmount (createdCoins (applied.outputsOf isSpend)) =
        ((deletedCoins applied.outputs).map (storedAmount a.coinStore)).sum ∧
      ∀ {γ : Type} (e : TokenExecutionEngine γ) (frame : ClockFrame) (state : FrameState γ),
        FrameRun e a frame applied.outputs state → FreshAddresses e frame applied.outputs →
        state.txn.total = e.coinStore.total + totalAmount (createdCoins (applied.outputsOf isMint)) := by
  obtain ⟨distinct, each⟩ := apply_transitions_receipts a fuel currentFrameNumber transitions skipFailures applied done
  have stored : ∀ address ∈ deletedCoins applied.outputs, ∃ coin, a.coinStore.getCoinByAddress address = .ok coin := by
    intro address member
    obtain ⟨_, -, _, _, coin, -, -, -, found, -⟩ := deleted_coin_origin a applied address each member
    exact ⟨coin, found⟩
  obtain ⟨balanced, split⟩ := receipts_balanced each
  refine ⟨distinct, stored, balanced, fun e frame state run fresh => ?_⟩
  have moved := run.total fresh distinct stored
  have same : totalAmount (createdCoins applied.outputs) =
      totalAmount (createdCoins (applied.outputsOf isSpend)) + totalAmount (createdCoins (applied.outputsOf isMint)) := split
  have spent : totalAmount (createdCoins (applied.outputsOf isSpend)) =
      ((deletedCoins applied.outputs).map (storedAmount a.coinStore)).sum := balanced
  omega

def sampleBeaconMint : TokenRequest :=
  let proofs := [beBytes 32 250 ++ List.replicate 32 8]
  ⟨some (.mint ⟨proofs, none, sampleSignature (ascii ['m', 'i', 'n', 't'] ++ proofs.flatten)⟩), 1⟩

def sampleRequests : List TokenRequest := [sampleTransfer (List.replicate 32 3), sampleBeaconMint]

def sampleOutputs : List TokenOutput :=
  match applyTransitions sampleApplication 8 5 sampleRequests true with
  | .ok applied => applied.outputs
  | .error _ => []

def sampleEngine : TokenExecutionEngine (List Bytes) where
  prim := samplePrimitives
  codec := {
    unmarshalIntrinsicExecutionOutput := fun data => .ok ⟨TOKEN_ADDRESS, data, []⟩
    unmarshalTokenOutputs := fun data => .ok (if data = [1] then sampleOutputs.map some else [])
    unmarshalTokenRequests := fun _ => .ok sampleRequests }
  coinStore := sampleStore
  clockStore := sampleApplication.clockStore
  hypergraphStore := {
    loadHypergraph := .ok []
    saveHypergraph := fun _ => .ok ()
    addVertex := fun vertices _ address _ => .ok (address :: vertices)
    removeVertex := fun vertices _ address _ => .ok (vertices.erase address)
    commit := fun vertices => (vertices, [vertices.flatten]) }
  network := 0
  intrinsicFilter := List.replicate 32 9
  peerSeniority := ∅
  hypergraph := []
  getAggregatedSeniority := fun _ => 0
  rebuildPeerSeniority := fun _ => .ok ∅

def sampleLedgerFrame : ClockFrame :=
  { sampleFrame 5 with
    aggregateProofs := [⟨[], 5, [⟨[], 5, 0, intrinsicExecutionOutputType, [1], []⟩], []⟩] }

def sampleFrameState : FrameState (List Bytes) := (processFrame sampleEngine sampleLedgerFrame sampleApplication.tries).2

-- One evaluation serves all the facts, since the kernel remembers the outputs it has computed.
theorem sample_evaluated :
    returnsWith (processFrame sampleEngine sampleLedgerFrame sampleApplication.tries).1 Option.isSome = true ∧
      returnsWith (applyTransitions sampleApplication 8 5 sampleRequests true)
        (fun applied => applied.finalized == sampleRequests && totalAmount (createdCoins (applied.outputsOf isMint)) == 250) = true ∧
      FreshAddresses sampleEngine sampleLedgerFrame sampleOutputs ∧ deletedCoins sampleOutputs = [sampleCoinAddress] ∧
      sampleOtherAddress ∉ newCoinAddresses samplePrimitives 5 sampleOutputs.zipIdx := by
  decide +kernel

theorem sample_frame_run : FrameRun sampleEngine sampleApplication sampleLedgerFrame sampleOutputs sampleFrameState := by
  obtain ⟨ran, -⟩ := sample_evaluated
  obtain ⟨result, done, isSome⟩ := (returns_with_iff _ _).mp ran
  obtain ⟨tries, shape⟩ := Option.isSome_iff_exists.mp isSome
  refine ⟨rfl, ⟨sampleRequests, rfl⟩, sampleApplication.tries, tries, ?_⟩
  rw [sampleFrameState, ← shape, ← done]

theorem sample_outputs_applied {applied : Applied} (done : applyTransitions sampleApplication 8 5 sampleRequests true = .ok applied) :
    applied.outputs = sampleOutputs := by
  unfold sampleOutputs
  rw [done]

theorem sample_requests_applied :
    ∃ applied, applyTransitions sampleApplication 8 5 sampleRequests true = .ok applied ∧ applied.outputs = sampleOutputs ∧
      applied.finalized = sampleRequests ∧ totalAmount (createdCoins (applied.outputsOf isMint)) = 250 := by
  obtain ⟨-, ran, -⟩ := sample_evaluated
  obtain ⟨applied, done, check⟩ := (returns_with_iff _ _).mp ran
  rw [Bool.and_eq_true, beq_iff_eq, beq_iff_eq] at check
  exact ⟨applied, done, sample_outputs_applied done, check.1, check.2⟩

theorem ledger_conservation_transfer_and_mint :
    ∃ applied, applyTransitions sampleApplication 8 5 sampleRequests true = .ok applied ∧
      deletedCoins applied.outputs = [sampleCoinAddress] ∧ (deletedCoins applied.outputs).Nodup ∧
      FrameRun sampleEngine sampleApplication sampleLedgerFrame applied.outputs sampleFrameState ∧
      FreshAddresses sampleEngine sampleLedgerFrame applied.outputs ∧
      sampleFrameState.txn.total = sampleEngine.coinStore.total + 250 := by
  obtain ⟨applied, done, outputs, -, minted⟩ := sample_requests_applied
  obtain ⟨distinct, -, -, frames⟩ := ledger_conservation sampleApplication 8 5 sampleRequests true applied done
  have run : FrameRun sampleEngine sampleApplication sampleLedgerFrame applied.outputs sampleFrameState :=
    outputs.symm ▸ sample_frame_run
  obtain ⟨-, -, fresh, deleted, -⟩ := sample_evaluated
  rw [← outputs] at fresh deleted
  exact ⟨applied, done, deleted, distinct, run, fresh, minted ▸ frames sampleEngine sampleLedgerFrame _ run fresh⟩

-- Frames that are processed one after another, each on the coins that the one before it left, and what they mint.
inductive LedgerRun (first : PebbleCoinStore) : Nat → PebbleCoinStore → Prop where
  | start : LedgerRun first 0 first
  | frame {γ : Type} {minted : Nat} (e : TokenExecutionEngine γ) (a : TokenApplication) (fuel : Nat) (frame : ClockFrame)
      (transitions : List TokenRequest) (skipFailures : Bool) (applied : Applied) (state : FrameState γ)
      (before : LedgerRun first minted e.coinStore)
      (done : applyTransitions a fuel frame.frameNumber transitions skipFailures = .ok applied)
      (run : FrameRun e a frame applied.outputs state) (fresh : FreshAddresses e frame applied.outputs) :
      LedgerRun first (minted + totalAmount (createdCoins (applied.outputsOf isMint))) state.txn

theorem supply_is_minted {first last : PebbleCoinStore} {minted : Nat} (run : LedgerRun first minted last) :
    last.total = first.total + minted := by
  induction run with
  | start => rfl
  | frame e a fuel frame transitions skipFailures applied state _ done run fresh ih =>
      obtain ⟨distinct, each⟩ := apply_transitions_receipts a fuel frame.frameNumber transitions skipFailures applied done
      have moved := run.total fresh distinct fun address member => by
        obtain ⟨_, -, _, _, coin, -, -, -, found, -⟩ := deleted_coin_origin a applied address each member
        exact ⟨coin, found⟩
      obtain ⟨balanced, split⟩ := receipts_balanced each
      change _ + ((deletedCoins (applied.receipts.flatMap Prod.snd)).map (storedAmount a.coinStore)).sum =
        _ + totalAmount (createdCoins (applied.receipts.flatMap Prod.snd)) at moved
      change state.txn.total = first.total + (_ + totalAmount (createdCoins (Applied.outputsOf ⟨applied.receipts, []⟩ isMint)))
      omega

theorem supply_is_minted_one_frame : LedgerRun sampleStore 250 sampleFrameState.txn ∧ sampleFrameState.txn.total = sampleStore.total + 250 := by
  obtain ⟨applied, done, outputs, -, minted⟩ := sample_requests_applied
  obtain ⟨-, -, fresh, -⟩ := sample_evaluated
  have run := LedgerRun.frame sampleEngine sampleApplication 8 sampleLedgerFrame sampleRequests true applied sampleFrameState
    LedgerRun.start done (outputs.symm ▸ sample_frame_run) (outputs.symm ▸ fresh)
  rw [minted, Nat.zero_add] at run
  exact ⟨run, supply_is_minted run⟩

end Ceremony
