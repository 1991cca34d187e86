import CeremonyClient.Token.Selection

set_option autoImplicit false

namespace Ceremony

open GoSem

variable {slot : Slot} {currentFrameNumber : UInt64} {parallelismMap : Int → UInt64} {slots : List Slot} {t : MintCoinRequest}
  {parallelism : UInt32} {a : TokenApplication} {frame : ClockFrame} {processed : ProcessedMint} {basis ring : Nat}
  {seen after : List Bytes} {miner : Nat} {owner : Bytes} {miners : List Nat} {peerId : Bytes} {fuel : Nat} {requests : List TokenRequest}
  {skipFailures : Bool}

-- Ring r is Tries[1 + r].
def ringHas (a : TokenApplication) (ring : Nat) (address : Bytes) : Bool :=
  (a.tries.drop 1)[ring]?.any fun trie => trie.contains address

def RingsDisjoint (a : TokenApplication) : Prop :=
  ∀ ring other address, ringHas a ring address = true → ringHas a other address = true → ring = other

def RingsBounded (a : TokenApplication) (bound : Nat) : Prop :=
  ∀ ring (members : List Bytes), members.Nodup → (∀ address ∈ members, ringHas a ring address = true) → members.length ≤ bound

def ownedInRing (a : TokenApplication) (ring : Nat) (coin : Coin) : Bool :=
  (getImplicitAccount coin.owner).any fun account => ringHas a ring account.address

def creditedBy (a : TokenApplication) (ring : Nat) (receipt : TokenRequest × List TokenOutput) : Nat :=
  match receipt.1.request with
  | some (.mint t) => if t.proofs.length ≥ 3 then totalAmount ((createdCoins receipt.2).filter (ownedInRing a ring)) else 0
  | _ => 0

def credited (a : TokenApplication) (ring : Nat) (applied : Applied) : Nat := (applied.receipts.map (creditedBy a ring)).sum

theorem ring_has_iff (a : TokenApplication) (rings : List RollingFrecencyCritbitTrie) (read : sliceFrom a.tries 1 = .ok rings)
    (disjoint : RingsDisjoint a) (address : Bytes) (ring : Nat) (found : Int) (isFound : RingFound rings address found) :
    ringHas a ring address = true ↔ found = ring := by
  have same : a.tries.drop 1 = rings := by
    rw [sliceFrom] at read
    split at read
    · exact Except.ok.inj read
    · cases read
  rcases isFound with ⟨isNone, outside⟩ | ⟨i, trie, isRing, isTrie, holds⟩
  · have absent : ringHas a ring address = false := by
      rw [ringHas, same]
      cases isTrie : rings[ring]? with
      | none => rfl
      | some trie => exact outside trie (List.mem_of_getElem? isTrie)
    rw [isNone, absent]
    simp
  · have here : ringHas a i address = true := by simp [ringHas, same, isTrie, holds]
    rw [isRing, Nat.cast_inj]
    constructor
    · exact fun member => disjoint i ring address here member
    · exact fun sameRing => sameRing ▸ here

def Slot.share (a : TokenApplication) (currentFrameNumber : UInt64) (slot : Slot) : Option (Int × UInt32) :=
  match slot.set && !slot.fails, slot.mint, slot.processed with
  | true, some t, some processed =>
      if t.proofs.length ≥ 3 ∧ currentFrameNumber > PROOF_FRAME_CUTOFF ∧ processed.validForReward = true then
        match ringAndParallelism a.prim t (ringOf a) () with
        | .ok (found, _) => found
        | .error _ => none
      else none
  | _, _, _ => none

def shareIn (ring : Int) (share : Option (Int × UInt32)) : Nat :=
  match share with
  | some (other, parallelism) => if other = ring then parallelism.toNat else 0
  | none => 0

theorem share_le (ring : Int) {share : Option (Int × UInt32)} : shareIn ring share ≤ 2 ^ 32 - 1 := by
  rcases share with _ | ⟨other, parallelism⟩
  · simp [shareIn]
  · have bound := parallelism.toNat_lt
    rw [shareIn]
    split <;> omega

theorem share_rewarded (a : TokenApplication) (currentFrameNumber : UInt64) (t : MintCoinRequest)
    (rewarded : slot.rewarded currentFrameNumber) (isMint : slot.mint = some t) {found : Option (Int × UInt32)}
    (ran : ringAndParallelism a.prim t (ringOf a) () = .ok (found, ())) : slot.share a currentFrameNumber = found := by
  obtain ⟨isSet, notFailed, other, processed, isOther, isProcessed, many, late, valid⟩ := rewarded
  rw [isMint] at isOther
  cases isOther
  simp [Slot.share, isSet, notFailed, isMint, isProcessed, many, late, valid, ran]

theorem share_unrewarded (a : TokenApplication) (unrewarded : ¬ slot.rewarded currentFrameNumber) :
    slot.share a currentFrameNumber = none := by
  rw [Slot.share]
  split
  · rename_i t processed alive isMint isProcessed
    rw [if_neg]
    rintro ⟨many, late, valid⟩
    simp only [Bool.and_eq_true, Bool.not_eq_true'] at alive
    exact unrewarded ⟨alive.1, alive.2, t, processed, isMint, isProcessed, many, late, valid⟩
  · rfl

theorem tally_slot_share (a : TokenApplication) (currentFrameNumber : UInt64) (parallelismMap after : Int → UInt64)
    (slot out : Slot) (done : tallySlot a currentFrameNumber parallelismMap slot = .ok (out, after)) (ring : Int) :
    after ring = parallelismMap ring + UInt64.ofNat (shareIn ring (out.share a currentFrameNumber)) ∧
      (out.rewarded currentFrameNumber → ∃ t found, out.mint = some t ∧
        ringAndParallelism a.prim t (ringOf a) () = .ok (some found, ())) := by
  rcases tally_slot_cases done with
    ⟨same, unchanged, unrewarded⟩ | ⟨t, other, parallelism, rewarded, isMint, ran, same, updated⟩ | ⟨-, same, unchanged⟩
  · subst same
    rw [unchanged, share_unrewarded a unrewarded]
    exact ⟨by simp [shareIn], fun rewarded => absurd rewarded unrewarded⟩
  · subst same
    rw [updated, share_rewarded a currentFrameNumber t rewarded isMint ran, shareIn, Function.update_apply]
    refine ⟨?_, fun _ => ⟨t, (other, parallelism), isMint, ran⟩⟩
    by_cases here : other = ring
    · rw [if_pos here, if_pos here.symm, here]
      congr 1
      exact UInt64.toNat_inj.mp (by simp)
    · rw [if_neg here, if_neg (Ne.symm here)]
      simp
  · have failed : ¬ out.rewarded currentFrameNumber := by
      rintro ⟨-, notFailed, -⟩
      rw [same] at notFailed
      cases notFailed
    rw [unchanged, share_unrewarded a failed]
    exact ⟨by simp [shareIn], fun rewarded => absurd rewarded failed⟩

theorem tally_run_share (a : TokenApplication) (currentFrameNumber : UInt64) {after : Int → UInt64} {tallied : List Slot}
    (done : mapAccumM (tallySlot a currentFrameNumber) parallelismMap slots = .ok (tallied, after)) (ring : Int) :
    after ring = parallelismMap ring + UInt64.ofNat (tallied.map fun slot => shareIn ring (slot.share a currentFrameNumber)).sum := by
  induction slots generalizing parallelismMap tallied with
  | nil =>
      cases done
      simp
  | cons slot tail ih =>
      obtain ⟨out, between, outs, begun, ran, same⟩ := map_accum_cons.mp done
      rw [ih ran, (tally_slot_share a currentFrameNumber parallelismMap between slot out begun ring).1, same,
        List.map_cons, List.sum_cons, UInt64.ofNat_add, UInt64.add_assoc]

theorem mint_parallelism_read {read : UInt32} (stated : mintParallelism t = some parallelism)
    (isRead : (index t.proofs 1 >>= beUint32) = .ok read) : read = parallelism := by
  rw [mintParallelism] at stated
  split at stated
  · rename_i root bytes frame rest isProofs
    split at stated
    · rename_i width
      rw [isProofs] at isRead
      simp only [index, List.getElem?_cons_succ, List.getElem?_cons_zero, deref_some, ok_bind, beUint32, width, lt_irrefl,
        if_false, Except.ok.injEq] at isRead
      rw [← isRead, ← Option.some.inj stated, List.take_of_length_le width.le]
    · cases stated
  · cases stated

theorem pre_process_mint_parallelism (done : preProcessMint a fuel currentFrameNumber t frame = .ok processed)
    (many : t.proofs.length ≥ 3) :
    processed.isPre2 = false ∧ (processed.validForReward = true → processed.penalty = false ∧
      (index t.proofs 1 >>= beUint32) = .ok processed.parallelism) := by
  obtain ⟨key, peerId, altAddrBytes, -, -, -, ⟨single, -⟩ | ⟨-, chain⟩ | ⟨-, chain⟩⟩ :=
    pre_process_mint_cases done
  · omega
  all_goals
    obtain penalized | ⟨prfs, prior, unpacked, wesoVerified, -, -, ran, -, -, same⟩ := pre_process_chain_cases chain
    · rw [penalized]
      exact ⟨rfl, fun rewarded => by cases rewarded⟩
    · rw [same]
      exact ⟨rfl, fun _ => ⟨rfl, (unpack_and_verify_ok ran).2.2.1⟩⟩

def rewardQuotient (basis : Nat) (ringParallelism : UInt64) : Nat :=
  (Int.tdiv (basis : Int) (if ringParallelism = 0 then 1 else ringParallelism).toInt64.toInt).natAbs

theorem reward_amount_abs {ringParallelism : UInt64} :
    (rewardAmount basis ringParallelism parallelism).natAbs = rewardQuotient basis ringParallelism * parallelism.toNat := by
  rw [rewardAmount, Int.natAbs_mul, rewardQuotient, Int.natAbs_natCast]

theorem credited_by_mint (a : TokenApplication) (ring : Nat) (transition : TokenRequest) (t : MintCoinRequest)
    (outputs : List TokenOutput) (request : transition.request = some (.mint t)) (many : t.proofs.length ≥ 3) :
    creditedBy a ring (transition, outputs) = totalAmount ((createdCoins outputs).filter (ownedInRing a ring)) := by
  simp [creditedBy, request, many]

theorem credited_by_unrewarded (a : TokenApplication) (ring : Nat) (transition : TokenRequest) (outputs : List TokenOutput)
    (few : ∀ t, transition.request = some (.mint t) → t.proofs.length < 3) : creditedBy a ring (transition, outputs) = 0 := by
  rw [creditedBy]
  split
  · rename_i t request
    rw [if_neg (by have := few t request; omega)]
  · rfl

def Slot.credited (a : TokenApplication) (ring : Nat) (slot : Slot) : Nat := slot.receipt.elim 0 (creditedBy a ring)

theorem handle_mint_credited {transition : TokenRequest} {outputs : List TokenOutput} (disjoint : RingsDisjoint a)
    (request : transition.request = some (.mint t)) (many : t.proofs.length ≥ 3) (notPre2 : processed.isPre2 = false)
    (done : handleMint a currentFrameNumber t processed parallelismMap = .ok outputs) :
    creditedBy a ring (transition, outputs) = 0 ∨
      currentFrameNumber > PROOF_FRAME_CUTOFF ∧ processed.validForReward = true ∧ processed.penalty = false ∧
        creditedBy a ring (transition, outputs) =
          rewardQuotient (a.prim.pomwBasis 1 ring currentFrameNumber) (parallelismMap ring) * processed.parallelism.toNat ∧
        ∀ found, ringAndParallelism a.prim t (ringOf a) () = .ok (found, ()) →
          found = (mintParallelism t).map fun parallelism => ((ring : Int), parallelism) := by
  rw [credited_by_mint a ring transition t outputs request many]
  obtain ⟨key, altAddrBytes, isKey, hashed, ⟨pre2, -⟩ | ⟨-, -, late, rings, read, kind⟩⟩ :=
    handle_mint_cases a currentFrameNumber t processed parallelismMap outputs done
  · rw [notPre2] at pre2
    cases pre2
  · have noCoin : createdCoins (processed.deletedProof.toList.map TokenOutput.deletedProof) = [] := by
      cases processed.deletedProof <;> rfl
    obtain ⟨-, same⟩ | ⟨notPenalized, valid, storageBytes, filled, same⟩ | ⟨-, -, punishment, isPunishment, same⟩ := kind
    · rw [same]
      exact Or.inl rfl
    · have coins : createdCoins outputs = [⟨storageBytes, zeroIntersection, implicitOwner altAddrBytes⟩] := by
        rw [same, created_coins_append, noCoin]
        rfl
      rw [coins]
      have first := ring_has_iff a rings read disjoint altAddrBytes ring _ (first_ring_found rings altAddrBytes)
      have last := ring_has_iff a rings read disjoint altAddrBytes ring _ (last_ring_found rings altAddrBytes)
      cases member : ringHas a ring altAddrBytes with
      | false =>
          apply Or.inl
          simp [ownedInRing, implicitOwner, getImplicitAccount, member, totalAmount]
      | true =>
          refine Or.inr ⟨late, valid, notPenalized, ?_, ?_⟩
          · have amount := fill_bytes_ok 32 storageBytes filled
            rw [last.mp member, reward_amount_abs] at amount
            simp [ownedInRing, implicitOwner, getImplicitAccount, member, totalAmount, amount]
          · intro found ran
            obtain ⟨otherKey, isOther, ⟨⟨cause, refused⟩, -⟩ | ⟨address, calculated, isAddress, looked, isFound⟩⟩ :=
              (ring_and_parallelism_ok_iff _ _ _ _ _).mp ran
            · rw [isKey] at isOther
              cases isOther
              rw [hashed] at refused
              cases refused
            · rw [isKey] at isOther
              cases isOther
              rw [hashed] at isAddress
              cases isAddress
              rw [ringOf, read] at looked
              cases looked
              rw [isFound, first.mp member, if_neg (by simp)]
    · apply Or.inl
      rw [same, created_coins_append, created_coins_append, noCoin]
      rcases isPunishment with none | one
      · rw [none]; rfl
      · rw [one]; rfl

theorem mint_slot_credited (a : TokenApplication) (fuel : Nat) (currentFrameNumber : UInt64) (frame : ClockFrame)
    (parallelismMap : Int → UInt64) (slot out : Slot) (ring : Nat) (disjoint : RingsDisjoint a)
    (ready : slot.Ready a fuel currentFrameNumber frame)
    (tallied : slot.rewarded currentFrameNumber → ∃ t found, slot.mint = some t ∧
      ringAndParallelism a.prim t (ringOf a) () = .ok (some found, ()))
    (done : mintSlot a currentFrameNumber parallelismMap slot = .ok out) :
    out.credited a ring ≤ rewardQuotient (a.prim.pomwBasis 1 ring currentFrameNumber) (parallelismMap ring) *
      shareIn ring (slot.share a currentFrameNumber) := by
  rcases mint_slot_cases done with
    ⟨same, -⟩ | ⟨t, processed, isSet, notFailed, isMint, isProcessed, ⟨success, ran, same⟩ | ⟨cause, -, same⟩⟩
  · -- A slot that is passed over holds no mint outputs yet.
    rw [same, Slot.credited, Slot.receipt]
    cases isMint : slot.mint with
    | none =>
        cases slot.success with
        | none => exact Nat.zero_le _
        | some outputs =>
            have none : creditedBy a ring (slot.transition, outputs) = 0 := by
              apply credited_by_unrewarded
              intro t request
              simp [Slot.mint, request] at isMint
            exact none.trans_le (Nat.zero_le _)
    | some t =>
        rw [ready.minting (by rw [isMint]; simp)]
        exact Nat.zero_le _
  · have credit : out.credited a ring = creditedBy a ring (slot.transition, success) := by
      rw [same]; rfl
    rw [credit]
    have request := mint_request isMint
    by_cases many : t.proofs.length ≥ 3
    · obtain ⟨other, isOther, preProcessed⟩ := ready.ready t isMint isSet notFailed
      rw [isProcessed] at isOther
      cases isOther
      obtain ⟨notPre2, parallel⟩ := pre_process_mint_parallelism preProcessed many
      rcases handle_mint_credited disjoint request
        many notPre2 ran with none | ⟨late, valid, -, amount, ringFound⟩
      · rw [none]
        exact Nat.zero_le _
      · have rewarded : slot.rewarded currentFrameNumber :=
          ⟨isSet, notFailed, t, processed, isMint, isProcessed, many, late, valid⟩
        obtain ⟨mint, found, sameMint, looked⟩ := tallied rewarded
        rw [isMint] at sameMint
        cases sameMint
        rw [amount, share_rewarded a currentFrameNumber t rewarded isMint looked, ringFound _ looked]
        cases stated : mintParallelism t with
        | none =>
            have absent := ringFound _ looked
            rw [stated] at absent
            cases absent
        | some parallelism =>
            rw [mint_parallelism_read stated (parallel valid).2, Option.map_some, shareIn, if_pos rfl]
    · rw [credited_by_unrewarded a ring slot.transition success fun other isOther => by
        rw [request] at isOther
        cases isOther
        omega]
      exact Nat.zero_le _
  · rw [same, Slot.credited, Slot.receipt]
    rw [show ({ slot with fails := true } : Slot).success = none from ready.minting (by rw [isMint]; simp)]
    exact Nat.zero_le _

def Slot.prover (a : TokenApplication) (slot : Slot) : Option Bytes :=
  match slot.set, slot.mint with
  | true, some t => if t.proofs.length ≥ 3 then (signerKey t.signature >>= peerAddress a.prim).toOption else none
  | _, _ => none

theorem select_slot_prover {out : Slot} (fresh : slot.set = false) (done : selectSlot a currentFrameNumber seen slot = .ok (out, after)) :
    out.prover a = none ∨ ∃ addr, out.prover a = some addr ∧ addr ∉ seen ∧ after = addr :: seen := by
  rcases select_slot_cases done with
    ⟨same, -⟩ | ⟨-, isMint, same, -⟩ | ⟨t, chosen, -, isMint, same, kind⟩
  · apply Or.inl
    simp [same, Slot.prover, fresh]
  · have noMint : out.mint = none := by rw [same]; exact isMint
    apply Or.inl
    rw [Slot.prover, noMint]
    cases out.set <;> rfl
  · have sameMint : out.mint = some t := by rw [same]; exact isMint
    have isSet : out.set = chosen := by rw [same]
    rcases kind with ⟨single, -⟩ | ⟨many, -, ran⟩
    · apply Or.inl
      rw [Slot.prover, sameMint]
      cases out.set with
      | false => rfl
      | true => exact if_neg (by omega)
    · rcases select_chain_cases ran with ⟨refused, -⟩ | ⟨picked, addr, hashed, unseen, grown, -⟩
      · apply Or.inl
        rw [Slot.prover, isSet, refused]
      · refine Or.inr ⟨addr, ?_, unseen, grown⟩
        rw [Slot.prover, isSet, picked, sameMint]
        simp only [if_pos many, hashed]
        rfl

theorem select_run_provers {selected : List Slot} (fresh : ∀ slot ∈ slots, slot.set = false)
    (done : mapAccumM (selectSlot a currentFrameNumber) seen slots = .ok (selected, after)) :
    (selected.filterMap (Slot.prover a)).Nodup ∧ ∀ addr ∈ selected.filterMap (Slot.prover a), addr ∉ seen := by
  induction slots generalizing seen selected with
  | nil =>
      cases done
      simp
  | cons slot tail ih =>
      obtain ⟨out, between, outs, begun, ran, same⟩ := map_accum_cons.mp done
      rw [List.forall_mem_cons] at fresh
      obtain ⟨distinct, apart⟩ := ih fresh.2 ran
      have grows := select_slot_grows a currentFrameNumber seen between slot out begun
      rw [same, List.filterMap_cons]
      rcases select_slot_prover fresh.1 begun with none | ⟨addr, some, unseen, grown⟩
      · rw [none]
        exact ⟨distinct, fun addr member present => apart addr member (grows present)⟩
      · simp only [some, List.nodup_cons, List.forall_mem_cons]
        refine ⟨⟨fun repeated => ?_, distinct⟩, unseen, fun other member present => apart other member (grows present)⟩
        exact apart addr repeated (by rw [grown]; exact List.mem_cons_self)

theorem prover_of_same (a : TokenApplication) (slot out : Slot) (same : out.transition = slot.transition ∧ out.set = slot.set) :
    out.prover a = slot.prover a := by
  simp only [Slot.prover, Slot.mint, same.1, same.2]

theorem Passes.provers_distinct (run : Passes a fuel currentFrameNumber frame requests skipFailures slots) :
    (run.tallied.filterMap (Slot.prover a)).Nodup := by
  have selected := (select_run_provers
    (fun slot member => (run.validated_fresh slot member).2) run.select).1
  have handled : run.handled.map (Slot.prover a) = run.selected.map (Slot.prover a) :=
    forall₂_map_eq (map_accum_related _ (fun lockMap slot out after step => by
      apply prover_of_same
      rcases handle_slot_cases step with
        ⟨same, -⟩ | ⟨handler, success, -, -, -, same⟩ | ⟨handler, cause, -, -, -, -, same⟩ <;> rw [same] <;> exact ⟨rfl, rfl⟩) run.handle)
  have processed : run.processed.map (Slot.prover a) = run.handled.map (Slot.prover a) :=
    forall₂_map_eq (((map_m_iff _ _ _).mp run.preProcess).imp fun slot out step => by
      apply prover_of_same
      rcases pre_process_slot_cases step with
        ⟨same, -⟩ | ⟨t, processed, -, -, -, same⟩ | ⟨t, -, -, same⟩ <;> rw [same] <;> exact ⟨rfl, rfl⟩)
  have tallied : run.tallied.map (Slot.prover a) = run.processed.map (Slot.prover a) :=
    forall₂_map_eq (map_accum_related _ (fun parallelismMap slot out after step => by
      apply prover_of_same
      rcases tally_slot_cases step with
        ⟨same, -⟩ | ⟨t, ring, parallelism, -, -, -, same, -⟩ | ⟨-, same, -⟩ <;> rw [same] <;> exact ⟨rfl, rfl⟩) run.tally)
  have views : ∀ items : List Slot, items.filterMap (Slot.prover a) = (items.map (Slot.prover a)).filterMap id := by
    intro items
    rw [List.filterMap_map]
    rfl
  rw [views, tallied, processed, handled, ← views]
  exact selected

theorem share_prover (a : TokenApplication) (currentFrameNumber : UInt64) (slot : Slot) (ring : Nat) (disjoint : RingsDisjoint a)
    (tallied : slot.rewarded currentFrameNumber → ∃ t found, slot.mint = some t ∧
      ringAndParallelism a.prim t (ringOf a) () = .ok (some found, ()))
    (adds : shareIn ring (slot.share a currentFrameNumber) ≠ 0) :
    ((slot.prover a).filter (ringHas a ring)).isSome = true := by
  have rewarded : slot.rewarded currentFrameNumber := by
    by_contra unrewarded
    rw [share_unrewarded a unrewarded] at adds
    exact adds rfl
  obtain ⟨t, ⟨other, parallelism⟩, isMint, looked⟩ := tallied rewarded
  rw [share_rewarded a currentFrameNumber t rewarded isMint looked, shareIn] at adds
  have here : other = ring := by
    by_contra elsewhere
    rw [if_neg elsewhere] at adds
    exact adds rfl
  obtain ⟨isSet, -, mint, -, sameMint, -, many, -⟩ := rewarded
  rw [isMint] at sameMint
  cases sameMint
  obtain ⟨key, isKey, ⟨-, impossible, -⟩ | ⟨address, found, hashed, ran, isFound⟩⟩ := (ring_and_parallelism_ok_iff _ _ _ _ _).mp looked
  · cases impossible
  · obtain ⟨rings, read, result⟩ := (bind_ok_iff _ _ _).mp ran
    cases result
    have inRing : firstRing rings address = ring := by
      split at isFound
      · cases isFound
      · cases stated : mintParallelism t with
        | none =>
            rw [stated] at isFound
            cases isFound
        | some own =>
            rw [stated] at isFound
            cases isFound
            exact here
    have member := (ring_has_iff a rings read disjoint address ring _ (first_ring_found rings address)).mpr inRing
    have prover : slot.prover a = some address := by
      simp only [Slot.prover, isSet, isMint, if_pos many, isKey, ok_bind, hashed]
      rfl
    simp [prover, member]

theorem sum_le_of_distinct (items : List Slot) (weight : Slot → Nat) {mark : Slot → Option Bytes} (bound : Nat)
    (each : ∀ item ∈ items, weight item ≤ bound) (marked : ∀ item ∈ items, weight item ≠ 0 → (mark item).isSome = true) :
    (items.map weight).sum ≤ (items.filterMap mark).length * bound := by
  induction items with
  | nil => simp
  | cons item tail ih =>
      rw [List.forall_mem_cons] at each marked
      have rest := ih each.2 marked.2
      rw [List.map_cons, List.sum_cons, List.filterMap_cons]
      cases isMarked : mark item with
      | none =>
          have nothing : weight item = 0 := by
            by_contra adds
            have some := marked.1 adds
            rw [isMarked] at some
            cases some
          simpa [nothing] using rest
      | some value =>
          rw [List.length_cons, Nat.succ_mul]
          have own := each.1
          omega

theorem sum_le_scaled {items results : List Slot} {factor : Nat} {share amount : Slot → Nat}
    (each : List.Forall₂ (fun item result => amount result ≤ factor * share item) items results) :
    (results.map amount).sum ≤ factor * (items.map share).sum := by
  induction each with
  | nil => simp
  | cons first rest ih =>
      rw [List.map_cons, List.sum_cons, List.map_cons, List.sum_cons, Nat.mul_add]
      exact Nat.add_le_add first ih

theorem reward_quotient_le (total : Nat) (fits : total < 2 ^ 63) : rewardQuotient basis (UInt64.ofNat total) * total ≤ basis := by
  rcases Nat.eq_zero_or_pos total with none | positive
  · rw [none, Nat.mul_zero]
    exact Nat.zero_le _
  · have nonzero : UInt64.ofNat total ≠ 0 := by
      intro zero
      have value : (UInt64.ofNat total).toNat = total := UInt64.toNat_ofNat_of_lt' (fits.trans (by decide))
      rw [zero, UInt64.toNat_zero] at value
      omega
    have signed : (UInt64.ofNat total).toInt64.toInt = total := by
      rw [UInt64.toInt64_ofNat', Int64.toInt_ofNat_of_lt fits]
    rw [rewardQuotient, if_neg nonzero, signed, Int.tdiv_eq_ediv_of_nonneg (by omega)]
    have quotient : ((basis : Int) / (total : Int)).natAbs = basis / total := by
      rw [← Int.natCast_ediv, Int.natAbs_natCast]
    rw [quotient]
    exact Nat.div_mul_le_self basis total

theorem sum_receipts : ((slots.filterMap Slot.receipt).map (creditedBy a ring)).sum = (slots.map (Slot.credited a ring)).sum := by
  induction slots with
  | nil => rfl
  | cons slot tail ih =>
      rw [List.filterMap_cons, List.map_cons, List.sum_cons, ← ih, Slot.credited]
      cases slot.receipt with
      | none => simp
      | some receipt => simp

theorem Passes.credited_le (run : Passes a fuel currentFrameNumber frame requests skipFailures slots) (disjoint : RingsDisjoint a)
    (bounded : RingsBounded a (2 ^ 31)) : (slots.map (Slot.credited a ring)).sum ≤ a.prim.pomwBasis 1 ring currentFrameNumber := by
  let share := fun slot => shareIn (ring : Int) (Slot.share a currentFrameNumber slot)
  let total := (run.tallied.map share).sum
  have tallied : ∀ slot ∈ run.tallied, slot.rewarded currentFrameNumber → ∃ t found, slot.mint = some t ∧
      ringAndParallelism a.prim t (ringOf a) () = .ok (some found, ()) :=
    forall₂_transfer (fun _ _ step (_ : True) => step)
      (map_accum_related _ (fun map slot out after step => (tally_slot_share a currentFrameNumber map after slot out step ring).2) run.tally) (fun _ _ => trivial)
  -- Every prover of the ring adds at most one uint32.
  have fits : total < 2 ^ 63 := by
    have count : (run.tallied.filterMap fun slot => (slot.prover a).filter (ringHas a ring)).length ≤ 2 ^ 31 := by
      have filtered : (run.tallied.filterMap fun slot => (slot.prover a).filter (ringHas a ring)) =
          (run.tallied.filterMap (Slot.prover a)).filter (ringHas a ring) := by rw [List.filter_filterMap]
      rw [filtered]
      exact bounded ring _ (run.provers_distinct.filter _) fun address member => (List.mem_filter.mp member).2
    have sum := sum_le_of_distinct run.tallied share (2 ^ 32 - 1) (fun slot _ => share_le ring)
      fun slot member adds => share_prover a currentFrameNumber slot ring disjoint (tallied slot member) adds
    calc total ≤ _ := sum
      _ ≤ 2 ^ 31 * (2 ^ 32 - 1) := Nat.mul_le_mul_right _ count
      _ < 2 ^ 63 := by norm_num
  have map : run.parallelismMap ring = UInt64.ofNat total := by
    rw [tally_run_share a currentFrameNumber run.tally ring, UInt64.zero_add]
  have each : List.Forall₂ (fun slot out => out.credited a ring ≤
      rewardQuotient (a.prim.pomwBasis 1 ring currentFrameNumber) (UInt64.ofNat total) * share slot) run.tallied slots :=
    (forall₂_attach ((map_m_iff _ _ _).mp run.mint) fun slot member => And.intro (run.tallied_all slot member) (tallied slot member)).imp
      fun slot out ⟨step, ready, counted⟩ =>
        map ▸ mint_slot_credited a fuel currentFrameNumber frame run.parallelismMap slot out ring disjoint ready counted step
  calc (slots.map (Slot.credited a ring)).sum
      ≤ rewardQuotient (a.prim.pomwBasis 1 ring currentFrameNumber) (UInt64.ofNat total) * total := sum_le_scaled each
    _ ≤ a.prim.pomwBasis 1 ring currentFrameNumber := reward_quotient_le total fits

-- Provers with one ring place, a stored proof of frame 4 and a mint of frame 5 of the widest parallelism. A sample
-- digest reads the last 32 bytes of its input.
@[irreducible] def minerKey (miner : Nat) : Bytes := beBytes 57 miner

@[irreducible] def minerAddress (miner : Nat) : Bytes :=
  beBytes 32 (setBytes (0x12 :: 0x20 :: (sampleDigest (minerKey miner)).bytes) % poseidonOrder)

def minerParallelism : UInt32 := 0xffffffff

@[irreducible] def minerLeaf : Bytes := beBytes 516 (setBytes (sampleDigest (List.replicate 516 5)).bytes)

@[irreducible] def minerRoot : Bytes := sampleMerkleRoot minerLeaf (List.replicate 32 (List.replicate 32 0)) 0

@[irreducible] def minerProofs : List Bytes :=
  [List.replicate 32 8, appendUint32 [] minerParallelism, appendUint64 [] 5] ++ List.replicate 32 (List.replicate 32 0) ++
    appendUint32 [] 0 :: List.replicate 32 minerLeaf

def minerMint (miner : Nat) : MintCoinRequest :=
  ⟨minerProofs, none, some ⟨sampleSign (minerKey miner) (ascii ['m', 'i', 'n', 't'] ++ minerProofs.flatten), some ⟨minerKey miner⟩⟩⟩

def minerRequest (miner : Nat) : TokenRequest := ⟨some (.mint (minerMint miner)), 1⟩

def minerCommitment : Bytes := appendUint64 minerRoot 4

def minerPayload : Bytes := appendUint32 (ascii ['m', 'i', 'n', 't'] ++ List.replicate 32 8) minerParallelism

def minerPrior (owner : Bytes) : PreCoinProof := ⟨[], 0, [], minerCommitment, minerPayload, 0, 10000, implicitOwner owner⟩

def minerRing (miners : List Nat) : RollingFrecencyCritbitTrie :=
  miners.foldl (fun ring miner => ring.add (minerAddress miner) 4) RollingFrecencyCritbitTrie.zero

def minerPrimitives : Primitives := { samplePrimitives with pomwBasis := fun _ _ _ => 2 ^ 63 }

def minerApplication (miners : List Nat) : TokenApplication where
  prim := minerPrimitives
  beacon := sampleKey
  tries := [RollingFrecencyCritbitTrie.zero, minerRing miners]
  coinStore := { getCoinByAddress := fun _ => .error errNotFound, getPreCoinProofsForOwner := fun owner => .ok [minerPrior owner] }
  clockStore := { getDataClockFrame := fun _ frameNumber _ => .ok (sampleFrame frameNumber) }
  difficulty := 10000

def minerKnown (owner : Bytes) : PriorMint := ⟨some (minerPrior owner), minerRoot, some (sampleFrame 4), minerParallelism, []⟩

def minerUnpacked : Unpacked := ⟨List.replicate 32 8, minerParallelism, 5, true⟩

def minerProcessed (miner : Nat) : ProcessedMint :=
  ⟨false, false, some (minerPrior (minerAddress miner)), minerParallelism, minerRoot, List.replicate 32 8, 5, minerAddress miner,
    true, true, true⟩

theorem sample_digest_tail (front back : Bytes) (wide : back.length ≥ 32) : sampleDigest (front ++ back) = sampleDigest back := by
  have reduced : ∀ whole, setBytes (whole ++ back) * 2654435761 % 256 ^ 32 = setBytes back * 2654435761 % 256 ^ 32 := by
    intro whole
    obtain ⟨extra, isExtra⟩ := Nat.exists_eq_add_of_le wide
    rw [set_bytes_append, isExtra, pow_add, Nat.add_mul, Nat.mul_assoc, Nat.mul_assoc, Nat.mul_left_comm, Nat.mul_add_mod]
  have same : beBytes 32 (setBytes (1 :: (front ++ back)) * 2654435761) = beBytes 32 (setBytes (1 :: back) * 2654435761) := by
    rw [be_bytes_mod, be_bytes_mod 32 (setBytes (1 :: back) * _)]
    exact congrArg (beBytes 32) ((reduced (1 :: front)).trans (reduced [1]).symm)
  simp only [sampleDigest, same]

theorem miner_digest (small : miner < 2 ^ 32) : setBytes (sampleDigest (minerKey miner)).bytes = miner * 2654435761 := by
  have whole : setBytes (1 :: minerKey miner) = 256 ^ 57 + miner := by
    rw [set_bytes_cons, minerKey, be_bytes_length, set_bytes_be_bytes 57 miner (small.trans (by norm_num)),
      show (1 : UInt8).toNat = 1 from rfl, Nat.one_mul]
  have split : (256 ^ 57 + miner) * 2654435761 = 256 ^ 32 * (256 ^ 25 * 2654435761) + miner * 2654435761 := by ring
  have fits : miner * 2654435761 < 256 ^ 32 := by
    calc miner * 2654435761 < 2 ^ 32 * 2654435761 := Nat.mul_lt_mul_of_pos_right small (by norm_num)
      _ < 256 ^ 32 := by norm_num
  have value : setBytes (1 :: minerKey miner) * 2654435761 % 256 ^ 32 = miner * 2654435761 := by
    rw [whole, split, Nat.mul_add_mod, Nat.mod_eq_of_lt fits]
  have bytes : (sampleDigest (minerKey miner)).bytes = beBytes 32 (miner * 2654435761) :=
    (be_bytes_mod 32 _).trans (congrArg (beBytes 32) value)
  rw [bytes, set_bytes_be_bytes 32 _ fits]

theorem miner_address_injective {other : Nat} (small : miner < 2 ^ 32) (otherSmall : other < 2 ^ 32)
    (same : minerAddress miner = minerAddress other) : miner = other := by
  have below : ∀ value, value % poseidonOrder < 256 ^ 32 := fun value =>
    (Nat.mod_lt value (by decide)).trans (by decide)
  have values := congrArg setBytes same
  rw [minerAddress, minerAddress, set_bytes_be_bytes 32 _ (below _), set_bytes_be_bytes 32 _ (below _)] at values
  rw [set_bytes_cons, set_bytes_cons, set_bytes_cons, set_bytes_cons, miner_digest small, miner_digest otherSmall,
    List.length_cons, List.length_cons, (sampleDigest _).size, (sampleDigest _).size] at values
  have reduced : miner * 2654435761 ≡ other * 2654435761 [MOD poseidonOrder] :=
    Nat.ModEq.add_left_cancel' _ (Nat.ModEq.add_left_cancel' _ values)
  have inOrder : ∀ number, number < 2 ^ 32 → number * 2654435761 < poseidonOrder := by
    intro number bound
    calc number * 2654435761 < 2 ^ 32 * 2654435761 := Nat.mul_lt_mul_of_pos_right bound (by norm_num)
      _ < poseidonOrder := by decide
  have equal := Nat.ModEq.eq_of_lt_of_lt reduced (inOrder miner small) (inOrder other otherSmall)
  exact Nat.eq_of_mul_eq_mul_right (by norm_num) equal

theorem miner_peer_address (miner : Nat) :
    peerIDOfKey minerPrimitives (minerKey miner) = .ok (0x12 :: 0x20 :: (sampleDigest (minerKey miner)).bytes) ∧
      hashAddress minerPrimitives (0x12 :: 0x20 :: (sampleDigest (minerKey miner)).bytes) = .ok (minerAddress miner) := by
  have width : (minerKey miner).length = 57 := by rw [minerKey, be_bytes_length]
  constructor
  · rw [peerIDOfKey, unmarshalEd448PublicKey, if_neg (not_not.mpr width)]
    rfl
  · rw [minerAddress]
    rfl

theorem miner_validate (miner : Nat) : MintCoinRequest.validate minerPrimitives (some (minerMint miner)) = .ok () := by
  refine mint_validate_ok_iff.mpr ⟨?_, minerKey miner, _, rfl, be_bytes_length 114 _, ?_, ?_⟩
  · rw [minerMint, minerProofs]
    simp
  · rw [minerKey, be_bytes_length]
  · exact beq_self_eq_true (sampleSign (minerKey miner) (minerMint miner).signatureMessage)

theorem miner_proofs_length : minerProofs.length = 68 := by
  rw [minerProofs]
  decide

theorem miner_proofs_frame : (index minerProofs 2 >>= beUint64) = .ok 5 := by
  rw [minerProofs]
  rfl

theorem miner_proofs_parallelism : mintParallelism (minerMint miner) = some minerParallelism := by
  rw [minerMint, minerProofs]
  rfl

theorem miner_evaluated :
    ((minerPayload.length ≥ 3 ∧ (minerCommitment.length = 40 ∨ minerCommitment.length = 72)) ∧
        slice minerCommitment 0 32 = .ok minerRoot ∧ (slice minerCommitment 32 40 >>= beUint64) = .ok 4 ∧
        (slice minerPayload 36 40 >>= beUint32) = .ok minerParallelism ∧ thirdPart minerCommitment [] = .ok []) ∧
      returnsWith (unpackAndVerifyMultiOutput minerPrimitives minerRoot minerProofs) (fun unpacked =>
        unpacked.treeRoot == List.replicate 32 8 && unpacked.modulo == minerParallelism && unpacked.frameNumber == 5 &&
          unpacked.verified) = true ∧
      returnsWith (challengePicks minerPrimitives 64 minerProofs minerParallelism (List.replicate 516 5) minerRoot)
        (fun taken => taken.2 == List.replicate 32 minerLeaf) = true ∧
      minerLeaf ≠ List.replicate 516 0 := by
  decide +kernel

theorem miner_prior (miners : List Nat) (filter : Bytes) :
    readPriorMint (minerApplication miners) filter [minerPrior owner] noPriorMint =
      .ok (some (minerKnown owner)) := by
  obtain ⟨⟨chain, commitment, frame, parallelism, short⟩, -⟩ := miner_evaluated
  have isChain : isChainProof (minerPrior owner) := chain
  rw [readPriorMint, if_pos isChain]
  simp only [minerPrior, noPriorMint, commitment, frame, parallelism, short, ok_bind]
  rfl

theorem miner_unpacked : unpackAndVerifyMultiOutput minerPrimitives minerRoot minerProofs = .ok minerUnpacked := by
  obtain ⟨-, checked, -⟩ := miner_evaluated
  obtain ⟨⟨treeRoot, modulo, frameNumber, verified⟩, ran, check⟩ := (returns_with_iff _ _).mp checked
  simp only [Bool.and_eq_true, beq_iff_eq] at check
  obtain ⟨⟨⟨isRoot, isModulo⟩, isFrame⟩, isVerified⟩ := check
  rw [ran, isRoot, isModulo, isFrame, isVerified, minerUnpacked]

theorem miner_picks : ∃ picks,
    challengePicks minerPrimitives 64 minerProofs minerParallelism (List.replicate 516 5) minerRoot =
      .ok (picks, List.replicate 32 minerLeaf) := by
  obtain ⟨-, -, checked, -⟩ := miner_evaluated
  obtain ⟨⟨picks, leaves⟩, ran, check⟩ := (returns_with_iff _ _).mp checked
  rw [beq_iff_eq] at check
  exact ⟨picks, by rw [ran]; exact congrArg (fun taken => Except.ok (picks, taken)) check⟩

theorem verify_leaves_all (verify : UInt64 → Bytes → Bool) (entries : List (UInt64 × Bytes))
    (each : ∀ entry ∈ entries, entry.2.length = 516 ∧ entry.2 ≠ List.replicate 516 0 ∧ verify entry.1 entry.2 = true) :
    verifyLeaves verify entries true = some true := by
  induction entries with
  | nil => rfl
  | cons entry tail ih =>
      rw [List.forall_mem_cons] at each
      obtain ⟨⟨width, nonzero, verified⟩, rest⟩ := each
      rw [verifyLeaves, if_neg (not_not.mpr width), verified, bne_iff_ne.mpr nonzero]
      exact ih rest

theorem miner_challenge (proofs : t.proofs = minerProofs) :
    checkMultiChallenge (minerApplication miners) 64 peerId t frame (sampleFrame 5) (minerKnown owner) minerParallelism =
      .ok (some true) := by
  obtain ⟨picks, taken⟩ := miner_picks
  rw [checkMultiChallenge, proofs]
  simp only [minerKnown, sampleFrame, deref_some, ok_bind]
  rw [show (minerApplication miners).prim = minerPrimitives from rfl, taken]
  refine congrArg Except.ok (verify_leaves_all _ _ fun entry member => ?_)
  have leaf : entry.2 = minerLeaf := List.eq_of_mem_replicate (List.of_mem_zip member).2
  have width : minerLeaf.length = 516 := by rw [minerLeaf, be_bytes_length]
  obtain ⟨-, -, -, nonzero⟩ := miner_evaluated
  rw [leaf]
  refine ⟨width, nonzero, ?_⟩
  rw [verifyChallengeProof, if_neg (not_not.mpr width), leafChallenge, List.append_nil]
  have digest := sample_digest_tail (appendUint32 (appendUint64 peerId 4) entry.1.toUInt32) (List.replicate 516 5)
    (by rw [List.length_replicate]; omega)
  rw [show minerPrimitives.sha3Sum256 = sampleDigest from rfl, digest, minerLeaf]
  exact beq_self_eq_true (beBytes 516 _)

theorem miner_challenged (miner : Nat) :
    isChallenged (minerMint miner) (minerKnown (minerAddress miner)) minerUnpacked = true ∧
      chainVerified (minerKnown (minerAddress miner)) minerUnpacked = true := by
  have chain : chainVerified (minerKnown (minerAddress miner)) minerUnpacked = true := rfl
  refine ⟨?_, chain⟩
  rw [isChallenged, chain, show (minerMint miner).proofs = minerProofs from rfl, miner_proofs_length]
  rfl

theorem miner_chain (miners : List Nat) (miner : Nat) (frame : ClockFrame) :
    preProcessChain (minerApplication miners) 6 (minerMint miner) frame (minerAddress miner)
      (unpackAndVerifyMultiOutput minerPrimitives) (checkMultiChallenge (minerApplication miners) 64 peerId (minerMint miner) frame)
      PriorMint.commitment = .ok (minerProcessed miner) := by
  obtain ⟨challenged, verified⟩ := miner_challenged miner
  have onTime : ¬ (notAfterPrevious (minerKnown (minerAddress miner)) minerUnpacked = true ∨ minerUnpacked.frameNumber < 6 - 1) := by
    change ¬ (decide ((5 : UInt64) ≤ 4) = true ∨ (5 : UInt64) < 6 - 1)
    decide
  have checked : checkChallenge (minerApplication miners) (minerMint miner) frame (minerKnown (minerAddress miner)) minerUnpacked
      (checkMultiChallenge (minerApplication miners) 64 peerId (minerMint miner) frame) = .ok (some true) := by
    rw [checkChallenge, if_pos challenged]
    exact miner_challenge rfl
  have linked := pre_process_chain_linked (minerApplication miners) 6 (minerMint miner) frame (minerAddress miner)
    PriorMint.commitment true rfl (miner_prior miners frame.filter) miner_unpacked onTime checked
  rw [challenged, verified] at linked
  exact linked

theorem miner_pre_process (miners : List Nat) (miner : Nat) (frame : ClockFrame) :
    preProcessMint (minerApplication miners) 64 6 (minerMint miner) frame = .ok (minerProcessed miner) := by
  obtain ⟨id, address⟩ := miner_peer_address miner
  have many : minerProofs.length > 1 := by rw [miner_proofs_length]; norm_num
  rw [pre_process_mint_chain (minerApplication miners) 64 6 (minerMint miner) frame (minerKey miner)
    (miner_validate miner) rfl id rfl address many (by decide)]
  exact miner_chain miners miner frame

theorem miner_ring_members (miners : List Nat) :
    (minerRing miners).Formed ∧ ∀ address, address ∈ (minerRing miners).members ↔ ∃ miner ∈ miners, address = minerAddress miner := by
  have grown : ∀ (ring : RollingFrecencyCritbitTrie), ring.Formed →
      (miners.foldl (fun ring miner => ring.add (minerAddress miner) 4) ring).Formed ∧
      ∀ address, address ∈ (miners.foldl (fun ring miner => ring.add (minerAddress miner) 4) ring).members ↔
        (∃ miner ∈ miners, address = minerAddress miner) ∨ address ∈ ring.members := by
    induction miners with
    | nil => exact fun ring formed => ⟨formed, by simp⟩
    | cons miner rest ih =>
        intro ring formed
        have width : (minerAddress miner).length = 32 := by rw [minerAddress, be_bytes_length]
        obtain ⟨formedAll, members⟩ := ih (ring.add (minerAddress miner) 4) (ring.add_formed formed width)
        refine ⟨formedAll, fun address => ?_⟩
        rw [List.foldl_cons, members, ring.mem_add, List.exists_mem_cons_iff]
        constructor
        · rintro (later | here | old)
          · exact Or.inl (Or.inr later)
          · exact Or.inl (Or.inl here)
          · exact Or.inr old
        · rintro ((here | later) | old)
          · exact Or.inr (Or.inl here)
          · exact Or.inl later
          · exact Or.inr (Or.inr old)
  obtain ⟨formed, members⟩ := grown RollingFrecencyCritbitTrie.zero RollingFrecencyCritbitTrie.zero_formed
  refine ⟨formed, fun address => (members address).trans (or_iff_left ?_)⟩
  exact List.not_mem_nil

theorem miner_ring_has (miners : List Nat) (ring : Nat) (address : Bytes) :
    ringHas (minerApplication miners) ring address = true ↔ ring = 0 ∧ ∃ miner ∈ miners, address = minerAddress miner := by
  obtain ⟨formed, members⟩ := miner_ring_members miners
  have tries : (minerApplication miners).tries.drop 1 = [minerRing miners] := rfl
  rw [ringHas, tries]
  cases ring with
  | zero => simp [(minerRing miners).contains_iff formed, members]
  | succ ring => simp

theorem miner_rings_disjoint : RingsDisjoint (minerApplication miners) := by
  intro ring other address inRing inOther
  rw [((miner_ring_has miners ring address).mp inRing).1, ((miner_ring_has miners other address).mp inOther).1]

theorem miner_rings (miners : List Nat) (miner : Nat) (member : miner ∈ miners) :
    firstRing [minerRing miners] (minerAddress miner) = 0 ∧ lastRing [minerRing miners] (minerAddress miner) = 0 := by
  have has := (miner_ring_has miners 0 (minerAddress miner)).mpr ⟨rfl, miner, member, rfl⟩
  have read : sliceFrom (minerApplication miners).tries 1 = .ok [minerRing miners] := rfl
  exact ⟨(ring_has_iff _ _ read miner_rings_disjoint _ 0 _ (first_ring_found _ _)).mp has,
    (ring_has_iff _ _ read miner_rings_disjoint _ 0 _ (last_ring_found _ _)).mp has⟩

def minerChosen (miner : Nat) : Slot := ⟨minerRequest miner, false, true, none, none⟩

def minerChecked (miner : Nat) : Slot := { minerChosen miner with processed := some (minerProcessed miner) }

theorem miner_select (miners : List Nat) (seen : List Bytes) (miner : Nat) (member : miner ∈ miners)
    (unseen : minerAddress miner ∉ seen) :
    selectSlot (minerApplication miners) 6 seen (newSlot (minerRequest miner)) =
      .ok (minerChosen miner, minerAddress miner :: seen) := by
  obtain ⟨id, address⟩ := miner_peer_address miner
  have last := (miner_rings miners miner member).2
  have read : sliceFrom (minerApplication miners).tries 1 = .ok [minerRing miners] := rfl
  have looked := unseen_ring_fewer read unseen (by rw [last]; simp)
  rw [last] at looked
  have found := (ring_and_parallelism_ok_iff minerPrimitives (minerMint miner) (unseenRing (minerApplication miners)) seen
    (minerAddress miner :: seen)).mpr ⟨minerKey miner, rfl, Or.inr ⟨minerAddress miner, 0,
      (bind_ok_iff _ _ _).mpr ⟨_, id, address⟩, looked, rfl⟩⟩
  have chosen : selectChain (minerApplication miners) 6 seen (minerMint miner) = .ok (true, minerAddress miner :: seen) := by
    rw [selectChain, show (minerMint miner).proofs = minerProofs from rfl, miner_proofs_frame, ok_bind, if_neg (by decide),
      show (minerApplication miners).prim = minerPrimitives from rfl, found, miner_proofs_parallelism]
    rfl
  rw [selectSlot, if_neg (by simp [newSlot])]
  simp only [show (newSlot (minerRequest miner)).mint = some (minerMint miner) from rfl,
    show (minerMint miner).proofs = minerProofs from rfl, miner_proofs_length, chosen]
  rfl

theorem miner_counted (miners : List Nat) (miner : Nat) (member : miner ∈ miners) :
    ringAndParallelism minerPrimitives (minerMint miner) (ringOf (minerApplication miners)) () =
      .ok (some (0, minerParallelism), ()) := by
  obtain ⟨id, address⟩ := miner_peer_address miner
  have looked : ringOf (minerApplication miners) () (minerAddress miner) = .ok (0, ()) := by
    rw [ringOf, show sliceFrom (minerApplication miners).tries 1 = .ok [minerRing miners] from rfl, ok_bind,
      (miner_rings miners miner member).1]
    rfl
  have found := (ring_and_parallelism_ok_iff minerPrimitives (minerMint miner) (ringOf (minerApplication miners)) () ()).mpr
    ⟨minerKey miner, rfl, Or.inr ⟨minerAddress miner, 0, (bind_ok_iff _ _ _).mpr ⟨_, id, address⟩, looked, rfl⟩⟩
  rw [miner_proofs_parallelism] at found
  exact found

theorem miner_many (miner : Nat) : (minerMint miner).proofs.length ≥ 3 := by
  rw [show (minerMint miner).proofs = minerProofs from rfl, miner_proofs_length]
  norm_num

theorem miner_rewarded (miner : Nat) : (minerChecked miner).rewarded 6 :=
  ⟨rfl, rfl, minerMint miner, minerProcessed miner, rfl, rfl, miner_many miner, by decide, rfl⟩

def minerOutputs (miners : List Nat) (amount : Bytes) (miner : Nat) : List TokenOutput :=
  [.deletedProof (minerPrior (minerAddress miner)),
   .proof (mintProof (minerApplication miners) (minerMint miner) (minerProcessed miner) (minerAddress miner) amount),
   .coin ⟨amount, zeroIntersection, implicitOwner (minerAddress miner)⟩]

theorem miner_handled (miners : List Nat) (parallelismMap : Int → UInt64) (amount : Bytes) (miner : Nat) (member : miner ∈ miners)
    (filled : fillBytes 32 (rewardAmount (2 ^ 63) (parallelismMap 0) minerParallelism) = .ok amount) :
    handleMint (minerApplication miners) 6 (minerMint miner) (minerProcessed miner) parallelismMap =
      .ok (minerOutputs miners amount miner) := by
  obtain ⟨id, address⟩ := miner_peer_address miner
  have last := (miner_rings miners miner member).2
  have filledHere : fillBytes 32 (rewardAmount (minerPrimitives.pomwBasis 1 (lastRing [minerRing miners] (minerAddress miner)) 6)
      (parallelismMap (lastRing [minerRing miners] (minerAddress miner))) minerParallelism) = .ok amount := by
    rw [last]
    exact filled
  have many := miner_many miner
  exact handle_mint_rewarded (minerApplication miners) 6 (minerMint miner) (minerProcessed miner) parallelismMap (minerKey miner)
    (minerAddress miner) amount [minerRing miners] rfl ((bind_ok_iff _ _ _).mpr ⟨_, id, address⟩) (by omega) (by decide) rfl
    ⟨rfl, rfl, rfl⟩ filledHere

theorem miner_run (miners : List Nat) (distinct : (miners.map minerAddress).Nodup) (frame : ClockFrame) (amount : Bytes)
    (filled : fillBytes 32 (rewardAmount (2 ^ 63) (UInt64.ofNat (miners.length * minerParallelism.toNat)) minerParallelism) = .ok amount) :
    runPasses (minerApplication miners) 64 6 frame (miners.map minerRequest) false =
      .ok (miners.map fun miner => { minerChecked miner with success := some (minerOutputs miners amount miner) }) := by
  have validate : ((miners.map minerRequest).map newSlot).mapM (validateMintSlot (minerApplication miners)) =
      .ok (miners.map fun miner => newSlot (minerRequest miner)) := by
    rw [List.map_map]
    apply map_m_map
    intro miner _
    exact validate_mint_slot_valid (minerApplication miners) (newSlot (minerRequest miner)) (minerMint miner) rfl (miner_validate miner)
  obtain ⟨seen, select⟩ := map_accum_map (selectSlot (minerApplication miners) 6) (fun miner => newSlot (minerRequest miner)) minerChosen
    (fun seen rest => (rest.map minerAddress).Nodup ∧ (∀ miner ∈ rest, minerAddress miner ∉ seen) ∧ ∀ miner ∈ rest, miner ∈ miners)
    (by
      rintro seen miner rest ⟨apart, unseen, members⟩
      rw [List.forall_mem_cons] at unseen members
      rw [List.map_cons, List.nodup_cons] at apart
      refine ⟨_, miner_select miners seen miner members.1 unseen.1, apart.2, fun other later => ?_, members.2⟩
      rw [List.mem_cons, not_or]
      exact ⟨fun same => apart.1 (same ▸ List.mem_map_of_mem later), unseen.2 other later⟩)
    [] miners ⟨distinct, fun _ _ => List.not_mem_nil, fun _ member => member⟩
  obtain ⟨lockMap, handle⟩ := map_accum_map (handleSlot (minerApplication miners) 6 false) minerChosen minerChosen (fun _ _ => True)
    (fun lockMap miner _ _ => ⟨lockMap, handle_slot_mint _ 6 false lockMap (minerChosen miner) (minerMint miner) rfl, trivial⟩) [] miners trivial
  have preProcess : (miners.map minerChosen).mapM (preProcessSlot (minerApplication miners) 64 6 frame) = .ok (miners.map minerChecked) :=
    map_m_map _ _ _ miners fun miner _ =>
      pre_process_slot_ran frame (minerChosen miner) (minerMint miner) rfl rfl (miner_pre_process miners miner frame)
  obtain ⟨parallelismMap, tally⟩ := map_accum_map (tallySlot (minerApplication miners) 6) minerChecked minerChecked
    (fun _ rest => ∀ miner ∈ rest, miner ∈ miners)
    (fun parallelismMap miner rest members => ⟨_, tally_slot_counted 6 parallelismMap (minerChecked miner) (minerMint miner) 0
      minerParallelism (miner_rewarded miner) rfl (miner_counted miners miner (members miner List.mem_cons_self)),
      fun other later => members other (List.mem_cons_of_mem _ later)⟩)
    (fun _ => 0) miners fun _ member => member
  have total : parallelismMap 0 = UInt64.ofNat (miners.length * minerParallelism.toNat) := by
    have shares : ∀ slot ∈ miners.map minerChecked, shareIn 0 (slot.share (minerApplication miners) 6) = minerParallelism.toNat := by
      intro slot member
      obtain ⟨miner, inMiners, same⟩ := List.mem_map.mp member
      rw [← same, share_rewarded (minerApplication miners) 6 (minerMint miner) (miner_rewarded miner) rfl
        (miner_counted miners miner inMiners), shareIn, if_pos rfl]
    rw [tally_run_share (minerApplication miners) 6 tally 0, List.map_congr_left shares, List.map_const', List.sum_replicate_nat,
      List.length_map, UInt64.zero_add]
  have mint : (miners.map minerChecked).mapM (mintSlot (minerApplication miners) 6 parallelismMap) =
      .ok (miners.map fun miner => { minerChecked miner with success := some (minerOutputs miners amount miner) }) :=
    map_m_map _ _ _ miners fun miner member => mint_slot_ran 6 parallelismMap (minerChecked miner) (minerMint miner)
      (minerProcessed miner) rfl rfl rfl rfl (miner_handled miners parallelismMap amount miner member (total ▸ filled))
  exact run_passes_ok_iff.mpr ⟨⟨_, _, seen, _, lockMap, _, _, parallelismMap, validate, select, handle, preProcess,
    tally, mint⟩⟩

theorem miner_credited (distinct : (miners.map minerAddress).Nodup) {amount : Bytes}
    (filled : fillBytes 32 (rewardAmount (2 ^ 63) (UInt64.ofNat (miners.length * minerParallelism.toNat)) minerParallelism) = .ok amount) :
    ∃ applied, applyTransitions (minerApplication miners) 64 6 (miners.map minerRequest) false = .ok applied ∧
      applied.finalized = miners.map minerRequest ∧
      credited (minerApplication miners) 0 applied = miners.length * setBytes amount := by
  obtain ⟨filter, isFilter⟩ := bloom_filter_total minerPrimitives TOKEN_ADDRESS 8 3 (by decide)
  rw [show 2 ^ 8 = 256 from rfl] at isFilter
  have ran := miner_run miners distinct (sampleFrame 5) amount filled
  let slots := miners.map fun miner => ({ minerChecked miner with success := some (minerOutputs miners amount miner) } : Slot)
  have clean : (slots.filter Slot.fails).map Slot.transition = [] := by
    rw [List.map_eq_nil_iff, List.filter_eq_nil_iff]
    intro slot member
    obtain ⟨miner, -, same⟩ := List.mem_map.mp member
    rw [← same]
    exact Bool.false_ne_true
  refine ⟨⟨slots.filterMap Slot.receipt, []⟩, ?_, ?_, ?_⟩
  · rw [applyTransitions, show (minerApplication miners).prim = minerPrimitives from rfl, isFilter, ok_bind]
    rw [show (minerApplication miners).clockStore.getDataClockFrame filter (6 - 1) false = .ok (sampleFrame 5) from rfl]
    simp only [returned, replaceErr, mapErr, ok_bind, orderRequests, Bool.false_eq_true, if_false, ran]
    rw [clean]
    rfl
  · rw [Applied.finalized, List.map_filterMap, List.filterMap_map, ← List.filterMap_eq_map]
    rfl
  · have each : ∀ slot ∈ slots, slot.credited (minerApplication miners) 0 = setBytes amount := by
      intro slot member
      obtain ⟨miner, inMiners, same⟩ := List.mem_map.mp member
      have inRing := (miner_ring_has miners 0 (minerAddress miner)).mpr ⟨rfl, miner, inMiners, rfl⟩
      have credit : slot.credited (minerApplication miners) 0 =
          creditedBy (minerApplication miners) 0 (minerRequest miner, minerOutputs miners amount miner) := by
        rw [← same]
        rfl
      rw [credit, credited_by_mint _ 0 (minerRequest miner) (minerMint miner) _ rfl (miner_many miner)]
      simp [minerOutputs, createdCoins, ownedInRing, implicitOwner, getImplicitAccount, inRing, totalAmount]
    rw [credited, sum_receipts, List.map_congr_left each, List.map_const', List.sum_replicate_nat, List.length_map]

theorem miner_addresses_distinct (miners : List Nat) (apart : miners.Nodup) (small : ∀ miner ∈ miners, miner < 2 ^ 32) :
    (miners.map minerAddress).Nodup := by
  refine (List.nodup_map_iff_inj_on apart).mpr ?_
  intro miner member other otherMember same
  exact miner_address_injective (small miner member) (small other otherMember) same

theorem miner_rings_bounded : RingsBounded (minerApplication miners) miners.length := by
  intro ring members distinct inRing
  have subset : members ⊆ miners.map minerAddress := by
    intro address member
    obtain ⟨-, miner, inMiners, same⟩ := (miner_ring_has miners ring address).mp (inRing address member)
    exact same ▸ List.mem_map_of_mem inMiners
  have size := (List.subperm_of_subset distinct subset).length_le
  rwa [List.length_map] at size

theorem emission_cap (a : TokenApplication) (fuel : Nat) (currentFrameNumber : UInt64) (transitions : List TokenRequest)
    (skipFailures : Bool) (applied : Applied) (disjoint : RingsDisjoint a) (bounded : RingsBounded a (2 ^ 31))
    (done : applyTransitions a fuel currentFrameNumber transitions skipFailures = .ok applied) (ring : Nat) :
    credited a ring applied ≤ a.prim.pomwBasis 1 ring currentFrameNumber := by
  obtain ⟨filter, frame, requests, slots, -, -, -, ⟨run⟩, receipts, -⟩ :=
    apply_transitions_ok done
  rw [credited, receipts, sum_receipts]
  exact run.credited_le disjoint bounded

theorem emission_cap_two_miners :
    ∃ applied, applyTransitions (minerApplication [0, 1]) 64 6 [minerRequest 0, minerRequest 1] false = .ok applied ∧
      0 < credited (minerApplication [0, 1]) 0 applied ∧
      credited (minerApplication [0, 1]) 0 applied ≤ (minerApplication [0, 1]).prim.pomwBasis 1 0 6 := by
  have reward : returnsWith (fillBytes 32 (rewardAmount (2 ^ 63) (UInt64.ofNat (2 * minerParallelism.toNat)) minerParallelism))
      (fun amount => decide (0 < setBytes amount)) = true := by decide +kernel
  obtain ⟨amount, filled, positive⟩ := (returns_with_iff _ _).mp reward
  have distinct := miner_addresses_distinct [0, 1] (by decide) (by decide)
  obtain ⟨applied, done, -, sum⟩ := miner_credited distinct filled
  have bounded : RingsBounded (minerApplication [0, 1]) (2 ^ 31) := fun ring members apart inRing =>
    (miner_rings_bounded ring members apart inRing).trans (by decide)
  refine ⟨applied, done, ?_, emission_cap (minerApplication [0, 1]) 64 6 _ false applied miner_rings_disjoint bounded done 0⟩
  rw [sum]
  exact Nat.mul_pos (by decide) (of_decide_eq_true positive)

-- The sum of the parallelisms is negative as an int64, and its absolute value is less than the sum.
theorem emission_cap_wide_ring :
    RingsDisjoint (minerApplication (List.range (2 ^ 31 + 1))) ∧
      ∃ applied, applyTransitions (minerApplication (List.range (2 ^ 31 + 1))) 64 6
          ((List.range (2 ^ 31 + 1)).map minerRequest) false = .ok applied ∧
        applied.finalized = (List.range (2 ^ 31 + 1)).map minerRequest ∧
        ¬ credited (minerApplication (List.range (2 ^ 31 + 1))) 0 applied ≤
          (minerApplication (List.range (2 ^ 31 + 1))).prim.pomwBasis 1 0 6 := by
  have reward : fillBytes 32 (rewardAmount (2 ^ 63) (UInt64.ofNat ((2 ^ 31 + 1) * minerParallelism.toNat)) minerParallelism) =
      .ok (beBytes 32 (2 ^ 32 - 1)) := by decide +kernel
  generalize isWide : List.range (2 ^ 31 + 1) = miners
  have size : miners.length = 2 ^ 31 + 1 := by rw [← isWide, List.length_range]
  have distinct : (miners.map minerAddress).Nodup := by
    apply miner_addresses_distinct
    · rw [← isWide]
      exact List.nodup_range
    · intro miner member
      rw [← isWide, List.mem_range] at member
      omega
  obtain ⟨applied, done, all, sum⟩ := miner_credited distinct (by rw [size]; exact reward)
  refine ⟨miner_rings_disjoint, applied, done, all, ?_⟩
  rw [sum, size, set_bytes_be_bytes 32 _ (by norm_num), show (minerApplication miners).prim.pomwBasis 1 0 6 = 2 ^ 63 from rfl]
  norm_num

end Ceremony
