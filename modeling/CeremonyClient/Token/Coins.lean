import CeremonyClient.Lib.Locks
import CeremonyClient.Lib.Passes
import CeremonyClient.Protobufs.Validation
import CeremonyClient.Token.Application

set_option autoImplicit false

namespace Ceremony

open GoSem

variable {invalid : GoError} {addresses : List Bytes} {coins : List CoinRef} {a : TokenApplication} {t : MergeCoinRequest}
  {signer : Bytes × Bytes} {coin : Coin} {held after : List Bytes} {left right outputs : List TokenOutput}

def zeroIntersection : Bytes := List.replicate 1024 0

-- Every coin of a merge is checked against the lock map and the coins before it.
def checkMergeCoins (invalid : GoError) : (addresses : List Bytes) → List CoinRef → LockM Bytes Unit
  | _, [] => pure ()
  | addresses, c :: tail => do
      requireFree invalid c.address
      call (failIf (c.address ∈ addresses) invalid)
      checkMergeCoins invalid (addresses ++ [c.address]) tail

structure MergedCoin where
  total : Nat
  intersection : Bytes
  owner : Option AccountRef

def mergeCoin (a : TokenApplication) (invalid : GoError) (signer : Bytes × Bytes) (merged : MergedCoin) (c : CoinRef) :
    Go MergedCoin := do
  let coin ← replaceErr invalid (returned (a.coinStore.getCoinByAddress c.address))
  let owned ← ownedBy coin signer
  failIf (owned = false) invalid
  let intersection ← orInto merged.intersection coin.intersection
  return ⟨merged.total + setBytes coin.amount, intersection, coin.owner⟩

def handleMerge (a : TokenApplication) (t : MergeCoinRequest) : LockM Bytes (List TokenOutput) := do
  let invalid := errInvalidStateTransition.wrap "handle merge"
  call (replaceErr invalid (MergeCoinRequest.validate a.prim (some t)))
  checkMergeCoins invalid [] t.coins
  let signer ← call (replaceErr invalid (signerAddresses a.prim t.signature))
  let merged ← call (t.coins.foldlM (mergeCoin a invalid signer) ⟨0, zeroIntersection, some ⟨none⟩⟩)
  let amount ← call (fillBytes 32 merged.total)
  (t.coins.map CoinRef.address).forM acquire
  return .coin ⟨amount, merged.intersection, merged.owner⟩ :: t.coins.map TokenOutput.deletedCoin

def splitCoin (invalid : GoError) (coin : Coin) (amount : Bytes) : Go TokenOutput := do
  failIf (setBytes amount ≥ setBytes coin.amount) invalid
  let filled ← fillBytes 32 (setBytes amount)
  return .coin ⟨filled, coin.intersection, coin.owner⟩

def handleSplit (a : TokenApplication) (t : SplitCoinRequest) : LockM Bytes (List TokenOutput) := do
  let invalid := errInvalidStateTransition.wrap "handle split"
  call (replaceErr invalid (SplitCoinRequest.validate a.prim (some t)))
  let ofCoin ← call (deref t.ofCoin)
  let coin ← call (replaceErr invalid (returned (a.coinStore.getCoinByAddress ofCoin.address)))
  requireFree invalid ofCoin.address
  let signer ← call (replaceErr invalid (signerAddresses a.prim t.signature))
  let owned ← call (ownedBy coin signer)
  call (failIf (owned = false) invalid)
  let newCoins ← call (t.amounts.mapM (splitCoin invalid coin))
  call (failIf (setBytes coin.amount ≠ (t.amounts.map setBytes).sum) invalid)
  acquire ofCoin.address
  return newCoins ++ [.deletedCoin ofCoin]

def handleTransfer (a : TokenApplication) (t : TransferCoinRequest) : LockM Bytes (List TokenOutput) := do
  let invalid := errInvalidStateTransition.wrap "handle transfer"
  call (replaceErr invalid (TransferCoinRequest.validate a.prim (some t)))
  let ofCoin ← call (deref t.ofCoin)
  requireFree invalid ofCoin.address
  let coin ← call (replaceErr invalid (returned (a.coinStore.getCoinByAddress ofCoin.address)))
  let signer ← call (replaceErr invalid (signerAddresses a.prim t.signature))
  let owned ← call (ownedBy coin signer)
  call (failIf (owned = false) invalid)
  let bloom ← call (getBloomFilter a.prim signer.1 1024 3)
  let newIntersection ← call (orInto coin.intersection bloom)
  acquire ofCoin.address
  return [.coin ⟨coin.amount, newIntersection, t.toAccount⟩, .deletedCoin ofCoin]

theorem check_merge_coins_tame : Tame (checkMergeCoins invalid addresses coins) := by
  induction coins generalizing addresses with
  | nil => exact tame_pure
  | cons c tail ih =>
      exact tame_bind tame_require_free fun _ => tame_bind tame_call fun _ => ih

theorem handle_merge_tame : Tame (handleMerge a t) :=
  tame_bind tame_call fun _ => tame_bind check_merge_coins_tame fun _ =>
    tame_bind tame_call fun _ => tame_bind tame_call fun _ =>
      tame_bind tame_call fun _ => tame_bind (tame_for_each tame_acquire) fun _ => tame_pure

theorem handle_split_tame {t : SplitCoinRequest} : Tame (handleSplit a t) :=
  tame_bind tame_call fun _ => tame_bind tame_call fun _ =>
    tame_bind tame_call fun _ => tame_bind tame_require_free fun _ =>
      tame_bind tame_call fun _ => tame_bind tame_call fun _ =>
        tame_bind tame_call fun _ => tame_bind tame_call fun _ =>
          tame_bind tame_call fun _ => tame_bind (tame_acquire _) fun _ => tame_pure

theorem handle_transfer_tame {t : TransferCoinRequest} : Tame (handleTransfer a t) :=
  tame_bind tame_call fun _ => tame_bind tame_call fun _ =>
    tame_bind tame_require_free fun _ => tame_bind tame_call fun _ =>
      tame_bind tame_call fun _ => tame_bind tame_call fun _ =>
        tame_bind tame_call fun _ => tame_bind tame_call fun _ =>
          tame_bind tame_call fun _ => tame_bind (tame_acquire _) fun _ => tame_pure

def deletedCoins (outputs : List TokenOutput) : List Bytes :=
  outputs.filterMap fun output => match output with
    | .deletedCoin coin => some coin.address
    | _ => none

def createdCoins (outputs : List TokenOutput) : List Coin :=
  outputs.filterMap fun output => match output with
    | .coin coin => some coin
    | _ => none

def totalAmount (coins : List Coin) : Nat := (coins.map fun coin => setBytes coin.amount).sum

def spentAddresses : Request → List Bytes
  | .transfer t => t.ofCoin.toList.map CoinRef.address
  | .split t => t.ofCoin.toList.map CoinRef.address
  | .merge t => t.coins.map CoinRef.address
  | _ => []

def SignsRequest (prim : Primitives) (key : Bytes) : Request → Prop
  | .transfer t => ∃ message, t.signatureMessage = .ok message ∧ SignedBy prim t.signature message key
  | .split t => ∃ message, t.signatureMessage = .ok message ∧ SignedBy prim t.signature message key
  | .merge t => SignedBy prim t.signature t.signatureMessage key
  | _ => False

def OwnedByKey (prim : Primitives) (key : Bytes) (coin : Coin) : Prop :=
  ∃ owner, implicitAddress coin.owner = .ok owner ∧
    (hashAddress prim key = .ok owner ∨ peerAddress prim key = .ok owner)

structure Spend (a : TokenApplication) (request : Request) (held after : List Bytes) (outputs : List TokenOutput) : Prop where
  deleted : deletedCoins outputs = spentAddresses request
  distinct : (spentAddresses request).Nodup
  untouched : ∀ address ∈ spentAddresses request, address ∉ held
  locked : after = (spentAddresses request).reverse ++ held
  stored : ∃ key coins, SignsRequest a.prim key request ∧
    List.Forall₂ (fun address coin => a.coinStore.getCoinByAddress address = .ok coin ∧ OwnedByKey a.prim key coin)
      (spentAddresses request) coins ∧
    totalAmount (createdCoins outputs) = totalAmount coins ∧
    ((∃ t, request = .transfer t) ∨ ∀ created ∈ createdCoins outputs, ∃ coin ∈ coins, created.owner = coin.owner)

theorem owned_by_key {prim : Primitives} {signature : Option Ed448Signature} {message key : Bytes}
    (signed : SignedBy prim signature message key) (found : signerAddresses prim signature = .ok signer)
    (owned : ownedBy coin signer = .ok true) : OwnedByKey prim key coin := by
  obtain ⟨other, isKey, hashed, peerHashed⟩ := signer_addresses_ok found
  obtain ⟨bytes, shape, -⟩ := signed
  obtain ⟨owner, read, same⟩ := owned_by_ok_iff.mp owned
  simp only [signerKey, shape, deref_some, ok_bind, pure, Except.pure, Except.ok.injEq] at isKey
  subst isKey
  rcases same with first | second
  · exact ⟨owner, read, Or.inl (first ▸ hashed)⟩
  · exact ⟨owner, read, Or.inr (second ▸ peerHashed)⟩

theorem check_merge_coins_ok {value : Unit} (done : (checkMergeCoins invalid addresses coins).on held = (.ok value, after)) :
    after = held ∧ (∀ c ∈ coins, c.address ∉ held ∧ c.address ∉ addresses) ∧ (coins.map CoinRef.address).Nodup := by
  induction coins generalizing addresses with
  | nil =>
      simp only [checkMergeCoins, on_pure, Prod.mk.injEq] at done
      simp [done.2]
  | cons c tail ih =>
      simp only [checkMergeCoins, on_bind_ok, on_require_free_ok, on_call_ok, fail_if_ok_iff] at done
      obtain ⟨_, _, ⟨free, rfl⟩, _, _, ⟨fresh, rfl⟩, rest⟩ := done
      obtain ⟨same, each, distinct⟩ := ih rest
      refine ⟨same, ?_, ?_⟩
      · intro other member
        rcases List.mem_cons.mp member with isHead | inTail
        · rw [isHead]; exact ⟨free, fresh⟩
        · exact ⟨(each other inTail).1, fun old => (each other inTail).2 (List.mem_append_left _ old)⟩
      · rw [List.map_cons, List.nodup_cons]
        refine ⟨fun repeated => ?_, distinct⟩
        obtain ⟨other, inTail, sameAddress⟩ := List.mem_map.mp repeated
        exact (each other inTail).2 (by simp [sameAddress])

variable {merged : MergedCoin}

theorem merge_coin_ok {next : MergedCoin} {c : CoinRef} (done : mergeCoin a invalid signer merged c = .ok next) :
    ∃ coin, a.coinStore.getCoinByAddress c.address = .ok coin ∧ ownedBy coin signer = .ok true ∧
      next.total = merged.total + setBytes coin.amount ∧ next.owner = coin.owner := by
  simp only [mergeCoin, bind_ok_iff, replace_err_ok_iff, fail_if_ok_iff, Bool.not_eq_false] at done
  obtain ⟨coin, stored, owned, checked, _, isOwned, intersection, -, result⟩ := done
  refine ⟨coin, ?_, isOwned ▸ checked, ?_⟩
  · exact returned_ok_iff.mp stored
  · rw [← Except.ok.inj result]
    exact ⟨rfl, rfl⟩

theorem merge_coins_ok {refs : List CoinRef} {start : MergedCoin} (done : refs.foldlM (mergeCoin a invalid signer) start = .ok merged) :
    ∃ coins, List.Forall₂ (fun address coin => a.coinStore.getCoinByAddress address = .ok coin ∧ ownedBy coin signer = .ok true)
        (refs.map CoinRef.address) coins ∧ merged.total = start.total + totalAmount coins ∧
      (refs = [] ∨ ∃ coin ∈ coins, merged.owner = coin.owner) := by
  induction refs generalizing start with
  | nil =>
      rw [← Except.ok.inj done]
      exact ⟨[], List.Forall₂.nil, rfl, Or.inl rfl⟩
  | cons c tail ih =>
      rw [List.foldlM_cons] at done
      obtain ⟨next, first, rest⟩ := (bind_ok_iff _ _ _).mp done
      obtain ⟨coin, stored, owned, total, owner⟩ := merge_coin_ok first
      obtain ⟨coins, each, sum, last⟩ := ih rest
      refine ⟨coin :: coins, List.Forall₂.cons ⟨stored, owned⟩ each, ?_, Or.inr ?_⟩
      · simp only [totalAmount, List.map_cons, List.sum_cons] at sum ⊢
        omega
      · rcases last with empty | ⟨other, member, same⟩
        · subst empty
          rw [← Except.ok.inj rest]
          exact ⟨coin, List.mem_cons_self, owner⟩
        · exact ⟨other, List.mem_cons_of_mem _ member, same⟩

@[simp] theorem deleted_coins_append : deletedCoins (left ++ right) = deletedCoins left ++ deletedCoins right := List.filterMap_append

@[simp] theorem created_coins_append : createdCoins (left ++ right) = createdCoins left ++ createdCoins right := List.filterMap_append

theorem handle_merge_spend (done : (handleMerge a t).on held = (.ok outputs, after)) : Spend a (.merge t) held after outputs := by
  simp only [handleMerge, on_bind_ok, on_call_ok, replace_err_ok_iff, on_acquire_all, on_pure, Prod.mk.injEq] at done
  obtain ⟨_, _, ⟨valid, rfl⟩, _, _, checked, signer, _, ⟨found, rfl⟩, merged, _, ⟨gathered, rfl⟩, amount, _, ⟨filled, rfl⟩,
    _, _, ⟨-, rfl⟩, result, rfl⟩ := done
  obtain ⟨rfl, each, distinct⟩ := check_merge_coins_ok checked
  obtain ⟨key, nonempty, signed⟩ := merge_validate_ok valid
  obtain ⟨coins, storedCoins, sum, owner⟩ := merge_coins_ok gathered
  have outputsShape := (Except.ok.inj result).symm
  have created : createdCoins outputs = [⟨amount, merged.intersection, merged.owner⟩] := by
    simp [outputsShape, createdCoins]
  refine ⟨?_, distinct, ?_, rfl, key, coins, signed, ?_, ?_, Or.inr ?_⟩
  · simp [outputsShape, deletedCoins, spentAddresses]
  · intro address member
    obtain ⟨c, inCoins, same⟩ := List.mem_map.mp member
    exact same ▸ (each c inCoins).1
  · exact storedCoins.imp fun address coin stored => ⟨stored.1, owned_by_key signed found stored.2⟩
  · rw [created]
    simpa [totalAmount, fill_bytes_ok 32 _ filled] using sum
  · intro fresh member
    rw [created, List.mem_singleton] at member
    rcases owner with empty | ⟨coin, inCoins, same⟩
    · exact absurd empty nonempty
    · exact ⟨coin, inCoins, by rw [member]; exact same⟩

theorem split_coins_ok {amounts : List Bytes} {newCoins : List TokenOutput} (done : amounts.mapM (splitCoin invalid coin) = .ok newCoins) :
    deletedCoins newCoins = [] ∧ totalAmount (createdCoins newCoins) = (amounts.map setBytes).sum ∧
      ∀ created ∈ createdCoins newCoins, created.owner = coin.owner := by
  rw [map_m_iff] at done
  induction done with
  | nil => simp [deletedCoins, createdCoins, totalAmount]
  | cons first rest ih =>
      simp only [splitCoin, bind_ok_iff, fail_if_ok_iff] at first
      obtain ⟨_, -, filled, fits, result⟩ := first
      obtain ⟨none, sum, owners⟩ := ih
      rw [← Except.ok.inj result]
      refine ⟨none, ?_, ?_⟩
      · simp only [totalAmount, createdCoins, List.filterMap_cons, List.map_cons, List.sum_cons] at sum ⊢
        rw [sum, fill_bytes_ok 32 _ fits, Int.natAbs_natCast]
      · intro created member
        rcases List.mem_cons.mp member with same | old
        · rw [same]
        · exact owners created old

theorem handle_split_spend {t : SplitCoinRequest} (done : (handleSplit a t).on held = (.ok outputs, after)) :
    Spend a (.split t) held after outputs := by
  simp only [handleSplit, on_bind_ok, on_call_ok, on_require_free_ok, replace_err_ok_iff, fail_if_ok_iff, deref_ok_iff,
    returned_ok_iff, on_acquire, on_pure, Prod.mk.injEq, Bool.not_eq_false, ne_eq, not_not] at done
  obtain ⟨_, _, ⟨valid, rfl⟩, ofCoin, _, ⟨named, rfl⟩, coin, _, ⟨stored, rfl⟩, _, _, ⟨free, rfl⟩, signer, _, ⟨found, rfl⟩,
    owned, _, ⟨checked, rfl⟩, _, _, ⟨isOwned, rfl⟩, newCoins, _, ⟨split, rfl⟩, _, _, ⟨balanced, rfl⟩,
    _, _, ⟨-, rfl⟩, result, rfl⟩ := done
  obtain ⟨address, message, key, -, -, signature, signed⟩ := split_validate_ok valid
  obtain ⟨noDeleted, sum, owners⟩ := split_coins_ok split
  have spent : spentAddresses (.split t) = [ofCoin.address] := by simp [spentAddresses, named]
  have outputsShape := (Except.ok.inj result).symm
  have created : createdCoins outputs = createdCoins newCoins := by simp [outputsShape, createdCoins]
  refine ⟨?_, ?_, ?_, ?_, key, [coin], ⟨message, signature, signed⟩, ?_, ?_, Or.inr ?_⟩
  · rw [outputsShape, deleted_coins_append, noDeleted, spent]
    rfl
  · simp [spent]
  · simpa [spent] using free
  · simp [spent]
  · rw [spent]
    exact List.Forall₂.cons ⟨stored, owned_by_key signed found (isOwned ▸ checked)⟩ List.Forall₂.nil
  · rw [created, sum]
    simpa [totalAmount] using balanced.symm
  · intro fresh member
    exact ⟨coin, List.mem_singleton_self _, owners fresh (created ▸ member)⟩

theorem handle_transfer_spend {t : TransferCoinRequest} (done : (handleTransfer a t).on held = (.ok outputs, after)) :
    Spend a (.transfer t) held after outputs := by
  simp only [handleTransfer, on_bind_ok, on_call_ok, on_require_free_ok, replace_err_ok_iff, fail_if_ok_iff, deref_ok_iff,
    returned_ok_iff, on_acquire, on_pure, Prod.mk.injEq, Bool.not_eq_false] at done
  obtain ⟨_, _, ⟨valid, rfl⟩, ofCoin, _, ⟨named, rfl⟩, _, _, ⟨free, rfl⟩, coin, _, ⟨stored, rfl⟩, signer, _, ⟨found, rfl⟩,
    owned, _, ⟨checked, rfl⟩, _, _, ⟨isOwned, rfl⟩, bloom, _, ⟨-, rfl⟩, newIntersection, _, ⟨-, rfl⟩,
    _, _, ⟨-, rfl⟩, result, rfl⟩ := done
  obtain ⟨address, message, key, -, signature, signed⟩ := transfer_validate_ok valid
  have spent : spentAddresses (.transfer t) = [ofCoin.address] := by simp [spentAddresses, named]
  have outputsShape := (Except.ok.inj result).symm
  refine ⟨?_, ?_, ?_, ?_, key, [coin], ⟨message, signature, signed⟩, ?_, ?_, Or.inl ⟨t, rfl⟩⟩
  · rw [spent, outputsShape]
    rfl
  · simp [spent]
  · simpa [spent] using free
  · simp [spent]
  · rw [spent]
    exact List.Forall₂.cons ⟨stored, owned_by_key signed found (isOwned ▸ checked)⟩ List.Forall₂.nil
  · simp [outputsShape, totalAmount, createdCoins]

end Ceremony
