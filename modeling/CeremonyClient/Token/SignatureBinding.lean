import CeremonyClient.Lib.Panics
import CeremonyClient.Token.Slots

set_option autoImplicit false

namespace Ceremony

open GoSem

variable {request other : TokenRequest} {skipFailures : Bool} {handler : LockM Bytes (List TokenOutput)} {leftTime rightTime : Int64}
  {t : MintCoinRequest} {address : Bytes} {prim : Primitives} {left right : List Bytes} {fuel : Nat} {currentFrameNumber : UInt64}
  {seen : List Bytes} {frame : ClockFrame} {processed : ProcessedMint} {timestamp : Int64}

-- How a submission ends: how many requests it finalized and refused, and with which outputs.
def fate (result : Go Applied) : Go (Nat × Nat × List TokenOutput) :=
  result.map fun applied => (applied.finalized.length, applied.failed.length, applied.outputs)

-- The same stores, tries and frame number treat the two requests alike, each submitted alone.
def SameEffect (a : TokenApplication) (fuel : Nat) (currentFrameNumber : UInt64) (left right : TokenRequest) : Prop :=
  ∀ skipFailures, fate (applyTransitions a fuel currentFrameNumber [left] skipFailures) =
    fate (applyTransitions a fuel currentFrameNumber [right] skipFailures)

def previousFrame (a : TokenApplication) (currentFrameNumber : UInt64) : Go ClockFrame := do
  let filter ← getBloomFilter a.prim TOKEN_ADDRESS 256 3
  replaceErr (errInvalidStateTransition.wrap "apply transitions")
    (returned (a.clockStore.getDataClockFrame filter (currentFrameNumber - 1) false))

def settled (request : TokenRequest) (skipFailures : Bool) : Go (List TokenOutput) → Go Applied
  | .ok outputs => .ok ⟨[(request, outputs)], []⟩
  | .error (.err cause) => if skipFailures then .ok ⟨[], [request]⟩ else raise (cause.wrap "apply transitions")
  | .error fault => .error fault

theorem settled_injective {left right : Go (List TokenOutput)} (same : fate (settled request false left) = fate (settled other false right)) :
    left = right := by
  rcases left with (cause | _ | _) | outputs <;> rcases right with (cause' | _ | _) | outputs' <;>
    simp [settled, fate, raise, Except.map, GoError.wrap, Applied.outputs, Applied.finalized] at same ⊢
  · exact congrArg GoError.mk same
  · exact same

theorem settled_same_fate {result : Go (List TokenOutput)} :
    fate (settled request skipFailures result) = fate (settled other skipFailures result) := by
  rcases result with (cause | _ | _) | outputs <;> cases skipFailures <;> rfl

section Single

variable (a : TokenApplication) (fuel : Nat) (currentFrameNumber : UInt64)

theorem order_single : orderRequests [request] skipFailures = .ok [request] := by
  cases skipFailures <;> rfl

def isCoinRequest : Request → Bool
  | .transfer _ => true
  | .split _ => true
  | .merge _ => true
  | _ => false

theorem run_coin_request {request : Request} (timestamp : Int64) (frame : ClockFrame) (isCoin : isCoinRequest request = true)
    (isHandler : handlerOf a currentFrameNumber (some request) = some handler) :
    runPasses a fuel currentFrameNumber frame [⟨some request, timestamp⟩] skipFailures =
      match (handler.on []).1 with
      | .ok outputs => .ok [⟨⟨some request, timestamp⟩, false, true, none, some outputs⟩]
      | .error (.err cause) =>
          if skipFailures then .ok [⟨⟨some request, timestamp⟩, true, true, none, none⟩] else raise (cause.wrap "apply transitions")
      | .error fault => .error fault := by
  have noMint : ∀ fails set processed success, (Slot.mk ⟨some request, timestamp⟩ fails set processed success).mint = none := by
    intro fails set processed success
    cases request <;> first | rfl | cases isCoin
  have plain : isAnnounce (some request) = false := by
    cases request <;> first | rfl | cases isCoin
  rcases ran : handler.on [] with ⟨(cause | _ | _) | outputs, held⟩ <;> cases skipFailures <;>
    simp [runPasses, newSlot, mapAccumM, validateMintSlot, selectSlot, handleSlot, preProcessSlot, tallySlot, mintSlot, noMint,
      isHandler, ran, plain, pure, Except.pure, raise]

theorem apply_coin_request {request : Request} (timestamp : Int64) (isCoin : isCoinRequest request = true)
    (isHandler : handlerOf a currentFrameNumber (some request) = some handler) :
    applyTransitions a fuel currentFrameNumber [⟨some request, timestamp⟩] skipFailures =
      previousFrame a currentFrameNumber >>= fun _ => settled ⟨some request, timestamp⟩ skipFailures (handler.on []).1 := by
  rw [applyTransitions, previousFrame, bind_assoc]
  congr 1
  funext filter
  congr 1
  funext frame
  rw [order_single, ok_bind, run_coin_request a fuel currentFrameNumber timestamp frame isCoin isHandler]
  rcases handler.on [] with ⟨(cause | _ | _) | outputs, held⟩ <;> cases skipFailures <;>
    simp [settled, failIf, Slot.receipt, pure, Except.pure]

theorem coin_same_effect_iff {left right : Request} {leftHandler rightHandler : LockM Bytes (List TokenOutput)}
    (leftCoin : isCoinRequest left = true) (rightCoin : isCoinRequest right = true)
    (isLeft : handlerOf a currentFrameNumber (some left) = some leftHandler)
    (isRight : handlerOf a currentFrameNumber (some right) = some rightHandler) :
    SameEffect a fuel currentFrameNumber ⟨some left, leftTime⟩ ⟨some right, rightTime⟩ ↔
      ((∃ frame, previousFrame a currentFrameNumber = .ok frame) → (leftHandler.on []).1 = (rightHandler.on []).1) := by
  simp only [SameEffect, apply_coin_request a fuel currentFrameNumber leftTime leftCoin isLeft,
    apply_coin_request a fuel currentFrameNumber rightTime rightCoin isRight]
  cases opened : previousFrame a currentFrameNumber with
  | error fault => simp
  | ok frame =>
      simp only [ok_bind, Except.ok.injEq, exists_eq', forall_const]
      constructor
      · exact fun same => settled_injective (same false)
      · intro same skipFailures
        rw [same]
        exact settled_same_fate

end Single

section Signer

variable (prim : Primitives)

theorem signer_addresses_eq {signature : Option Ed448Signature} :
    signerAddresses prim signature = signerKey signature >>= fun key => do
      let addr ← hashAddress prim key
      let altAddr ← peerAddress prim key
      return (addr, altAddr) := by
  rcases signature with _ | ⟨bytes, _ | key⟩ <;> rfl

theorem signer_addresses_congr {left right : Option Ed448Signature} (keys : signerKey left = signerKey right) :
    signerAddresses prim left = signerAddresses prim right := by
  rw [signer_addresses_eq, signer_addresses_eq, keys]

end Signer

section Transfer

variable (a : TokenApplication)

def transferSource (signature : Option Ed448Signature) (address : Bytes) : Go (Coin × Bytes) := do
  let invalid := errInvalidStateTransition.wrap "handle transfer"
  let coin ← replaceErr invalid (returned (a.coinStore.getCoinByAddress address))
  let signer ← replaceErr invalid (signerAddresses a.prim signature)
  let owned ← ownedBy coin signer
  failIf (owned = false) invalid
  let bloom ← getBloomFilter a.prim signer.1 1024 3
  let newIntersection ← orInto coin.intersection bloom
  return (coin, newIntersection)

theorem handle_transfer_result {t : TransferCoinRequest} (valid : TransferCoinRequest.validate a.prim (some t) = .ok ())
    (isCoin : t.ofCoin = some ⟨address⟩) :
    ((handleTransfer a t).on []).1 = transferSource a t.signature address >>= fun source =>
      .ok [.coin ⟨source.1.amount, source.2, t.toAccount⟩, .deletedCoin ⟨address⟩] := by
  have checked : replaceErr (errInvalidStateTransition.wrap "handle transfer") (TransferCoinRequest.validate a.prim (some t)) = .ok () := by
    rw [valid]
    rfl
  simp only [handleTransfer, transferSource, on_call_bind_result, require_free_nil_result, acquire_pure_result, checked, isCoin,
    deref_some, ok_bind, bind_assoc, pure_bind]

theorem transfer_shape {t : TransferCoinRequest} (valid : TransferCoinRequest.validate prim (some t) = .ok ()) :
    ∃ address receiver, t.ofCoin = some ⟨address⟩ ∧ address.length = 32 ∧
      t.signatureMessage = .ok (ascii ['t', 'r', 'a', 'n', 's', 'f', 'e', 'r'] ++ address ++ receiver) := by
  simp only [TransferCoinRequest.validate, TransferCoinRequest.validateSignature, bind_ok_iff, wrap_err_ok_iff] at valid
  obtain ⟨_, -, _, ofCoin, _, -, message, isMessage, -⟩ := valid
  obtain ⟨address, isCoin, size⟩ := (coin_ref_validate_ok_iff _ _).mp ofCoin
  have read := isMessage
  simp only [TransferCoinRequest.signatureMessage, isCoin, deref_some, ok_bind, bind_ok_iff, pure, Except.pure, Except.ok.injEq] at read
  obtain ⟨receiver, -, same⟩ := read
  exact ⟨address, receiver, isCoin, size, by rw [isMessage, ← same]⟩

theorem transfer_same_effect_iff (fuel : Nat) (currentFrameNumber : UInt64) (left right : TransferCoinRequest)
    (leftTime rightTime : Int64) (leftValid : TransferCoinRequest.validate a.prim (some left) = .ok ())
    (rightValid : TransferCoinRequest.validate a.prim (some right) = .ok ())
    (keys : signerKey left.signature = signerKey right.signature) (messages : left.signatureMessage = right.signatureMessage) :
    SameEffect a fuel currentFrameNumber ⟨some (.transfer left), leftTime⟩ ⟨some (.transfer right), rightTime⟩ ↔
      ((∃ frame, previousFrame a currentFrameNumber = .ok frame) →
        (∃ coin source, left.ofCoin = some coin ∧ transferSource a left.signature coin.address = .ok source) →
          left.toAccount = right.toAccount) := by
  obtain ⟨address, receiver, isCoin, size, message⟩ := transfer_shape leftValid
  obtain ⟨otherAddress, otherReceiver, isOther, otherSize, otherMessage⟩ := transfer_shape rightValid
  have sameAddress : address = otherAddress := by
    rw [message, otherMessage, Except.ok.injEq, List.append_assoc, List.append_assoc] at messages
    exact (List.append_inj (List.append_cancel_left messages) (by rw [size, otherSize])).1
  subst sameAddress
  have sameSource : transferSource a left.signature address = transferSource a right.signature address := by
    simp only [transferSource, signer_addresses_congr a.prim keys]
  rw [coin_same_effect_iff a fuel currentFrameNumber rfl rfl rfl rfl, handle_transfer_result a leftValid isCoin,
    handle_transfer_result a rightValid isOther, sameSource]
  apply imp_congr_right
  intro _
  rw [isCoin]
  cases found : transferSource a right.signature address with
  | error fault => simp [sameSource, found]
  | ok source =>
      obtain ⟨coin, intersection⟩ := source
      simp [sameSource, found]

end Transfer

section Split

variable (a : TokenApplication)

def splitSource (signature : Option Ed448Signature) (address : Bytes) : Go Coin := do
  let invalid := errInvalidStateTransition.wrap "handle split"
  let coin ← replaceErr invalid (returned (a.coinStore.getCoinByAddress address))
  let signer ← replaceErr invalid (signerAddresses a.prim signature)
  let owned ← ownedBy coin signer
  failIf (owned = false) invalid
  return coin

def Divides (coin : Coin) (amounts : List Bytes) : Prop :=
  (∀ amount ∈ amounts, setBytes amount < setBytes coin.amount) ∧ setBytes coin.amount = (amounts.map setBytes).sum

instance (coin : Coin) (amounts : List Bytes) : Decidable (Divides coin amounts) := inferInstanceAs (Decidable (_ ∧ _))

def splitOutput (coin : Coin) (value : Nat) : TokenOutput := .coin ⟨beBytes 32 value, coin.intersection, coin.owner⟩

def splitInto (coin : Coin) (address : Bytes) (amounts : List Bytes) : Go (List TokenOutput) := do
  let invalid := errInvalidStateTransition.wrap "handle split"
  let newCoins ← amounts.mapM (splitCoin invalid coin)
  failIf (setBytes coin.amount ≠ (amounts.map setBytes).sum) invalid
  return newCoins ++ [.deletedCoin ⟨address⟩]

theorem handle_split_result {t : SplitCoinRequest} (valid : SplitCoinRequest.validate a.prim (some t) = .ok ())
    (isCoin : t.ofCoin = some ⟨address⟩) :
    ((handleSplit a t).on []).1 = splitSource a t.signature address >>= fun coin => splitInto coin address t.amounts := by
  have checked : replaceErr (errInvalidStateTransition.wrap "handle split") (SplitCoinRequest.validate a.prim (some t)) = .ok () := by
    rw [valid]
    rfl
  simp only [handleSplit, splitSource, splitInto, on_call_bind_result, require_free_nil_result, acquire_pure_result, checked, isCoin,
    deref_some, ok_bind, bind_assoc, pure_bind]
  rfl

theorem split_coin_eq (coin : Coin) {invalid : GoError} {amount : Bytes} (short : amount.length ≤ 32) :
    splitCoin invalid coin amount =
      if setBytes amount < setBytes coin.amount then .ok (splitOutput coin (setBytes amount)) else raise invalid := by
  have fits : setBytes amount < 256 ^ 32 := (set_bytes_lt amount).trans_le (Nat.pow_le_pow_right (by decide) short)
  by_cases less : setBytes amount < setBytes coin.amount
  · have filled : fillBytes 32 (setBytes amount) = .ok (beBytes 32 (setBytes amount)) := if_pos fits
    rw [splitCoin, failIf, if_neg (not_le.mpr less), filled, if_pos less]
    rfl
  · simp [splitCoin, failIf, not_lt.mp less, less]

theorem split_into_eq (coin : Coin) (address : Bytes) {amounts : List Bytes} (short : ∀ amount ∈ amounts, amount.length ≤ 32) :
    splitInto coin address amounts =
      if Divides coin amounts then .ok ((amounts.map setBytes).map (splitOutput coin) ++ [.deletedCoin ⟨address⟩])
      else raise (errInvalidStateTransition.wrap "handle split") := by
  have coins : amounts.mapM (splitCoin (errInvalidStateTransition.wrap "handle split") coin) =
      if ∀ amount ∈ amounts, setBytes amount < setBytes coin.amount then .ok ((amounts.map setBytes).map (splitOutput coin))
      else raise (errInvalidStateTransition.wrap "handle split") := by
    clear address
    induction amounts with
    | nil => rfl
    | cons amount tail ih =>
        obtain ⟨head, rest⟩ := List.forall_mem_cons.mp short
        simp only [List.mapM_cons, split_coin_eq coin head, ih rest, List.forall_mem_cons]
        by_cases less : setBytes amount < setBytes coin.amount
        · by_cases others : ∀ amount ∈ tail, setBytes amount < setBytes coin.amount
          · rw [if_pos less, if_pos others, if_pos ⟨less, others⟩]
            rfl
          · rw [if_pos less, if_neg others, if_neg (fun all => others all.2)]
            rfl
        · rw [if_neg less, raise_bind, if_neg (fun all => less all.1)]
  rw [splitInto, coins]
  by_cases less : ∀ amount ∈ amounts, setBytes amount < setBytes coin.amount
  · by_cases total : setBytes coin.amount = (amounts.map setBytes).sum
    · simp only [if_pos less, ok_bind, failIf, if_neg (not_not.mpr total), if_pos (show Divides coin amounts from ⟨less, total⟩)]
      rfl
    · simp only [if_pos less, ok_bind, failIf, if_pos (show setBytes coin.amount ≠ _ from total),
        if_neg (fun divides : Divides coin amounts => total divides.2), raise_bind]
  · simp only [if_neg less, if_neg (fun divides : Divides coin amounts => less divides.1), raise_bind]

theorem split_shape {t : SplitCoinRequest} (valid : SplitCoinRequest.validate prim (some t) = .ok ()) :
    ∃ address, t.ofCoin = some ⟨address⟩ ∧ address.length = 32 ∧ (∀ amount ∈ t.amounts, amount.length ≤ 32) ∧
      t.signatureMessage = .ok (ascii ['s', 'p', 'l', 'i', 't'] ++ address ++ t.amounts.flatten) := by
  simp only [SplitCoinRequest.validate, validateAmounts, bind_ok_iff, wrap_err_ok_iff] at valid
  obtain ⟨_, ofCoin, _, ⟨_, -, amounts⟩, -⟩ := valid
  obtain ⟨address, isCoin, size⟩ := (coin_ref_validate_ok_iff _ _).mp ofCoin
  refine ⟨address, isCoin, size, fun amount member => ?_, by simp [SplitCoinRequest.signatureMessage, isCoin, pure, Except.pure]⟩
  have sized := for_each_ok_iff.mp amounts amount member
  rw [fail_if_ok_iff, not_or, not_lt] at sized
  exact sized.2

-- Two ways to cut the signed amounts that the same coin cannot tell apart.
def SplitAlike (coin : Coin) (left right : List Bytes) : Prop :=
  left.map setBytes = right.map setBytes ∨ (¬ Divides coin left ∧ ¬ Divides coin right)

theorem split_into_same_iff (coin : Coin) (address : Bytes) (leftShort : ∀ amount ∈ left, amount.length ≤ 32)
    (rightShort : ∀ amount ∈ right, amount.length ≤ 32) :
    splitInto coin address left = splitInto coin address right ↔ SplitAlike coin left right := by
  have fits : ∀ amounts : List Bytes, (∀ amount ∈ amounts, amount.length ≤ 32) → ∀ value ∈ amounts.map setBytes, value < 256 ^ 32 := by
    intro amounts short value member
    obtain ⟨amount, isAmount, same⟩ := List.mem_map.mp member
    rw [← same]
    exact (set_bytes_lt amount).trans_le (Nat.pow_le_pow_right (by decide) (short amount isAmount))
  have injective : ∀ first second : List Nat, (∀ value ∈ first, value < 256 ^ 32) → (∀ value ∈ second, value < 256 ^ 32) →
      first.map (splitOutput coin) = second.map (splitOutput coin) → first = second := by
    intro first
    induction first with
    | nil =>
        intro second _ _ same
        cases second with
        | nil => rfl
        | cons => cases same
    | cons value tail ih =>
        intro second firstFits secondFits same
        cases second with
        | nil => cases same
        | cons other rest =>
            obtain ⟨headFits, tailFits⟩ := List.forall_mem_cons.mp firstFits
            obtain ⟨otherFits, restFits⟩ := List.forall_mem_cons.mp secondFits
            simp only [List.map_cons, List.cons.injEq, splitOutput, TokenOutput.coin.injEq, Coin.mk.injEq, and_true] at same
            have sameValue : value = other := by
              rw [← set_bytes_be_bytes 32 value headFits, ← set_bytes_be_bytes 32 other otherFits, same.1]
            rw [sameValue, ih rest tailFits restFits same.2]
  rw [split_into_eq coin address leftShort, split_into_eq coin address rightShort]
  by_cases values : left.map setBytes = right.map setBytes
  · have same : Divides coin left ↔ Divides coin right := by
      have bound : ∀ amounts : List Bytes, (∀ amount ∈ amounts, setBytes amount < setBytes coin.amount) ↔
          ∀ value ∈ amounts.map setBytes, value < setBytes coin.amount := by simp
      rw [Divides, Divides, bound, bound, values]
    apply iff_of_true _ (.inl values)
    simp only [same, values]
  · by_cases leftDivides : Divides coin left
    · by_cases rightDivides : Divides coin right
      · rw [if_pos leftDivides, if_pos rightDivides]
        apply iff_of_false
        · intro same
          exact values (injective _ _ (fits left leftShort) (fits right rightShort) (List.append_cancel_right (Except.ok.inj same)))
        · rintro (alike | ⟨neither, -⟩)
          · exact values alike
          · exact neither leftDivides
      · rw [if_pos leftDivides, if_neg rightDivides]
        apply iff_of_false (by simp [raise])
        rintro (alike | ⟨neither, -⟩)
        · exact values alike
        · exact neither leftDivides
    · by_cases rightDivides : Divides coin right
      · rw [if_neg leftDivides, if_pos rightDivides]
        apply iff_of_false (by simp [raise])
        rintro (alike | ⟨-, neither⟩)
        · exact values alike
        · exact neither rightDivides
      · rw [if_neg leftDivides, if_neg rightDivides]
        exact iff_of_true rfl (.inr ⟨leftDivides, rightDivides⟩)

theorem split_same_effect_iff (fuel : Nat) (currentFrameNumber : UInt64) (left right : SplitCoinRequest)
    (leftTime rightTime : Int64) (leftValid : SplitCoinRequest.validate a.prim (some left) = .ok ())
    (rightValid : SplitCoinRequest.validate a.prim (some right) = .ok ())
    (keys : signerKey left.signature = signerKey right.signature) (messages : left.signatureMessage = right.signatureMessage) :
    SameEffect a fuel currentFrameNumber ⟨some (.split left), leftTime⟩ ⟨some (.split right), rightTime⟩ ↔
      ((∃ frame, previousFrame a currentFrameNumber = .ok frame) →
        ∀ ofCoin, left.ofCoin = some ofCoin → ∀ coin, splitSource a left.signature ofCoin.address = .ok coin →
          SplitAlike coin left.amounts right.amounts) := by
  obtain ⟨address, isCoin, size, short, message⟩ := split_shape leftValid
  obtain ⟨otherAddress, isOther, otherSize, otherShort, otherMessage⟩ := split_shape rightValid
  have sameAddress : address = otherAddress := by
    rw [message, otherMessage, Except.ok.injEq, List.append_assoc, List.append_assoc] at messages
    exact (List.append_inj (List.append_cancel_left messages) (by rw [size, otherSize])).1
  subst sameAddress
  have sameSource : splitSource a left.signature address = splitSource a right.signature address := by
    simp only [splitSource, signer_addresses_congr a.prim keys]
  rw [coin_same_effect_iff a fuel currentFrameNumber rfl rfl rfl rfl, handle_split_result a leftValid isCoin,
    handle_split_result a rightValid isOther, sameSource]
  apply imp_congr_right
  intro _
  simp only [isCoin, Option.some.injEq, forall_eq', sameSource]
  cases found : splitSource a right.signature address with
  | error fault => simp
  | ok coin => simp [split_into_same_iff coin address short otherShort]

end Split

section Merge

variable (a : TokenApplication)

theorem flatten_injective {width : Nat} (positive : 0 < width) (leftSized : ∀ part ∈ left, part.length = width)
    (rightSized : ∀ part ∈ right, part.length = width) (same : left.flatten = right.flatten) : left = right := by
  induction left generalizing right with
  | nil =>
      cases right with
      | nil => rfl
      | cons part tail =>
          have sized := rightSized part List.mem_cons_self
          have empty := congrArg List.length same
          rw [List.flatten_cons, List.length_append, List.flatten_nil, List.length_nil] at empty
          omega
  | cons part tail ih =>
      cases right with
      | nil =>
          have sized := leftSized part List.mem_cons_self
          have empty := congrArg List.length same
          rw [List.flatten_cons, List.length_append, List.flatten_nil, List.length_nil] at empty
          omega
      | cons other rest =>
          obtain ⟨partSized, tailSized⟩ := List.forall_mem_cons.mp leftSized
          obtain ⟨otherSized, restSized⟩ := List.forall_mem_cons.mp rightSized
          obtain ⟨heads, tails⟩ := List.append_inj same (by rw [partSized, otherSized])
          rw [heads, ih tailSized restSized tails]

theorem merge_shape {t : MergeCoinRequest} (valid : MergeCoinRequest.validate prim (some t) = .ok ()) :
    ∀ address ∈ t.coins.map CoinRef.address, address.length = 32 := by
  simp only [MergeCoinRequest.validate, bind_ok_iff] at valid
  obtain ⟨_, -, _, coins, -⟩ := valid
  intro address member
  obtain ⟨coin, isCoin, same⟩ := List.mem_map.mp member
  obtain ⟨other, isOther, size⟩ := (coin_ref_validate_ok_iff _ _).mp ((wrap_err_ok_iff _ _ _).mp (for_each_ok_iff.mp coins coin isCoin))
  rw [← same, Option.some.inj isOther]
  exact size

theorem merge_same_effect {left right : MergeCoinRequest} (leftValid : MergeCoinRequest.validate a.prim (some left) = .ok ())
    (rightValid : MergeCoinRequest.validate a.prim (some right) = .ok ()) (keys : signerKey left.signature = signerKey right.signature)
    (messages : left.signatureMessage = right.signatureMessage) :
    SameEffect a fuel currentFrameNumber ⟨some (.merge left), leftTime⟩ ⟨some (.merge right), rightTime⟩ := by
  have addresses : left.coins.map CoinRef.address = right.coins.map CoinRef.address :=
    flatten_injective (by decide) (merge_shape leftValid) (merge_shape rightValid)
      (List.append_cancel_left messages)
  have coins : left.coins = right.coins :=
    List.map_injective_iff.mpr (fun first second same => by cases first; cases second; exact congrArg CoinRef.mk same) addresses
  apply (coin_same_effect_iff a fuel currentFrameNumber rfl rfl rfl rfl).mpr
  intro _
  rw [handleMerge, handleMerge, leftValid, rightValid, coins, signer_addresses_congr a.prim keys]

end Merge

section Mint

variable (a : TokenApplication)

-- The signature itself only shows in the proof that a mint of the beacon leaves.
structure MintAlike (left right : MintCoinRequest) : Prop where
  leftValid : MintCoinRequest.validate a.prim (some left) = .ok ()
  rightValid : MintCoinRequest.validate a.prim (some right) = .ok ()
  keys : signerKey left.signature = signerKey right.signature
  proofs : left.proofs = right.proofs
  single : left.proofs.length = 1 → left.signature = right.signature

variable {left right : MintCoinRequest} (alike : MintAlike a left right)
include alike

theorem select_pre2_alike : selectPre2 a seen left = selectPre2 a seen right := by
  rw [selectPre2, selectPre2, alike.keys, alike.proofs]

theorem ring_and_parallelism_alike {σ : Type} {ringCalc : σ → Bytes → Go (Int × σ)} {state : σ} :
    ringAndParallelism a.prim left ringCalc state = ringAndParallelism a.prim right ringCalc state := by
  have parallelism : mintParallelism left = mintParallelism right := by rw [mintParallelism, mintParallelism, alike.proofs]
  rw [ringAndParallelism, ringAndParallelism, alike.keys, parallelism]

theorem select_chain_alike : selectChain a currentFrameNumber seen left = selectChain a currentFrameNumber seen right := by
  rw [selectChain, selectChain, alike.proofs, ring_and_parallelism_alike a alike]

theorem pre_process_mint_alike :
    preProcessMint a fuel currentFrameNumber left frame = preProcessMint a fuel currentFrameNumber right frame := by
  have challenged : isChallenged left = isChallenged right := by
    funext prior unpacked
    rw [isChallenged, isChallenged, alike.proofs]
  have chain : ∀ addr unpack check keptCommitment, preProcessChain a currentFrameNumber left frame addr unpack check keptCommitment =
      preProcessChain a currentFrameNumber right frame addr unpack check keptCommitment := by
    intro addr unpack check keptCommitment
    simp only [preProcessChain, checkChallenge, challenged, alike.proofs]
  have single : ∀ peerId, checkSingleChallenge a fuel peerId left frame = checkSingleChallenge a fuel peerId right frame := by
    intro peerId
    funext newFrame prior parallelism
    rw [checkSingleChallenge, checkSingleChallenge, alike.proofs]
  have multi : ∀ peerId, checkMultiChallenge a fuel peerId left frame = checkMultiChallenge a fuel peerId right frame := by
    intro peerId
    funext newFrame prior parallelism
    rw [checkMultiChallenge, checkMultiChallenge, alike.proofs]
  simp only [preProcessMint, alike.leftValid, alike.rightValid, alike.keys, isBeaconMint, alike.proofs, chain, single, multi]

theorem handle_mint_alike (currentFrameNumber : UInt64) {parallelismMap : Int → UInt64}
    (pre2 : processed.isPre2 = true → left.proofs.length = 1) :
    handleMint a currentFrameNumber left processed parallelismMap = handleMint a currentFrameNumber right processed parallelismMap := by
  have message : left.signatureMessage = right.signatureMessage := by
    rw [MintCoinRequest.signatureMessage, MintCoinRequest.signatureMessage, alike.proofs]
  cases isPre2 : processed.isPre2 with
  | true => simp only [handleMint, handlePre2Mint, alike.single (pre2 isPre2), alike.proofs, mintProof, message]
  | false => simp only [handleMint, isPre2, alike.keys, alike.proofs, mintProof, message, Bool.false_eq_true, if_false]

omit alike in
theorem pre2_single (ran : preProcessMint a fuel currentFrameNumber t frame = .ok processed) (isPre2 : processed.isPre2 = true) :
    t.proofs.length = 1 := by
  have chain : ∀ addr unpack check keptCommitment,
      preProcessChain a currentFrameNumber t frame addr unpack check keptCommitment ≠ .ok processed := by
    intro addr unpack check keptCommitment done
    rcases pre_process_chain_cases done with
      same | ⟨_, _, _, _, -, -, -, -, -, same⟩
    · rw [same] at isPre2
      cases isPre2
    · rw [same] at isPre2
      cases isPre2
  obtain ⟨_, _, _, -, -, -, single | old | new⟩ := pre_process_mint_cases ran
  · exact single.1
  · exact absurd old.2 (chain _ _ _ _)
  · exact absurd new.2 (chain _ _ _ _)

end Mint

section Alone

variable (a : TokenApplication) (fuel : Nat) (currentFrameNumber : UInt64)

def mintChosen (t : MintCoinRequest) : Go (Option Bool) :=
  if t.proofs.length = 1 then do
    let (chosen, _) ← selectPre2 a [] t
    return some chosen
  else if t.proofs.length ≥ 3 ∧ currentFrameNumber > PROOF_FRAME_CUTOFF then do
    let (chosen, _) ← selectChain a currentFrameNumber [] t
    return some chosen
  else .ok none

def mintTally (t : MintCoinRequest) (processed : ProcessedMint) : Go (Option (Int → UInt64)) :=
  if t.proofs.length ≠ 1 ∧ t.proofs.length ≥ 3 ∧ currentFrameNumber > PROOF_FRAME_CUTOFF ∧ processed.validForReward = true then do
    let (found, _) ← ringAndParallelism a.prim t (ringOf a) ()
    return found.map fun entry => Function.update (fun _ => 0) entry.1 (0 + entry.2.toUInt64)
  else .ok (some fun _ => 0)

-- What the passes come to for a lone mint: its outputs, a refusal, or nothing at all.
def mintAlone (frame : ClockFrame) (t : MintCoinRequest) : Go (Option (Option (List TokenOutput))) := do
  match ← mintChosen a currentFrameNumber t with
  | none => return none
  | some false => return some none
  | some true =>
      match ← attempt (preProcessMint a fuel currentFrameNumber t frame) with
      | .error _ => return some none
      | .ok processed =>
          match ← mintTally a currentFrameNumber t processed with
          | none => return some none
          | some parallelismMap =>
              match ← attempt (handleMint a currentFrameNumber t processed parallelismMap) with
              | .error _ => return some none
              | .ok success => return some (some success)

def mintEnd (request : TokenRequest) (skipFailures : Bool) : Option (Option (List TokenOutput)) → Go Applied
  | none => .ok ⟨[], []⟩
  | some none => if skipFailures then .ok ⟨[], [request]⟩ else raise (errInvalidStateTransition.wrap "apply transitions")
  | some (some outputs) => .ok ⟨[(request, outputs)], []⟩

theorem mint_alone_alike (frame : ClockFrame) {left right : MintCoinRequest} (alike : MintAlike a left right) :
    mintAlone a fuel currentFrameNumber frame left = mintAlone a fuel currentFrameNumber frame right := by
  have chosen : mintChosen a currentFrameNumber left = mintChosen a currentFrameNumber right := by
    rw [mintChosen, mintChosen, alike.proofs, select_pre2_alike a alike, select_chain_alike a alike]
  have tally : mintTally a currentFrameNumber left = mintTally a currentFrameNumber right := by
    funext processed
    rw [mintTally, mintTally, alike.proofs, ring_and_parallelism_alike a alike]
  rw [mintAlone, mintAlone, chosen, tally]
  congr 1
  funext chosen
  rcases chosen with _ | _ | _
  · rfl
  · rfl
  · rw [← pre_process_mint_alike a alike]
    rcases ran : preProcessMint a fuel currentFrameNumber left frame with (cause | _ | _) | processed
    · rfl
    · rfl
    · rfl
    · simp only [attempt, ok_bind, handle_mint_alike a alike currentFrameNumber
        (pre2_single a ran)]

def finish (skipFailures : Bool) (slots : List Slot) : Go Applied := do
  let failed := (slots.filter Slot.fails).map Slot.transition
  failIf (failed ≠ [] ∧ skipFailures = false) (errInvalidStateTransition.wrap "apply transitions")
  return ⟨slots.filterMap Slot.receipt, failed⟩

theorem finish_refused {set : Bool} {processed : Option ProcessedMint} :
    finish skipFailures [⟨request, true, set, processed, none⟩] = mintEnd request skipFailures (some none) := by
  cases skipFailures <;> rfl

theorem map_accum_single {σ α β : Type} {step : σ → α → Go (β × σ)} {state : σ} {entry : α} :
    mapAccumM step state [entry] = step state entry >>= fun next => .ok ([next.1], next.2) := by
  rcases ran : step state entry with fault | ⟨out, after⟩ <;> simp [mapAccumM, ran, pure, Except.pure]

def chosenSlot (request : TokenRequest) : Option Bool → Slot
  | none => newSlot request
  | some chosen => ⟨request, !chosen, chosen, none, none⟩

theorem select_mint {β : Type} (rest : Slot → Go β) :
    (selectSlot a currentFrameNumber [] (newSlot ⟨some (.mint t), timestamp⟩) >>= fun next => rest next.1) =
      mintChosen a currentFrameNumber t >>= fun chosen => rest (chosenSlot ⟨some (.mint t), timestamp⟩ chosen) := by
  have isMint : (newSlot ⟨some (.mint t), timestamp⟩).mint = some t := rfl
  have fresh : (newSlot ⟨some (.mint t), timestamp⟩).fails = false := rfl
  simp only [selectSlot, mintChosen, isMint, fresh, Bool.false_eq_true, if_false]
  by_cases single : t.proofs.length = 1
  · rw [if_pos single, if_pos single]
    rcases selectPre2 a [] t with fault | ⟨chosen, after⟩ <;> rfl
  · rw [if_neg single, if_neg single]
    by_cases chain : t.proofs.length ≥ 3 ∧ currentFrameNumber > PROOF_FRAME_CUTOFF
    · rw [if_pos chain, if_pos chain]
      rcases selectChain a currentFrameNumber [] t with fault | ⟨chosen, after⟩ <;> rfl
    · rw [if_neg chain, if_neg chain]
      rfl

theorem tally_mint {β : Type} (rest : Slot × (Int → UInt64) → Go β) :
    (tallySlot a currentFrameNumber (fun _ => 0) ⟨⟨some (.mint t), timestamp⟩, false, true, some processed, none⟩ >>= rest) =
      mintTally a currentFrameNumber t processed >>= fun tally =>
        match tally with
        | none => rest (⟨⟨some (.mint t), timestamp⟩, true, true, some processed, none⟩, fun _ => 0)
        | some parallelismMap => rest (⟨⟨some (.mint t), timestamp⟩, false, true, some processed, none⟩, parallelismMap) := by
  by_cases single : t.proofs.length = 1
  · simp [tallySlot, mintTally, Slot.mint, single]
  · by_cases chain : t.proofs.length ≥ 3 ∧ currentFrameNumber > PROOF_FRAME_CUTOFF
    · cases rewarded : processed.validForReward with
      | false => simp [tallySlot, mintTally, Slot.mint, single, chain, rewarded, pure, Except.pure]
      | true =>
          rcases ran : ringAndParallelism a.prim t (ringOf a) () with fault | ⟨_ | ⟨ring, parallelism⟩, _⟩ <;>
            simp [tallySlot, mintTally, Slot.mint, single, chain, rewarded, ran, pure, Except.pure]
    · have neither : ¬ (t.proofs.length ≠ 1 ∧ t.proofs.length ≥ 3 ∧ currentFrameNumber > PROOF_FRAME_CUTOFF ∧
          processed.validForReward = true) := fun all => chain ⟨all.2.1, all.2.2.1⟩
      rw [mintTally, if_neg neither]
      simp only [tallySlot, Slot.mint, Bool.not_false, Bool.and_self, if_neg single, if_neg chain, ok_bind]

theorem run_mint (valid : MintCoinRequest.validate a.prim (some t) = .ok ()) :
    (runPasses a fuel currentFrameNumber frame [⟨some (.mint t), timestamp⟩] skipFailures >>= finish skipFailures) =
      mintAlone a fuel currentFrameNumber frame t >>= mintEnd ⟨some (.mint t), timestamp⟩ skipFailures := by
  have validated : validateMintSlot a (newSlot ⟨some (.mint t), timestamp⟩) = .ok (newSlot ⟨some (.mint t), timestamp⟩) :=
    validate_mint_slot_valid a _ t rfl valid
  have single : ∀ (step : Slot → Go Slot) (slot : Slot), [slot].mapM step = step slot >>= fun out => .ok [out] := by
    intro step slot
    rcases ran : step slot with fault | out <;> simp [ran, pure, Except.pure]
  simp only [runPasses, mintAlone, List.map_cons, List.map_nil, single, map_accum_single, validated, ok_bind, bind_assoc]
  apply (select_mint a currentFrameNumber fun slot => do
    let handled ← handleSlot a currentFrameNumber skipFailures [] slot
    let processed ← preProcessSlot a fuel currentFrameNumber frame handled.1
    let tallied ← tallySlot a currentFrameNumber (fun _ => 0) processed
    let minted ← mintSlot a currentFrameNumber tallied.2 tallied.1
    finish skipFailures [minted]).trans
  congr 1
  funext chosen
  rcases chosen with _ | _ | _
  · rfl
  · exact finish_refused
  · rw [chosenSlot, handle_slot_mint a currentFrameNumber skipFailures [] _ t rfl, ok_bind]
    rcases ran : preProcessMint a fuel currentFrameNumber t frame with (cause | _ | _) | processed
    · simp only [preProcessSlot, Slot.mint, ran, attempt, ok_bind]
      exact finish_refused
    · simp only [preProcessSlot, Slot.mint, ran, attempt]
      rfl
    · simp only [preProcessSlot, Slot.mint, ran, attempt]
      rfl
    · rw [pre_process_slot_ran frame _ t rfl rfl ran, ok_bind]
      apply (tally_mint a currentFrameNumber fun tallied => do
        let minted ← mintSlot a currentFrameNumber tallied.2 tallied.1
        finish skipFailures [minted]).trans
      simp only [attempt, ok_bind, bind_assoc]
      congr 1
      funext tally
      rcases tally with _ | parallelismMap
      · exact finish_refused
      · rcases minted : handleMint a currentFrameNumber t processed parallelismMap with (cause | _ | _) | success
        · simp only [mintSlot, Slot.mint, deref, minted, attempt, Bool.not_false, Bool.and_self, ok_bind]
          exact finish_refused
        · simp only [mintSlot, Slot.mint, deref, minted, attempt, Bool.not_false, Bool.and_self, ok_bind]
          rfl
        · simp only [mintSlot, Slot.mint, deref, minted, attempt, Bool.not_false, Bool.and_self, ok_bind]
          rfl
        · simp only [mintSlot, Slot.mint, deref, minted, attempt, Bool.not_false, Bool.and_self, ok_bind]
          rfl

theorem apply_mint (timestamp : Int64) (skipFailures : Bool) (valid : MintCoinRequest.validate a.prim (some t) = .ok ()) :
    applyTransitions a fuel currentFrameNumber [⟨some (.mint t), timestamp⟩] skipFailures =
      previousFrame a currentFrameNumber >>= fun frame =>
        mintAlone a fuel currentFrameNumber frame t >>= mintEnd ⟨some (.mint t), timestamp⟩ skipFailures := by
  simp only [applyTransitions, previousFrame, bind_assoc, order_single, ok_bind]
  congr 1
  funext filter
  congr 1
  funext frame
  exact run_mint a fuel currentFrameNumber valid

theorem mint_end_fate {minted : Option (Option (List TokenOutput))} :
    fate (mintEnd request skipFailures minted) = fate (mintEnd other skipFailures minted) := by
  rcases minted with _ | _ | outputs <;> cases skipFailures <;> rfl

theorem mint_same_effect {left right : MintCoinRequest} (alike : MintAlike a left right) :
    SameEffect a fuel currentFrameNumber ⟨some (.mint left), leftTime⟩ ⟨some (.mint right), rightTime⟩ := by
  intro skipFailures
  rw [apply_mint a fuel currentFrameNumber leftTime skipFailures alike.leftValid,
    apply_mint a fuel currentFrameNumber rightTime skipFailures alike.rightValid]
  cases previousFrame a currentFrameNumber with
  | error fault => rfl
  | ok frame =>
      rw [ok_bind, ok_bind, mint_alone_alike a fuel currentFrameNumber frame alike]
      cases mintAlone a fuel currentFrameNumber frame right with
      | error fault => rfl
      | ok minted => exact mint_end_fate

end Alone

-- Two valid requests of one kind under one key, with the same signed bytes.
def SignedAlike (prim : Primitives) : Request → Request → Prop
  | .transfer left, .transfer right =>
      TransferCoinRequest.validate prim (some left) = .ok () ∧ TransferCoinRequest.validate prim (some right) = .ok () ∧
        signerKey left.signature = signerKey right.signature ∧ left.signatureMessage = right.signatureMessage
  | .split left, .split right =>
      SplitCoinRequest.validate prim (some left) = .ok () ∧ SplitCoinRequest.validate prim (some right) = .ok () ∧
        signerKey left.signature = signerKey right.signature ∧ left.signatureMessage = right.signatureMessage
  | .merge left, .merge right =>
      MergeCoinRequest.validate prim (some left) = .ok () ∧ MergeCoinRequest.validate prim (some right) = .ok () ∧
        signerKey left.signature = signerKey right.signature ∧ left.signatureMessage = right.signatureMessage
  | .mint left, .mint right =>
      MintCoinRequest.validate prim (some left) = .ok () ∧ MintCoinRequest.validate prim (some right) = .ok () ∧
        signerKey left.signature = signerKey right.signature ∧ left.signatureMessage = right.signatureMessage
  | _, _ => False

-- What is acted on but not signed: the rest of the receiver's account, the boundaries between amounts or proofs, a
-- beacon's signature.
def UnsignedAlike (a : TokenApplication) (currentFrameNumber : UInt64) : Request → Request → Prop
  | .transfer left, .transfer right =>
      (∃ frame, previousFrame a currentFrameNumber = .ok frame) →
        (∃ coin source, left.ofCoin = some coin ∧ transferSource a left.signature coin.address = .ok source) →
          left.toAccount = right.toAccount
  | .split left, .split right =>
      (∃ frame, previousFrame a currentFrameNumber = .ok frame) →
        ∀ ofCoin, left.ofCoin = some ofCoin → ∀ coin, splitSource a left.signature ofCoin.address = .ok coin →
          SplitAlike coin left.amounts right.amounts
  | .merge _, .merge _ => True
  | .mint left, .mint right => left.proofs = right.proofs ∧ (left.proofs.length = 1 → left.signature = right.signature)
  | _, _ => False

-- The fields that no handler reads may differ.
def sampleTransferTo (account : ImplicitAccount) (expiry : Int64) : TransferCoinRequest :=
  let message := ascii ['t', 'r', 'a', 'n', 's', 'f', 'e', 'r'] ++ sampleCoinAddress ++ account.address
  ⟨some ⟨some (.implicitAccount account)⟩, none, some ⟨sampleCoinAddress⟩, expiry, none, none, sampleSignature message⟩

def sampleSplitInto (amounts : List Bytes) : SplitCoinRequest :=
  ⟨some ⟨sampleCoinAddress⟩, amounts, none, none,
    sampleSignature (ascii ['s', 'p', 'l', 'i', 't'] ++ sampleCoinAddress ++ amounts.flatten)⟩

def sampleMintOf (proofs : List Bytes) : MintCoinRequest :=
  ⟨proofs, none, sampleSignature (ascii ['m', 'i', 'n', 't'] ++ proofs.flatten)⟩

end Ceremony
