import CeremonyClient.Lib.Panics
import CeremonyClient.Protobufs.Validation

set_option autoImplicit false

namespace Ceremony

open GoSem

variable {signature : Option Ed448Signature} {c : ClockFrameFragment}

theorem returned_calm {α : Type} {result : Except GoError α} : Calm (returned result) := by
  cases result <;> simp [returned]

section Validators

variable (prim : Primitives)

theorem verify_unsafe_calm_iff {message : Bytes} :
    Calm (verifyUnsafe prim signature message) ↔ ∃ s key, signature = some s ∧ s.publicKey = some key := by
  rcases signature with _ | ⟨bytes, _ | key⟩ <;> simp [verifyUnsafe]

theorem signature_validate_calm : Calm (Ed448Signature.validate signature) := by
  rcases signature with _ | ⟨bytes, _ | key⟩ <;>
    simp [Ed448Signature.validate, Ed448PublicKey.validate, calm_bind_iff]

theorem sized_signature_calm (signature : Option Ed448Signature) (message : Bytes)
    (sized : Ed448Signature.validate signature = .ok ()) : Calm (verifyUnsafe prim signature message) := by
  obtain ⟨bytes, key, shape, -, -⟩ := ed448_signature_validate_ok_iff.mp sized
  exact (verify_unsafe_calm_iff prim).mpr ⟨_, _, shape, rfl⟩

theorem coin_ref_validate_calm {coin : Option CoinRef} : Calm (CoinRef.validate coin) := by
  cases coin <;> simp [CoinRef.validate]

theorem account_ref_validate_calm {account : Option AccountRef} : Calm (AccountRef.validate account) := by
  rcases account with _ | ⟨_ | ⟨account⟩ | ⟨account⟩⟩ <;>
    simp [AccountRef.validate, getImplicitAccount, getOriginatedAccount, ImplicitAccount.validate, OriginatedAccountRef.validate]

-- The receiver of a transfer may be an originated account for the validator, but the signed
-- message reads an implicit one.
def OriginatedTransfer (t : TransferCoinRequest) : Prop :=
  (∃ account, t.toAccount = some ⟨some (.originatedAccount account)⟩ ∧ account.address.length = 32) ∧
    CoinRef.validate t.ofCoin = .ok () ∧ Ed448Signature.validate t.signature = .ok ()

theorem account_ref_validate_ok_iff (account : Option AccountRef) (value : Unit) :
    AccountRef.validate account = .ok value ↔
      (∃ implicit, account = some ⟨some (.implicitAccount implicit)⟩ ∧ implicit.address.length = 32) ∨
      (∃ originated, account = some ⟨some (.originatedAccount originated)⟩ ∧ originated.address.length = 32) := by
  rcases account with _ | ⟨_ | ⟨account⟩ | ⟨account⟩⟩ <;>
    simp [AccountRef.validate, getImplicitAccount, getOriginatedAccount, ImplicitAccount.validate, OriginatedAccountRef.validate,
      wrap_err_ok_iff, fail_if_ok_iff, raise]

theorem transfer_validate_calm_iff (t : TransferCoinRequest) :
    Calm (TransferCoinRequest.validate prim (some t)) ↔ ¬ OriginatedTransfer t := by
  simp only [TransferCoinRequest.validate, TransferCoinRequest.validateSignature, TransferCoinRequest.signatureMessage,
    calm_bind_iff, calm_wrap_err_iff, wrap_err_ok_iff, account_ref_validate_calm, coin_ref_validate_calm, signature_validate_calm,
    true_and, calm_deref_iff, implicitAddress, calm_pure, implies_true, and_true]
  constructor
  · rintro calm ⟨⟨account, isOriginated, size⟩, ofCoin, sized⟩
    have receiver := (account_ref_validate_ok_iff t.toAccount ()).mpr (.inr ⟨account, isOriginated, size⟩)
    obtain ⟨⟨coin, reads⟩, -⟩ := calm () receiver () ofCoin () sized
    obtain ⟨address, isCoin, -⟩ := (coin_ref_validate_ok_iff _ _).mp ofCoin
    have implicit := reads ⟨address⟩ (by rw [isCoin, deref_some])
    rw [isOriginated] at implicit
    cases implicit
  · intro implicit _ receiver _ ofCoin _ sized
    obtain ⟨address, isCoin, -⟩ := (coin_ref_validate_ok_iff _ _).mp ofCoin
    rcases (account_ref_validate_ok_iff _ _).mp receiver with ⟨account, isImplicit, -⟩ | ⟨account, isOriginated, size⟩
    · refine ⟨⟨by rw [isCoin]; rfl, fun _ _ => by rw [isImplicit]; rfl⟩, fun _ _ => ?_⟩
      exact sized_signature_calm prim _ _ sized
    · exact absurd ⟨⟨account, isOriginated, size⟩, ofCoin, sized⟩ implicit

theorem split_validate_calm {t : SplitCoinRequest} : Calm (SplitCoinRequest.validate prim (some t)) := by
  simp only [SplitCoinRequest.validate, SplitCoinRequest.validateSignature, SplitCoinRequest.signatureMessage, validateAmounts,
    calm_bind_iff, calm_wrap_err_iff, wrap_err_ok_iff, coin_ref_validate_calm, signature_validate_calm, calm_fail_if, true_and,
    calm_deref_iff, calm_pure, implies_true, and_true]
  intro _ ofCoin
  obtain ⟨address, isCoin, -⟩ := (coin_ref_validate_ok_iff _ _).mp ofCoin
  refine ⟨fun _ _ => calm_for_each fun _ _ => calm_fail_if, fun _ _ _ sized => ⟨by rw [isCoin]; rfl, fun _ _ => ?_⟩⟩
  exact sized_signature_calm prim _ _ sized

theorem merge_validate_calm {t : MergeCoinRequest} : Calm (MergeCoinRequest.validate prim (some t)) := by
  simp only [MergeCoinRequest.validate, MergeCoinRequest.validateSignature, calm_bind_iff, calm_wrap_err_iff, wrap_err_ok_iff,
    signature_validate_calm, calm_fail_if, true_and]
  refine fun _ _ => ⟨calm_for_each fun _ _ => ?_, fun _ _ _ sized => sized_signature_calm prim _ _ sized⟩
  exact (calm_wrap_err_iff _ _).mpr coin_ref_validate_calm

theorem mint_validate_calm {t : MintCoinRequest} : Calm (MintCoinRequest.validate prim (some t)) := by
  simp only [MintCoinRequest.validate, MintCoinRequest.validateSignature, calm_bind_iff, calm_wrap_err_iff, wrap_err_ok_iff,
    signature_validate_calm, calm_fail_if, true_and]
  exact fun _ _ _ sized => sized_signature_calm prim _ _ sized

theorem announce_validate_calm {t : AnnounceProverRequest} : Calm (AnnounceProverRequest.validate prim (some t)) := by
  simp only [AnnounceProverRequest.validate, AnnounceProverRequest.validateSignature, calm_bind_iff, calm_wrap_err_iff,
    calm_fail_if, true_and, fail_if_ok_iff, for_each_ok_iff, wrap_err_ok_iff]
  refine fun _ nonempty => ⟨calm_for_each fun _ _ => (calm_wrap_err_iff _ _).mpr signature_validate_calm, fun _ sized => ?_⟩
  cases signatures : t.publicKeySignaturesEd448 with
  | nil => exact absurd (by rw [signatures]; rfl) nonempty
  | cons primary others =>
      rw [signatures] at sized
      obtain ⟨primarySized, othersSized⟩ := List.forall_mem_cons.mp sized
      obtain ⟨primaryBytes, primaryKey, primaryShape, -, -⟩ := ed448_signature_validate_ok_iff.mp primarySized
      cases primaryShape
      have payload : Calm (others.foldlM (fun payload p => do
          let publicKey ← deref p.publicKey
          let primaryKey ← deref (some (⟨primaryKey⟩ : Ed448PublicKey))
          wrapErr "validate signature" (verifyUnsafe prim (some p) primaryKey.keyValue)
          return payload ++ publicKey.keyValue) []) := by
        apply calm_fold
        intro p member payload
        obtain ⟨bytes, key, shape, -, -⟩ := ed448_signature_validate_ok_iff.mp (othersSized p member)
        cases shape
        simp only [deref_some, ok_bind, calm_bind_iff, calm_wrap_err_iff, verify_unsafe_calm_iff, calm_pure, implies_true, and_true]
        exact ⟨_, _, rfl, rfl⟩
      refine ⟨by simp, fun first isFirst => ⟨by simp [sliceFrom], fun rest isRest => ?_⟩⟩
      cases isFirst
      cases isRest
      exact ⟨payload, fun _ _ => (verify_unsafe_calm_iff prim).mpr ⟨_, _, rfl, rfl⟩⟩

theorem join_validate_calm {t : AnnounceProverJoin} : Calm (AnnounceProverJoin.validate prim (some t)) := by
  have signed : Calm (do
      wrapErr "public key signature" (Ed448Signature.validate t.publicKeySignatureEd448)
      wrapErr "signature" (t.validateSignature prim)) := by
    simp only [AnnounceProverJoin.validateSignature, calm_bind_iff, calm_wrap_err_iff, wrap_err_ok_iff, signature_validate_calm, true_and]
    exact fun _ sized => sized_signature_calm prim _ _ sized
  rw [AnnounceProverJoin.validate, calm_bind_iff]
  refine ⟨calm_fail_if, fun _ _ => ?_⟩
  cases t.announce with
  | none => exact signed
  | some announce =>
      exact calm_bind_iff.mpr ⟨(calm_wrap_err_iff _ _).mpr (announce_validate_calm prim), fun _ _ => signed⟩

theorem change_validate_calm {nilText : String} {message : AnnounceProverChange → Bytes} {t : AnnounceProverChange} :
    Calm (validateChange prim nilText message (some t)) := by
  simp only [validateChange, calm_bind_iff, calm_wrap_err_iff, wrap_err_ok_iff, signature_validate_calm, calm_fail_if, true_and]
  exact fun _ _ _ sized => sized_signature_calm prim _ _ sized

theorem token_request_validate_calm_iff (t : TokenRequest) :
    Calm (TokenRequest.validate prim (some t)) ↔ ∀ transfer, t.request = some (.transfer transfer) → ¬ OriginatedTransfer transfer := by
  obtain ⟨request, timestamp⟩ := t
  rcases request with _ | ⟨t⟩ | ⟨t⟩ | ⟨t⟩ | ⟨t⟩ | ⟨t⟩ | ⟨t⟩ | ⟨t⟩ | ⟨t⟩ | ⟨t⟩ <;>
    simp [TokenRequest.validate, transfer_validate_calm_iff, split_validate_calm, merge_validate_calm, mint_validate_calm,
      announce_validate_calm, join_validate_calm, validateLeave, validatePause, validateResume, change_validate_calm]

def CheckedFragment (c : ClockFrameFragment) : Prop :=
  c.filter.length = 32 ∧ c.timestamp ≠ 0 ∧ 28 ≤ c.frameHash.length ∧ c.frameHash.length ≤ 64 ∧
    ∃ encoding, c.reedSolomon = some encoding ∧ ReedSolomonEncoding.validate (some encoding) = .ok ()

theorem reed_solomon_validate_calm {encoding : Option ReedSolomonEncoding} : Calm (ReedSolomonEncoding.validate encoding) := by
  cases encoding <;> simp [ReedSolomonEncoding.validate, calm_bind_iff]

theorem fragment_signature_calm_iff :
    Calm (c.validateSignature prim) ↔
      ∀ signature, c.publicKeySignatureEd448 = some signature → signature.publicKey.isSome := by
  cases signed : c.publicKeySignatureEd448 with
  | none => simp [ClockFrameFragment.validateSignature, signed]
  | some signature => simp [ClockFrameFragment.validateSignature, signed, verify_unsafe_calm_iff, Option.isSome_iff_exists]

theorem fragment_validate_calm_iff :
    Calm (ClockFrameFragment.validate prim (some c)) ↔
      (CheckedFragment c → ∀ signature, c.publicKeySignatureEd448 = some signature → signature.publicKey.isSome) := by
  rw [← fragment_signature_calm_iff prim]
  cases encoded : c.reedSolomon with
  | none => simp [ClockFrameFragment.validate, CheckedFragment, encoded, calm_bind_iff]
  | some encoding =>
      simp only [ClockFrameFragment.validate, CheckedFragment, encoded, calm_bind_iff, calm_fail_if, calm_wrap_err_iff,
        reed_solomon_validate_calm, true_and, fail_if_ok_iff, wrap_err_ok_iff, not_not, not_or, not_lt, gt_iff_lt]
      constructor
      · rintro calm ⟨filter, timestamp, short, long, _, isEncoding, valid⟩
        cases isEncoding
        exact calm () filter () timestamp () ⟨short, long⟩ () valid
      · intro calm _ filter _ timestamp _ hash _ valid
        exact calm ⟨filter, timestamp, hash.1, hash.2, encoding, rfl, valid⟩

theorem fragment_validate_signed (valid : ClockFrameFragment.validate prim (some c) = .ok ()) :
    ∃ bytes key, c.publicKeySignatureEd448 = some ⟨bytes, some ⟨key⟩⟩ := by
  simp only [ClockFrameFragment.validate, bind_ok_iff] at valid
  obtain ⟨_, -, _, -, _, -, verified⟩ := valid
  have signed : c.validateSignature prim = .ok () := by
    cases encoded : c.reedSolomon with
    | none => simp [encoded, raise] at verified
    | some encoding =>
        simp only [encoded, bind_ok_iff, wrap_err_ok_iff] at verified
        obtain ⟨_, -, signed⟩ := verified
        exact signed
  cases signature : c.publicKeySignatureEd448 with
  | none => simp [ClockFrameFragment.validateSignature, signature, raise] at signed
  | some signature' =>
      simp only [ClockFrameFragment.validateSignature, signature, wrap_err_ok_iff, verify_unsafe_ok_iff] at signed
      obtain ⟨bytes, key, shape, -⟩ := signed
      exact ⟨bytes, key, shape⟩

end Validators

end Ceremony
