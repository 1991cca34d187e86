import CeremonyClient.Protobufs.Messages
import CeremonyClient.Protobufs.Primitives

set_option autoImplicit false

namespace Ceremony

open GoSem

variable {prim : Primitives} {signature : Option Ed448Signature} {message : Bytes} {value : Unit}

def verifyUnsafe (prim : Primitives) (signature : Option Ed448Signature) (msg : Bytes) : Go Unit := do
  let s ← deref signature
  let publicKey ← deref s.publicKey
  failIf (prim.ed448Verify publicKey.keyValue msg s.signature = false)
    ((errorsNew "invalid signature for public key").wrap "verify")

def ReedSolomonEncoding.signatureMessage (prim : Primitives) (c : ReedSolomonEncoding) : Bytes :=
  let payload := ascii ['r', 'e', 'e', 'd', '-', 's', 'o', 'l', 'o', 'm', 'o', 'n', '-',
    'f', 'r', 'a', 'g', 'm', 'e', 'n', 't']
  let payload := appendUint64 payload c.frameSize
  let payload := appendUint64 payload c.fragmentShard
  let payload := appendUint64 payload c.fragmentDataShardCount
  let payload := appendUint64 payload c.fragmentParityShardCount
  payload ++ (prim.sha256Sum256 c.fragmentData).bytes

def ClockFrameFragment.signatureMessage (prim : Primitives) (c : ClockFrameFragment) : Bytes :=
  let payload := ascii ['f', 'r', 'a', 'g', 'm', 'e', 'n', 't']
  let payload := appendUint64 payload c.frameNumber
  let payload := payload ++ c.filter
  let payload := appendUint64 payload c.timestamp.toUInt64
  let payload := payload ++ c.frameHash
  match c.reedSolomon with
  | some reedSolomon => payload ++ reedSolomon.signatureMessage prim
  | none => payload

def TransferCoinRequest.signatureMessage (t : TransferCoinRequest) : Go Bytes := do
  let ofCoin ← deref t.ofCoin
  let address ← implicitAddress t.toAccount
  return ascii ['t', 'r', 'a', 'n', 's', 'f', 'e', 'r'] ++ ofCoin.address ++ address

def SplitCoinRequest.signatureMessage (t : SplitCoinRequest) : Go Bytes := do
  let ofCoin ← deref t.ofCoin
  return ascii ['s', 'p', 'l', 'i', 't'] ++ ofCoin.address ++ t.amounts.flatten

def MergeCoinRequest.signatureMessage (t : MergeCoinRequest) : Bytes :=
  ascii ['m', 'e', 'r', 'g', 'e'] ++ (t.coins.map CoinRef.address).flatten

def MintCoinRequest.signatureMessage (t : MintCoinRequest) : Bytes :=
  ascii ['m', 'i', 'n', 't'] ++ t.proofs.flatten

-- join, leave, pause and resume sign their own word, the frame number and the filter.
def changeMessage (word : List Char) (frameNumber : UInt64) (filter : Bytes) : Bytes :=
  appendUint64 (ascii word) frameNumber ++ filter

def AnnounceProverJoin.signatureMessage (t : AnnounceProverJoin) : Bytes :=
  changeMessage ['j', 'o', 'i', 'n'] t.frameNumber t.filter

def leaveMessage (t : AnnounceProverChange) : Bytes :=
  changeMessage ['l', 'e', 'a', 'v', 'e'] t.frameNumber t.filter

def pauseMessage (t : AnnounceProverChange) : Bytes :=
  changeMessage ['p', 'a', 'u', 's', 'e'] t.frameNumber t.filter

def resumeMessage (t : AnnounceProverChange) : Bytes :=
  changeMessage ['r', 'e', 's', 'u', 'm', 'e'] t.frameNumber t.filter

def ClockFrameFragment.validateSignature (prim : Primitives) (c : ClockFrameFragment) : Go Unit :=
  match c.publicKeySignatureEd448 with
  | some signature => wrapErr "validate signature" (verifyUnsafe prim (some signature) (c.signatureMessage prim))
  | none => raise (errorsNew "invalid signature")

def TransferCoinRequest.validateSignature (prim : Primitives) (t : TransferCoinRequest) : Go Unit := do
  let message ← t.signatureMessage
  wrapErr "validate signature" (verifyUnsafe prim t.signature message)

def SplitCoinRequest.validateSignature (prim : Primitives) (t : SplitCoinRequest) : Go Unit := do
  let message ← t.signatureMessage
  wrapErr "validate signature" (verifyUnsafe prim t.signature message)

def MergeCoinRequest.validateSignature (prim : Primitives) (t : MergeCoinRequest) : Go Unit :=
  wrapErr "validate signature" (verifyUnsafe prim t.signature t.signatureMessage)

def MintCoinRequest.validateSignature (prim : Primitives) (t : MintCoinRequest) : Go Unit :=
  wrapErr "validate signature" (verifyUnsafe prim t.signature t.signatureMessage)

-- Every later signer signs the first signer's key, and the first signer signs the
-- concatenated keys of the later ones.
def AnnounceProverRequest.validateSignature (prim : Primitives) (t : AnnounceProverRequest) : Go Unit := do
  let primary ← index t.publicKeySignaturesEd448 0
  let others ← sliceFrom t.publicKeySignaturesEd448 1
  let payload ← others.foldlM (fun payload p => do
    let publicKey ← deref p.publicKey
    let primaryKey ← deref primary.publicKey
    wrapErr "validate signature" (verifyUnsafe prim (some p) primaryKey.keyValue)
    return payload ++ publicKey.keyValue) []
  wrapErr "validate signature" (verifyUnsafe prim (some primary) payload)

def AnnounceProverJoin.validateSignature (prim : Primitives) (t : AnnounceProverJoin) : Go Unit :=
  wrapErr "validate signature" (verifyUnsafe prim t.publicKeySignatureEd448 t.signatureMessage)

def ReedSolomonEncoding.validate (encoding : Option ReedSolomonEncoding) : Go Unit :=
  match encoding with
  | none => raise (errorsNew "nil Reed-Solomon encoding")
  | some c => do
      failIf (c.frameSize = 0) (errorsNew "invalid frame size")
      failIf (c.fragmentDataShardCount = 0) (errorsNew "invalid fragment data shard count")
      failIf (c.fragmentParityShardCount = 0) (errorsNew "invalid fragment parity shard count")
      failIf (c.fragmentShard ≥ c.fragmentDataShardCount + c.fragmentParityShardCount) (errorsNew "invalid fragment shard")
      failIf (c.fragmentData.length = 0) (errorsNew "invalid fragment data")

def ClockFrameFragment.validate (prim : Primitives) (fragment : Option ClockFrameFragment) : Go Unit :=
  match fragment with
  | none => raise (errorsNew "nil clock frame fragment")
  | some c => do
      failIf (c.filter.length ≠ 32) (errorsNew "invalid filter")
      failIf (c.timestamp = 0) (errorsNew "invalid timestamp")
      failIf (c.frameHash.length < 28 ∨ c.frameHash.length > 64) (errorsNew "invalid frame hash")
      match c.reedSolomon with
      | some encoding => wrapErr "reed-solomon encoding" (ReedSolomonEncoding.validate (some encoding))
      | none => raise (errorsNew "missing encoding")
      wrapErr "signature" (c.validateSignature prim)

def Ed448PublicKey.validate (publicKey : Option Ed448PublicKey) : Go Unit :=
  match publicKey with
  | none => raise (errorsNew "nil Ed448 public key")
  | some e => failIf (e.keyValue.length ≠ 57) (errorsNew "invalid Ed448 public key")

def Ed448Signature.validate (signature : Option Ed448Signature) : Go Unit :=
  match signature with
  | none => raise (errorsNew "nil Ed448 signature")
  | some e => do
      wrapErr "public key" (Ed448PublicKey.validate e.publicKey)
      failIf (e.signature.length ≠ 114) (errorsNew "invalid Ed448 signature")

def ImplicitAccount.validate (account : Option ImplicitAccount) : Go Unit :=
  match account with
  | none => raise (errorsNew "nil implicit account")
  | some i => failIf (i.address.length ≠ 32) (errorsNew "invalid implicit account")

def OriginatedAccountRef.validate (account : Option OriginatedAccountRef) : Go Unit :=
  match account with
  | none => raise (errorsNew "nil originated account")
  | some o => failIf (o.address.length ≠ 32) (errorsNew "invalid originated account")

def AccountRef.validate (account : Option AccountRef) : Go Unit :=
  match account with
  | none => raise (errorsNew "nil account reference")
  | some a =>
      match getImplicitAccount (some a) with
      | some i => wrapErr "implicit account" (ImplicitAccount.validate (some i))
      | none =>
          match getOriginatedAccount (some a) with
          | some o => wrapErr "originated account" (OriginatedAccountRef.validate (some o))
          | none => raise (errorsNew "invalid account reference")

def CoinRef.validate (coin : Option CoinRef) : Go Unit :=
  match coin with
  | none => raise (errorsNew "nil coin reference")
  | some c => failIf (c.address.length ≠ 32) (errorsNew "invalid coin reference")

def TransferCoinRequest.validate (prim : Primitives) (request : Option TransferCoinRequest) : Go Unit :=
  match request with
  | none => raise (errorsNew "nil transfer coin request")
  | some t => do
      wrapErr "to account" (AccountRef.validate t.toAccount)
      wrapErr "of coin" (CoinRef.validate t.ofCoin)
      wrapErr "signature" (Ed448Signature.validate t.signature)
      wrapErr "signature" (t.validateSignature prim)

def validateAmounts (amounts : List Bytes) : Go Unit := do
  failIf (amounts.length = 0 ∨ amounts.length > 100) (errorsNew "invalid amounts")
  amounts.forM fun a => failIf (a.length = 0 ∨ a.length > 32) (errorsNew "invalid amount")

def SplitCoinRequest.validate (prim : Primitives) (request : Option SplitCoinRequest) : Go Unit :=
  match request with
  | none => raise (errorsNew "nil split coin request")
  | some t => do
      wrapErr "of coin" (CoinRef.validate t.ofCoin)
      validateAmounts t.amounts
      wrapErr "signature" (Ed448Signature.validate t.signature)
      wrapErr "signature" (t.validateSignature prim)

def MergeCoinRequest.validate (prim : Primitives) (request : Option MergeCoinRequest) : Go Unit :=
  match request with
  | none => raise (errorsNew "nil merge coin request")
  | some t => do
      failIf (t.coins.length = 0) (errorsNew "invalid coins")
      t.coins.forM fun c => wrapErr "coin" (CoinRef.validate (some c))
      wrapErr "signature" (Ed448Signature.validate t.signature)
      wrapErr "signature" (t.validateSignature prim)

def MintCoinRequest.validate (prim : Primitives) (request : Option MintCoinRequest) : Go Unit :=
  match request with
  | none => raise (errorsNew "nil mint coin request")
  | some t => do
      failIf (t.proofs.length = 0) (errorsNew "invalid proofs")
      wrapErr "signature" (Ed448Signature.validate t.signature)
      wrapErr "signature" (t.validateSignature prim)

def AnnounceProverRequest.validate (prim : Primitives) (request : Option AnnounceProverRequest) : Go Unit :=
  match request with
  | none => raise (errorsNew "nil announce prover request")
  | some t => do
      failIf (t.publicKeySignaturesEd448.length = 0) (errorsNew "invalid public key signatures")
      t.publicKeySignaturesEd448.forM fun p => wrapErr "public key signature" (Ed448Signature.validate (some p))
      wrapErr "signature" (t.validateSignature prim)

def AnnounceProverJoin.validate (prim : Primitives) (request : Option AnnounceProverJoin) : Go Unit :=
  match request with
  | none => raise (errorsNew "nil announce prover join")
  | some t => do
      failIf (t.filter.length ≠ 32) (errorsNew "invalid filter")
      match t.announce with
      | some announce => wrapErr "announce" (AnnounceProverRequest.validate prim (some announce))
      | none => .ok ()
      wrapErr "public key signature" (Ed448Signature.validate t.publicKeySignatureEd448)
      wrapErr "signature" (t.validateSignature prim)

-- The leave, pause and resume checks differ in the nil text and the signed message.
def validateChange (prim : Primitives) (nilText : String) (message : AnnounceProverChange → Bytes)
    (request : Option AnnounceProverChange) : Go Unit :=
  match request with
  | none => raise (errorsNew nilText)
  | some t => do
      failIf (t.filter.length ≠ 32) (errorsNew "invalid filter")
      wrapErr "public key signature" (Ed448Signature.validate t.publicKeySignatureEd448)
      wrapErr "signature" (wrapErr "validate signature" (verifyUnsafe prim t.publicKeySignatureEd448 (message t)))

def validateLeave (prim : Primitives) (request : Option AnnounceProverChange) : Go Unit :=
  validateChange prim "nil announce prover leave" leaveMessage request

def validatePause (prim : Primitives) (request : Option AnnounceProverChange) : Go Unit :=
  validateChange prim "nil announce prover pause" pauseMessage request

def validateResume (prim : Primitives) (request : Option AnnounceProverChange) : Go Unit :=
  validateChange prim "nil announce prover resume" resumeMessage request

def TokenRequest.validate (prim : Primitives) (request : Option TokenRequest) : Go Unit :=
  match request with
  | none => raise (errorsNew "nil token request")
  | some t =>
      match t.request with
      | some (.transfer r) => TransferCoinRequest.validate prim (some r)
      | some (.split r) => SplitCoinRequest.validate prim (some r)
      | some (.merge r) => MergeCoinRequest.validate prim (some r)
      | some (.mint r) => MintCoinRequest.validate prim (some r)
      | some (.announce r) => AnnounceProverRequest.validate prim (some r)
      | some (.join r) => AnnounceProverJoin.validate prim (some r)
      | some (.leave r) => validateLeave prim (some r)
      | some (.pause r) => validatePause prim (some r)
      | some (.resume r) => validateResume prim (some r)
      | none => .ok ()

def SignedBy (prim : Primitives) (signature : Option Ed448Signature) (message key : Bytes) : Prop :=
  ∃ bytes, signature = some ⟨bytes, some ⟨key⟩⟩ ∧ bytes.length = 114 ∧ key.length = 57 ∧
    prim.ed448Verify key message bytes = true

theorem verify_unsafe_ok_iff :
    verifyUnsafe prim signature message = .ok value ↔
      ∃ bytes key, signature = some ⟨bytes, some ⟨key⟩⟩ ∧ prim.ed448Verify key message bytes = true := by
  rcases signature with _ | ⟨bytes, _ | ⟨⟨key⟩⟩⟩
  · simp [verifyUnsafe, crash]
  · simp [verifyUnsafe, crash]
  · simp [verifyUnsafe, fail_if_ok_iff]

theorem ed448_signature_validate_ok_iff :
    Ed448Signature.validate signature = .ok value ↔
      ∃ bytes key, signature = some ⟨bytes, some ⟨key⟩⟩ ∧ bytes.length = 114 ∧ key.length = 57 := by
  rcases signature with _ | ⟨bytes, _ | ⟨⟨key⟩⟩⟩
  · simp [Ed448Signature.validate, raise]
  · simp [Ed448Signature.validate, Ed448PublicKey.validate, bind_ok_iff, wrap_err_ok_iff, raise]
  · by_cases keySize : key.length = 57 <;>
      simp [Ed448Signature.validate, Ed448PublicKey.validate, bind_ok_iff, wrap_err_ok_iff, fail_if_ok_iff, keySize]

theorem signature_checks (sized : Ed448Signature.validate signature = .ok ()) (verified : verifyUnsafe prim signature message = .ok ()) :
    ∃ key, SignedBy prim signature message key := by
  obtain ⟨bytes, key, shape, size, keySize⟩ := ed448_signature_validate_ok_iff.mp sized
  obtain ⟨bytes', key', shape', valid⟩ := verify_unsafe_ok_iff.mp verified
  rw [shape] at shape'
  cases shape'
  exact ⟨key, bytes, shape, size, keySize, valid⟩

theorem coin_ref_validate_ok_iff (coin : Option CoinRef) (value : Unit) :
    CoinRef.validate coin = .ok value ↔ ∃ address, coin = some ⟨address⟩ ∧ address.length = 32 := by
  rcases coin with _ | ⟨⟨address⟩⟩
  · simp [CoinRef.validate, raise]
  · simp [CoinRef.validate, fail_if_ok_iff]

theorem transfer_validate_ok {t : TransferCoinRequest} (valid : TransferCoinRequest.validate prim (some t) = .ok ()) :
    ∃ address message key, t.ofCoin = some ⟨address⟩ ∧ t.signatureMessage = .ok message ∧
      SignedBy prim t.signature message key := by
  simp only [TransferCoinRequest.validate, TransferCoinRequest.validateSignature, bind_ok_iff, wrap_err_ok_iff] at valid
  obtain ⟨_, -, _, ofCoin, _, sized, message, signed, verified⟩ := valid
  obtain ⟨address, isCoin, -⟩ := (coin_ref_validate_ok_iff _ _).mp ofCoin
  obtain ⟨key, signedBy⟩ := signature_checks sized verified
  exact ⟨address, message, key, isCoin, signed, signedBy⟩

theorem split_validate_ok {t : SplitCoinRequest} (valid : SplitCoinRequest.validate prim (some t) = .ok ()) :
    ∃ address message key, t.ofCoin = some ⟨address⟩ ∧ validateAmounts t.amounts = .ok () ∧
      t.signatureMessage = .ok message ∧ SignedBy prim t.signature message key := by
  simp only [SplitCoinRequest.validate, SplitCoinRequest.validateSignature, bind_ok_iff, wrap_err_ok_iff] at valid
  obtain ⟨_, ofCoin, _, amounts, _, sized, message, signed, verified⟩ := valid
  obtain ⟨address, isCoin, -⟩ := (coin_ref_validate_ok_iff _ _).mp ofCoin
  obtain ⟨key, signedBy⟩ := signature_checks sized verified
  exact ⟨address, message, key, isCoin, amounts, signed, signedBy⟩

theorem merge_validate_ok {t : MergeCoinRequest} (valid : MergeCoinRequest.validate prim (some t) = .ok ()) :
    ∃ key, t.coins ≠ [] ∧ SignedBy prim t.signature t.signatureMessage key := by
  simp only [MergeCoinRequest.validate, MergeCoinRequest.validateSignature, bind_ok_iff, wrap_err_ok_iff] at valid
  obtain ⟨_, nonempty, _, -, _, sized, verified⟩ := valid
  obtain ⟨key, signedBy⟩ := signature_checks sized verified
  exact ⟨key, by simpa [fail_if_ok_iff] using nonempty, signedBy⟩

theorem mint_validate_ok_iff {t : MintCoinRequest} :
    MintCoinRequest.validate prim (some t) = .ok value ↔
      t.proofs ≠ [] ∧ ∃ key, SignedBy prim t.signature t.signatureMessage key := by
  simp only [MintCoinRequest.validate, MintCoinRequest.validateSignature, bind_ok_iff, wrap_err_ok_iff, fail_if_ok_iff,
    List.length_eq_zero_iff]
  constructor
  · rintro ⟨_, nonempty, _, sized, verified⟩
    exact ⟨nonempty, signature_checks sized verified⟩
  · rintro ⟨nonempty, key, bytes, shape, size, keySize, valid⟩
    exact ⟨(), nonempty, (), ed448_signature_validate_ok_iff.mpr ⟨bytes, key, shape, size, keySize⟩,
      verify_unsafe_ok_iff.mpr ⟨bytes, key, shape, valid⟩⟩

end Ceremony
