import CeremonyClient.Time.DataTimeReel
import CeremonyClient.Token.ProcessFrame

set_option autoImplicit false

namespace Ceremony

open GoSem

variable {frame : ClockFrame}

-- What the VDF challenge of a frame hashes. The address is h.Bytes(), which has no leading zeros.
def frameChallenge (frame : ClockFrame) (address : Bytes) : Bytes :=
  let input := frame.filter
  let input := appendUint64 input frame.frameNumber
  let input := appendUint64 input frame.timestamp.toUInt64
  let input := appendUint32 input frame.difficulty
  input ++ address ++ frame.input

def verifyDataClockFrame (prim : Primitives) (frame : ClockFrame) : Go Unit :=
  match frame.publicKeySignatureEd448 with
  | none => raise ((errorsNew "no valid signature provided").wrap "verify clock frame")
  | some ed448PublicKey => do
      let publicKey ← deref ed448PublicKey.publicKey
      let pubkey := publicKey.keyValue
      let signature := ed448PublicKey.signature
      let h ← replaceErr ((errorsNew "could not hash proving key").wrap "verify clock frame")
        (returned (prim.poseidonHashBytes pubkey))
      let input := frameChallenge frame (intBytes h.val)
      failIf (frame.input.length < 516) ((errorsNew "invalid input").wrap "verify clock frame")
      failIf (frame.output.length ≠ 516) ((errorsNew "invalid output").wrap "verify clock frame")
      let b := prim.sha3Sum256 input
      failIf (pubkey.length ≠ 57 ∨ signature.length ≠ 114 ∨ prim.ed448Verify pubkey (b.bytes ++ frame.output) signature = false)
        ((errorsNew "invalid signature for issuer").wrap "verify clock frame")
      failIf (prim.wesolowskiVerify b frame.difficulty frame.output = false)
        ((errorsNew "invalid proof").wrap "verify clock frame")
      let parent ← wrapErr "verify clock frame" (returned (prim.poseidonHashBytes (frame.input.take 516)))
      failIf (parent.val ≠ setBytes frame.parentSelector)
        ((errorsNew "selector did not match input").wrap "verify clock frame")

structure Accepted (prim : Primitives) (frame : ClockFrame) (key signature : Bytes) (h : Fin poseidonOrder) : Prop where
  isSigned : frame.publicKeySignatureEd448 = some ⟨signature, some ⟨key⟩⟩
  hashed : prim.poseidonHashBytes key = .ok h
  inputSize : 516 ≤ frame.input.length
  outputSize : frame.output.length = 516
  keySize : key.length = 57
  signatureSize : signature.length = 114
  signed : prim.ed448Verify key ((prim.sha3Sum256 (frameChallenge frame (intBytes h.val))).bytes ++ frame.output) signature = true
  proved : prim.wesolowskiVerify (prim.sha3Sum256 (frameChallenge frame (intBytes h.val))) frame.difficulty frame.output = true
  selects : ∃ parent : Fin poseidonOrder,
    prim.poseidonHashBytes (frame.input.take 516) = .ok parent ∧ parent.val = setBytes frame.parentSelector

theorem verify_data_clock_frame_ok_iff {prim : Primitives} {value : Unit} :
    verifyDataClockFrame prim frame = .ok value ↔ ∃ key signature h, Accepted prim frame key signature h := by
  constructor
  · intro accepted
    rw [verifyDataClockFrame] at accepted
    cases isSigned : frame.publicKeySignatureEd448 with
    | none =>
        rw [isSigned] at accepted
        cases accepted
    | some ed448 =>
        simp only [isSigned, bind_ok_iff, deref_ok_iff, replace_err_ok_iff, wrap_err_ok_iff, returned_ok_iff,
          fail_if_ok_iff, not_or, not_lt, not_not, Bool.not_eq_false] at accepted
        obtain ⟨⟨key⟩, isKey, h, hashed, _, inputSize, _, outputSize, _, ⟨keySize, signatureSize, signed⟩, _, proved,
          parent, selected, selects⟩ := accepted
        obtain ⟨signature, publicKey⟩ := ed448
        cases isKey
        exact ⟨key, signature, h, isSigned, hashed, inputSize, outputSize, keySize, signatureSize, signed, proved,
          parent, selected, selects⟩
  · rintro ⟨key, signature, h, accepted⟩
    obtain ⟨parent, selected, selects⟩ := accepted.selects
    simp only [verifyDataClockFrame, accepted.isSigned, bind_ok_iff, deref_ok_iff, replace_err_ok_iff, wrap_err_ok_iff,
      returned_ok_iff, fail_if_ok_iff, not_or, not_lt, not_not, Bool.not_eq_false]
    exact ⟨⟨key⟩, rfl, h, accepted.hashed, (), accepted.inputSize, (), accepted.outputSize, (),
      ⟨accepted.keySize, accepted.signatureSize, accepted.signed⟩, (), accepted.proved, parent, selected, selects⟩

-- The challenge is cut unambiguously once the filters are equally long and the address is known.
theorem frame_challenge_injective {left right : ClockFrame} {address : Bytes} (filters : left.filter.length = right.filter.length)
    (same : frameChallenge left address = frameChallenge right address) :
    left.filter = right.filter ∧ left.frameNumber = right.frameNumber ∧ left.timestamp = right.timestamp ∧
      left.difficulty = right.difficulty ∧ left.input = right.input := by
  simp only [frameChallenge, appendUint64, appendUint32, List.append_assoc] at same
  obtain ⟨filter, rest⟩ := List.append_inj same filters
  obtain ⟨number, rest⟩ := List.append_inj rest (by simp only [be_bytes_length])
  obtain ⟨timestamp, rest⟩ := List.append_inj rest (by simp only [be_bytes_length])
  obtain ⟨difficulty, rest⟩ := List.append_inj rest (by simp only [be_bytes_length])
  have number := uint64_be_bytes_injective number
  have timestamp := int64_to_uint64_injective (uint64_be_bytes_injective timestamp)
  exact ⟨filter, number, timestamp, uint32_be_bytes_injective difficulty,
    List.append_cancel_left rest⟩

def Agree (left right : ClockFrame) : Prop :=
  left.filter = right.filter ∧ left.frameNumber = right.frameNumber ∧ left.timestamp = right.timestamp ∧
    left.difficulty = right.difficulty ∧ setBytes left.parentSelector = setBytes right.parentSelector ∧
    left.input = right.input ∧ left.aggregateProofs = right.aggregateProofs

section Binding

variable (prim : Primitives) (left right : ClockFrame) (filters : left.filter.length = right.filter.length)
  (signatures : left.publicKeySignatureEd448 = right.publicKeySignatureEd448) (outputs : left.output = right.output)
  (collisionFree : ∀ h : Fin poseidonOrder, prim.sha3Sum256 (frameChallenge left (intBytes h.val)) =
    prim.sha3Sum256 (frameChallenge right (intBytes h.val)) →
      frameChallenge left (intBytes h.val) = frameChallenge right (intBytes h.val))
  (signsOnce : ∀ key signature message other, prim.ed448Verify key message signature = true →
    prim.ed448Verify key other signature = true → message = other)

include filters signatures outputs collisionFree signsOnce

theorem accepted_fields_agree {leftKey rightKey leftSignature rightSignature : Bytes} {leftHash rightHash : Fin poseidonOrder}
    (leftAccepted : Accepted prim left leftKey leftSignature leftHash)
    (rightAccepted : Accepted prim right rightKey rightSignature rightHash) :
    left.filter = right.filter ∧ left.frameNumber = right.frameNumber ∧ left.timestamp = right.timestamp ∧
      left.difficulty = right.difficulty ∧ setBytes left.parentSelector = setBytes right.parentSelector ∧
      left.input = right.input := by
  have isSigned := leftAccepted.isSigned
  rw [signatures, rightAccepted.isSigned] at isSigned
  cases isSigned
  have sameHash : leftHash = rightHash := by
    have hashed := leftAccepted.hashed
    rw [rightAccepted.hashed] at hashed
    exact (Except.ok.inj hashed).symm
  subst sameHash
  have signed := leftAccepted.signed
  rw [outputs] at signed
  have sameMessage := signsOnce _ _ _ _ signed rightAccepted.signed
  have sameDigest := (List.append_inj sameMessage (by rw [Digest.size, Digest.size])).1
  have sameChallenge := collisionFree leftHash (digest_ext sameDigest)
  obtain ⟨filter, number, timestamp, difficulty, input⟩ := frame_challenge_injective filters sameChallenge
  obtain ⟨leftParent, leftSelected, leftSelects⟩ := leftAccepted.selects
  obtain ⟨rightParent, rightSelected, rightSelects⟩ := rightAccepted.selects
  have sameParent : leftParent = rightParent := by
    rw [input, rightSelected] at leftSelected
    exact (Except.ok.inj leftSelected).symm
  exact ⟨filter, number, timestamp, difficulty, by rw [← leftSelects, ← rightSelects, sameParent], input⟩

-- The aggregate proofs enter neither the challenge nor the signature, so they agree exactly when
-- nobody replaced them.
theorem signed_frames_agree_iff (leftAccepted : verifyDataClockFrame prim left = .ok ())
    (rightAccepted : verifyDataClockFrame prim right = .ok ()) :
    Agree left right ↔ left.aggregateProofs = right.aggregateProofs := by
  obtain ⟨leftKey, leftSignature, leftHash, leftAccepted⟩ := verify_data_clock_frame_ok_iff.mp leftAccepted
  obtain ⟨rightKey, rightSignature, rightHash, rightAccepted⟩ := verify_data_clock_frame_ok_iff.mp rightAccepted
  have fields := accepted_fields_agree prim left right filters signatures outputs collisionFree signsOnce leftAccepted rightAccepted
  constructor
  · intro agree
    exact agree.2.2.2.2.2.2
  · intro proofs
    obtain ⟨filter, number, timestamp, difficulty, selector, input⟩ := fields
    exact ⟨filter, number, timestamp, difficulty, selector, input, proofs⟩

end Binding

def sealerPrimitives : Primitives :=
  { samplePrimitives with
    ed448Verify := fun _ message signature =>
      message == message.take 32 ++ beBytes 516 (setBytes (message.take 32)) && 32 ≤ message.length &&
        signature == message.take 32 ++ List.replicate 82 0 }

theorem sealer_signs_once (key signature message other : Bytes)
    (first : sealerPrimitives.ed448Verify key message signature = true)
    (second : sealerPrimitives.ed448Verify key other signature = true) : message = other := by
  simp only [sealerPrimitives, Bool.and_eq_true, beq_iff_eq, decide_eq_true_eq] at first second
  obtain ⟨⟨shape, long⟩, signed⟩ := first
  obtain ⟨⟨otherShape, otherLong⟩, otherSigned⟩ := second
  have width : (message.take 32).length = (other.take 32).length := by
    rw [List.length_take_of_le long, List.length_take_of_le otherLong]
  have digest := (List.append_inj (signed.symm.trans otherSigned) width).1
  rw [shape, otherShape, digest]

def sealerKey : Bytes := List.replicate 57 7

def sealed (frame : ClockFrame) : ClockFrame :=
  let b := sampleDigest (frameChallenge frame (intBytes (setBytes sealerKey % poseidonOrder)))
  { frame with
    parentSelector := beBytes 32 (setBytes (frame.input.take 516) % poseidonOrder)
    output := beBytes 516 (setBytes b.bytes)
    publicKeySignatureEd448 := some ⟨b.bytes ++ List.replicate 82 0, some ⟨sealerKey⟩⟩ }

def sealedFrame (aggregateProofs : List InclusionAggregateProof) : ClockFrame :=
  sealed ⟨List.replicate 32 9, 8, 1, 10000, [], List.replicate 516 5, [], aggregateProofs, none, []⟩

theorem sealer_verifies {key digest : Bytes} (width : digest.length = 32) :
    sealerPrimitives.ed448Verify key (digest ++ beBytes 516 (setBytes digest)) (digest ++ List.replicate 82 0) = true := by
  have front : (digest ++ beBytes 516 (setBytes digest)).take 32 = digest := List.take_left' width
  simp only [sealerPrimitives, front, beq_self_eq_true, Bool.and_true, Bool.true_and, decide_eq_true_eq, List.length_append, width]
  exact Nat.le_add_right 32 _

theorem sealed_accepted (filled : 516 ≤ frame.input.length) : verifyDataClockFrame sealerPrimitives (sealed frame) = .ok () := by
  let hash : Fin poseidonOrder := ⟨setBytes sealerKey % poseidonOrder, Nat.mod_lt _ (by decide)⟩
  let b := sampleDigest (frameChallenge frame (intBytes hash.val))
  have width : b.bytes.length = 32 := b.size
  have order : setBytes (frame.input.take 516) % poseidonOrder < 256 ^ 32 := (Nat.mod_lt _ (by decide)).trans (by decide)
  refine verify_data_clock_frame_ok_iff.mpr ⟨sealerKey, b.bytes ++ List.replicate 82 0, hash, ?_⟩
  refine ⟨rfl, rfl, filled, be_bytes_length 516 _, List.length_replicate, ?_, ?_, beq_self_eq_true (beBytes 516 (setBytes b.bytes)), ?_⟩
  · rw [List.length_append, width, List.length_replicate]
  · exact sealer_verifies width
  · exact ⟨⟨setBytes (frame.input.take 516) % poseidonOrder, Nat.mod_lt _ (by decide)⟩, rfl, (set_bytes_be_bytes 32 _ order).symm⟩

theorem sealed_frame_accepted (aggregateProofs : List InclusionAggregateProof) :
    verifyDataClockFrame sealerPrimitives (sealedFrame aggregateProofs) = .ok () :=
  sealed_accepted (by rw [List.length_replicate])

-- The same frame with its selector written in 33 bytes.
def resealedFrame : ClockFrame := { sealedFrame [] with parentSelector := 0 :: (sealedFrame []).parentSelector }

theorem frame_challenge_selector (frame : ClockFrame) (parentSelector address : Bytes) :
    frameChallenge frame address = frameChallenge { frame with parentSelector } address := rfl

theorem signed_frames_agree_resealed : Agree (sealedFrame []) resealedFrame := by
  have accepted := sealed_frame_accepted []
  have resealed : verifyDataClockFrame sealerPrimitives resealedFrame = .ok () := by decide +kernel
  apply (signed_frames_agree_iff sealerPrimitives (sealedFrame []) resealedFrame rfl rfl rfl
    (fun h _ => frame_challenge_selector (sealedFrame []) _ (intBytes h.val)) sealer_signs_once accepted resealed).mpr
  rfl

def relayedProofs : List InclusionAggregateProof :=
  [⟨[], 8, [⟨[], 8, 0, intrinsicExecutionOutputType, [1], []⟩], []⟩]

def relayCodec : Codec where
  unmarshalIntrinsicExecutionOutput data := .ok ⟨TOKEN_ADDRESS, data, data⟩
  unmarshalTokenOutputs _ := .ok []
  unmarshalTokenRequests data := .ok (data.map fun _ => ⟨none, 1⟩)

theorem relay_replaces_transactions :
    (∀ key signature message other, sealerPrimitives.ed448Verify key message signature = true →
      sealerPrimitives.ed448Verify key other signature = true → message = other) ∧
    (sealedFrame []).publicKeySignatureEd448 = (sealedFrame relayedProofs).publicKeySignatureEd448 ∧
    (sealedFrame []).output = (sealedFrame relayedProofs).output ∧
    verifyDataClockFrame sealerPrimitives (sealedFrame []) = .ok () ∧
    verifyDataClockFrame sealerPrimitives (sealedFrame relayedProofs) = .ok () ∧
    ¬ Agree (sealedFrame []) (sealedFrame relayedProofs) ∧
    getOutputsFromClockFrame relayCodec (sealedFrame []) = .ok ([], none) ∧
    getOutputsFromClockFrame relayCodec (sealedFrame relayedProofs) = .ok ([⟨none, 1⟩], some []) := by
  have proofs : (sealedFrame []).aggregateProofs ≠ (sealedFrame relayedProofs).aggregateProofs := by decide +kernel
  exact ⟨sealer_signs_once, rfl, rfl, sealed_frame_accepted _, sealed_frame_accepted _, fun agree => proofs agree.2.2.2.2.2.2, rfl, rfl⟩

-- The proving key, which may be of another type, and the VDF solver.
structure FrameSigner (prim : Primitives) where
  publicKey : Option Bytes
  sign : Bytes → Except GoError Bytes
  solve : Digest → UInt32 → Bytes
  keySize : ∀ key, publicKey = some key → key.length = 57
  signs : ∀ key message signature, publicKey = some key → sign message = .ok signature →
    signature.length = 114 ∧ prim.ed448Verify key message signature = true
  solves : ∀ b difficulty, (solve b difficulty).length = 516 ∧ prim.wesolowskiVerify b difficulty (solve b difficulty) = true

structure ProveCall where
  commitments : List Bytes
  aggregateProofs : List InclusionAggregateProof
  timestamp : Int64
  difficulty : UInt32

variable {prim : Primitives}

def proveDataClockFrame (w : FrameSigner prim) (previousFrame : ClockFrame) (call : ProveCall) : Go ClockFrame :=
  match w.publicKey with
  | none => raise ((errorsNew "no valid signature provided").wrap "prove clock frame")
  | some pubkey => do
      let h ← replaceErr ((errorsNew "could not hash proving key").wrap "prove clock frame") (returned (prim.poseidonHashBytes pubkey))
      let input := previousFrame.filter
      let input := appendUint64 input (previousFrame.frameNumber + 1)
      let input := appendUint64 input call.timestamp.toUInt64
      let input := appendUint32 input call.difficulty
      let frameInput := previousFrame.output ++ call.commitments.flatten
      let b := prim.sha3Sum256 (input ++ intBytes h.val ++ frameInput)
      let o := w.solve b call.difficulty
      let signature ← wrapErr "prove" (returned (w.sign (b.bytes ++ o)))
      let previousSelectorBytes ← slice previousFrame.output 0 516
      let parent ← wrapErr "prove clock frame" (returned (prim.poseidonHashBytes previousSelectorBytes))
      return ⟨previousFrame.filter, previousFrame.frameNumber + 1, call.timestamp, call.difficulty, beBytes 32 parent.val, frameInput, o,
        call.aggregateProofs, some ⟨signature, some ⟨pubkey⟩⟩, []⟩

def proveFrames (w : FrameSigner prim) : ClockFrame → List ProveCall → Go (List ClockFrame)
  | _, [] => .ok []
  | previousFrame, call :: calls => do
      let frame ← proveDataClockFrame w previousFrame call
      let later ← proveFrames w frame calls
      return frame :: later

-- What the data time reel and the verifier ask of the frame after another one.
structure Continues (prim : Primitives) (previousFrame frame : ClockFrame) : Prop where
  accepted : verifyDataClockFrame prim frame = .ok ()
  next : frame.frameNumber = previousFrame.frameNumber + 1
  linked : ∃ selector, previousFrame.getSelector prim = .ok selector ∧ frame.parentSelector = beBytes 32 selector.val

theorem proved_continues {w : FrameSigner prim} {previousFrame : ClockFrame} {call : ProveCall}
    (proved : proveDataClockFrame w previousFrame call = .ok frame) : Continues prim previousFrame frame := by
  rw [proveDataClockFrame] at proved
  cases isKey : w.publicKey with
  | none =>
      rw [isKey] at proved
      cases proved
  | some key =>
      simp only [isKey, bind_ok_iff, replace_err_ok_iff, wrap_err_ok_iff, returned_ok_iff, slice_ok_iff] at proved
      obtain ⟨h, hashed, signature, isSigned, front, ⟨⟨-, long⟩, isFront⟩, parent, selected, done⟩ := proved
      cases done
      obtain ⟨signatureSize, signed⟩ := w.signs key _ signature isKey isSigned
      obtain ⟨outputSize, solved⟩ := w.solves (prim.sha3Sum256 _) call.difficulty
      rw [List.drop_zero, Nat.sub_zero] at isFront
      have below : parent.val < 256 ^ 32 := parent.isLt.trans (by decide)
      refine ⟨verify_data_clock_frame_ok_iff.mpr ⟨key, signature, h, rfl, hashed, ?_, outputSize, w.keySize key isKey, signatureSize, signed,
        solved, parent, ?_, (set_bytes_be_bytes 32 _ below).symm⟩, rfl, parent, ?_, rfl⟩
      · rw [List.length_append]
        omega
      · rw [List.take_append_of_le_length long, ← isFront]
        exact selected
      · rw [ClockFrame.getSelector, (slice_ok_iff _ _ _ front).mpr ⟨⟨Nat.zero_le _, long⟩, isFront⟩, ok_bind, selected]
        rfl

theorem proved_frames_chain (w : FrameSigner prim) (previousFrame : ClockFrame) (calls : List ProveCall)
    (frames : List ClockFrame) (proved : proveFrames w previousFrame calls = .ok frames) :
    frames.length = calls.length ∧ List.IsChain (Continues prim) (previousFrame :: frames) := by
  induction calls generalizing previousFrame frames with
  | nil =>
      cases proved
      exact ⟨rfl, List.isChain_singleton _⟩
  | cons call calls ih =>
      rw [proveFrames, bind_ok_iff] at proved
      obtain ⟨frame, first, proved⟩ := proved
      obtain ⟨later, rest, done⟩ := (bind_ok_iff _ _ _).mp proved
      cases done
      obtain ⟨count, chained⟩ := ih frame later rest
      exact ⟨congrArg Nat.succ count, chained.cons_cons (proved_continues first)⟩

def sealer : FrameSigner sealerPrimitives where
  publicKey := some sealerKey
  sign message :=
    if sealerPrimitives.ed448Verify sealerKey message (message.take 32 ++ List.replicate 82 0) then .ok (message.take 32 ++ List.replicate 82 0)
    else .error (errorsNew "not sealed")
  solve b _ := beBytes 516 (setBytes b.bytes)
  keySize key isKey := by cases isKey; exact List.length_replicate
  signs key message signature isKey isSigned := by
    cases isKey
    split at isSigned
    · rename_i verified
      cases isSigned
      refine ⟨?_, verified⟩
      simp only [sealerPrimitives, Bool.and_eq_true, decide_eq_true_eq] at verified
      rw [List.length_append, List.length_take_of_le verified.1.2, List.length_replicate]
    · cases isSigned
  solves b _ := ⟨be_bytes_length 516 _, beq_self_eq_true (beBytes 516 (setBytes b.bytes))⟩

theorem proved_frames_chain_two : ∃ frames, proveFrames sealer (sealedFrame []) [⟨[[1], [2]], [], 2, 10000⟩, ⟨[], [], 3, 10000⟩] = .ok frames ∧
    frames.length = 2 ∧ List.IsChain (Continues sealerPrimitives) (sealedFrame [] :: frames) := by
  have ran : returnsWith (proveFrames sealer (sealedFrame []) [⟨[[1], [2]], [], 2, 10000⟩, ⟨[], [], 3, 10000⟩]) (fun _ => true) = true := by
    decide +kernel
  obtain ⟨frames, proved, -⟩ := (returns_with_iff _ _).mp ran
  exact ⟨frames, proved, proved_frames_chain sealer _ _ frames proved⟩

end Ceremony
