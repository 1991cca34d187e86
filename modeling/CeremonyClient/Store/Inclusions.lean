import CeremonyClient.Lib.Batch
import CeremonyClient.Lib.Passes
import CeremonyClient.Store.Clock

set_option autoImplicit false

namespace Ceremony

open GoSem

variable {text : String} {inc : InclusionCommitment} {segments : List Bytes} {db : Kvdb} {filter : Bytes} {frameNumber : UInt64}
  {position : UInt32}

def ByteText (text : String) : Prop := ∀ char ∈ text.toList, char.toNat < 256

theorem bytes_text_text_bytes (text : String) (isBytes : ByteText text) : bytesText (textBytes text) = text := by
  have same : ((ascii text.toList).map fun byte => Char.ofNat byte.toNat) = text.toList := by
    rw [ascii, List.map_map]
    conv => rhs; rw [← List.map_id text.toList]
    refine List.map_congr_left fun char isChar => ?_
    rw [Function.comp_apply, UInt8.toNat_ofNat', Nat.mod_eq_of_lt (isBytes char isChar), Char.ofNat_toNat]
    rfl
  rw [bytesText, textBytes, same, String.ofList_toList]

theorem text_bytes_length : (textBytes text).length = text.toList.length := List.length_map _

theorem bytes_text_length {bytes : Bytes} : (bytesText bytes).toList.length = bytes.length := by
  rw [bytesText, String.toList_ofList, List.length_map]

theorem read_segment_elim {db : Kvdb} {filter hash : Bytes} :
    readSegment db filter hash = (db.lookup (dataProofSegmentKey filter hash)).elim (raise errInvalidData) .ok := by
  rw [readSegment]
  cases db.lookup (dataProofSegmentKey filter hash) with
  | none => rfl
  | some segment => rfl

section Reading

variable {incCommit : Bytes} {remainder : Nat} {position : UInt32} {entries : List (Bytes × Bytes)} {inclusions : List InclusionCommitment}
  (c : StoreCodec) (db : Kvdb) (filter : Bytes) (frameNumber : UInt64)

theorem read_chunks_eq : readChunks db filter incCommit remainder =
    (List.range ((incCommit.length - remainder) / 32)).mapM fun j =>
      readSegment db filter ((incCommit.drop (remainder + j * 32)).take 32) := by
  rw [readChunks]
  refine map_m_congr fun j isIndex => ?_
  have bound := List.mem_range.mp isIndex
  have fits : remainder + j * 32 + 32 ≤ incCommit.length := by
    have := Nat.div_mul_le_self (incCommit.length - remainder) 32
    omega
  rw [show remainder + (j + 1) * 32 = remainder + j * 32 + 32 by omega, slice_width _ _ _ fits, ok_bind]

theorem decode_inclusions_length (ran : decodeInclusions c db filter frameNumber position entries = .ok inclusions) :
    inclusions.length = entries.length := by
  induction entries generalizing position inclusions with
  | nil =>
      cases ran
      rfl
  | cons entry rest ih =>
      simp only [decodeInclusions, bind_ok_iff] at ran
      obtain ⟨first, -, later, ranLater, isList⟩ := ran
      cases isList
      rw [List.length_cons, List.length_cons, ih ranLater]

end Reading

section Encoding

variable (c : StoreCodec)

-- The lengths of the packed fields, together with the four bytes that hold them, are 16 bits wide.
def PackedFits (inc : InclusionCommitment) : Prop := (textBytes inc.typeUrl).length + 4 + inc.commitment.length < 65536

def packedHeader (inc : InclusionCommitment) : Bytes :=
  beBytes 2 (UInt16.ofNat (textBytes inc.typeUrl).length).toNat ++ beBytes 2 (UInt16.ofNat inc.commitment.length).toNat

theorem packed_header_length (inc : InclusionCommitment) : (packedHeader inc).length = 4 := by
  rw [packedHeader, List.length_append, be_bytes_length, be_bytes_length]

theorem encode_inclusion_eq : encodeInclusion c inc segments =
    packedHeader inc ++ (textBytes inc.typeUrl ++ (inc.commitment ++ segments.flatMap fun segment => (c.sha3Sum256 segment).bytes)) := by
  simp only [encodeInclusion, packedHeader, appendUint16, List.nil_append, List.append_assoc]

theorem hashes_length : (segments.flatMap fun segment => (c.sha3Sum256 segment).bytes).length = 32 * segments.length := by
  induction segments with
  | nil => rfl
  | cons segment rest ih => rw [List.flatMap_cons, List.length_append, ih, (c.sha3Sum256 segment).size, List.length_cons]; omega

theorem hashes_drop {j : Nat} {segment : Bytes} (isSegment : segments[j]? = some segment) :
    (((segments.flatMap fun segment => (c.sha3Sum256 segment).bytes).drop (j * 32)).take 32) = (c.sha3Sum256 segment).bytes := by
  induction segments generalizing j with
  | nil => cases isSegment
  | cons first rest ih =>
      have width := (c.sha3Sum256 first).size
      rw [List.flatMap_cons]
      cases j with
      | zero =>
          cases isSegment
          rw [Nat.zero_mul, List.drop_zero, List.take_left' width]
      | succ j =>
          rw [Nat.succ_mul, Nat.add_comm, ← List.drop_drop, List.drop_left' width]
          exact ih isSegment

theorem encoded_url_length :
    (slice (encodeInclusion c inc segments) 0 2 >>= beUint16) = .ok (UInt16.ofNat (textBytes inc.typeUrl).length) := by
  rw [encode_inclusion_eq, packedHeader, List.append_assoc]
  have front := be_bytes_length 2 (UInt16.ofNat (textBytes inc.typeUrl).length).toNat
  rw [show slice _ 0 2 = slice _ 0 (0 + 2) from rfl, slice_width _ 0 2 (by rw [List.length_append, front]; omega), ok_bind, List.drop_zero,
    List.take_left' front]
  exact (congrArg beUint16 (List.append_nil _)).symm.trans (be_uint16_append _ [])

theorem encoded_commit_length : (slice (encodeInclusion c inc segments) 2 4 >>= beUint16) = .ok (UInt16.ofNat inc.commitment.length) := by
  rw [encode_inclusion_eq, packedHeader, List.append_assoc]
  have front := be_bytes_length 2 (UInt16.ofNat (textBytes inc.typeUrl).length).toNat
  have back := be_bytes_length 2 (UInt16.ofNat inc.commitment.length).toNat
  rw [show slice _ 2 4 = slice _ 2 (2 + 2) from rfl, slice_width _ 2 2 (by rw [List.length_append, List.length_append, front, back]; omega),
    ok_bind, List.drop_left' front, List.take_left' back]
  exact (congrArg beUint16 (List.append_nil _)).symm.trans (be_uint16_append _ [])

theorem packed_fits_of_read {read : InclusionCommitment}
    (ran : decodeInclusion c db filter frameNumber position (encodeInclusion c inc segments) = .ok read)
    (sameUrl : read.typeUrl = inc.typeUrl) (sameCommitment : read.commitment = inc.commitment) : PackedFits inc := by
  rw [decodeInclusion, encoded_url_length, ok_bind, encoded_commit_length, ok_bind] at ran
  obtain ⟨url, isUrl, ran⟩ := (bind_ok_iff _ _ _).mp ran
  obtain ⟨commit, isCommit, ran⟩ := (bind_ok_iff _ _ _).mp ran
  obtain ⟨chunks, -, ran⟩ := (bind_ok_iff _ _ _).mp ran
  obtain ⟨data, -, isRead⟩ := (bind_ok_iff _ _ _).mp ran
  cases isRead
  obtain ⟨⟨urlLow, urlHigh⟩, urlPart⟩ := (slice_ok_iff _ _ _ _).mp isUrl
  obtain ⟨⟨commitLow, commitHigh⟩, commitPart⟩ := (slice_ok_iff _ _ _ _).mp isCommit
  have urlLength : url.length = (textBytes inc.typeUrl).length := by
    rw [text_bytes_length, ← sameUrl, bytes_text_length]
  have commitLength : commit.length = inc.commitment.length := congrArg List.length sameCommitment
  rw [urlPart, List.length_take, List.length_drop] at urlLength
  rw [commitPart, List.length_take, List.length_drop] at commitLength
  simp only [UInt16.toNat_add, UInt16.toNat_ofNat', UInt16.reduceToNat] at *
  rw [PackedFits]
  omega

theorem read_chunks_encoded (db : Kvdb) (filter : Bytes) (front : Bytes) (segments : List Bytes)
    (stored : ∀ segment ∈ segments, db.lookup (segmentKey c filter segment) = some segment) :
    readChunks db filter (front ++ segments.flatMap fun segment => (c.sha3Sum256 segment).bytes) front.length = .ok segments := by
  rw [read_chunks_eq, List.length_append, Nat.add_sub_cancel_left, hashes_length, Nat.mul_div_cancel_left _ (by decide), map_m_iff,
    List.forall₂_iff_get]
  refine ⟨List.length_range, fun j short shortSegment => ?_⟩
  rw [List.get_eq_getElem, List.get_eq_getElem, List.getElem_range, List.drop_append, List.drop_of_length_le (Nat.le_add_right _ _),
    List.nil_append, Nat.add_sub_cancel_left, hashes_drop c (List.getElem?_eq_getElem shortSegment), read_segment_elim,
    ← segmentKey, stored _ (List.getElem_mem shortSegment)]
  rfl

theorem read_encoded (frameNumber : UInt64) (position : UInt32)
    (stored : ∀ segment ∈ segments, db.lookup (segmentKey c filter segment) = some segment) (fits : PackedFits inc)
    (isBytes : ByteText inc.typeUrl) :
    decodeInclusion c db filter frameNumber position (encodeInclusion c inc segments) =
      joinChunks c inc.typeUrl segments >>= fun data => .ok ⟨filter, frameNumber, position, inc.typeUrl, data, inc.commitment⟩ := by
  have header := packed_header_length inc
  rw [PackedFits] at fits
  have urlEnd : (UInt16.ofNat (textBytes inc.typeUrl).length + 4).toNat = 4 + (textBytes inc.typeUrl).length := by
    simp only [UInt16.toNat_add, UInt16.toNat_ofNat', UInt16.reduceToNat]
    omega
  have commitEnd : (UInt16.ofNat (textBytes inc.typeUrl).length + 4 + UInt16.ofNat inc.commitment.length).toNat =
      4 + (textBytes inc.typeUrl).length + inc.commitment.length := by
    rw [UInt16.toNat_add, urlEnd, UInt16.toNat_ofNat']
    omega
  rw [decodeInclusion, encoded_url_length, ok_bind, encoded_commit_length, ok_bind, urlEnd, commitEnd, encode_inclusion_eq,
    slice_width _ 4 _ (by rw [List.length_append, List.length_append, header]; omega), ok_bind, List.drop_left' header, List.take_left,
    slice_width _ _ _ (by simp only [List.length_append, header]; omega), ok_bind]
  rw [← List.append_assoc, List.drop_left' (by rw [List.length_append, header]), List.take_left, ← List.append_assoc]
  have width : (packedHeader inc ++ textBytes inc.typeUrl ++ inc.commitment).length = 4 + (textBytes inc.typeUrl).length + inc.commitment.length := by
    rw [List.length_append, List.length_append, header]
  rw [← width, read_chunks_encoded c db filter _ segments stored, ok_bind, bytes_text_text_bytes _ isBytes]
  rfl

def UnmarshalInverts : Prop := ∀ o data, c.marshalOutput o = .ok data → c.unmarshalOutput data = .ok o

-- An execution output is stored without its encoding and its address by position, so that both have to be the expected ones.
def Canonical (inc : InclusionCommitment) : Prop :=
  inc.typeUrl = intrinsicExecutionOutputType →
    ∃ o, c.unmarshalOutput inc.data = .ok o ∧ o.address.length = 32 ∧ c.marshalOutput o = .ok inc.data

theorem join_segments_iff (inverts : UnmarshalInverts c) (isSegments : segmentsOf c text inc = .ok segments) :
    joinChunks c inc.typeUrl segments = .ok inc.data ↔ Canonical c inc := by
  by_cases isOutput : inc.typeUrl = intrinsicExecutionOutputType
  · rw [segmentsOf, if_pos isOutput] at isSegments
    obtain ⟨o, isO, same⟩ := (bind_ok_iff _ _ _).mp isSegments
    rw [wrap_err_ok_iff, returned_ok_iff] at isO
    cases same
    rw [joinChunks, if_pos isOutput, show index [o.address ++ o.output, o.proof] 0 = .ok (o.address ++ o.output) from rfl, ok_bind,
      show index [o.address ++ o.output, o.proof] 1 = .ok o.proof from rfl, ok_bind]
    constructor
    · intro joined _
      obtain ⟨address, isAddress, joined⟩ := (bind_ok_iff _ _ _).mp joined
      obtain ⟨output, isRest, joined⟩ := (bind_ok_iff _ _ _).mp joined
      rw [wrap_err_ok_iff, returned_ok_iff] at joined
      obtain ⟨⟨-, wide⟩, addressPart⟩ := (slice_ok_iff _ _ _ _).mp isAddress
      have same := inverts _ _ joined
      rw [isO] at same
      have same := Except.ok.inj same
      have width : address.length = 32 := by
        rw [addressPart, List.length_take, List.drop_zero]
        omega
      refine ⟨o, isO, ?_, ?_⟩
      · rw [same]
        exact width
      · rw [← joined]
        exact congrArg c.marshalOutput same
    · intro canonical
      obtain ⟨o', isO', width, encoded⟩ := canonical isOutput
      rw [isO] at isO'
      cases isO'
      have address : slice (o.address ++ o.output) 0 32 = .ok o.address := by
        rw [slice_ok_iff, List.length_append, List.drop_zero, Nat.sub_zero, List.take_left' width]
        exact ⟨by omega, rfl⟩
      have output : sliceFrom (o.address ++ o.output) 32 = .ok o.output := by
        rw [slice_from_ok_iff, List.length_append, List.drop_left' width]
        exact ⟨by omega, rfl⟩
      rw [address, ok_bind, output, ok_bind, wrap_err_ok_iff, returned_ok_iff]
      exact encoded
  · rw [segmentsOf, if_neg isOutput] at isSegments
    cases isSegments
    rw [joinChunks, if_neg isOutput]
    exact iff_of_true rfl fun same => absurd same isOutput

-- Read back exactly when the fields are those that the reader fills in, the lengths fit and the data has the reader's
-- form.
structure ReadsBack (filter : Bytes) (frameNumber : UInt64) (position : UInt32) (inc : InclusionCommitment) : Prop where
  filter : inc.filter = filter
  frameNumber : inc.frameNumber = frameNumber
  position : inc.position = position
  fits : PackedFits inc
  canonical : Canonical c inc

theorem read_back_iff (inverts : UnmarshalInverts c) (isSegments : segmentsOf c text inc = .ok segments)
    (stored : ∀ segment ∈ segments, db.lookup (segmentKey c filter segment) = some segment) (isBytes : ByteText inc.typeUrl) :
    decodeInclusion c db filter frameNumber position (encodeInclusion c inc segments) = .ok inc ↔ ReadsBack c filter frameNumber position inc := by
  constructor
  · intro ran
    have fits := packed_fits_of_read c ran rfl rfl
    rw [read_encoded c frameNumber position stored fits isBytes] at ran
    obtain ⟨data, joined, same⟩ := (bind_ok_iff _ _ _).mp ran
    have same := Except.ok.inj same
    have isData : data = inc.data := by rw [← same]
    rw [isData, join_segments_iff c inverts isSegments] at joined
    exact ⟨by rw [← same], by rw [← same], by rw [← same], fits, joined⟩
  · intro back
    rw [read_encoded c frameNumber position stored back.fits isBytes,
      (join_segments_iff c inverts isSegments).mpr back.canonical, ok_bind, ← back.filter, ← back.frameNumber, ← back.position]

end Encoding

end Ceremony
