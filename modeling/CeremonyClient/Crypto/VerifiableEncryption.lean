import CeremonyClient.Lib.Go
import CeremonyClient.Lib.Panics
import CeremonyClient.Lib.Passes

set_option autoImplicit false

namespace Ceremony

open GoSem

-- A slice together with the rest of its backing array: data[low:high] is bounded
-- by the capacity, not by the length.
structure ByteSlice where
  bytes : Bytes
  spare : Bytes

def ByteSlice.cut (data : ByteSlice) (low high : Nat) : Go Bytes := slice (data.bytes ++ data.spare) low high

structure VerencCiphertext where
  c1 : Bytes
  c2 : Bytes
  i : UInt64

structure VerencShare where
  s1 : Bytes
  s2 : Bytes
  i : UInt64

structure MPCitHVerEncProof where
  blindingPubkey : Bytes
  encryptionKey : Bytes
  statement : Bytes
  challenge : Bytes
  polycom : List Bytes
  ctexts : List VerencCiphertext
  sharesRands : List VerencShare

@[ext] structure MPCitHVerEnc where
  ctexts : List VerencCiphertext
  aux : List Bytes
  blindingPubkey : Bytes
  statement : Bytes

-- MPCitHVerEncProof{}
def MPCitHVerEncProof.empty : MPCitHVerEncProof := ⟨[], [], [], [], [], [], []⟩

def readCiphertext (data : ByteSlice) (i : Nat) : Go VerencCiphertext := do
  let c1 ← data.cut (1546 + i * (57 + 56 + 4)) (1603 + i * (57 + 56 + 4))
  let c2 ← data.cut (1603 + i * (57 + 56 + 4)) (1659 + i * (57 + 56 + 4))
  let number ← data.cut (1659 + i * (57 + 56 + 4)) (1663 + i * (57 + 56 + 4))
  return ⟨c1, c2, ← beUint64 number⟩

def readShare (data : ByteSlice) (i : Nat) : Go VerencShare := do
  let s1 ← data.cut (6460 + i * (56 + 56 + 4)) (6516 + i * (56 + 56 + 4))
  let s2 ← data.cut (6516 + i * (56 + 56 + 4)) (6572 + i * (56 + 56 + 4))
  let number ← data.cut (6572 + i * (56 + 56 + 4)) (6576 + i * (56 + 56 + 4))
  return ⟨s1, s2, ← beUint64 number⟩

def mpcitHVerEncProofFromBytes (data : ByteSlice) : Go MPCitHVerEncProof :=
  if data.bytes.length ≠ 9012 then .ok MPCitHVerEncProof.empty
  else do
    let polycom ← (List.range 23).mapM fun i => data.cut (235 + i * 57) (292 + i * 57)
    let ctexts ← (List.range 42).mapM (readCiphertext data)
    let srs ← (List.range 22).mapM (readShare data)
    return ⟨← data.cut 0 57, ← data.cut 57 114, ← data.cut 114 171, ← data.cut 171 235, polycom, ctexts, srs⟩

def MPCitHVerEncProof.toBytes (p : MPCitHVerEncProof) : Bytes :=
  p.blindingPubkey ++ p.encryptionKey ++ p.statement ++ p.challenge ++ p.polycom.flatten ++
    (p.ctexts.flatMap fun ct => appendUint64 (ct.c1 ++ ct.c2) ct.i) ++
    p.sharesRands.flatMap fun sr => appendUint64 (sr.s1 ++ sr.s2) sr.i

-- The index of a compressed ciphertext is not read.
def readCompressed (data : ByteSlice) (i : Nat) : Go (VerencCiphertext × Bytes) := do
  let c1 ← data.cut (0 + i * (57 + 56)) (57 + i * (57 + 56))
  let c2 ← data.cut (57 + i * (57 + 56)) (113 + i * (57 + 56))
  let aux ← data.cut (507 + i * 56) (563 + i * 56)
  return (⟨c1, c2, 0⟩, aux)

def mpcitHVerEncFromBytes (data : ByteSlice) : Go MPCitHVerEnc := do
  let parts ← (List.range 3).mapM (readCompressed data)
  return ⟨parts.map Prod.fst, parts.map Prod.snd, ← data.cut 731 788, ← data.cut 788 845⟩

def MPCitHVerEnc.toBytes (e : MPCitHVerEnc) : Bytes :=
  (e.ctexts.flatMap fun ct => ct.c1 ++ ct.c2) ++ e.aux.flatten ++ e.blindingPubkey ++ e.statement

def MPCitHVerEncProof.Sized (p : MPCitHVerEncProof) : Prop :=
  p.blindingPubkey.length = 57 ∧ p.encryptionKey.length = 57 ∧ p.statement.length = 57 ∧ p.challenge.length = 64 ∧
    (p.polycom.length = 23 ∧ ∀ pol ∈ p.polycom, pol.length = 57) ∧
    (p.ctexts.length = 42 ∧ ∀ ct ∈ p.ctexts, ct.c1.length = 57 ∧ ct.c2.length = 56) ∧
    p.sharesRands.length = 22 ∧ ∀ sr ∈ p.sharesRands, sr.s1.length = 56 ∧ sr.s2.length = 56

def MPCitHVerEnc.Sized (e : MPCitHVerEnc) : Prop :=
  (e.ctexts.length = 3 ∧ ∀ ct ∈ e.ctexts, ct.c1.length = 57 ∧ ct.c2.length = 56) ∧
    (e.aux.length = 3 ∧ ∀ a ∈ e.aux, a.length = 56) ∧ e.blindingPubkey.length = 57 ∧ e.statement.length = 57

-- The decoder looks 168 bytes behind the aux values and 224 bytes behind the two keys.
def survivesOffsets (e : MPCitHVerEnc) (spare : Bytes) : Prop :=
  (∀ ct ∈ e.ctexts, ct.i = 0) ∧ e.aux.flatten = e.blindingPubkey ++ e.statement ++ spare.take 54 ∧
    (spare.drop 110).take 57 = e.blindingPubkey ∧ (spare.drop 167).take 57 = e.statement

variable {data : ByteSlice} {ct : VerencCiphertext}

theorem read_ciphertext_fails {i : Nat} : readCiphertext data i ≠ .ok ct := by
  intro read
  obtain ⟨c1, -, read⟩ := (bind_ok_iff _ _ _).mp read
  obtain ⟨c2, -, read⟩ := (bind_ok_iff _ _ _).mp read
  obtain ⟨number, isNumber, read⟩ := (bind_ok_iff _ _ _).mp read
  obtain ⟨value, isValue, -⟩ := (bind_ok_iff _ _ _).mp read
  obtain ⟨-, part⟩ := (slice_ok_iff _ _ _ _).mp isNumber
  have short : number.length < 8 := by
    rw [part]
    exact Nat.lt_of_le_of_lt (List.length_take_le _ _) (by omega)
  rw [beUint64, if_pos short] at isValue
  cases isValue

theorem flat_map_width {α : Type} {items : List α} {field : α → Bytes} {width : Nat} (each : ∀ item ∈ items, (field item).length = width) :
    (items.flatMap field).length = items.length * width := by
  rw [List.length_flatMap, List.map_congr_left each, List.map_const', List.sum_replicate, smul_eq_mul]

variable {p : MPCitHVerEncProof}

theorem proof_width (sized : p.Sized) : p.toBytes.length = 9268 := by
  obtain ⟨blinding, encryption, statement, challenge, ⟨polCount, polSized⟩, ⟨ctCount, ctSized⟩, srCount, srSized⟩ := sized
  have polynomials : p.polycom.flatten.length = 23 * 57 := by
    rw [← List.flatMap_id]
    exact polCount ▸ flat_map_width polSized
  have texts : (p.ctexts.flatMap fun ct => appendUint64 (ct.c1 ++ ct.c2) ct.i).length = 42 * 121 := by
    refine ctCount ▸ flat_map_width fun ct isCt => ?_
    rw [appendUint64, List.length_append, List.length_append, (ctSized ct isCt).1, (ctSized ct isCt).2, be_bytes_length]
  have shares : (p.sharesRands.flatMap fun sr => appendUint64 (sr.s1 ++ sr.s2) sr.i).length = 22 * 120 := by
    refine srCount ▸ flat_map_width fun sr isSr => ?_
    rw [appendUint64, List.length_append, List.length_append, (srSized sr isSr).1, (srSized sr isSr).2, be_bytes_length]
  simp only [MPCitHVerEncProof.toBytes, List.length_append, blinding, encryption, statement, challenge, polynomials, texts, shares]

theorem proof_from_bytes_empty {spare : Bytes} (sized : p.Sized) :
    mpcitHVerEncProofFromBytes ⟨p.toBytes, spare⟩ = .ok MPCitHVerEncProof.empty := by
  refine if_pos ?_
  rw [proof_width sized]
  decide

theorem proof_from_bytes_fails (full : data.bytes.length = 9012) : mpcitHVerEncProofFromBytes data ≠ .ok p := by
  intro read
  rw [mpcitHVerEncProofFromBytes, if_neg (not_not_intro full)] at read
  obtain ⟨polycom, -, read⟩ := (bind_ok_iff _ _ _).mp read
  obtain ⟨ctexts, isCtexts, -⟩ := (bind_ok_iff _ _ _).mp read
  rw [map_m_iff, List.range_succ_eq_map, List.forall₂_cons_left_iff] at isCtexts
  obtain ⟨ct, rest, first, -⟩ := isCtexts
  exact read_ciphertext_fails first

theorem proof_round_trip_iff (p : MPCitHVerEncProof) (spare : Bytes) :
    mpcitHVerEncProofFromBytes ⟨p.toBytes, spare⟩ = .ok p ↔ p = MPCitHVerEncProof.empty := by
  by_cases full : p.toBytes.length = 9012
  · refine ⟨fun read => absurd read (proof_from_bytes_fails full), fun isEmpty => ?_⟩
    rw [isEmpty] at full
    exact absurd full (by decide)
  · rw [mpcitHVerEncProofFromBytes, if_pos full, Except.ok.injEq]
    exact eq_comm

def piece (whole : Bytes) (low width : Nat) : Bytes := (whole.drop low).take width

theorem cut_piece (data : ByteSlice) (low width high : Nat) (isHigh : high = low + width)
    (fits : high ≤ (data.bytes ++ data.spare).length) : data.cut low high = .ok (piece (data.bytes ++ data.spare) low width) := by
  subst isHigh
  exact slice_width _ low width fits

def offsetParts (whole : Bytes) : MPCitHVerEnc where
  ctexts := (List.range 3).map fun i => ⟨piece whole (0 + i * (57 + 56)) 57, piece whole (57 + i * (57 + 56)) 56, 0⟩
  aux := (List.range 3).map fun i => piece whole (507 + i * 56) 56
  blindingPubkey := piece whole 731 57
  statement := piece whole 788 57

theorem read_compressed_ok (data : ByteSlice) (i : Nat) (few : i < 3) (fits : 845 ≤ (data.bytes ++ data.spare).length) :
    readCompressed data i = .ok (⟨piece (data.bytes ++ data.spare) (0 + i * (57 + 56)) 57,
      piece (data.bytes ++ data.spare) (57 + i * (57 + 56)) 56, 0⟩, piece (data.bytes ++ data.spare) (507 + i * 56) 56) := by
  rw [readCompressed, cut_piece data _ 57 _ (by omega) (by omega), ok_bind,
    cut_piece data _ 56 _ (by omega) (by omega), ok_bind, cut_piece data _ 56 _ (by omega) (by omega), ok_bind]
  rfl

theorem ver_enc_from_bytes_ok_iff (data : ByteSlice) (e : MPCitHVerEnc) :
    mpcitHVerEncFromBytes data = .ok e ↔
      845 ≤ (data.bytes ++ data.spare).length ∧ e = offsetParts (data.bytes ++ data.spare) := by
  by_cases fits : 845 ≤ (data.bytes ++ data.spare).length
  · have parts : (List.range 3).mapM (readCompressed data) = .ok ((List.range 3).map fun i =>
        (⟨piece (data.bytes ++ data.spare) (0 + i * (57 + 56)) 57, piece (data.bytes ++ data.spare) (57 + i * (57 + 56)) 56, 0⟩,
          piece (data.bytes ++ data.spare) (507 + i * 56) 56)) := by
      rw [map_m_iff, List.forall₂_map_right_iff, List.forall₂_same]
      exact fun i few => read_compressed_ok data i (List.mem_range.mp few) fits
    rw [mpcitHVerEncFromBytes, parts, ok_bind, cut_piece data 731 57 788 rfl (by omega), ok_bind,
      cut_piece data 788 57 845 rfl fits, ok_bind, List.map_map, List.map_map]
    exact ⟨fun same => ⟨fits, (Except.ok.inj same).symm⟩, fun same => congrArg Except.ok same.2.symm⟩
  · refine ⟨fun read => ?_, fun read => absurd read.1 fits⟩
    obtain ⟨parts, -, read⟩ := (bind_ok_iff _ _ _).mp read
    obtain ⟨key, -, read⟩ := (bind_ok_iff _ _ _).mp read
    obtain ⟨statement, isStatement, -⟩ := (bind_ok_iff _ _ _).mp read
    exact absurd ((slice_ok_iff _ _ _ _).mp isStatement).1.2 fits

theorem piece_front (part back : Bytes) (width : Nat) (isWidth : part.length = width) : piece (part ++ back) 0 width = part := by
  rw [piece, List.drop_zero, List.take_left' isWidth]

theorem piece_behind (part back : Bytes) (low width : Nat) (behind : part.length ≤ low) :
    piece (part ++ back) low width = piece back (low - part.length) width := by
  rw [piece, piece, List.drop_append, List.drop_eq_nil_of_le behind, List.nil_append]

theorem pieces_flatten_iff (tail first second third : Bytes) (isFirst : first.length = 56) (isSecond : second.length = 56)
    (isThird : third.length = 56) :
    (first = piece tail 0 56 ∧ second = piece tail 56 56 ∧ third = piece tail 112 56) ↔
      first ++ (second ++ third) = tail.take 168 := by
  have cuts : tail.take 168 = piece tail 0 56 ++ (piece tail 56 56 ++ piece tail 112 56) := by
    rw [piece, piece, piece, List.drop_zero, show 168 = 56 + (56 + 56) from rfl, List.take_add, List.take_add, List.drop_drop]
  rw [cuts]
  constructor
  · rintro ⟨one, two, three⟩
    rw [← one, ← two, ← three]
  · intro same
    have short (low : Nat) : (piece tail low 56).length ≤ 56 := List.length_take_le _ _
    have total := congrArg List.length same
    simp only [List.length_append, isFirst, isSecond, isThird] at total
    have one := short 0
    have two := short 56
    have three := short 112
    obtain ⟨isOne, same⟩ := List.append_inj same (by omega)
    exact ⟨isOne, List.append_inj same (by omega)⟩

theorem ver_enc_width (e : MPCitHVerEnc) (spare : Bytes) (sized : e.Sized) : (e.toBytes ++ spare).length = 621 + spare.length := by
  obtain ⟨⟨ctCount, ctSized⟩, ⟨auxCount, auxSized⟩, keySized, statementSized⟩ := sized
  have texts : (e.ctexts.flatMap fun ct => ct.c1 ++ ct.c2).length = 3 * 113 := by
    refine ctCount ▸ flat_map_width fun ct isCt => ?_
    rw [List.length_append, (ctSized ct isCt).1, (ctSized ct isCt).2]
  have values : e.aux.flatten.length = 3 * 56 := by
    rw [← List.flatMap_id]
    exact auxCount ▸ flat_map_width auxSized
  rw [MPCitHVerEnc.toBytes, List.length_append, List.length_append, List.length_append, List.length_append, texts, values,
    keySized, statementSized]

theorem ver_enc_whole {e : MPCitHVerEnc} (spare : Bytes) {first second third : VerencCiphertext} {one two three : Bytes}
    (ctexts : e.ctexts = [first, second, third]) (aux : e.aux = [one, two, three]) :
    e.toBytes ++ spare = first.c1 ++ (first.c2 ++ (second.c1 ++ (second.c2 ++ (third.c1 ++ (third.c2 ++
      (one ++ (two ++ (three ++ (e.blindingPubkey ++ (e.statement ++ spare)))))))))) := by
  simp [MPCitHVerEnc.toBytes, ctexts, aux]

theorem offset_parts_whole (e : MPCitHVerEnc) (spare : Bytes) (first second third : VerencCiphertext) (one two three : Bytes)
    (ctexts : e.ctexts = [first, second, third]) (aux : e.aux = [one, two, three]) (sized : e.Sized) :
    offsetParts (e.toBytes ++ spare) =
      { ctexts := [⟨first.c1, first.c2, 0⟩, ⟨second.c1, second.c2, 0⟩, ⟨third.c1, third.c2, 0⟩]
        aux := [piece (e.blindingPubkey ++ (e.statement ++ spare)) 0 56, piece (e.blindingPubkey ++ (e.statement ++ spare)) 56 56,
          piece (e.blindingPubkey ++ (e.statement ++ spare)) 112 56]
        blindingPubkey := piece spare 110 57
        statement := piece spare 167 57 } := by
  obtain ⟨⟨-, ctSized⟩, ⟨-, auxSized⟩, keySized, statementSized⟩ := sized
  rw [ctexts] at ctSized
  rw [aux] at auxSized
  simp only [List.forall_mem_cons, List.not_mem_nil, false_implies, implies_true, and_true] at ctSized auxSized
  obtain ⟨⟨first1, first2⟩, ⟨second1, second2⟩, third1, third2⟩ := ctSized
  obtain ⟨isOne, isTwo, isThree⟩ := auxSized
  rw [ver_enc_whole spare ctexts aux]
  simp (disch := omega) [offsetParts, List.range_succ, piece_front, piece_behind, *]

theorem index_zero_iff : ct = ⟨ct.c1, ct.c2, 0⟩ ↔ ct.i = 0 := by
  cases ct with
  | mk c1 c2 i => simp

theorem ver_enc_round_trip_iff (e : MPCitHVerEnc) (spare : Bytes) (sized : e.Sized) :
    mpcitHVerEncFromBytes ⟨e.toBytes, spare⟩ = .ok e ↔ survivesOffsets e spare := by
  obtain ⟨⟨ctCount, -⟩, ⟨auxCount, auxSized⟩, keySized, statementSized⟩ := id sized
  obtain ⟨first, second, third, ctexts⟩ := List.length_eq_three.mp ctCount
  obtain ⟨one, two, three, aux⟩ := List.length_eq_three.mp auxCount
  have moved : (e.blindingPubkey ++ (e.statement ++ spare)).take 168 = e.blindingPubkey ++ e.statement ++ spare.take 54 := by
    rw [← List.append_assoc, List.take_append, List.length_append, keySized, statementSized, List.take_of_length_le]
    rw [List.length_append, keySized, statementSized]
    decide
  have indices : e.ctexts = [⟨first.c1, first.c2, 0⟩, ⟨second.c1, second.c2, 0⟩, ⟨third.c1, third.c2, 0⟩] ↔ ∀ ct ∈ e.ctexts, ct.i = 0 := by
    simp [ctexts, index_zero_iff]
  have values := pieces_flatten_iff (e.blindingPubkey ++ (e.statement ++ spare)) one two three
    (auxSized one (by simp [aux])) (auxSized two (by simp [aux])) (auxSized three (by simp [aux]))
  have flat : e.aux.flatten = one ++ (two ++ three) := by simp [aux]
  have listed : e.aux = [piece (e.blindingPubkey ++ (e.statement ++ spare)) 0 56, piece (e.blindingPubkey ++ (e.statement ++ spare)) 56 56,
      piece (e.blindingPubkey ++ (e.statement ++ spare)) 112 56] ↔ e.aux.flatten = e.blindingPubkey ++ e.statement ++ spare.take 54 := by
    rw [flat, ← moved, ← values, aux]
    simp only [List.cons.injEq, and_true]
  rw [ver_enc_from_bytes_ok_iff, offset_parts_whole e spare first second third one two three ctexts aux sized,
    ver_enc_width e spare sized, MPCitHVerEnc.ext_iff, indices, listed, survivesOffsets]
  constructor
  · rintro ⟨-, zero, behind, key, statement⟩
    exact ⟨zero, behind, key.symm, statement.symm⟩
  · rintro ⟨zero, behind, key, statement⟩
    -- a statement of full length behind the encoding needs that much spare capacity
    have room := congrArg List.length statement
    rw [List.length_take, List.length_drop, statementSized] at room
    exact ⟨by omega, zero, behind, key.symm, statement.symm⟩

theorem verenc_codecs_round_trip_iff (p : MPCitHVerEncProof) (behind : Bytes) (e : MPCitHVerEnc) (spare : Bytes) (sized : e.Sized) :
    (mpcitHVerEncProofFromBytes ⟨p.toBytes, behind⟩ = .ok p ↔ p = MPCitHVerEncProof.empty) ∧
      (mpcitHVerEncFromBytes ⟨e.toBytes, spare⟩ = .ok e ↔ survivesOffsets e spare) :=
  ⟨proof_round_trip_iff p behind, ver_enc_round_trip_iff e spare sized⟩

def plainVerEncProof : MPCitHVerEncProof where
  blindingPubkey := List.replicate 57 1
  encryptionKey := List.replicate 57 2
  statement := List.replicate 57 3
  challenge := List.replicate 64 4
  polycom := List.replicate 23 (List.replicate 57 5)
  ctexts := List.replicate 42 ⟨List.replicate 57 6, List.replicate 56 7, 8⟩
  sharesRands := List.replicate 22 ⟨List.replicate 56 9, List.replicate 56 10, 11⟩

def plainVerEnc : MPCitHVerEnc where
  ctexts := List.replicate 3 ⟨List.replicate 57 1, List.replicate 56 2, 0⟩
  aux := List.replicate 3 (List.replicate 56 3)
  blindingPubkey := List.replicate 57 4
  statement := List.replicate 57 5

theorem plain_proof_sized : plainVerEncProof.Sized := by
  simp [MPCitHVerEncProof.Sized, plainVerEncProof]

theorem plain_ver_enc_sized : plainVerEnc.Sized := by
  simp [MPCitHVerEnc.Sized, plainVerEnc]

-- The encoder's appends leave a capacity of 896 bytes for the 621 of an encoded value.
theorem verenc_codecs_lose_values :
    (plainVerEncProof.Sized ∧ mpcitHVerEncProofFromBytes ⟨plainVerEncProof.toBytes, []⟩ = .ok MPCitHVerEncProof.empty ∧
      mpcitHVerEncProofFromBytes ⟨plainVerEncProof.toBytes, []⟩ ≠ .ok plainVerEncProof) ∧
    plainVerEnc.Sized ∧ mpcitHVerEncFromBytes ⟨plainVerEnc.toBytes, List.replicate 275 0⟩ ≠ .ok plainVerEnc ∧
      panics (mpcitHVerEncFromBytes ⟨plainVerEnc.toBytes, []⟩) = true := by
  refine ⟨⟨plain_proof_sized, proof_from_bytes_empty plain_proof_sized, ?_⟩, plain_ver_enc_sized, ?_, by decide +kernel⟩
  · rw [Ne, proof_round_trip_iff]
    exact fun same => absurd (congrArg (fun p => p.polycom.length) same) (by decide)
  · rw [Ne, ver_enc_round_trip_iff _ _ plain_ver_enc_sized]
    exact fun survives => absurd survives.2.2.1 (by decide)

theorem verenc_codecs_round_trip_plain :
    plainVerEnc.Sized ∧
      (mpcitHVerEncFromBytes ⟨plainVerEnc.toBytes, List.replicate 275 0⟩ = .ok plainVerEnc ↔ survivesOffsets plainVerEnc (List.replicate 275 0)) :=
  ⟨plain_ver_enc_sized, (verenc_codecs_round_trip_iff plainVerEncProof [] plainVerEnc (List.replicate 275 0) plain_ver_enc_sized).2⟩

end Ceremony
