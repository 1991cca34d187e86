import CeremonyClient.Lib.Chunks

set_option autoImplicit false

namespace Ceremony.Verenc

open GoSem

-- A reader over a byte string; the position counts bits.
structure BitReader where
  data : Bytes
  bitPos : Nat
deriving DecidableEq

def newBitReader (data : Bytes) : BitReader := ⟨data, 0⟩

def BitReader.readBit (reader : BitReader) : Option Bool × BitReader :=
  if reader.data.length * 8 ≤ reader.bitPos then (none, reader)
  else
    let byte := reader.data.getD (reader.bitPos / 8) 0
    let bit := (byte >>> UInt8.ofNat (reader.bitPos % 8)) &&& 1
    (some (bit != 0), { reader with bitPos := reader.bitPos + 1 })

-- The loop over the bits i, i + 1, ... of the value; only the first one can end it.
def readBitsFrom : Nat → Nat → UInt64 → BitReader → Option UInt64 × BitReader
  | _, 0, value, reader => (some value, reader)
  | i, count + 1, value, reader =>
      let (bit, next) := reader.readBit
      let value := if bit = some true then value ||| ((1 : UInt64) <<< UInt64.ofNat i) else value
      if i = 0 ∧ bit = none then (none, next) else readBitsFrom (i + 1) count value next

def BitReader.readBits (reader : BitReader) (count : Nat) : Option UInt64 × BitReader := readBitsFrom 0 count 0 reader

def encodeScalar (reader : BitReader) : Bytes × BitReader :=
  (List.range 54).foldl (fun (scalar, reader) j =>
    let (byte, next) := reader.readBits 8
    (scalar.set (j + 1) (byte.getD 0).toUInt8, next)) (List.replicate 56 0, reader)

def encodeLoop : Nat → BitReader → List Bytes → Go (List Bytes)
  | 0, _, _ => .error .outOfFuel
  | fuel + 1, reader, scalars =>
      match reader.readBits 1 with
      | (none, _) => .ok scalars
      | (some _, next) =>
          -- The bit that was read is given back.
          let (scalar, after) := encodeScalar { next with bitPos := next.bitPos - 1 }
          encodeLoop fuel after (scalars ++ [scalar])

def encodeToCurve448Scalars (input : Bytes) : Go (List Bytes) := encodeLoop (input.length + 1) (newBitReader input) []

structure Accumulator where
  output : Bytes
  acc : UInt64
  bitsInAcc : Nat

def Accumulator.flush (a : Accumulator) : Accumulator :=
  if 8 ≤ a.bitsInAcc then
    Accumulator.flush ⟨a.output ++ [(a.acc &&& 0xff).toUInt8], a.acc >>> 8, a.bitsInAcc - 8⟩
  else a
termination_by a.bitsInAcc

def Accumulator.pushBits (a : Accumulator) (value : UInt8) (numBits : Nat) : Accumulator :=
  Accumulator.flush ⟨a.output, a.acc ||| (value.toUInt64 <<< UInt64.ofNat a.bitsInAcc), a.bitsInAcc + numBits⟩

def decodeLoop : Accumulator → List Bytes → Bytes
  | a, [] => a.output
  | a, scalar :: rest =>
      if scalar.length ≠ 56 then []
      else decodeLoop (((scalar.drop 1).take 54).foldl (fun a byte => a.pushBits byte 8) a) rest

def decodeFromCurve448Scalars (scalars : List Bytes) : Bytes := decodeLoop ⟨[], 0, 0⟩ scalars

variable {data : Bytes} {p : Nat}

def bitOf (byte : UInt8) (q : Nat) : Bool := ((byte >>> UInt8.ofNat q) &&& 1) != 0

def placeBit (byte : UInt8) (value : UInt64) (q : Nat) : UInt64 :=
  if bitOf byte q = true then value ||| ((1 : UInt64) <<< UInt64.ofNat q) else value

theorem read_bit_inside {q : Nat} (inside : p < data.length) (small : q < 8) :
    BitReader.readBit ⟨data, 8 * p + q⟩ = (some (bitOf (data.getD p 0) q), ⟨data, 8 * p + q + 1⟩) := by
  have place : (8 * p + q) / 8 = p := by omega
  have offset : (8 * p + q) % 8 = q := by omega
  have more : ¬ data.length * 8 ≤ 8 * p + q := by omega
  simp only [BitReader.readBit, if_neg more, place, offset, bitOf]

theorem read_bits_from_inside (inside : p < data.length) (count i : Nat) (value : UInt64) (within : i + count ≤ 8) :
    readBitsFrom i count value ⟨data, 8 * p + i⟩ =
      (some ((List.range' i count).foldl (placeBit (data.getD p 0)) value), ⟨data, 8 * p + (i + count)⟩) := by
  induction count generalizing i value with
  | zero => rfl
  | succ count ih =>
      have next := ih (i + 1) (placeBit (data.getD p 0) value i) (by omega)
      rw [readBitsFrom, read_bit_inside inside (by omega)]
      simp only [reduceCtorEq, and_false, if_false, Option.some.injEq]
      rw [List.range'_succ, List.foldl_cons, show i + (count + 1) = i + 1 + count by omega]
      exact next

theorem bits_of_byte (byte : UInt8) : (List.range' 0 8).foldl (placeBit byte) 0 = byte.toUInt64 := by
  have checked := byte_forall (fun byte => decide ((List.range' 0 8).foldl (placeBit byte) 0 = byte.toUInt64)) (by decide +kernel) byte
  exact of_decide_eq_true checked

theorem read_bits_inside (inside : p < data.length) :
    BitReader.readBits ⟨data, 8 * p⟩ 8 = (some (data.getD p 0).toUInt64, ⟨data, 8 * (p + 1)⟩) := by
  have collected := read_bits_from_inside inside 8 0 0 (Nat.le_refl _)
  rw [bits_of_byte] at collected
  exact collected

theorem read_bit_one (inside : p < data.length) : ∃ value, BitReader.readBits ⟨data, 8 * p⟩ 1 = (some value, ⟨data, 8 * p + 1⟩) :=
  ⟨_, read_bits_from_inside inside 1 0 0 (by omega)⟩

theorem read_bits_behind (count : Nat) : BitReader.readBits ⟨data, 8 * data.length⟩ (count + 1) = (none, ⟨data, 8 * data.length⟩) := by
  have past : data.length * 8 ≤ 8 * data.length := by omega
  simp only [BitReader.readBits, readBitsFrom, BitReader.readBit, if_pos past, and_self, if_true]

theorem read_byte (data : Bytes) (q : Nat) : ∃ byte, BitReader.readBits ⟨data, 8 * min q data.length⟩ 8 =
    (byte, ⟨data, 8 * min (q + 1) data.length⟩) ∧ (byte.getD 0).toUInt8 = data.getD q 0 := by
  by_cases inside : q < data.length
  · refine ⟨some (data.getD q 0).toUInt64, ?_, ?_⟩
    · rw [Nat.min_eq_left (Nat.le_of_lt inside), read_bits_inside inside, Nat.min_eq_left inside]
    · rw [Option.getD_some, UInt8.toUInt8_toUInt64]
  · refine ⟨none, ?_, ?_⟩
    · rw [Nat.min_eq_right (Nat.not_lt.mp inside), read_bits_behind 7, Nat.min_eq_right (by omega)]
    · rw [Option.getD_none, List.getD_eq_getElem?_getD, List.getElem?_eq_none (Nat.not_lt.mp inside)]
      rfl

def wrapPart (part : Bytes) : Bytes := 0 :: part ++ [0]

theorem encode_scalar_reads (data : Bytes) (p n : Nat) (within : n ≤ 54) :
    (List.range n).foldl (fun (scalar, reader) j =>
      let (byte, next) := BitReader.readBits reader 8
      (List.set scalar (j + 1) (byte.getD 0).toUInt8, next)) (List.replicate 56 0, ⟨data, 8 * min p data.length⟩) =
    (0 :: (List.range n).map (fun j => data.getD (p + j) 0) ++ List.replicate (55 - n) 0, ⟨data, 8 * min (p + n) data.length⟩) := by
  induction n with
  | zero => rfl
  | succ n ih =>
      obtain ⟨byte, ran, isByte⟩ := read_byte data (p + n)
      rw [List.range_succ, List.foldl_append, ih (by omega), List.foldl_cons, List.foldl_nil]
      simp only [ran, isByte]
      rw [show 55 - n = 55 - (n + 1) + 1 by omega, List.replicate_succ, List.map_append, List.map_singleton, List.cons_append,
        List.set_cons_succ, List.set_append_right _ _ (by simp), List.length_map, List.length_range, Nat.sub_self, List.set_cons_zero,
        List.cons_append, List.append_assoc, List.singleton_append, Nat.add_assoc]

theorem encode_scalar_eq (data : Bytes) (p : Nat) (inside : p ≤ data.length) : encodeScalar ⟨data, 8 * p⟩ =
    (wrapPart ((data.drop p).take 54 ++ List.replicate (54 - (data.drop p).length) 0), ⟨data, 8 * min (p + 54) data.length⟩) := by
  have reads := encode_scalar_reads data p 54 (Nat.le_refl _)
  rw [Nat.min_eq_left inside] at reads
  rw [encodeScalar, reads, ← range_get_padded, wrapPart]
  simp only [List.getD_eq_getElem?_getD, List.getElem?_drop]
  rfl

theorem encode_loop_eq (data : Bytes) (fuel p count : Nat) (scalars : List Bytes) (inside : p ≤ data.length) (enough : data.length < fuel + p)
    (fits : data.length - p ≤ 54 * count) (tight : 54 * count < data.length - p + 54) :
    encodeLoop fuel ⟨data, 8 * p⟩ scalars = .ok (scalars ++ (cut 54 count (data.drop p)).map wrapPart) := by
  induction fuel generalizing p count scalars with
  | zero => omega
  | succ fuel ih =>
      by_cases done : p = data.length
      · have none : count = 0 := by omega
        rw [encodeLoop, done, read_bits_behind 0, none]
        simp [cut]
      · obtain ⟨value, ran⟩ := read_bit_one (show p < data.length by omega)
        cases count with
        | zero => omega
        | succ count =>
            rw [encodeLoop, ran]
            simp only [Nat.add_sub_cancel, encode_scalar_eq data p inside]
            rw [ih (min (p + 54) data.length) count _ (by omega) (by omega) (by omega) (by omega), cut, List.map_cons,
              List.append_assoc, List.singleton_append, List.drop_drop]
            congr 4
            by_cases last : p + 54 ≤ data.length
            · rw [Nat.min_eq_left last]
            · rw [Nat.min_eq_right (by omega), List.drop_eq_nil_of_le (Nat.le_refl _), List.drop_eq_nil_of_le (by omega)]

theorem flush_byte (output : Bytes) (byte : UInt8) : Accumulator.pushBits ⟨output, 0, 0⟩ byte 8 = ⟨output ++ [byte], 0, 0⟩ := by
  have low := of_decide_eq_true (byte_forall (fun byte =>
    decide (((0 ||| (byte.toUInt64 <<< UInt64.ofNat 0)) &&& 0xff).toUInt8 = byte)) (by decide +kernel) byte)
  have high := of_decide_eq_true (byte_forall (fun byte =>
    decide ((0 ||| (byte.toUInt64 <<< UInt64.ofNat 0)) >>> 8 = (0 : UInt64))) (by decide +kernel) byte)
  rw [Accumulator.pushBits, Accumulator.flush, if_pos (Nat.le_refl 8), Accumulator.flush, if_neg (show ¬ 8 ≤ 0 + 8 - 8 by omega)]
  dsimp only
  rw [low, high]

theorem push_bytes (output part : Bytes) : part.foldl (fun a byte => Accumulator.pushBits a byte 8) ⟨output, 0, 0⟩ = ⟨output ++ part, 0, 0⟩ := by
  induction part generalizing output with
  | nil => rw [List.foldl_nil, List.append_nil]
  | cons byte rest ih => rw [List.foldl_cons, flush_byte, ih, List.append_assoc, List.singleton_append]

theorem wrap_part_length {part : Bytes} (sized : part.length = 54) : (wrapPart part).length = 56 := by
  rw [wrapPart, List.length_append, List.length_cons, sized]
  rfl

theorem decode_loop_parts (output : Bytes) (parts : List Bytes) (sized : ∀ part ∈ parts, part.length = 54) :
    decodeLoop ⟨output, 0, 0⟩ (parts.map wrapPart) = output ++ parts.flatten := by
  induction parts generalizing output with
  | nil => rw [List.map_nil, decodeLoop, List.flatten_nil, List.append_nil]
  | cons part rest ih =>
      obtain ⟨here, others⟩ := List.forall_mem_cons.mp sized
      have inner : ((wrapPart part).drop 1).take 54 = part := by
        rw [wrapPart, List.cons_append, List.drop_succ_cons, List.drop_zero, List.take_left' here]
      rw [List.map_cons, decodeLoop, if_neg (not_not.mpr (wrap_part_length here)), inner, push_bytes, ih _ others, List.flatten_cons,
        List.append_assoc]

theorem chunk_codec (x : Bytes) : ∃ chunks, encodeToCurve448Scalars x = .ok chunks ∧
    (∀ chunk ∈ chunks, chunk.length = 56 ∧ chunk.head? = some 0 ∧ chunk.getLast? = some 0) ∧ chunks.length = (x.length + 53) / 54 ∧
    decodeFromCurve448Scalars chunks = x ++ List.replicate (54 * ((x.length + 53) / 54) - x.length) 0 := by
  have fits : x.length ≤ 54 * ((x.length + 53) / 54) := by omega
  have tight : 54 * ((x.length + 53) / 54) < x.length + 54 := by omega
  have encoded := encode_loop_eq x (x.length + 1) 0 ((x.length + 53) / 54) [] (Nat.zero_le _) (by omega) (by omega) (by omega)
  rw [List.drop_zero, List.nil_append] at encoded
  have sized : ∀ part ∈ cut 54 ((x.length + 53) / 54) x, part.length = 54 := cut_sizes
  refine ⟨_, encoded, ?_, ?_, ?_⟩
  · intro chunk member
    obtain ⟨part, inside, isChunk⟩ := List.mem_map.mp member
    rw [← isChunk]
    exact ⟨wrap_part_length (sized part inside), rfl, by rw [wrapPart, List.getLast?_concat]⟩
  · rw [List.length_map, cut_length]
  · rw [decodeFromCurve448Scalars, decode_loop_parts [] _ sized, List.nil_append, cut_flatten 54 _ x fits tight]

end Ceremony.Verenc
