import CeremonyClient.Lib.Go

set_option autoImplicit false

namespace Ceremony

open GoSem

variable {key : Bytes} {pos : Nat} {left right : Bytes} {n : Nat}

-- The mask of the low bits is computed as a byte, so that it is 255 for all eight of them.
def getNextNibble (key : Bytes) (pos : Nat) : Nat :=
  let startByte := pos / 8
  match key[startByte]? with
  | none => 0
  | some current =>
      let bitsFromCurrentByte := 8 - pos % 8
      let result := current.toNat &&& ((2 ^ bitsFromCurrentByte % 256 + 255) % 256)
      if bitsFromCurrentByte ≥ 6 then (result >>> (bitsFromCurrentByte - 6)) &&& 63
      else
        let shifted := result <<< (6 - bitsFromCurrentByte)
        let filled := match key[startByte + 1]? with
          | some nextByte => shifted ||| nextByte.toNat >>> (8 - (6 - bitsFromCurrentByte))
          | none => shifted
        filled &&& 63

-- The bit at a position, most significant first in each byte, and zero past the end.
def keyBit (key : Bytes) (position : Nat) : Bool := (key.getD (position / 8) 0).toNat.testBit (7 - position % 8)

theorem low_mask (bits : Nat) (positive : 0 < bits) (small : bits ≤ 8) : (2 ^ bits % 256 + 255) % 256 = 2 ^ bits - 1 := by
  interval_cases bits <;> rfl

theorem get_next_nibble_eq (key : Bytes) (pos : Nat) :
    getNextNibble key pos =
      (if 6 ≤ 8 - pos % 8 then ((key.getD (pos / 8) 0).toNat &&& (2 ^ (8 - pos % 8) - 1)) >>> (8 - pos % 8 - 6)
        else ((key.getD (pos / 8) 0).toNat &&& (2 ^ (8 - pos % 8) - 1)) <<< (6 - (8 - pos % 8)) |||
          (key.getD (pos / 8 + 1) 0).toNat >>> (8 - (6 - (8 - pos % 8)))) &&& 63 := by
  have mask := low_mask (8 - pos % 8) (by omega) (by omega)
  simp only [getNextNibble, mask, List.getD_eq_getElem?_getD, ge_iff_le]
  cases current : key[pos / 8]? with
  | none =>
      have next : key[pos / 8 + 1]? = none := List.getElem?_eq_none (by have := List.getElem?_eq_none_iff.mp current; omega)
      simp [next]
  | some byte =>
      by_cases enough : 6 ≤ 8 - pos % 8
      · simp only [Option.getD_some, if_pos enough]
      · cases next : key[pos / 8 + 1]? <;> simp [enough]

theorem get_next_nibble_lt : getNextNibble key pos < 64 := by
  rw [get_next_nibble_eq]
  exact Nat.and_lt_two_pow _ (n := 6) (by decide)

theorem nibble_bit (key : Bytes) {j : Nat} (small : j < 6) : (getNextNibble key pos).testBit j = keyBit key (pos + (5 - j)) := by
  have masked : (63 : Nat).testBit j = true := by
    rw [show 63 = 2 ^ 6 - 1 from rfl, Nat.testBit_two_pow_sub_one]
    exact decide_eq_true small
  rw [get_next_nibble_eq, Nat.testBit_and, masked, Bool.and_true, keyBit]
  by_cases enough : 6 ≤ 8 - pos % 8
  · rw [if_pos enough, Nat.testBit_shiftRight, Nat.testBit_and, Nat.testBit_two_pow_sub_one, decide_eq_true (by omega), Bool.and_true,
      show (pos + (5 - j)) / 8 = pos / 8 by omega, show 8 - pos % 8 - 6 + j = 7 - (pos + (5 - j)) % 8 by omega]
  · rw [if_neg enough, Nat.testBit_or, Nat.testBit_shiftLeft, Nat.testBit_and, Nat.testBit_shiftRight, Nat.testBit_two_pow_sub_one]
    by_cases fromNext : j < 6 - (8 - pos % 8)
    · rw [decide_eq_false (not_le.mpr fromNext), Bool.false_and, Bool.false_or, show (pos + (5 - j)) / 8 = pos / 8 + 1 by omega,
        show 8 - (6 - (8 - pos % 8)) + j = 7 - (pos + (5 - j)) % 8 by omega]
    · have past : (key.getD (pos / 8 + 1) 0).toNat.testBit (8 - (6 - (8 - pos % 8)) + j) = false := by
        apply Nat.testBit_lt_two_pow
        exact lt_of_lt_of_le (UInt8.toNat_lt _) (Nat.pow_le_pow_right (by decide) (by omega : 8 ≤ 8 - (6 - (8 - pos % 8)) + j))
      rw [past, Bool.or_false, decide_eq_true (not_lt.mp fromNext), Bool.true_and, decide_eq_true (by omega), Bool.and_true,
        show (pos + (5 - j)) / 8 = pos / 8 by omega, show j - (6 - (8 - pos % 8)) = 7 - (pos + (5 - j)) % 8 by omega]

theorem nibbles_bits (same : ∀ n, getNextNibble left (6 * n) = getNextNibble right (6 * n)) (position : Nat) :
    keyBit left position = keyBit right position := by
  have place : position = 6 * (position / 6) + (5 - (5 - position % 6)) := by omega
  rw [place, ← nibble_bit left (by omega), ← nibble_bit right (by omega), same]

theorem bits_byte (same : ∀ position, keyBit left position = keyBit right position) : left.getD n 0 = right.getD n 0 := by
  apply UInt8.toNat_inj.mp
  apply Nat.eq_of_testBit_eq
  intro i
  by_cases small : i < 8
  · have here := same (8 * n + (7 - i))
    rwa [keyBit, keyBit, show (8 * n + (7 - i)) / 8 = n by omega, show 7 - (8 * n + (7 - i)) % 8 = i by omega] at here
  · have past : ∀ byte : UInt8, byte.toNat.testBit i = false := fun byte =>
      Nat.testBit_lt_two_pow (lt_of_lt_of_le (UInt8.toNat_lt byte) (Nat.pow_le_pow_right (by decide) (by omega : 8 ≤ i)))
    rw [past, past]

theorem nibbles_bytes (same : ∀ n, getNextNibble left (6 * n) = getNextNibble right (6 * n)) (n : Nat) :
    left.getD n 0 = right.getD n 0 :=
  bits_byte (nibbles_bits same)

theorem nibbles_injective (length : left.length = right.length) (same : ∀ n, getNextNibble left (6 * n) = getNextNibble right (6 * n)) :
    left = right := by
  apply List.ext_getElem length
  intro n inLeft inRight
  have here := nibbles_bytes same n
  simpa [List.getD_eq_getElem?_getD, inLeft, inRight] using here

theorem nibble_past_end (past : 8 * key.length ≤ pos) : getNextNibble key pos = 0 := by
  rw [getNextNibble, List.getElem?_eq_none (by omega)]

theorem nibbles_apart_bound (apart : getNextNibble left (6 * n) ≠ getNextNibble right (6 * n)) :
    6 * n < 8 * max left.length right.length := by
  by_contra past
  rw [not_lt] at past
  have leftPast := le_max_left left.length right.length
  have rightPast := le_max_right left.length right.length
  exact apart (by rw [nibble_past_end (by omega), nibble_past_end (by omega)])

def ZeroPadded (left right : Bytes) : Prop :=
  ∃ count, left = right ++ List.replicate count 0 ∨ right = left ++ List.replicate count 0

theorem get_d_padded (key : Bytes) (count n : Nat) : (key ++ List.replicate count 0).getD n 0 = key.getD n 0 := by
  rw [List.getD_eq_getElem?_getD, List.getD_eq_getElem?_getD, List.getElem?_append]
  by_cases inside : n < key.length
  · rw [if_pos inside]
  · rw [if_neg inside, List.getElem?_replicate, List.getElem?_eq_none (not_lt.mp inside)]
    split <;> rfl

theorem longer_padded (left right : Bytes) (short : left.length ≤ right.length) (same : ∀ n, left.getD n 0 = right.getD n 0) :
    right = left ++ List.replicate (right.length - left.length) 0 := by
  apply List.ext_getElem
  · rw [List.length_append, List.length_replicate]
    omega
  · intro n inRight inPadded
    have padded := get_d_padded left (right.length - left.length) n
    rw [same n] at padded
    simpa [List.getD_eq_getElem?_getD, List.getElem?_eq_getElem inRight, List.getElem?_eq_getElem inPadded] using padded.symm

theorem nibbles_same_iff : (∀ n, getNextNibble left (6 * n) = getNextNibble right (6 * n)) ↔ ZeroPadded left right := by
  constructor
  · intro same
    have bytes := nibbles_bytes same
    by_cases short : left.length ≤ right.length
    · exact ⟨_, .inr (longer_padded left right short bytes)⟩
    · exact ⟨_, .inl (longer_padded right left (by omega) fun n => (bytes n).symm)⟩
  · intro padded n
    obtain ⟨count, isLeft | isRight⟩ := padded
    · rw [isLeft, get_next_nibble_eq, get_next_nibble_eq right, get_d_padded, get_d_padded]
    · rw [isRight, get_next_nibble_eq left, get_next_nibble_eq, get_d_padded, get_d_padded]

end Ceremony
