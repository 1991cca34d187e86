import Mathlib.Data.FinEnum
import Mathlib.Tactic

set_option autoImplicit false

namespace GoSem

abbrev Bytes := List UInt8

instance : LawfulBEq Bytes := inferInstance

-- big.Int.SetBytes: the unsigned big-endian value of a byte string of any length.
def setBytes (bytes : Bytes) : Nat := bytes.foldl (fun value byte => value * 256 + byte.toNat) 0

def beBytes : Nat → Nat → Bytes
  | 0, _ => []
  | width + 1, value => UInt8.ofNat (value / 256 ^ width) :: beBytes width (value % 256 ^ width)

-- big.Int.Bytes: no leading zero bytes, and none at all for zero.
def intBytes (value : Nat) : Bytes := beBytes (if value = 0 then 0 else value.log2 / 8 + 1) value

def ascii (text : List Char) : Bytes := text.map fun char => UInt8.ofNat char.toNat

theorem be_bytes_length (width value : Nat) : (beBytes width value).length = width := by
  induction width generalizing value with
  | zero => rfl
  | succ width ih => simp [beBytes, ih]

theorem be_bytes_mod (width value : Nat) : beBytes width value = beBytes width (value % 256 ^ width) := by
  cases width with
  | zero => rfl
  | succ width =>
      have low : value % 256 ^ (width + 1) % 256 ^ width = value % 256 ^ width :=
        Nat.mod_mod_of_dvd value (pow_dvd_pow 256 (Nat.le_succ width))
      have high : value % 256 ^ (width + 1) / 256 ^ width = value / 256 ^ width % 256 := by
        rw [pow_succ, Nat.mod_mul_right_div_self]
      rw [beBytes, beBytes, low, high, ← UInt8.ofNat_mod_size]

theorem set_bytes_fold (bytes : Bytes) (start : Nat) :
    bytes.foldl (fun value byte => value * 256 + byte.toNat) start = start * 256 ^ bytes.length + setBytes bytes := by
  induction bytes generalizing start with
  | nil => simp [setBytes]
  | cons byte tail ih =>
      have head := ih (start * 256 + byte.toNat)
      have alone := ih (0 * 256 + byte.toNat)
      simp only [setBytes, List.foldl_cons, List.length_cons] at head alone ⊢
      rw [head, alone]
      ring

theorem set_bytes_append (front back : Bytes) :
    setBytes (front ++ back) = setBytes front * 256 ^ back.length + setBytes back := by
  rw [setBytes, List.foldl_append, set_bytes_fold]
  rfl

theorem set_bytes_cons {byte : UInt8} {tail : Bytes} : setBytes (byte :: tail) = byte.toNat * 256 ^ tail.length + setBytes tail := by
  simpa [setBytes] using set_bytes_append [byte] tail

theorem set_bytes_lt (bytes : Bytes) : setBytes bytes < 256 ^ bytes.length := by
  induction bytes with
  | nil => simp [setBytes]
  | cons byte tail ih =>
      have bound : byte.toNat < 256 := byte.toNat_lt
      rw [set_bytes_cons, List.length_cons, pow_succ]
      nlinarith [Nat.zero_le (256 ^ tail.length)]

theorem set_bytes_be_bytes (width value : Nat) (fits : value < 256 ^ width) :
    setBytes (beBytes width value) = value := by
  induction width generalizing value with
  | zero =>
      have nothing : value = 0 := by simpa using fits
      simp [beBytes, setBytes, nothing]
  | succ width ih =>
      have positive : 0 < 256 ^ width := by positivity
      have quotient : value / 256 ^ width < 256 := by
        rw [Nat.div_lt_iff_lt_mul positive]
        simpa [pow_succ, Nat.mul_comm] using fits
      rw [beBytes, set_bytes_cons, be_bytes_length, ih _ (Nat.mod_lt _ positive)]
      rw [UInt8.toNat_ofNat_of_lt' (by simpa using quotient)]
      exact Nat.div_add_mod' value (256 ^ width)

theorem byte_forall (check : UInt8 → Bool) (all : (List.range 256).all (fun value => check (UInt8.ofNat value)) = true) (byte : UInt8) :
    check byte = true := by
  simpa using List.all_eq_true.mp all byte.toNat (List.mem_range.mpr byte.toNat_lt)

end GoSem
