import CeremonyClient.Lib.Bytes

set_option autoImplicit false

namespace GoSem

variable {key left right : Bytes}

theorem between_append_iff (head low high key : Bytes) :
    (¬ key < head ++ low ∧ key < head ++ high) ↔ ∃ rest, key = head ++ rest ∧ ¬ rest < low ∧ rest < high := by
  induction head generalizing key with
  | nil => simp
  | cons first head ih =>
      cases key with
      | nil => simp
      | cons byte key =>
          rw [List.cons_append, List.cons_append, List.cons_lt_cons_iff, List.cons_lt_cons_iff]
          by_cases same : byte = first
          · have tails := ih key
            have notLess : ¬ byte < first := by
              rw [same]
              exact UInt8.lt_irrefl _
            simp only [same, true_and, List.cons_append, List.cons.injEq] at notLess ⊢
            simpa only [notLess, false_or] using tails
          · simp [same]

theorem not_lt_zeros {count : Nat} (wide : count ≤ key.length) : ¬ key < List.replicate count 0 := by
  induction count generalizing key with
  | zero => simp
  | succ count ih =>
      cases key with
      | nil => cases wide
      | cons head tail =>
          rw [List.replicate_succ, List.cons_lt_cons_iff, not_or]
          exact ⟨UInt8.not_lt.mpr UInt8.zero_le, fun both => ih (Nat.le_of_succ_le_succ wide) both.2⟩

theorem lt_ones_iff : key < List.replicate key.length 0xff ↔ key ≠ List.replicate key.length 0xff := by
  induction key with
  | nil => simp
  | cons head tail ih =>
      rw [List.length_cons, List.replicate_succ, List.cons_lt_cons_iff, ih, Ne, Ne, List.cons.injEq, not_and_or]
      have top : head < 0xff ↔ ¬ head = 0xff := by
        rw [UInt8.lt_iff_toNat_lt, ← UInt8.toNat_inj]
        have bound := head.toNat_lt
        have isMax : UInt8.toNat 0xff = 255 := rfl
        omega
      rw [top]
      tauto

theorem between_zeros_ones_iff (head rest : Bytes) :
    (¬ head ++ rest < head ++ List.replicate rest.length 0 ∧ head ++ rest < head ++ List.replicate rest.length 0xff) ↔
      rest ≠ List.replicate rest.length 0xff := by
  rw [between_append_iff]
  constructor
  · intro between
    obtain ⟨other, same, -, below⟩ := between
    rw [← List.append_cancel_left same] at below
    exact lt_ones_iff.mp below
  · intro notOnes
    exact ⟨rest, rfl, not_lt_zeros (Nat.le_refl _), lt_ones_iff.mpr notOnes⟩

theorem append_lt_append_iff {tail tail' : Bytes} (width : left.length = right.length) :
    left ++ tail < right ++ tail' ↔ left < right ∨ left = right ∧ tail < tail' := by
  induction left generalizing right with
  | nil =>
      rw [List.length_eq_zero_iff.mp width.symm]
      simp
  | cons byte left ih =>
      cases right with
      | nil => cases width
      | cons byte' right =>
          rw [List.cons_append, List.cons_append, List.cons_lt_cons_iff, List.cons_lt_cons_iff, ih (Nat.succ.inj width), List.cons.injEq]
          tauto

theorem set_bytes_lt_iff (width : left.length = right.length) : left < right ↔ setBytes left < setBytes right := by
  induction left generalizing right with
  | nil =>
      rw [List.length_eq_zero_iff.mp width.symm]
      simp
  | cons byte left ih =>
      cases right with
      | nil => cases width
      | cons byte' right =>
          have tails := Nat.succ.inj width
          have leftBound := set_bytes_lt left
          have rightBound := set_bytes_lt right
          rw [List.cons_lt_cons_iff, ih tails, set_bytes_cons, set_bytes_cons, tails, UInt8.lt_iff_toNat_lt, ← UInt8.toNat_inj]
          rw [tails] at leftBound
          rcases Nat.lt_trichotomy byte.toNat byte'.toNat with less | same | more
          · refine iff_of_true (.inl less) ?_
            have := Nat.mul_le_mul_right (256 ^ right.length) (Nat.succ_le_of_lt less)
            rw [Nat.succ_mul] at this
            omega
          · rw [same]
            omega
          · refine iff_of_false (by omega) ?_
            have := Nat.mul_le_mul_right (256 ^ right.length) (Nat.succ_le_of_lt more)
            rw [Nat.succ_mul] at this
            omega

theorem uint64_bytes_lt_iff {left right : UInt64} : beBytes 8 left.toNat < beBytes 8 right.toNat ↔ left < right := by
  rw [set_bytes_lt_iff (by rw [be_bytes_length, be_bytes_length]), set_bytes_be_bytes 8 _ left.toNat_lt, set_bytes_be_bytes 8 _ right.toNat_lt,
    UInt64.lt_iff_toNat_lt]

end GoSem
