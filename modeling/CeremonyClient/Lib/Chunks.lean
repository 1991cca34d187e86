import CeremonyClient.Lib.Go

set_option autoImplicit false

namespace GoSem

variable {size count : Nat} {bytes : Bytes}

-- A byte string cut into a number of shards of one size, the last ones filled up with zeros.
def cut (size : Nat) : Nat → Bytes → List Bytes
  | 0, _ => []
  | count + 1, bytes => (bytes.take size ++ List.replicate (size - bytes.length) 0) :: cut size count (bytes.drop size)

theorem cut_length : (cut size count bytes).length = count := by
  induction count generalizing bytes with
  | zero => rfl
  | succ count ih => simp [cut, ih]

theorem cut_sizes : ∀ shard ∈ cut size count bytes, shard.length = size := by
  induction count generalizing bytes with
  | zero => simp [cut]
  | succ count ih =>
      rw [cut, List.forall_mem_cons]
      refine ⟨?_, ih⟩
      rw [List.length_append, List.length_take, List.length_replicate]
      omega

theorem cut_flatten_take (size count : Nat) (bytes : Bytes) (fits : bytes.length ≤ count * size) :
    (cut size count bytes).flatten.take bytes.length = bytes := by
  induction count generalizing bytes with
  | zero =>
      rw [Nat.zero_mul] at fits
      rw [List.length_eq_zero_iff.mp (Nat.le_zero.mp fits)]
      rfl
  | succ count ih =>
      rw [cut, List.flatten_cons]
      by_cases short : bytes.length ≤ size
      · rw [List.take_of_length_le short, List.append_assoc, List.take_left]
      · have full : size - bytes.length = 0 := by omega
        have rest : (bytes.drop size).length ≤ count * size := by
          rw [List.length_drop]
          rw [Nat.succ_mul] at fits
          omega
        have width : (bytes.take size).length = size := List.length_take_of_le (by omega)
        have total : bytes.length = (bytes.take size).length + (bytes.drop size).length := by
          rw [width, List.length_drop]
          omega
        rw [full, List.replicate_zero, List.append_nil, total, List.take_length_add_append, ih _ rest, List.take_append_drop]

theorem cut_flatten (size count : Nat) (bytes : Bytes) (fits : bytes.length ≤ size * count) (tight : size * count < bytes.length + size) :
    (cut size count bytes).flatten = bytes ++ List.replicate (size * count - bytes.length) 0 := by
  induction count generalizing bytes with
  | zero =>
      rw [List.length_eq_zero_iff.mp (Nat.le_zero.mp fits)]
      rfl
  | succ count ih =>
      rw [Nat.mul_succ] at fits tight ⊢
      rw [cut, List.flatten_cons]
      by_cases short : bytes.length ≤ size
      · have last : count = 0 := by
          by_contra more
          have := Nat.le_mul_of_pos_right size (Nat.pos_of_ne_zero more)
          omega
        rw [last, cut, List.flatten_nil, List.append_nil, List.take_of_length_le short, Nat.mul_zero, Nat.zero_add]
      · have rest := ih (bytes.drop size) (by rw [List.length_drop]; omega) (by rw [List.length_drop]; omega)
        have full : size - bytes.length = 0 := by omega
        rw [rest, full, List.replicate_zero, List.append_nil, ← List.append_assoc, List.take_append_drop, List.length_drop]
        congr 2
        omega

theorem range_get_padded (bytes : Bytes) (size : Nat) :
    (List.range size).map (fun j => bytes.getD j 0) = bytes.take size ++ List.replicate (size - bytes.length) 0 := by
  apply List.ext_getElem?
  intro k
  by_cases inside : k < size
  · rw [List.getElem?_map, List.getElem?_range inside, Option.map_some]
    by_cases stored : k < bytes.length
    · rw [List.getElem?_append_left (by rw [List.length_take]; omega), List.getElem?_take_of_lt inside, List.getD_eq_getElem?_getD,
        List.getElem?_eq_getElem stored, Option.getD_some]
    · rw [List.getElem?_append_right (by rw [List.length_take]; omega), List.length_take,
        List.getElem?_replicate_of_lt (by omega), List.getD_eq_getElem?_getD, List.getElem?_eq_none (Nat.not_lt.mp stored), Option.getD_none]
  · rw [List.getElem?_eq_none (by rw [List.length_map, List.length_range]; omega),
      List.getElem?_eq_none (by rw [List.length_append, List.length_take, List.length_replicate]; omega)]

section Fixed

variable {ι α : Type} (size : Nat)

theorem flat_map_parts {items : List ι} {first second : ι → List α} (firstSize : ∀ i, (first i).length = size)
    (secondSize : ∀ i, (second i).length = size) (same : items.flatMap first = items.flatMap second) : ∀ i ∈ items, first i = second i := by
  induction items with
  | nil => simp
  | cons item rest ih =>
      rw [List.flatMap_cons, List.flatMap_cons] at same
      obtain ⟨here, later⟩ := List.append_inj same ((firstSize item).trans (secondSize item).symm)
      rw [List.forall_mem_cons]
      exact ⟨here, ih later⟩

theorem flat_map_length (items : List ι) (part : ι → List α) (partSize : ∀ i, (part i).length = size) :
    (items.flatMap part).length = size * items.length := by
  induction items with
  | nil => simp
  | cons item rest ih => rw [List.flatMap_cons, List.length_append, ih, partSize, List.length_cons, Nat.mul_succ, Nat.add_comm]

theorem flat_map_injective (positive : 0 < size) {part : ι → List α} (partSize : ∀ i, (part i).length = size)
    (injective : Function.Injective part) {items others : List ι} (same : items.flatMap part = others.flatMap part) : items = others := by
  induction items generalizing others with
  | nil =>
      have length := congrArg List.length same
      rw [flat_map_length size others part partSize, List.flatMap_nil, List.length_nil] at length
      exact (List.length_eq_zero_iff.mp ((Nat.mul_eq_zero.mp length.symm).resolve_left (by omega))).symm
  | cons item rest ih =>
      cases others with
      | nil =>
          have length := congrArg List.length same
          rw [flat_map_length size _ part partSize, List.flatMap_nil, List.length_nil, List.length_cons] at length
          exact absurd length (by simp; omega)
      | cons other tail =>
          rw [List.flatMap_cons, List.flatMap_cons] at same
          obtain ⟨here, later⟩ := List.append_inj same ((partSize item).trans (partSize other).symm)
          rw [injective here, ih later]

theorem flat_map_part (items : List ι) (part : ι → List α) (partSize : ∀ i, (part i).length = size) (n : Nat) (inside : n < items.length) :
    ((items.flatMap part).drop (size * n)).take size = part items[n] := by
  induction items generalizing n with
  | nil => cases inside
  | cons item rest ih =>
      rw [List.flatMap_cons]
      cases n with
      | zero => rw [Nat.mul_zero, List.drop_zero, List.take_left' (partSize item)]; rfl
      | succ n =>
          have skip : size * (n + 1) = (part item).length + size * n := by rw [partSize, Nat.mul_succ, Nat.add_comm]
          rw [skip, List.drop_length_add_append]
          exact ih n (Nat.lt_of_succ_lt_succ inside)

end Fixed

end GoSem
