import Mathlib.Algebra.BigOperators.Group.List.Basic
import Mathlib.Tactic

set_option autoImplicit false

namespace OptionLoops

variable {α β : Type}

variable {body : α → Option β} {items : List α} {length : Nat} {element : Nat → α}

theorem map_m_some {result : α → β} (each : ∀ item ∈ items, body item = some (result item)) :
    items.mapM body = some (items.map result) := by
  induction items with
  | nil => rfl
  | cons item tail ih =>
      obtain ⟨first, rest⟩ := List.forall_mem_cons.mp each
      rw [List.mapM_cons, first, ih rest]
      rfl

theorem map_m_length {results : List β} (mapped : items.mapM body = some results) : results.length = items.length := by
  induction items generalizing results with
  | nil =>
      rw [List.mapM_nil] at mapped
      exact (congrArg List.length (Option.some.inj mapped)).symm
  | cons item rest ih =>
      rw [List.mapM_cons] at mapped
      obtain ⟨first, -, mapped⟩ := Option.bind_eq_some_iff.mp mapped
      obtain ⟨others, run, same⟩ := Option.bind_eq_some_iff.mp mapped
      rw [← Option.some.inj same, List.length_cons, List.length_cons, ih run]

theorem map_m_get {results : List β} (mapped : items.mapM body = some results) (i : Nat) : results[i]? = (items[i]?).bind body := by
  induction items generalizing results i with
  | nil =>
      rw [List.mapM_nil] at mapped
      rw [← Option.some.inj mapped]
      rfl
  | cons item rest ih =>
      rw [List.mapM_cons] at mapped
      obtain ⟨first, ran, mapped⟩ := Option.bind_eq_some_iff.mp mapped
      obtain ⟨others, run, same⟩ := Option.bind_eq_some_iff.mp mapped
      rw [← Option.some.inj same]
      cases i with
      | zero => exact ran.symm
      | succ i => exact ih run i

theorem fold_sum_some {M : Type} [AddMonoid M] {body : M → α → Option M} {result : α → M} (start : M)
    (each : ∀ item ∈ items, ∀ sum, body sum item = some (sum + result item)) :
    items.foldlM body start = some (start + (items.map result).sum) := by
  induction items generalizing start with
  | nil => simp
  | cons item tail ih =>
      obtain ⟨first, rest⟩ := List.forall_mem_cons.mp each
      rw [List.foldlM_cons, first start, Option.bind_eq_bind, Option.bind_some, ih _ rest, List.map_cons, List.sum_cons, add_assoc]

theorem all_m_some {body : α → Option Bool} (result : α → Bool) (each : ∀ item ∈ items, body item = some (result item)) :
    items.allM body = some (items.all result) := by
  induction items with
  | nil => rfl
  | cons item tail ih =>
      obtain ⟨first, rest⟩ := List.forall_mem_cons.mp each
      rw [List.allM, first, List.all_cons]
      cases result item with
      | false => rfl
      | true => exact ih rest

def tabulate (length : Nat) (element : Nat → α) : List α := (List.range length).map element

@[simp] theorem length_tabulate : (tabulate length element).length = length := by simp [tabulate]

theorem tabulate_get {i : Nat} (short : i < length) : (tabulate length element)[i]? = some (element i) := by
  simp [tabulate, short]

theorem map_m_range (length : Nat) (body : Nat → Option β) (result : Nat → β) (each : ∀ i < length, body i = some (result i)) :
    (List.range length).mapM body = some (tabulate length result) :=
  map_m_some fun i isIndex => each i (List.mem_range.mp isIndex)

theorem map_m_tabulate {result : Nat → β} (each : ∀ i < length, body (element i) = some (result i)) :
    (tabulate length element).mapM body = some (tabulate length result) := by
  rw [tabulate, List.mapM_map]
  exact map_m_range length _ result each

theorem fold_sum_range {M : Type} [AddCommMonoid M] {body : M → Nat → Option M} (result : Nat → M) {start : M}
    (each : ∀ i < length, ∀ sum, body sum i = some (sum + result i)) :
    (List.range length).foldlM body start = some (start + ∑ i ∈ Finset.range length, result i) := by
  rw [fold_sum_some start fun i isIndex => each i (List.mem_range.mp isIndex), Finset.sum_range, ← List.sum_ofFn]
  simp [List.ofFn_eq_map, List.finRange_eq_pmap_range, List.map_pmap]

theorem all_m_range {body : Nat → Option Bool} {result : Nat → Prop} [∀ i, Decidable (result i)]
    (each : ∀ i < length, body i = some (decide (result i))) : (List.range length).allM body = some (decide (∀ i < length, result i)) := by
  rw [all_m_some (fun i => decide (result i)) fun i isIndex => each i (List.mem_range.mp isIndex)]
  simp [List.all_eq]

end OptionLoops
