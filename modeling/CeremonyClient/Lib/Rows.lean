import CeremonyClient.Lib.OptionLoops
import Mathlib.LinearAlgebra.Matrix.Permutation

set_option autoImplicit false

namespace Rows

open OptionLoops

variable {α β : Type}

variable {body : Nat → Option β}

def cell (table : List (List α)) (i j : Nat) : Option α := do
  let row ← table[i]?
  row[j]?

def setAt (out : List α) (i : Nat) (value : α) : Option (List α) := if i < out.length then some (out.set i value) else none

def sliceAt (items : List α) (first last : Nat) : Option (List α) :=
  if first ≤ last ∧ last ≤ items.length then some ((items.take last).drop first) else none

theorem cell_map_m {n k : Nat} {body : Nat → Nat → Option α} {table : List (List α)}
    (built : (List.range n).mapM (fun i => (List.range k).mapM (body i)) = some table) {i j : Nat} {value : α}
    (here : cell table i j = some value) : i < n ∧ j < k ∧ body i j = some value := by
  obtain ⟨row, isRow, isValue⟩ := Option.bind_eq_some_iff.mp here
  rw [map_m_get built] at isRow
  obtain ⟨row', isIndex, mapped⟩ := Option.bind_eq_some_iff.mp isRow
  obtain ⟨inside, isI⟩ := List.getElem?_eq_some_iff.mp isIndex
  rw [map_m_get mapped] at isValue
  obtain ⟨column, isIndex', ran⟩ := Option.bind_eq_some_iff.mp isValue
  obtain ⟨inside', isJ⟩ := List.getElem?_eq_some_iff.mp isIndex'
  rw [List.length_range] at inside inside'
  rw [List.getElem_range] at isI isJ
  rw [← isI, ← isJ] at ran
  exact ⟨inside, inside', ran⟩

theorem fold_set_range (n : Nat) (body : List α → Nat → Option (List α)) (place : Nat → Nat) (value : Nat → α) (start : List α)
    (inside : ∀ i < n, place i < start.length) (apart : ∀ i < n, ∀ j < n, place i = place j → i = j)
    (each : ∀ i < n, ∀ out, body out i = setAt out (place i) (value i)) :
    ∃ out, (List.range n).foldlM body start = some out ∧ out.length = start.length ∧ (∀ i < n, out[place i]? = some (value i)) ∧
      ∀ t, (∀ i < n, place i ≠ t) → out[t]? = start[t]? := by
  induction n with
  | zero => exact ⟨start, rfl, rfl, fun i short => absurd short (Nat.not_lt_zero i), fun _ _ => rfl⟩
  | succ n ih =>
      obtain ⟨out, done, long, written, kept⟩ := ih (fun i short => inside i (by omega))
        (fun i short j short' => apart i (by omega) j (by omega)) (fun i short => each i (by omega))
      have fits : place n < out.length := long ▸ inside n (by omega)
      refine ⟨out.set (place n) (value n), ?_, by rw [List.length_set, long], fun i short => ?_, fun t free => ?_⟩
      · rw [List.range_succ, List.foldlM_append, done]
        simp only [Option.bind_eq_bind, Option.bind_some, List.foldlM_cons, List.foldlM_nil, each n (by omega), setAt, if_pos fits]
        rfl
      · by_cases last : i = n
        · rw [last, List.getElem?_set_self fits]
        · rw [List.getElem?_set_ne fun same => last (apart i short n (by omega) same.symm), written i (by omega)]
      · rw [List.getElem?_set_ne (free n (by omega)), kept t fun i short => free i (by omega)]

section Indexed

variable {m n k : Nat}

theorem of_fn_get (element : Fin n → α) (i : Fin n) : (List.ofFn element)[i.val]? = some (element i) := by simp

theorem map_m_fin {result : Fin n → β} (each : ∀ i : Fin n, body i = some (result i)) :
    (List.range n).mapM body = some (List.ofFn result) := by
  rw [← List.map_coe_finRange_eq_range, List.mapM_map, List.ofFn_eq_map]
  exact map_m_some fun i _ => each i

theorem fold_sum_fin {M : Type} [AddCommMonoid M] {body : M → Nat → Option M} (result : Fin n → M) (start : M)
    (each : ∀ (i : Fin n) (sum : M), body sum i = some (sum + result i)) :
    (List.range n).foldlM body start = some (start + ∑ i, result i) := by
  rw [← List.map_coe_finRange_eq_range, List.foldlM_map, fold_sum_some start fun i _ sum => each i sum, ← List.ofFn_eq_map,
    List.sum_ofFn]

abbrev Grid (m n : Nat) (α : Type) : Type := Matrix (Fin m) (Fin n) α

def rows (A : Grid m n α) : List (List α) := List.ofFn fun i => List.ofFn (A i)

@[simp] theorem length_rows {A : Grid m n α} : (rows A).length = m := by simp [rows]

theorem rows_get (A : Grid m n α) (i : Fin m) : (rows A)[i.val]? = some (List.ofFn (A i)) := of_fn_get _ i

theorem cell_rows (A : Grid m n α) (i : Fin m) (j : Fin n) : cell (rows A) i j = some (A i j) := by
  rw [cell, rows_get, Option.bind_eq_bind, Option.bind_some, of_fn_get]

theorem map_m_rows (body : Nat → Nat → Option β) (B : Grid m n β) (each : ∀ i j, body (i : Fin m) (j : Fin n) = some (B i j)) :
    ((List.range m).mapM fun i => (List.range n).mapM fun j => body i j) = some (rows B) :=
  map_m_fin fun i => map_m_fin fun j => each i j

-- A vector of k blocks of k elements, as a matrix and as one list.
def flat (V : Grid k k α) : List α := List.ofFn fun t : Fin (k * k) => V t.divNat t.modNat

@[simp] theorem length_flat {V : Grid k k α} : (flat V).length = k * k := by simp [flat]

theorem block_lt (i j : Fin k) : i.val * k + j.val < k * k := by
  have row := Nat.mul_le_mul_right k i.isLt
  have := j.isLt
  rw [Nat.succ_mul] at row
  omega

theorem flat_get (V : Grid k k α) (i j : Fin k) : (flat V)[i.val * k + j.val]? = some (V i j) := by
  have positive : 0 < k := Nat.zero_lt_of_lt i.isLt
  have place : (⟨i.val * k + j.val, block_lt i j⟩ : Fin (k * k)).divNat = i := by
    apply Fin.ext
    change (i.val * k + j.val) / k = i.val
    rw [Nat.mul_comm, Nat.mul_add_div positive, Nat.div_eq_of_lt j.isLt, Nat.add_zero]
  have offset : (⟨i.val * k + j.val, block_lt i j⟩ : Fin (k * k)).modNat = j := by
    apply Fin.ext
    change (i.val * k + j.val) % k = j.val
    rw [Nat.mul_comm, Nat.mul_add_mod, Nat.mod_eq_of_lt j.isLt]
  rw [flat, List.getElem?_ofFn, dif_pos (block_lt i j), place, offset]

theorem eq_flat (items : List α) (V : Grid k k α) (long : items.length = k * k)
    (each : ∀ i j : Fin k, items[i.val * k + j.val]? = some (V i j)) : items = flat V := by
  refine List.ext_getElem? fun t => ?_
  by_cases short : t < k * k
  · have split : t = (⟨t, short⟩ : Fin (k * k)).divNat.val * k + (⟨t, short⟩ : Fin (k * k)).modNat.val := by
      rw [Fin.coe_divNat, Fin.coe_modNat, Nat.div_add_mod']
    rw [split, each, flat_get]
  · rw [List.getElem?_eq_none (by omega), List.getElem?_eq_none (by rw [length_flat]; omega)]

theorem map_m_flat {V : Grid k k β} (each : ∀ i j : Fin k, body (i.val * k + j.val) = some (V i j)) :
    (List.range (k * k)).mapM body = some (flat V) := by
  refine map_m_fin fun t => ?_
  have split : t.val = t.divNat.val * k + t.modNat.val := by rw [Fin.coe_divNat, Fin.coe_modNat, Nat.div_add_mod']
  rw [split, each]

theorem slice_flat {V : Grid k k α} {i : Fin k} : sliceAt (flat V) (i.val * k) ((i.val + 1) * k) = some (List.ofFn (V i)) := by
  have wide : (i.val + 1) * k ≤ k * k := Nat.mul_le_mul_right k i.isLt
  have width : (i.val + 1) * k = i.val * k + k := Nat.succ_mul _ _
  rw [sliceAt, if_pos ⟨by omega, by rw [length_flat]; exact wide⟩]
  refine congrArg some (List.ext_getElem? fun j => ?_)
  rw [List.getElem?_drop, List.getElem?_take]
  by_cases short : j < k
  · rw [if_pos (by omega), flat_get V i ⟨j, short⟩, of_fn_get (V i) ⟨j, short⟩]
  · rw [if_neg (by omega), List.getElem?_eq_none (by simp; omega)]

theorem fold_blocks {V : Grid k k α} {body : List α → Nat → Option (List α)} {start : List α} (long : start.length = k * k)
    (each : ∀ (i : Fin k) (y : List α), y.length = k * k → ∃ out, body y i = some out ∧ out.length = k * k ∧
      (∀ j : Fin k, out[i.val * k + j.val]? = some (V i j)) ∧ ∀ t < i.val * k, out[t]? = y[t]?) :
    (List.range k).foldlM body start = some (flat V) := by
  have upTo (m : Nat) (fits : m ≤ k) : ∃ out, (List.range m).foldlM body start = some out ∧ out.length = k * k ∧
      ∀ i : Fin k, i.val < m → ∀ j : Fin k, out[i.val * k + j.val]? = some (V i j) := by
    induction m with
    | zero => exact ⟨start, rfl, long, fun i short => absurd short (Nat.not_lt_zero _)⟩
    | succ m ih =>
        obtain ⟨y, done, wide, filled⟩ := ih (by omega)
        obtain ⟨out, step, wide', block, kept⟩ := each ⟨m, fits⟩ y wide
        refine ⟨out, ?_, wide', fun i short j => ?_⟩
        · rw [List.range_succ, List.foldlM_append, done, Option.bind_eq_bind, Option.bind_some, List.foldlM_cons, step]
          rfl
        · by_cases last : i.val = m
          · have same : i = ⟨m, fits⟩ := Fin.ext last
            rw [same, block j]
          · have below : (i.val + 1) * k ≤ m * k := Nat.mul_le_mul_right k (by omega)
            rw [Nat.succ_mul] at below
            have := j.isLt
            rw [kept _ (by change i.val * k + j.val < m * k; omega), filled i (by omega) j]
  obtain ⟨out, done, wide, filled⟩ := upTo k le_rfl
  exact done.trans (congrArg some (eq_flat out V wide fun i j => filled i i.isLt j))

theorem flat_perm (V : Grid k k α) (π : Equiv.Perm (Fin k × Fin k)) :
    (flat (Matrix.of fun i j => V (π (i, j)).1 (π (i, j)).2)).Perm (flat V) := by
  have moved := Equiv.Perm.ofFn_comp_perm ((finProdFinEquiv.symm.trans π).trans finProdFinEquiv)
    fun t : Fin (k * k) => V t.divNat t.modNat
  refine List.Perm.trans (List.Perm.of_eq ?_) moved
  refine congrArg List.ofFn (funext fun t => ?_)
  have target (pair : Fin k × Fin k) : V pair.1 pair.2 = V (finProdFinEquiv pair).divNat (finProdFinEquiv pair).modNat :=
    congrArg (fun place : Fin k × Fin k => V place.1 place.2) (finProdFinEquiv.symm_apply_apply pair).symm
  exact target (π (finProdFinEquiv.symm t))

end Indexed

end Rows
