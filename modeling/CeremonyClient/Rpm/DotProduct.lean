import CeremonyClient.Rpm.Shares

set_option autoImplicit false

namespace Ceremony.Rpm

open OptionLoops Rows

variable {F : Type} {a b out : List (List F)} {mid n : Nat}

theorem take_map_cell {k : Nat} {i j : Nat} {x : F} {part : List F → List F} (here : cell ((a.take k).map part) i j = some x) :
    ∃ row, a[i]? = some row ∧ (part row)[j]? = some x := by
  obtain ⟨row, isRow, isValue⟩ := Option.bind_eq_some_iff.mp here
  rw [List.getElem?_map, Option.map_eq_some_iff] at isRow
  obtain ⟨whole, isWhole, isPart⟩ := isRow
  rw [← isPart] at isValue
  rw [List.getElem?_take] at isWhole
  split at isWhole
  · exact ⟨whole, isWhole, isValue⟩
  · cases isWhole

theorem combine_cell {op : F → F → F} (combined : combineMatrices op a b = some out) {i j : Nat} {x : F} (here : cell out i j = some x) :
    ∃ y z, cell a i j = some y ∧ cell b i j = some z ∧ x = op y z := by
  rw [combineMatrices] at combined
  split at combined
  · cases combined
  · obtain ⟨a0, -, combined⟩ := Option.bind_eq_some_iff.mp combined
    obtain ⟨b0, -, combined⟩ := Option.bind_eq_some_iff.mp combined
    split at combined
    · cases combined
    · obtain ⟨-, -, entry⟩ := cell_map_m combined here
      obtain ⟨y, isY, entry⟩ := Option.bind_eq_some_iff.mp entry
      obtain ⟨z, isZ, entry⟩ := Option.bind_eq_some_iff.mp entry
      exact ⟨y, z, isY, isZ, (Option.some.inj entry).symm⟩

theorem upper_left_length (long : mid ≤ a.length) : (upperLeft mid a).length = mid := by
  rw [upperLeft, List.length_map, List.length_take_of_le long]

variable [Field F] {α β : F}

def Corner (α : F) (a : List (List F)) : Prop := ∀ i j x, cell a i j = some x → x = if i = 0 ∧ j = 0 then α else 0

theorem corner_at (corner : Corner α a) {x : F} (here : cell a 0 0 = some x) : x = α := by
  rw [corner 0 0 x here, if_pos ⟨rfl, rfl⟩]

theorem padded_corner (positive : 0 < n) (corner : Corner α a) (built : padded mid n a = some out) : Corner α out := by
  intro i j x here
  obtain ⟨-, -, entry⟩ := cell_map_m built here
  by_cases inside : i < n ∧ j < n
  · rw [if_pos inside] at entry
    exact corner i j x entry
  · have other : ¬ (i = 0 ∧ j = 0) := fun atCorner => inside ⟨by omega, by omega⟩
    rw [if_neg inside] at entry
    rw [if_neg other, Option.some.inj entry]

theorem upper_left_corner (corner : Corner α a) : Corner α (upperLeft mid a) := by
  intro i j x here
  obtain ⟨row, isRow, isValue⟩ := take_map_cell here
  rw [List.getElem?_take] at isValue
  split at isValue
  · exact corner i j x (by rw [cell, isRow]; exact isValue)
  · cases isValue

theorem upper_right_zero (positive : 0 < mid) (corner : Corner α a) : Corner 0 (upperRight mid a) := by
  intro i j x here
  obtain ⟨row, isRow, isValue⟩ := take_map_cell here
  rw [List.getElem?_drop] at isValue
  rw [corner i (mid + j) x (by rw [cell, isRow]; exact isValue), if_neg (by omega), ite_self]

theorem subtract_corner (left : Corner 0 a) (right : Corner β b) (combined : subtractMatrices a b = some out) : Corner (-β) out := by
  intro i j x here
  obtain ⟨y, z, isY, isZ, isX⟩ := combine_cell combined here
  rw [isX, left i j y isY, right i j z isZ, ite_self, zero_sub]
  split
  · rfl
  · exact neg_zero

theorem padded_length (built : padded mid n a = some out) : out.length = mid := by
  rw [map_m_length built, List.length_range]

def evenSize (n : Nat) : Nat := if n % 2 = 0 then n else n + 1

theorem winograd_step {fuel : Nat} (several : a.length ≠ 1) (done : coppersmithWinograd (fuel + 1) a b = some out) :
    ∃ aPadded bPadded s4 p1 p5 c11 c12 c21 c22 result, padded (evenSize a.length) a.length a = some aPadded ∧
      padded (evenSize a.length) a.length b = some bPadded ∧
      subtractMatrices (upperRight (evenSize a.length / 2) bPadded) (upperLeft (evenSize a.length / 2) bPadded) = some s4 ∧
      coppersmithWinograd fuel (upperLeft (evenSize a.length / 2) aPadded) (upperLeft (evenSize a.length / 2) bPadded) = some p1 ∧
      coppersmithWinograd fuel (upperLeft (evenSize a.length / 2) aPadded) s4 = some p5 ∧ addMatrices p1 p5 = some c11 ∧
      assembled (evenSize a.length / 2) (evenSize a.length) c11 c12 c21 c22 = some result ∧
      out = (result.take a.length).map fun row => row.take a.length := by
  rw [coppersmithWinograd, if_neg several] at done
  obtain ⟨aPadded, padA, done⟩ := Option.bind_eq_some_iff.mp done
  obtain ⟨bPadded, padB, done⟩ := Option.bind_eq_some_iff.mp done
  obtain ⟨_, -, done⟩ := Option.bind_eq_some_iff.mp done
  obtain ⟨_, -, done⟩ := Option.bind_eq_some_iff.mp done
  obtain ⟨_, -, done⟩ := Option.bind_eq_some_iff.mp done
  obtain ⟨s4, isS4, done⟩ := Option.bind_eq_some_iff.mp done
  obtain ⟨_, -, done⟩ := Option.bind_eq_some_iff.mp done
  obtain ⟨_, -, done⟩ := Option.bind_eq_some_iff.mp done
  obtain ⟨p1, isP1, done⟩ := Option.bind_eq_some_iff.mp done
  obtain ⟨_, -, done⟩ := Option.bind_eq_some_iff.mp done
  obtain ⟨_, -, done⟩ := Option.bind_eq_some_iff.mp done
  obtain ⟨_, -, done⟩ := Option.bind_eq_some_iff.mp done
  obtain ⟨p5, isP5, done⟩ := Option.bind_eq_some_iff.mp done
  obtain ⟨_, -, done⟩ := Option.bind_eq_some_iff.mp done
  obtain ⟨_, -, done⟩ := Option.bind_eq_some_iff.mp done
  obtain ⟨_, -, done⟩ := Option.bind_eq_some_iff.mp done
  obtain ⟨_, -, done⟩ := Option.bind_eq_some_iff.mp done
  obtain ⟨c11, isC11, done⟩ := Option.bind_eq_some_iff.mp done
  obtain ⟨_, -, done⟩ := Option.bind_eq_some_iff.mp done
  obtain ⟨_, -, done⟩ := Option.bind_eq_some_iff.mp done
  obtain ⟨_, -, done⟩ := Option.bind_eq_some_iff.mp done
  obtain ⟨result, isResult, done⟩ := Option.bind_eq_some_iff.mp done
  exact ⟨aPadded, bPadded, s4, p1, p5, c11, _, _, _, result, padA, padB, isS4, isP1, isP5, isC11, isResult, (Option.some.inj done).symm⟩

-- The block in the corner is the sum of two products of opposite signs, on every level.
theorem winograd_corner (fuel : Nat) (a b : List (List F)) (α β : F) (left : Corner α a) (right : Corner β b)
    (done : coppersmithWinograd fuel a b = some out) (x : F) (here : cell out 0 0 = some x) :
    (a.length = 1 → x = α * β) ∧ (2 ≤ a.length → x = 0) := by
  induction fuel generalizing a b α β out x with
  | zero => cases done
  | succ fuel ih =>
      by_cases single : a.length = 1
      · rw [coppersmithWinograd, if_pos single] at done
        obtain ⟨y, isY, done⟩ := Option.bind_eq_some_iff.mp done
        obtain ⟨z, isZ, done⟩ := Option.bind_eq_some_iff.mp done
        rw [← Option.some.inj done] at here
        have isX : x = y * z := (Option.some.inj here).symm
        exact ⟨fun _ => by rw [isX, corner_at left isY, corner_at right isZ], fun more => by omega⟩
      · refine ⟨fun one => absurd one single, fun more => ?_⟩
        obtain ⟨aPadded, bPadded, s4, p1, p5, c11, c12, c21, c22, result, padA, padB, isS4, isP1, isP5, isC11, isResult, isOut⟩ :=
          winograd_step single done
        have half : 0 < evenSize a.length / 2 ∧ evenSize a.length / 2 ≤ evenSize a.length := by
          rw [evenSize]
          split <;> omega
        have leftBlock : Corner α (upperLeft (evenSize a.length / 2) aPadded) := upper_left_corner (padded_corner (by omega) left padA)
        have paddedRight := padded_corner (by omega) right padB
        have difference := subtract_corner (upper_right_zero half.1 paddedRight) (upper_left_corner paddedRight) isS4
        have blockLength := upper_left_length (half.2.trans_eq (padded_length padA).symm)
        rw [isOut] at here
        obtain ⟨row, isRow, isX⟩ := take_map_cell here
        rw [List.getElem?_take_of_lt (by omega)] at isX
        obtain ⟨-, -, entry⟩ := cell_map_m isResult (show cell result 0 0 = some x by rw [cell, isRow]; exact isX)
        rw [if_pos half.1, if_pos half.1] at entry
        obtain ⟨y, z, isY, isZ, isSum⟩ := combine_cell isC11 entry
        have first := ih _ _ α β leftBlock (upper_left_corner paddedRight) isP1 y isY
        have second := ih _ _ α (-β) leftBlock difference isP5 z isZ
        rw [blockLength] at first second
        by_cases one : evenSize a.length / 2 = 1
        · rw [isSum, first.1 one, second.1 one]
          ring
        · rw [isSum, first.2 (by omega), second.2 (by omega), add_zero]

def cornerGrid (m n : Nat) : Grid m n F := Matrix.of fun i j => if i.val = 0 ∧ j.val = 0 then 1 else 0

theorem rows_corner (m n : Nat) : Corner 1 (rows (cornerGrid m n : Grid m n F)) := by
  intro i j x here
  obtain ⟨row, isRow, isX⟩ := Option.bind_eq_some_iff.mp here
  obtain ⟨inside, -⟩ := List.getElem?_eq_some_iff.mp isRow
  rw [length_rows] at inside
  rw [rows_get _ ⟨i, inside⟩] at isRow
  rw [← Option.some.inj isRow] at isX
  obtain ⟨inside', -⟩ := List.getElem?_eq_some_iff.mp isX
  rw [List.length_ofFn] at inside'
  rw [of_fn_get _ ⟨j, inside'⟩] at isX
  exact (Option.some.inj isX).symm

theorem corner_product (p q r : Nat) (someRows : 0 < p) (inner : 0 < q) (columns : 0 < r) :
    ((cornerGrid p q : Grid p q F) * (cornerGrid q r : Grid q r F)) ⟨0, someRows⟩ ⟨0, columns⟩ = 1 := by
  rw [Matrix.mul_apply, Finset.sum_eq_single ⟨0, inner⟩]
  · simp [cornerGrid]
  · intro k _ other
    have positive : k.val ≠ 0 := fun zero => other (Fin.ext zero)
    simp [cornerGrid, positive]
  · intro missing
    exact absurd (Finset.mem_univ _) missing

theorem corner_product_wrong (p q r : Nat) (many : 100 < p) (inner : 0 < q) (columns : 0 < r) :
    generateDotProduct (rows (cornerGrid p q : Grid p q F)) (rows (cornerGrid q r)) ≠
      some (rows ((cornerGrid p q : Grid p q F) * (cornerGrid q r : Grid q r F))) := by
  intro product
  obtain ⟨a0, -, product⟩ := Option.bind_eq_some_iff.mp product
  split at product
  · cases product
  · rw [length_rows, if_neg (by omega)] at product
    have here := cell_rows (cornerGrid p q * cornerGrid q r : Grid p r F) ⟨0, by omega⟩ ⟨0, columns⟩
    have lost := (winograd_corner p _ _ 1 1 (rows_corner p q) (rows_corner q r) product _ here).2 (by rw [length_rows]; omega)
    exact one_ne_zero ((corner_product p q r (by omega) inner columns).symm.trans lost)

theorem dot_product_iff (F : Type) [Field F] (p q r : Nat) (someRows : 0 < p) (inner : 0 < q) (columns : 0 < r) :
    (∀ (A : Grid p q F) (B : Grid q r F), generateDotProduct (rows A) (rows B) = some (rows (A * B))) ↔ p ≤ 100 := by
  constructor
  · intro all
    by_contra many
    exact corner_product_wrong p q r (by omega) inner columns (all _ _)
  · intro few A B
    exact dot_product_rows someRows few inner

theorem dot_product_row_by_column : 0 < 2 ∧
    ∀ (A : Grid 1 2 (ZMod 3)) (B : Grid 2 1 (ZMod 3)), generateDotProduct (rows A) (rows B) = some (rows (A * B)) :=
  ⟨Nat.two_pos, (dot_product_iff (ZMod 3) 1 2 1 Nat.one_pos Nat.two_pos Nat.one_pos).mpr (by decide)⟩

theorem dot_product_loses_corner : generateDotProduct (rows (cornerGrid 101 101 : Grid 101 101 (ZMod 3))) (rows (cornerGrid 101 101)) ≠
    some (rows (cornerGrid 101 101 * cornerGrid 101 101)) :=
  corner_product_wrong 101 101 101 (by decide) (by decide) (by decide)

end Ceremony.Rpm
