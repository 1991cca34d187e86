import Mathlib.LinearAlgebra.Lagrange
import Mathlib.Tactic

set_option autoImplicit false

namespace Sharing

open Polynomial

variable {j : Nat}

section Interpolation

variable {F : Type} [Field F] [DecidableEq F]

-- The coefficients that take the values of a polynomial at some points to its value at zero.
def zeroFactors (points : List F) (j : Nat) : F × F :=
  (List.range points.length).foldl
    (fun factors k => if j ≠ k then (factors.1 * points.getD k 0, factors.2 * (points.getD k 0 - points.getD j 0)) else factors) (1, 1)

def zeroCoeff (points : List F) (j : Nat) : F := (zeroFactors points j).1 * (zeroFactors points j).2⁻¹

omit [DecidableEq F] in
theorem foldl_factors {ι : Type} [DecidableEq ι] {items : List ι} (distinct : items.Nodup) {j : ι} {first second : ι → F} {start : F × F} :
    items.foldl (fun factors k => if j ≠ k then (factors.1 * first k, factors.2 * second k) else factors) start =
      (start.1 * ∏ k ∈ items.toFinset.erase j, first k, start.2 * ∏ k ∈ items.toFinset.erase j, second k) := by
  induction items generalizing start with
  | nil => simp
  | cons item rest ih =>
      obtain ⟨absent, later⟩ := List.nodup_cons.mp distinct
      have outside : item ∉ rest.toFinset := by simpa using absent
      rw [List.foldl_cons, ih later, List.toFinset_cons]
      by_cases same : j = item
      · rw [if_neg (not_not.mpr same), same, Finset.erase_insert outside, Finset.erase_eq_of_notMem outside]
      · have fresh : item ∉ rest.toFinset.erase j := fun member => outside (Finset.mem_of_mem_erase member)
        rw [if_pos same, Finset.erase_insert_of_ne (Ne.symm same), Finset.prod_insert fresh, Finset.prod_insert fresh,
          mul_assoc, mul_assoc]

omit [DecidableEq F] in
theorem zero_coeff_eq {points : List F} : zeroCoeff points j =
    ∏ k ∈ (Finset.range points.length).erase j, points.getD k 0 * (points.getD k 0 - points.getD j 0)⁻¹ := by
  rw [zeroCoeff, zeroFactors, foldl_factors List.nodup_range, List.toFinset_range, one_mul, one_mul, Finset.prod_mul_distrib,
    Finset.prod_inv_distrib]

omit [DecidableEq F] in
theorem sum_basis_at_zero {ι : Type} [DecidableEq ι] {points : Finset ι} {value : ι → F} (injective : Set.InjOn value points) {f : F[X]}
    (degree : f.degree < points.card) :
    ∑ i ∈ points, (∏ j ∈ points.erase i, value j * (value j - value i)⁻¹) * f.eval (value i) = f.eval 0 := by
  conv => rhs; rw [Lagrange.eq_interpolate injective degree]
  rw [Lagrange.interpolate_apply, Polynomial.eval_finsetSum]
  refine Finset.sum_congr rfl fun i isPoint => ?_
  rw [Polynomial.eval_mul, Polynomial.eval_C, mul_comm, Lagrange.basis, Polynomial.eval_prod]
  refine congrArg _ (Finset.prod_congr rfl fun j isOther => ?_)
  rw [Lagrange.basisDivisor, Polynomial.eval_mul, Polynomial.eval_C, Polynomial.eval_sub, Polynomial.eval_X, Polynomial.eval_C, zero_sub,
    mul_comm, ← neg_sub, inv_neg, neg_mul, mul_neg]

omit [DecidableEq F] in
theorem sum_zero_coeff {points : List F} (distinct : points.Nodup) {f : F[X]} (degree : f.degree < points.length) :
    ∑ j ∈ Finset.range points.length, zeroCoeff points j * f.eval (points.getD j 0) = f.eval 0 := by
  have injective : Set.InjOn (fun j => points.getD j 0) (Finset.range points.length : Set Nat) := by
    intro i isIndex j isIndex' same
    have short : i < points.length := by simpa using isIndex
    have short' : j < points.length := by simpa using isIndex'
    simp only [List.getD_eq_getElem?_getD, List.getElem?_eq_getElem short, List.getElem?_eq_getElem short', Option.getD_some] at same
    exact (List.Nodup.getElem_inj_iff distinct).mp same
  rw [← sum_basis_at_zero injective (by rw [Finset.card_range]; exact degree)]
  exact Finset.sum_congr rfl fun j isIndex => by rw [zero_coeff_eq]

end Interpolation

section Polynomials

variable {F : Type} [Field F]

noncomputable def sharePoly (secret : F) (draw : Nat → F) (threshold : Nat) : F[X] :=
  C secret + ∑ j ∈ Finset.range (threshold - 1), C (draw j) * X ^ (j + 1)

theorem share_poly_zero (secret : F) (draw : Nat → F) (threshold : Nat) : (sharePoly secret draw threshold).eval 0 = secret := by
  rw [sharePoly, Polynomial.eval_add, Polynomial.eval_finsetSum, Finset.sum_eq_zero, add_zero, Polynomial.eval_C]
  intro j _
  simp

theorem share_poly_degree (secret : F) (draw : Nat → F) (threshold : Nat) : (sharePoly secret draw threshold).natDegree ≤ threshold - 1 := by
  refine Polynomial.natDegree_add_le_of_degree_le (by simp) (Polynomial.natDegree_sum_le_of_forall_le _ _ fun j isIndex => ?_)
  have short := Finset.mem_range.mp isIndex
  exact (Polynomial.natDegree_C_mul_X_pow_le _ _).trans short

end Polynomials

end Sharing
