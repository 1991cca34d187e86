import CeremonyClient.Lib.Rows
import CeremonyClient.Rpm.Sketch

set_option autoImplicit false

namespace Ceremony

variable {total threshold size : Nat}

namespace Rpm

open GoSem Sharing OptionLoops Polynomial Rows

section Arithmetic

variable {F : Type} [Field F]

def combineMatrices (op : F → F → F) (a b : List (List F)) : Option (List (List F)) := do
  if a.length ≠ b.length then none else
  let a0 ← a[0]?
  let b0 ← b[0]?
  if a0.length ≠ b0.length then none else
  (List.range a.length).mapM fun i => (List.range a0.length).mapM fun j => do return op (← cell a i j) (← cell b i j)

def addMatrices (a b : List (List F)) : Option (List (List F)) := combineMatrices (fun x y => x + y) a b

def subtractMatrices (a b : List (List F)) : Option (List (List F)) := combineMatrices (fun x y => x - y) a b

def padded (newSize n : Nat) (a : List (List F)) : Option (List (List F)) :=
  (List.range newSize).mapM fun i => (List.range newSize).mapM fun j => if i < n ∧ j < n then cell a i j else some 0

def upperLeft (mid : Nat) (a : List (List F)) : List (List F) := (a.take mid).map fun row => row.take mid

def upperRight (mid : Nat) (a : List (List F)) : List (List F) := (a.take mid).map fun row => row.drop mid

def lowerLeft (mid : Nat) (a : List (List F)) : List (List F) := (a.drop mid).map fun row => row.take mid

def lowerRight (mid : Nat) (a : List (List F)) : List (List F) := (a.drop mid).map fun row => row.drop mid

def assembled (mid newSize : Nat) (c11 c12 c21 c22 : List (List F)) : Option (List (List F)) :=
  (List.range newSize).mapM fun i => (List.range newSize).mapM fun j =>
    if i < mid then if j < mid then cell c11 i j else cell c12 i (j - mid)
    else if j < mid then cell c21 (i - mid) j else cell c22 (i - mid) (j - mid)

-- On an empty matrix the recursion does not end; on n rows it ends before n levels.
def coppersmithWinograd : Nat → List (List F) → List (List F) → Option (List (List F))
  | 0, _, _ => none
  | fuel + 1, a, b =>
      let n := a.length
      if n = 1 then do return [[(← cell a 0 0) * (← cell b 0 0)]]
      else do
        let newSize := if n % 2 = 0 then n else n + 1
        let aPadded ← padded newSize n a
        let bPadded ← padded newSize n b
        let mid := newSize / 2
        let a11 := upperLeft mid aPadded
        let a12 := upperRight mid aPadded
        let a21 := lowerLeft mid aPadded
        let a22 := lowerRight mid aPadded
        let b11 := upperLeft mid bPadded
        let b12 := upperRight mid bPadded
        let b21 := lowerLeft mid bPadded
        let b22 := lowerRight mid bPadded
        let s1 ← subtractMatrices a21 a11
        let s2 ← addMatrices a21 a22
        let s3 ← subtractMatrices a12 a22
        let s4 ← subtractMatrices b12 b11
        let s5 ← addMatrices b11 b22
        let s6 ← subtractMatrices b22 b21
        let p1 ← coppersmithWinograd fuel a11 b11
        let p2 ← coppersmithWinograd fuel s1 s5
        let p3 ← coppersmithWinograd fuel s2 b11
        let p4 ← coppersmithWinograd fuel a22 s6
        let p5 ← coppersmithWinograd fuel a11 s4
        let p6 ← coppersmithWinograd fuel s3 b22
        let p7 ← coppersmithWinograd fuel s2 s6
        let t1 ← addMatrices p1 p2
        let t2 ← subtractMatrices t1 p3
        let c11 ← addMatrices p1 p5
        let c12 ← addMatrices t2 p6
        let c21 ← addMatrices t1 p4
        let c22 ← addMatrices t2 p7
        let result ← assembled mid newSize c11 c12 c21 c22
        return (result.take n).map fun row => row.take n

def plainProduct (a b : List (List F)) (inner : Nat) : Option (List (List F)) := do
  let b0 ← b[0]?
  (List.range a.length).mapM fun x => (List.range b0.length).mapM fun y =>
    (List.range inner).foldlM (fun sum ay => do return sum + (← cell a x ay) * (← cell b ay y)) 0

def generateDotProduct (a b : List (List F)) : Option (List (List F)) := do
  let a0 ← a[0]?
  if a0.length ≠ b.length then none
  else if a.length ≤ 100 then plainProduct a b a0.length
  else coppersmithWinograd a.length a b

def rpmButterfly (r : List F) : Option (List F) :=
  let k := Nat.sqrt r.length
  (List.range r.length).foldlM (fun out i => do setAt out (i % k * k + i / k) (← r[i]?)) (List.replicate r.length 0)

section Specifications

variable {m n p k : Nat}

omit [Field F] in
theorem combine_matrices_rows {op : F → F → F} {A B : Grid m n F} (someRows : 0 < m) :
    combineMatrices op (rows A) (rows B) = some (rows (Matrix.of fun i j => op (A i j) (B i j))) := by
  have head (C : Grid m n F) : (rows C)[0]? = some (List.ofFn (C ⟨0, someRows⟩)) := rows_get C ⟨0, someRows⟩
  simp only [combineMatrices, length_rows, head, Option.bind_eq_bind, Option.bind_some, List.length_ofFn, ne_eq, not_true_eq_false, if_false]
  refine map_m_rows _ _ fun i j => ?_
  rw [cell_rows, cell_rows]
  rfl

theorem add_matrices_rows {A B : Grid m n F} (someRows : 0 < m) : addMatrices (rows A) (rows B) = some (rows (A + B)) :=
  combine_matrices_rows someRows

theorem subtract_matrices_rows {A B : Grid m n F} (someRows : 0 < m) : subtractMatrices (rows A) (rows B) = some (rows (A - B)) :=
  combine_matrices_rows someRows

theorem dot_product_rows {A : Grid m n F} {B : Grid n p F} (someRows : 0 < m) (fewRows : m ≤ 100) (inner : 0 < n) :
    generateDotProduct (rows A) (rows B) = some (rows (A * B)) := by
  have headA : (rows A)[0]? = some (List.ofFn (A ⟨0, someRows⟩)) := rows_get A ⟨0, someRows⟩
  have headB : (rows B)[0]? = some (List.ofFn (B ⟨0, inner⟩)) := rows_get B ⟨0, inner⟩
  simp only [generateDotProduct, plainProduct, headA, headB, length_rows, Option.bind_eq_bind, Option.bind_some, List.length_ofFn, ne_eq,
    not_true_eq_false, if_false, if_pos fewRows]
  refine map_m_rows _ _ fun x y => ?_
  rw [fold_sum_fin (fun ay => A x ay * B ay y) 0 fun ay sum => ?_, zero_add, Matrix.mul_apply]
  rw [cell_rows, cell_rows]
  rfl

theorem butterfly_flat {V : Grid k k F} : rpmButterfly (flat V) = some (flat V.transpose) := by
  have place (i j : Fin k) : (i.val * k + j.val) % k * k + (i.val * k + j.val) / k = j.val * k + i.val := by
    have positive : 0 < k := Nat.zero_lt_of_lt i.isLt
    rw [Nat.mul_comm i.val k, Nat.mul_add_mod, Nat.mod_eq_of_lt j.isLt, Nat.mul_add_div positive, Nat.div_eq_of_lt j.isLt, Nat.add_zero]
  have index (t : Nat) (short : t < k * k) : ∃ i j : Fin k, t = i.val * k + j.val := by
    have positive : 0 < k := Nat.pos_of_ne_zero fun none => by simp [none] at short
    exact ⟨⟨t / k, Nat.div_lt_of_lt_mul short⟩, ⟨t % k, Nat.mod_lt t positive⟩, (Nat.div_add_mod' t k).symm⟩
  have written (t : Nat) (short : t < k * k) : ∃ value, (flat V)[t]? = some value := by
    obtain ⟨i, j, split⟩ := index t short
    exact ⟨_, split ▸ flat_get V i j⟩
  obtain ⟨out, done, long, filled, -⟩ := fold_set_range (k * k) (fun out t => do setAt out (t % k * k + t / k) (← (flat V)[t]?))
    (fun t => t % k * k + t / k) (fun t => (flat V)[t]?.getD 0) (List.replicate (k * k) 0)
    (fun t short => by
      obtain ⟨i, j, split⟩ := index t short
      rw [split, place, List.length_replicate]
      exact block_lt j i)
    (fun t short t' short' same => by
      obtain ⟨i, j, split⟩ := index t short
      obtain ⟨i', j', split'⟩ := index t' short'
      rw [split, split', place, place] at same
      have again := congrArg (fun place => place % k * k + place / k) same
      simp only [place] at again
      rw [split, split', again])
    (fun t short out => by
      obtain ⟨value, read⟩ := written t short
      rw [read]
      rfl)
  rw [rpmButterfly, length_flat, Nat.sqrt_eq]
  rw [List.length_replicate] at long
  refine done.trans (congrArg some (eq_flat out _ long fun i j => ?_))
  have value := filled (j.val * k + i.val) (block_lt j i)
  rw [place, flat_get] at value
  exact value

end Specifications

end Arithmetic

section Dealing

variable {F G : Type} [Field F] (curve : Curve F G)

-- The coefficients after the secret are drawn at random; the last one drawn is not used.
def genPolyFrags (secret : F) (draw : Nat → F) (total threshold : Nat) : Option (List Bytes) :=
  let coeffs := secret :: tabulate threshold draw
  (List.range total).mapM fun i => do
    let (result, _) ← (List.range' 1 (threshold - 1)).foldlM (fun (result, x) j => do
      return (result + (← coeffs[j]?) * x, x * ((i + 1 : Nat) : F))) (secret, ((i + 1 : Nat) : F))
    return curve.toBytes result

def shamirSplitMatrix (matrix : List (List F)) (draw : Nat → Nat → Nat → F) (total threshold : Nat) : Option (List Matrix) := do
  let row ← matrix[0]?
  (List.range total).mapM fun i => (List.range matrix.length).mapM fun x => (List.range row.length).mapM fun y => do
    let frags ← genPolyFrags curve (← cell matrix x y) (draw x y) total threshold
    frags[i]?

def generateRandomVectorShares (length total threshold : Nat) (secret : Nat → F) (draw : Nat → Nat → F) : Option (List Vector) :=
  (List.range total).mapM fun i => (List.range length).mapM fun j => do
    let frags ← genPolyFrags curve (secret j) (draw j) total threshold
    frags[i]?

-- The positions are drawn from the elements that remain.
def drawRows (size : Nat) : List Nat → List Nat → Option (List (List F))
  | [], _ => some []
  | pos :: rest, elements => do
      let vecPos ← elements[pos]?
      let vector ← setAt (List.replicate size 0) vecPos 1
      return vector :: (← drawRows size rest (elements.eraseIdx pos))

def generatePermutationMatrix (size : Nat) (positions : List Nat) : Option (List (List F)) := drawRows size positions (List.range size)

structure Draws (F : Type) where
  positions : Nat → Nat → List Nat
  matrixCoeffs : Nat → Nat → Nat → Nat → Nat → F
  masks : Nat → Nat → F
  maskCoeffs : Nat → Nat → Nat → F

structure InitialShares where
  ms : List (List (List Matrix))
  rs : List (List Vector)

def rpmGenerateInitialShares (draws : Draws F) (size depth dealers players : Nat) : Option InitialShares := do
  if players < dealers * dealers then none else
  let k := Nat.sqrt size
  let ms ← (List.range depth).mapM fun i => (List.range k).mapM fun j => do
    let matrix ← generatePermutationMatrix k (draws.positions i j)
    shamirSplitMatrix curve matrix (draws.matrixCoeffs i j) players dealers
  let rs ← (List.range depth).mapM fun i =>
    generateRandomVectorShares curve size players dealers (draws.masks i) (draws.maskCoeffs i)
  return ⟨ms, rs⟩

theorem frag_loop (secret x : F) (draw : Nat → F) (threshold steps : Nat) (enough : steps ≤ threshold) :
    (List.range' 1 steps).foldlM (fun (state : F × F) j => do
      return (state.1 + (← (secret :: tabulate threshold draw)[j]?) * state.2, state.2 * x)) (secret, x) =
      some (secret + ∑ j ∈ Finset.range steps, draw j * x ^ (j + 1), x ^ (steps + 1)) := by
  induction steps with
  | zero => simp
  | succ steps ih =>
      have read : (secret :: tabulate threshold draw)[1 + steps]? = some (draw steps) := by
        rw [Nat.add_comm, List.getElem?_cons_succ, tabulate_get (by omega)]
      rw [List.range'_1_concat, List.foldlM_append, ih (by omega), Option.bind_eq_bind, Option.bind_some, List.foldlM_cons, read,
        Finset.sum_range_succ, pow_succ x (steps + 1)]
      simp [add_assoc]

theorem gen_poly_frags_eq {secret : F} {draw : Nat → F} : genPolyFrags curve secret draw total threshold =
    some (tabulate total fun i => curve.toBytes ((sharePoly secret draw threshold).eval ((i + 1 : Nat) : F))) := by
  refine map_m_range total _ _ fun i _ => ?_
  have loop := frag_loop secret ((i + 1 : Nat) : F) draw threshold (threshold - 1) (by omega)
  refine (congrArg (fun state : Option (F × F) => state >>= fun state => some (curve.toBytes state.1)) loop).trans ?_
  rw [sharePoly, Polynomial.eval_add, Polynomial.eval_finsetSum]
  simp

variable {m n k : Nat}

def shareRows (P : Grid m n F[X]) (player : Nat) : Matrix := rows (P.map fun f => curve.toBytes (f.eval (player : F)))

def shareVector (P : Grid k k F[X]) (player : Nat) : Vector := flat (P.map fun f => curve.toBytes (f.eval (player : F)))

noncomputable def splitPolys (A : Grid m n F) (draw : Nat → Nat → Nat → F) (threshold : Nat) : Grid m n F[X] :=
  Matrix.of fun x y => sharePoly (A x y) (draw x y) threshold

noncomputable def vectorPolys (secret : Nat → F) (draw : Nat → Nat → F) (threshold : Nat) : Grid k k F[X] :=
  Matrix.of fun i j => sharePoly (secret (i.val * k + j.val)) (draw (i.val * k + j.val)) threshold

theorem split_matrix_rows {A : Grid m n F} (someRows : 0 < m) {draw : Nat → Nat → Nat → F} :
    shamirSplitMatrix curve (rows A) draw total threshold =
      some (tabulate total fun p => shareRows curve (splitPolys A draw threshold) (p + 1)) := by
  have head : (rows A)[0]? = some (List.ofFn (A ⟨0, someRows⟩)) := rows_get A ⟨0, someRows⟩
  rw [shamirSplitMatrix, head, Option.bind_eq_bind, Option.bind_some, length_rows, List.length_ofFn]
  refine map_m_range total _ _ fun p isPlayer => map_m_rows _ _ fun x y => ?_
  rw [cell_rows, Option.bind_eq_bind, Option.bind_some, gen_poly_frags_eq, Option.bind_eq_bind, Option.bind_some, tabulate_get isPlayer]
  rfl

theorem tabulate_flat {α : Type} {element : Nat → α} :
    tabulate (k * k) element = flat (Matrix.of fun i j : Fin k => element (i.val * k + j.val)) :=
  eq_flat _ _ length_tabulate fun i j => tabulate_get (block_lt i j)

theorem random_vector_flat {secret : Nat → F} {draw : Nat → Nat → F} :
    generateRandomVectorShares curve (k * k) total threshold secret draw =
      some (tabulate total fun p => shareVector curve (vectorPolys secret draw threshold : Grid k k F[X]) (p + 1)) := by
  refine map_m_range total _ _ fun p isPlayer => ?_
  have shares : (List.range (k * k)).mapM (fun j => do (← genPolyFrags curve (secret j) (draw j) total threshold)[p]?) =
      some (tabulate (k * k) fun j => curve.toBytes ((sharePoly (secret j) (draw j) threshold).eval ((p + 1 : Nat) : F))) := by
    refine map_m_range (k * k) _ _ fun j _ => ?_
    rw [gen_poly_frags_eq, Option.bind_eq_bind, Option.bind_some, tabulate_get isPlayer]
  rw [tabulate_flat] at shares
  exact shares

def InRange : Nat → List Nat → Prop
  | 0, [] => True
  | n + 1, pos :: rest => pos ≤ n ∧ InRange n rest
  | _, _ => False

def unitRow (size v : Nat) : List F := List.ofFn fun j : Fin size => if v = j.val then 1 else 0

theorem set_at_unit {v : Nat} (short : v < size) : setAt (List.replicate size (0 : F)) v 1 = some (unitRow size v) := by
  rw [setAt, List.length_replicate, if_pos short]
  refine congrArg some (List.ext_getElem? fun j => ?_)
  rw [List.getElem?_set, List.length_replicate, unitRow, List.getElem?_ofFn]
  by_cases isColumn : j < size
  · rw [dif_pos isColumn]
    by_cases same : v = j
    · rw [if_pos same, if_pos short, if_pos same]
    · rw [if_neg same, if_neg same, List.getElem?_replicate_of_lt isColumn]
  · rw [dif_neg isColumn, if_neg (by omega), List.getElem?_eq_none (by simp; omega)]

theorem draw_rows_cons {pos : Nat} {elements : List Nat} (rest : List Nat) (short : pos < elements.length)
    (bounded : ∀ v ∈ elements, v < size) :
    drawRows (F := F) size (pos :: rest) elements = do return unitRow size elements[pos] :: (← drawRows size rest (elements.eraseIdx pos)) := by
  rw [drawRows, List.getElem?_eq_getElem short, Option.bind_eq_bind, Option.bind_some, set_at_unit (bounded _ (List.getElem_mem short))]
  rfl

theorem draw_rows_perm (size : Nat) (positions elements : List Nat) (inRange : InRange elements.length positions)
    (bounded : ∀ v ∈ elements, v < size) :
    ∃ chosen : List Nat, chosen.Perm elements ∧ drawRows size positions elements = some (chosen.map (unitRow (F := F) size)) := by
  induction positions generalizing elements with
  | nil =>
      cases elements with
      | nil => exact ⟨[], .nil, rfl⟩
      | cons v elements => exact inRange.elim
  | cons pos rest ih =>
      cases elements with
      | nil => exact inRange.elim
      | cons v elements =>
          obtain ⟨isLeft, later⟩ := inRange
          have short : pos < (v :: elements).length := Nat.lt_succ_of_le isLeft
          have remain : ((v :: elements).eraseIdx pos).length = elements.length := by rw [List.length_eraseIdx_of_lt short]; rfl
          obtain ⟨chosen, isOrder, drawn⟩ := ih ((v :: elements).eraseIdx pos) (remain ▸ later) fun v isElement => bounded v (List.mem_of_mem_eraseIdx isElement)
          refine ⟨(v :: elements)[pos] :: chosen, (isOrder.cons _).trans (List.getElem_cons_eraseIdx_perm short), ?_⟩
          rw [draw_rows_cons rest short bounded, drawn]
          rfl

theorem every_order_drawn (size : Nat) (chosen elements : List Nat) (isOrder : chosen.Perm elements) (bounded : ∀ v ∈ elements, v < size) :
    ∃ positions, InRange elements.length positions ∧ drawRows size positions elements = some (chosen.map (unitRow (F := F) size)) := by
  induction chosen generalizing elements with
  | nil =>
      rw [List.nil_perm.mp isOrder]
      exact ⟨[], trivial, rfl⟩
  | cons v chosen ih =>
      obtain ⟨pos, short, isAt⟩ := List.getElem_of_mem (isOrder.mem_iff.mp List.mem_cons_self)
      have later : chosen.Perm (elements.eraseIdx pos) := by
        refine (List.perm_cons v).mp (isOrder.trans ?_)
        rw [← isAt]
        exact (List.getElem_cons_eraseIdx_perm short).symm
      have remain : elements.length = (elements.eraseIdx pos).length + 1 := by
        rw [List.length_eraseIdx_of_lt short]
        omega
      obtain ⟨positions, inRange, drawn⟩ := ih (elements.eraseIdx pos) later fun v isElement => bounded v (List.mem_of_mem_eraseIdx isElement)
      refine ⟨pos :: positions, ?_, ?_⟩
      · rw [remain]
        exact ⟨by omega, inRange⟩
      · rw [draw_rows_cons positions short bounded, drawn, isAt]
        rfl

theorem perm_matrix_rows {σ : Equiv.Perm (Fin k)} : rows (σ.permMatrix F) = (List.ofFn fun i => (σ i).val).map (unitRow k) := by
  rw [rows, List.map_ofFn]
  refine congrArg List.ofFn (funext fun i => congrArg List.ofFn (funext fun j => ?_))
  rw [Equiv.Perm.permMatrix, PEquiv.toMatrix_apply]
  simp only [Equiv.toPEquiv_apply, Option.mem_some_iff, Fin.ext_iff]

theorem permutation_matrix_drawn (positions : List Nat) (inRange : InRange k positions) :
    ∃ σ : Equiv.Perm (Fin k), generatePermutationMatrix k positions = some (rows (σ.permMatrix F)) := by
  obtain ⟨chosen, isOrder, drawn⟩ := draw_rows_perm (F := F) k positions (List.range k) (by rwa [List.length_range]) fun v => List.mem_range.mp
  have long : chosen.length = k := by rw [isOrder.length_eq, List.length_range]
  have distinct : chosen.Nodup := isOrder.nodup_iff.mpr List.nodup_range
  let value (i : Fin k) : Fin k := ⟨chosen[i], List.mem_range.mp (isOrder.mem_iff.mp (List.getElem_mem _))⟩
  have injective : Function.Injective value := by
    intro i j same
    exact Fin.ext ((List.Nodup.getElem_inj_iff distinct).mp (Fin.ext_iff.mp same))
  refine ⟨Equiv.ofBijective value (Finite.injective_iff_bijective.mp injective), ?_⟩
  rw [generatePermutationMatrix, drawn, perm_matrix_rows]
  refine congrArg (fun order : List Nat => some (order.map (unitRow k))) (List.ext_getElem (by simp [long]) fun i _ _ => ?_)
  simp [value]

theorem every_permutation_drawn {σ : Equiv.Perm (Fin k)} :
    ∃ positions, InRange k positions ∧ generatePermutationMatrix k positions = some (rows (σ.permMatrix F)) := by
  have isOrder : (List.ofFn fun i => (σ i).val).Perm (List.range k) := by
    rw [← List.map_coe_finRange_eq_range, ← List.ofFn_eq_map]
    exact Equiv.Perm.ofFn_comp_perm σ fun i : Fin k => i.val
  obtain ⟨positions, inRange, drawn⟩ := every_order_drawn (F := F) k _ _ isOrder fun v => List.mem_range.mp
  rw [List.length_range] at inRange
  exact ⟨positions, inRange, by rw [generatePermutationMatrix, drawn, perm_matrix_rows]⟩

-- The polynomials behind the shares of a dealer whose matrices are the given permutations.
noncomputable def matrixPolys (draws : Draws F) (σ : Nat → Fin k → Equiv.Perm (Fin k)) (dealers i : Nat) (j : Fin k) : Grid k k F[X] :=
  splitPolys ((σ i j).permMatrix F) (draws.matrixCoeffs i j) dealers

noncomputable def maskPolys (draws : Draws F) (dealers i : Nat) : Grid k k F[X] := vectorPolys (draws.masks i) (draws.maskCoeffs i) dealers

theorem initial_shares_eq (draws : Draws F) (σ : Nat → Fin k → Equiv.Perm (Fin k)) (depth dealers players : Nat) (someRows : 0 < k)
    (fits : dealers * dealers ≤ players)
    (drawn : ∀ i < depth, ∀ j : Fin k, generatePermutationMatrix k (draws.positions i j) = some (rows ((σ i j).permMatrix F))) :
    rpmGenerateInitialShares curve draws (k * k) depth dealers players = some
      ⟨tabulate depth fun i => List.ofFn fun j => tabulate players fun p => shareRows curve (matrixPolys draws σ dealers i j) (p + 1),
        tabulate depth fun i => tabulate players fun p => shareVector curve (maskPolys draws dealers i : Grid k k F[X]) (p + 1)⟩ := by
  have matrices : ((List.range depth).mapM fun i => (List.range k).mapM fun j => do
      let matrix ← generatePermutationMatrix k (draws.positions i j)
      shamirSplitMatrix curve matrix (draws.matrixCoeffs i j) players dealers) =
      some (tabulate depth fun i => List.ofFn fun j => tabulate players fun p => shareRows curve (matrixPolys draws σ dealers i j) (p + 1)) := by
    refine map_m_range depth _ _ fun i isLevel => map_m_fin fun j => ?_
    rw [drawn i isLevel j, Option.bind_eq_bind, Option.bind_some, split_matrix_rows curve someRows]
    rfl
  have vectors : ((List.range depth).mapM fun i =>
      generateRandomVectorShares curve (k * k) players dealers (draws.masks i) (draws.maskCoeffs i)) =
      some (tabulate depth fun i => tabulate players fun p => shareVector curve (maskPolys draws dealers i : Grid k k F[X]) (p + 1)) :=
    map_m_range depth _ _ fun i _ => random_vector_flat curve
  rw [rpmGenerateInitialShares, if_neg (Nat.not_lt.mpr fits), Nat.sqrt_eq]
  dsimp only
  rw [matrices, vectors]
  rfl

end Dealing

end Rpm

end Ceremony
