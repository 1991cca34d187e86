import CeremonyClient.Lib.Bytes
import CeremonyClient.Lib.OptionLoops
import CeremonyClient.Lib.Sharing
import Mathlib.Algebra.Field.ZMod

set_option autoImplicit false

namespace Ceremony

variable {n : Nat} {ids : List Nat} {j depth width i k player dealers : Nat}

namespace Rpm

open GoSem Sharing OptionLoops Polynomial

-- Scalars F and points G of the curve library, with their encodings in 32 bytes.
structure Curve (F G : Type) where
  base : G
  compress : G → Bytes
  decompress : Bytes → Option G
  toBytes : F → Bytes
  fromBytesModOrder : Bytes → F

abbrev Matrix := List (List Bytes)

abbrev Vector := List Bytes

-- A function whose result is none panics: an index is out of bounds, or an unsigned subtraction goes below zero.
section Interpolation

variable {F G : Type} [Field F] [AddCommGroup G] [Module F G]

def lagrangeCoeff (ids : List Nat) (j : Nat) : F := zeroCoeff (ids.map (Nat.cast : Nat → F)) j

def shareAt {α : Type} (shares : List α) (ids : List Nat) (j : Nat) : Option α := do
  let id ← ids[j]?
  if id = 0 then none else shares[id - 1]?

def interpolatePolynomialPointShares (curve : Curve F G) (shares : List G) (ids : List Nat) : Option G :=
  (List.range ids.length).foldlM (fun reconstructedSum j => do
    let share ← shareAt shares ids j
    return reconstructedSum + (lagrangeCoeff ids j : F) • share) ((0 : F) • curve.base)

end Interpolation

section Sketch

variable {F G : Type} [Field F] [AddCommGroup G] [Module F G] [DecidableEq G] (curve : Curve F G)

structure SketchProposal where
  mp : List (List (List Bytes))
  rp : List Bytes

def matrixEntry (m : List (List Matrix)) (i j k l : Nat) : Option Bytes := do
  let level ← m[i]?
  let matrix ← level[j]?
  let row ← matrix[k]?
  row[l]?

def vectorEntry (r : List Vector) (i j : Nat) : Option Bytes := do
  let vector ← r[i]?
  vector[j]?

def proposeMatrices (m : List (List Matrix)) : Option (List (List (List Bytes))) :=
  (List.range m.length).mapM fun i => do
    let level ← m[0]?
    (List.range level.length).mapM fun j => do
      let matrix ← level[0]?
      (List.range matrix.length).mapM fun k => do
        let row ← matrix[0]?
        let s ← (List.range row.length).foldlM (fun s l => do
          let inRow ← matrixEntry m i j k l
          let inColumn ← matrixEntry m i j l k
          return s + curve.fromBytesModOrder inRow + curve.fromBytesModOrder inColumn) (0 : F)
        return curve.compress (s • curve.base)

def proposeMasks (r : List Vector) : Option (List Bytes) := do
  let first ← r[0]?
  (List.range r.length).mapM fun i => do
    let s ← (List.range first.length).foldlM (fun s j => do
      return s + curve.fromBytesModOrder (← vectorEntry r i j)) (0 : F)
    return curve.compress (s • curve.base)

def rpmSketchPropose (m : List (List Matrix)) (r : List Vector) : Option SketchProposal := do
  return ⟨← proposeMatrices curve m, ← proposeMasks curve r⟩

-- The points that the players published at one place; the inner none is an encoding that is not of a point.
def publishedPoints (entry : Nat → Option Bytes) : List Nat → Option (Option (List G))
  | [] => some (some [])
  | p :: rest => do
      match curve.decompress (← entry p) with
      | none => return none
      | some point => return (← publishedPoints entry rest).map (point :: ·)

-- The sets of consecutive players p..(p+width), for p in 1..=(players-width+1).
def windows (players width : Nat) : Option (List (List Nat)) :=
  if players < width then none else some ((List.range (players - width + 1)).map fun p => List.range' (p + 1) width)

def checkMatrixIndex (mcs : List (List (List (List Bytes)))) (dealers i j k : Nat) : Option Bool := do
  match ← publishedPoints curve (fun p => matrixEntry mcs p i j k) (List.range mcs.length) with
  | none => return false
  | some l =>
      let psets ← windows mcs.length (dealers * dealers)
      psets.allM fun pset => do
        let v ← interpolatePolynomialPointShares curve l pset
        return decide (v = ((1 : F) + 1) • curve.base)

def checkMaskIndex (rcs : List (List Bytes)) (dealers i : Nat) : Option Bool := do
  match ← publishedPoints curve (fun p => vectorEntry rcs p i) (List.range rcs.length) with
  | none => return false
  | some l =>
      let psets ← windows rcs.length dealers
      let rs ← psets.mapM fun pset => interpolatePolynomialPointShares curve l pset
      (List.range (rs.length - 1)).allM fun p => do
        return decide ((← rs[p]?) = (← rs[p + 1]?))

def checkMatrices (mcs : List (List (List (List Bytes)))) (dealers : Nat) : Option Bool := do
  let mc ← mcs[0]?
  (List.range mc.length).allM fun i => do
    let level ← mc[0]?
    (List.range level.length).allM fun j => do
      let sums ← level[0]?
      (List.range sums.length).allM fun k => checkMatrixIndex curve mcs dealers i j k

def checkMasks (rcs : List (List Bytes)) (dealers : Nat) : Option Bool := do
  let rc ← rcs[0]?
  (List.range rc.length).allM fun i => checkMaskIndex curve rcs dealers i

def rpmSketchVerify (mcs : List (List (List (List Bytes)))) (rcs : List (List Bytes)) (dealers : Nat) : Option Bool := do
  if ← checkMatrices curve mcs dealers then checkMasks curve rcs dealers else return false

end Sketch

section Shared

variable {q : Nat} [Fact q.Prime] {G : Type} [AddCommGroup G] [Module (ZMod q) G] (curve : Curve (ZMod q) G)

theorem cast_injective {left right : Nat} (small : n < q) (isLeft : left ≤ n) (isRight : right ≤ n) (same : (left : ZMod q) = right) :
    left = right := by
  have values := (ZMod.natCast_eq_natCast_iff' left right q).mp same
  rwa [Nat.mod_eq_of_lt (by omega), Nat.mod_eq_of_lt (by omega)] at values

structure Players (q n : Nat) (ids : List Nat) : Prop where
  distinct : ids.Nodup
  positive : ∀ id ∈ ids, 1 ≤ id
  bounded : ∀ id ∈ ids, id ≤ n
  small : n < q

omit [Fact q.Prime] in
theorem share_at_tabulate {α : Type} (players : Players q n ids) (share : Nat → α) (short : j < ids.length) :
    shareAt (tabulate n fun p => share (p + 1)) ids j = some (share (ids.getD j 0)) := by
  have member := List.getElem_mem short
  have isPositive := players.positive _ member
  have isBounded := players.bounded _ member
  rw [shareAt, List.getElem?_eq_getElem short, List.getD_eq_getElem?_getD, List.getElem?_eq_getElem short]
  simp only [Option.bind_eq_bind, Option.bind_some, Option.getD_some]
  rw [if_neg (by omega), tabulate_get (by omega), Nat.sub_add_cancel isPositive]

theorem interpolate_at_zero (players : Players q n ids) {f : (ZMod q)[X]} (degree : f.degree < ids.length) :
    ∑ j ∈ Finset.range ids.length, lagrangeCoeff ids j * f.eval (ids.getD j 0 : ZMod q) = f.eval 0 := by
  have distinct : (ids.map (Nat.cast : Nat → ZMod q)).Nodup := by
    refine List.Nodup.map_on (fun left isLeft right isRight same => ?_) players.distinct
    exact cast_injective players.small (players.bounded left isLeft) (players.bounded right isRight) same
  have whole := sum_zero_coeff distinct (by rw [List.length_map]; exact degree)
  rw [List.length_map] at whole
  rw [← whole]
  refine Finset.sum_congr rfl fun j isIndex => ?_
  have short := Finset.mem_range.mp isIndex
  simp only [lagrangeCoeff, List.getD_eq_getElem?_getD, List.getElem?_map, List.getElem?_eq_getElem short, Option.map_some, Option.getD_some]

theorem interpolate_points (players : Players q n ids) {f : (ZMod q)[X]} (degree : f.degree < ids.length) :
    interpolatePolynomialPointShares curve (tabulate n fun p => f.eval ((p + 1 : Nat) : ZMod q) • curve.base) ids = some (f.eval 0 • curve.base) := by
  rw [interpolatePolynomialPointShares, fold_sum_range fun j => (lagrangeCoeff ids j * f.eval (ids.getD j 0 : ZMod q)) • curve.base]
  · rw [zero_smul, zero_add, ← Finset.sum_smul, interpolate_at_zero players degree]
  · intro j short sum
    rw [share_at_tabulate players (fun p => f.eval (p : ZMod q) • curve.base) short, mul_smul]
    rfl

-- Encodings can be read back, and no multiple of the base point but the zeroth is zero.
structure Lawful : Prop where
  decompress_compress : ∀ point, curve.decompress (curve.compress point) = some point
  from_to_bytes : ∀ scalar, curve.fromBytesModOrder (curve.toBytes scalar) = scalar
  faithful : ∀ scalar : ZMod q, scalar • curve.base = 0 → scalar = 0

def sharedMatrices (depth count size : Nat) (matrices : Nat → Nat → Nat → Nat → (ZMod q)[X]) (player : Nat) : List (List Matrix) :=
  tabulate depth fun i => tabulate count fun j => tabulate size fun k => tabulate size fun l =>
    curve.toBytes ((matrices i j k l).eval (player : ZMod q))

def sharedMasks (depth width : Nat) (masks : Nat → Nat → (ZMod q)[X]) (player : Nat) : List Vector :=
  tabulate depth fun i => tabulate width fun j => curve.toBytes ((masks i j).eval (player : ZMod q))

-- What the players publish for an index is shared by the sum of the polynomials of its row and of its column.
noncomputable def indexSum (size : Nat) (matrices : Nat → Nat → Nat → Nat → (ZMod q)[X]) (i j k : Nat) : (ZMod q)[X] :=
  ∑ l ∈ Finset.range size, (matrices i j k l + matrices i j l k)

noncomputable def maskSum (width : Nat) (masks : Nat → Nat → (ZMod q)[X]) (i : Nat) : (ZMod q)[X] := ∑ j ∈ Finset.range width, masks i j

theorem matrix_entry_tabulate {count size : Nat} {entry : Nat → Nat → Nat → Nat → Bytes} {l : Nat} (isLevel : i < depth)
    (isMatrix : j < count) (isRow : k < size) (isColumn : l < width) :
    matrixEntry (tabulate depth fun i => tabulate count fun j => tabulate size fun k => tabulate width fun l => entry i j k l) i j k l =
      some (entry i j k l) := by
  simp only [matrixEntry, tabulate_get isLevel, Option.bind_eq_bind, Option.bind_some, tabulate_get isMatrix, tabulate_get isRow,
    tabulate_get isColumn]

theorem vector_entry_tabulate {entry : Nat → Nat → Bytes} (isVector : i < depth) (isElement : j < width) :
    vectorEntry (tabulate depth fun i => tabulate width fun j => entry i j) i j = some (entry i j) := by
  simp only [vectorEntry, tabulate_get isVector, Option.bind_eq_bind, Option.bind_some, tabulate_get isElement]

section Rounds

variable [DecidableEq G] (lawful : Lawful curve) (depth count size width : Nat) (matrices : Nat → Nat → Nat → Nat → (ZMod q)[X])
  (masks : Nat → Nat → (ZMod q)[X])

noncomputable def publishedMatrices (player : Nat) : List (List (List Bytes)) :=
  tabulate depth fun i => tabulate count fun j => tabulate size fun k =>
    curve.compress ((indexSum size matrices i j k).eval (player : ZMod q) • curve.base)

noncomputable def publishedMasks (player : Nat) : List Bytes :=
  tabulate depth fun i => curve.compress ((maskSum width masks i).eval (player : ZMod q) • curve.base)

include lawful in
omit [DecidableEq G] in
theorem propose_matrices_shared : proposeMatrices curve (sharedMatrices curve depth count size matrices player) =
    some (publishedMatrices curve depth count size matrices player) := by
  rw [proposeMatrices, sharedMatrices, length_tabulate, publishedMatrices]
  refine map_m_range depth _ _ fun i isLevel => ?_
  rw [tabulate_get (Nat.zero_lt_of_lt isLevel), Option.bind_eq_bind, Option.bind_some, length_tabulate]
  refine map_m_range count _ _ fun j isMatrix => ?_
  rw [tabulate_get (Nat.zero_lt_of_lt isMatrix), Option.bind_eq_bind, Option.bind_some, length_tabulate]
  refine map_m_range size _ _ fun k isRow => ?_
  rw [tabulate_get (Nat.zero_lt_of_lt isRow), Option.bind_eq_bind, Option.bind_some, length_tabulate,
    fold_sum_range fun l => (matrices i j k l + matrices i j l k).eval (player : ZMod q)]
  · rw [indexSum, Polynomial.eval_finsetSum, zero_add]
    rfl
  · intro l isColumn sum
    rw [matrix_entry_tabulate isLevel isMatrix isRow isColumn,
      matrix_entry_tabulate isLevel isMatrix isColumn isRow]
    simp only [Option.bind_eq_bind, Option.bind_some, lawful.from_to_bytes, Polynomial.eval_add, add_assoc]
    rfl

include lawful in
omit [DecidableEq G] in
theorem propose_masks_shared (positive : 0 < depth) : proposeMasks curve (sharedMasks curve depth width masks player) =
    some (publishedMasks curve depth width masks player) := by
  rw [proposeMasks, sharedMasks, tabulate_get positive, Option.bind_eq_bind, Option.bind_some, length_tabulate, length_tabulate, publishedMasks]
  refine map_m_range depth _ _ fun i isLevel => ?_
  rw [fold_sum_range fun j => (masks i j).eval (player : ZMod q)]
  · rw [maskSum, Polynomial.eval_finsetSum, zero_add]
    rfl
  · intro j isElement sum
    rw [vector_entry_tabulate isLevel isElement]
    simp only [Option.bind_eq_bind, Option.bind_some, lawful.from_to_bytes]
    rfl

omit [Fact q.Prime] in
theorem windows_players (n w : Nat) (fits : w ≤ n) (small : n < q) : ∃ psets, windows n w = some psets ∧ psets ≠ [] ∧
    ∀ pset ∈ psets, pset.length = w ∧ Players q n pset := by
  refine ⟨_, if_neg (Nat.not_lt.mpr fits), by simp, fun pset isPset => ?_⟩
  obtain ⟨p, isIndex, isPset⟩ := List.mem_map.mp isPset
  have short := List.mem_range.mp isIndex
  rw [← isPset]
  refine ⟨List.length_range', List.nodup_range', fun id isId => ?_, fun id isId => ?_, small⟩
  · have := List.mem_range'_1.mp isId
    omega
  · have := List.mem_range'_1.mp isId
    omega

include lawful in
omit [DecidableEq G] in
theorem published_points_shared {entry : Nat → Option Bytes} (point : Nat → G) {players : List Nat}
    (each : ∀ p ∈ players, entry p = some (curve.compress (point p))) :
    publishedPoints curve entry players = some (some (players.map point)) := by
  induction players with
  | nil => rfl
  | cons p rest ih =>
      obtain ⟨first, later⟩ := List.forall_mem_cons.mp each
      simp only [publishedPoints, first, Option.bind_eq_bind, Option.bind_some, lawful.decompress_compress, ih later]
      rfl

include lawful in
omit [DecidableEq G] in
theorem same_multiple_iff {left right : ZMod q} : left • curve.base = right • curve.base ↔ left = right := by
  constructor
  · intro same
    exact sub_eq_zero.mp (lawful.faithful _ (by rw [sub_smul, same, sub_self]))
  · intro same
    rw [same]

include lawful in
theorem check_matrix_index_shared (fits : dealers * dealers ≤ n) (small : n < q) (isLevel : i < depth) (isMatrix : j < count)
    (isIndex : k < size) (degrees : ∀ k < size, ∀ l < size, (matrices i j k l).degree < (dealers * dealers : Nat)) :
    checkMatrixIndex curve (tabulate n fun p => publishedMatrices curve depth count size matrices (p + 1)) dealers i j k =
      some (decide ((indexSum size matrices i j k).eval 0 = 1 + 1)) := by
  have degree : (indexSum size matrices i j k).degree < (dealers * dealers : Nat) := by
    refine (Polynomial.degree_sum_le _ _).trans_lt ?_
    rw [Finset.sup_lt_iff (WithBot.bot_lt_coe _)]
    intro l isColumn
    have isColumn := Finset.mem_range.mp isColumn
    exact (Polynomial.degree_add_le _ _).trans_lt (max_lt (degrees k isIndex l isColumn) (degrees l isColumn k isIndex))
  obtain ⟨psets, isPsets, some, each⟩ := windows_players (q := q) n (dealers * dealers) fits small
  rw [checkMatrixIndex, length_tabulate, published_points_shared curve lawful
    (fun p => (indexSum size matrices i j k).eval ((p + 1 : Nat) : ZMod q) • curve.base)]
  · simp only [Option.bind_eq_bind, Option.bind_some, isPsets]
    rw [all_m_some (fun _ => decide ((indexSum size matrices i j k).eval 0 = 1 + 1))]
    · cases psets with
      | nil => exact absurd rfl some
      | cons pset rest => simp +contextual
    · intro pset isPset
      obtain ⟨wide, players⟩ := each pset isPset
      rw [← tabulate, interpolate_points curve players (by rw [wide]; exact degree), Option.bind_some]
      exact congrArg _ (decide_eq_decide.mpr (same_multiple_iff curve lawful))
  · intro p isPlayer
    exact matrix_entry_tabulate (List.mem_range.mp isPlayer) isLevel isMatrix isIndex

include lawful in
theorem check_mask_index_shared (fits : dealers ≤ n) (small : n < q) (isLevel : i < depth)
    (degrees : ∀ j < width, (masks i j).degree < dealers) :
    checkMaskIndex curve (tabulate n fun p => publishedMasks curve depth width masks (p + 1)) dealers i = some true := by
  have degree : (maskSum width masks i).degree < dealers := by
    refine (Polynomial.degree_sum_le _ _).trans_lt ?_
    rw [Finset.sup_lt_iff (WithBot.bot_lt_coe _)]
    exact fun j isElement => degrees j (Finset.mem_range.mp isElement)
  obtain ⟨psets, isPsets, -, each⟩ := windows_players (q := q) n dealers fits small
  rw [checkMaskIndex, length_tabulate, published_points_shared curve lawful
    (fun p => (maskSum width masks i).eval ((p + 1 : Nat) : ZMod q) • curve.base)]
  · simp only [Option.bind_eq_bind, Option.bind_some, isPsets]
    rw [map_m_some]
    · have each_same (p : Nat) (short : p < psets.length) : (psets.map fun _ => (maskSum width masks i).eval 0 • curve.base)[p]? =
          some ((maskSum width masks i).eval 0 • curve.base) := by
        rw [List.getElem?_map, List.getElem?_eq_getElem short]
        rfl
      rw [Option.bind_some, all_m_some (fun _ => true)]
      · simp
      · intro p isIndex
        have short := List.mem_range.mp isIndex
        rw [List.length_map] at short
        rw [each_same p (by omega), each_same (p + 1) (by omega)]
        simp
    · intro pset isPset
      obtain ⟨wide, players⟩ := each pset isPset
      rw [← tabulate, interpolate_points curve players (by rw [wide]; exact degree)]
  · intro p isPlayer
    exact vector_entry_tabulate (List.mem_range.mp isPlayer) isLevel

def sketchRound (n dealers : Nat) : Option Bool := do
  let proposals ← (List.range n).mapM fun p =>
    rpmSketchPropose curve (sharedMatrices curve depth count size matrices (p + 1)) (sharedMasks curve depth width masks (p + 1))
  rpmSketchVerify curve (proposals.map fun proposal => proposal.mp) (proposals.map fun proposal => proposal.rp) dealers

include lawful in
theorem check_matrices_shared (positive : 0 < depth) (somePlayers : 0 < n) (fits : dealers * dealers ≤ n) (small : n < q)
    (degrees : ∀ i < depth, ∀ j < count, ∀ k < size, ∀ l < size, (matrices i j k l).degree < (dealers * dealers : Nat)) :
    checkMatrices curve (tabulate n fun p => publishedMatrices curve depth count size matrices (p + 1)) dealers =
      some (decide (∀ i < depth, ∀ j < count, ∀ k < size, (indexSum size matrices i j k).eval 0 = 1 + 1)) := by
  have levels : (publishedMatrices curve depth count size matrices 1).length = depth := length_tabulate
  rw [checkMatrices, tabulate_get somePlayers, Option.bind_eq_bind, Option.bind_some, Nat.zero_add, levels]
  refine all_m_range fun i isLevel => ?_
  rw [show (publishedMatrices curve depth count size matrices 1)[0]? = _ from tabulate_get positive, Option.bind_eq_bind, Option.bind_some,
    length_tabulate]
  refine all_m_range fun j isMatrix => ?_
  rw [tabulate_get (Nat.zero_lt_of_lt isMatrix), Option.bind_eq_bind, Option.bind_some, length_tabulate]
  refine all_m_range fun k isIndex => ?_
  exact check_matrix_index_shared curve lawful depth count size matrices fits small isLevel isMatrix isIndex
    (degrees i isLevel j isMatrix)

include lawful in
theorem check_masks_shared (somePlayers : 0 < n) (fits : dealers ≤ n) (small : n < q)
    (degrees : ∀ i < depth, ∀ j < width, (masks i j).degree < dealers) :
    checkMasks curve (tabulate n fun p => publishedMasks curve depth width masks (p + 1)) dealers = some true := by
  have levels : (publishedMasks curve depth width masks 1).length = depth := length_tabulate
  rw [checkMasks, tabulate_get somePlayers, Option.bind_eq_bind, Option.bind_some, Nat.zero_add, levels, all_m_some (fun _ => true)]
  · simp
  · intro i isIndex
    have isLevel := List.mem_range.mp isIndex
    exact check_mask_index_shared curve lawful depth width masks fits small isLevel (degrees i isLevel)

include lawful in
theorem sketch_round_eq (positive : 0 < depth) (n dealers : Nat) (someDealers : 0 < dealers) (fits : dealers * dealers ≤ n) (small : n < q)
    (matrixDegrees : ∀ i < depth, ∀ j < count, ∀ k < size, ∀ l < size, (matrices i j k l).degree < (dealers * dealers : Nat))
    (maskDegrees : ∀ i < depth, ∀ j < width, (masks i j).degree < dealers) :
    sketchRound curve depth count size width matrices masks n dealers =
      some (decide (∀ i < depth, ∀ j < count, ∀ k < size, (indexSum size matrices i j k).eval 0 = 1 + 1)) := by
  have fewDealers : dealers ≤ n := (Nat.le_mul_self dealers).trans fits
  have somePlayers : 0 < n := someDealers.trans_le fewDealers
  have published : (List.range n).mapM (fun p =>
      rpmSketchPropose curve (sharedMatrices curve depth count size matrices (p + 1)) (sharedMasks curve depth width masks (p + 1))) =
      some (tabulate n fun p => ⟨publishedMatrices curve depth count size matrices (p + 1), publishedMasks curve depth width masks (p + 1)⟩) := by
    refine map_m_range n _ _ fun p _ => ?_
    rw [rpmSketchPropose, propose_matrices_shared curve lawful, propose_masks_shared curve lawful _ _ _ positive]
    rfl
  rw [sketchRound, published, Option.bind_eq_bind, Option.bind_some, tabulate, List.map_map, List.map_map]
  change rpmSketchVerify curve (tabulate n fun p => publishedMatrices curve depth count size matrices (p + 1))
    (tabulate n fun p => publishedMasks curve depth width masks (p + 1)) dealers = _
  rw [rpmSketchVerify, check_matrices_shared curve lawful _ _ _ _ positive somePlayers fits small matrixDegrees,
    check_masks_shared curve lawful _ _ _ somePlayers fewDealers small maskDegrees]
  by_cases balanced : ∀ i < depth, ∀ j < count, ∀ k < size, (indexSum size matrices i j k).eval 0 = 1 + 1
  · rw [decide_eq_true balanced]
    rfl
  · rw [decide_eq_false balanced]
    rfl

noncomputable def rowSum (size : Nat) (matrices : Nat → Nat → Nat → Nat → (ZMod q)[X]) (i j k : Nat) : ZMod q :=
  ∑ l ∈ Finset.range size, (matrices i j k l).eval 0

noncomputable def columnSum (size : Nat) (matrices : Nat → Nat → Nat → Nat → (ZMod q)[X]) (i j k : Nat) : ZMod q :=
  ∑ l ∈ Finset.range size, (matrices i j l k).eval 0

def RowsAndColumnsOne : Prop := ∀ i < depth, ∀ j < count, ∀ k < size, rowSum size matrices i j k = 1 ∧ columnSum size matrices i j k = 1

def Balanced : Prop := ∀ i < depth, ∀ j < count, ∀ k < size, rowSum size matrices i j k + columnSum size matrices i j k = 1 + 1

theorem index_sum_at_zero : (indexSum size matrices i j k).eval 0 = rowSum size matrices i j k + columnSum size matrices i j k := by
  rw [indexSum, rowSum, columnSum, Polynomial.eval_finsetSum, ← Finset.sum_add_distrib]
  simp only [Polynomial.eval_add]

include lawful in
-- The check only sees the sum of a row and a column.
theorem sketch_decides_iff (positive : 0 < depth) (n dealers : Nat) (someDealers : 0 < dealers) (fits : dealers * dealers ≤ n) (small : n < q)
    (matrixDegrees : ∀ i < depth, ∀ j < count, ∀ k < size, ∀ l < size, (matrices i j k l).degree < (dealers * dealers : Nat))
    (maskDegrees : ∀ i < depth, ∀ j < width, (masks i j).degree < dealers) :
    (sketchRound curve depth count size width matrices masks n dealers = some true ↔ RowsAndColumnsOne depth count size matrices) ↔
      (Balanced depth count size matrices → RowsAndColumnsOne depth count size matrices) := by
  have accepts : sketchRound curve depth count size width matrices masks n dealers = some true ↔ Balanced depth count size matrices := by
    rw [sketch_round_eq curve lawful depth count size width matrices masks positive n dealers someDealers fits small matrixDegrees maskDegrees,
      Option.some.injEq, decide_eq_true_eq, Balanced]
    simp only [index_sum_at_zero]
  have balanced : RowsAndColumnsOne depth count size matrices → Balanced depth count size matrices := by
    intro wellFormed i isLevel j isMatrix k isIndex
    obtain ⟨row, column⟩ := wellFormed i isLevel j isMatrix k isIndex
    rw [row, column]
  rw [accepts]
  exact ⟨fun same => same.mp, fun wellFormed => ⟨wellFormed, balanced⟩⟩

end Rounds

end Shared

section Samples

def modThree : Curve (ZMod 3) (ZMod 3) where
  base := 1
  compress := fun point => [UInt8.ofNat point.val]
  decompress := fun bytes => some ((bytes.headD 0).toNat : ZMod 3)
  toBytes := fun scalar => [UInt8.ofNat scalar.val]
  fromBytesModOrder := fun bytes => ((bytes.headD 0).toNat : ZMod 3)

theorem mod_three_lawful : Lawful modThree := by
  constructor
  · intro point
    revert point
    decide
  · intro scalar
    revert scalar
    decide
  · intro scalar
    revert scalar
    decide

noncomputable def constantMatrix (entries : Nat → Nat → ZMod 3) : Nat → Nat → Nat → Nat → (ZMod 3)[X] := fun _ _ k l => C (entries k l)

theorem constant_degree (scalar : ZMod 3) : (C scalar).degree < 1 := Polynomial.degree_C_le.trans_lt (by decide)

theorem sketch_decides_identity :
    sketchRound modThree 1 1 2 1 (constantMatrix fun k l => if k = l then 1 else 0) (fun _ _ => C 1) 2 1 = some true ↔
      RowsAndColumnsOne 1 1 2 (constantMatrix fun k l => if k = l then 1 else 0) := by
  refine (sketch_decides_iff modThree mod_three_lawful 1 1 2 1 (constantMatrix fun k l => if k = l then 1 else 0) _ (by decide) 2 1 (by decide)
    (by decide) (by decide) (fun _ _ _ _ _ _ _ _ => constant_degree _) (fun _ _ _ _ => constant_degree _)).mpr fun _ i _ j _ k short => ?_
  interval_cases k
  · simp [rowSum, columnSum, constantMatrix, Finset.sum_range_succ]
  · simp [rowSum, columnSum, constantMatrix, Finset.sum_range_succ]

theorem sketch_accepts_unbalanced :
    sketchRound modThree 1 1 2 1 (constantMatrix fun k l => if k = 1 ∧ l = 0 then -1 else 1) (fun _ _ => C 1) 2 1 = some true ∧
      ¬ RowsAndColumnsOne 1 1 2 (constantMatrix fun k l => if k = 1 ∧ l = 0 then -1 else 1) := by
  constructor
  · rw [sketch_round_eq modThree mod_three_lawful 1 1 2 1 (constantMatrix fun k l => if k = 1 ∧ l = 0 then -1 else 1) _ (by decide) 2 1
      (by decide) (by decide) (by decide) (fun _ _ _ _ _ _ _ _ => constant_degree _) (fun _ _ _ _ => constant_degree _), Option.some.injEq,
      decide_eq_true_eq]
    intro i _ j _ k short
    rw [index_sum_at_zero]
    interval_cases k
    · simp [rowSum, columnSum, constantMatrix, Finset.sum_range_succ, one_add_one_eq_two]
    · simp [rowSum, columnSum, constantMatrix, Finset.sum_range_succ, one_add_one_eq_two]
  · intro wellFormed
    have row := (wellFormed 0 (by decide) 0 (by decide) 0 (by decide)).1
    have isTwo : rowSum 2 (constantMatrix fun k l => if k = 1 ∧ l = 0 then -1 else 1) 0 0 0 = 2 := by simp [rowSum, constantMatrix]
    rw [isTwo] at row
    exact absurd row (by decide)

end Samples

end Rpm

end Ceremony
