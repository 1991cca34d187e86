import CeremonyClient.Rpm.Shares

set_option autoImplicit false

namespace Ceremony

variable {depth i d dealers n t : Nat}

namespace Rpm

open GoSem Sharing OptionLoops Polynomial Rows

section Protocol

variable {F G : Type} [Field F] (curve : Curve F G)

def interpolatePolynomialShares (shares : List F) (ids : List Nat) : Option F :=
  (List.range ids.length).foldlM (fun reconstructedSum j => do
    return reconstructedSum + lagrangeCoeff ids j * (← shareAt shares ids j)) 0

-- Tables are converted element by element, with the bounds of the first entry of a given table.
def convertVectors {α β : Type} (convert : α → β) (shape table : List (List α)) : Option (List (List β)) := do
  let vector ← shape[0]?
  (List.range shape.length).mapM fun i => (List.range vector.length).mapM fun j => do return convert (← cell table i j)

def convertMatrices {α β : Type} (convert : α → β) (shape table : List (List (List (List α)))) : Option (List (List (List (List β)))) := do
  let level ← shape[0]?
  let matrix ← level[0]?
  let row ← matrix[0]?
  (List.range shape.length).mapM fun i => (List.range level.length).mapM fun j =>
    (List.range matrix.length).mapM fun k => (List.range row.length).mapM fun l => do return convert (← cell (← cell table i j) k l)

def rpmCollectR (rs : List (List (List F))) (size depth players : Nat) : Option (List (List F)) :=
  (List.range depth).mapM fun j => (List.range size).mapM fun k =>
    (List.range players).foldlM (fun sum i => do return sum + (← cell (← rs[i]?) j k)) 0

def rpmCollectM (ms : List (List (List (List (List F))))) (size depth players : Nat) : Option (List (List (List (List F)))) :=
  let k := Nat.sqrt size
  (List.range depth).mapM fun j => (List.range k).mapM fun l =>
    (List.range players).foldlM (fun m i => do
      let share ← cell (← ms[i]?) j l
      if i = 0 then return share else generateDotProduct m share) (List.replicate k (List.replicate k 0))

structure CombinedSharesAndMask where
  ms : List (List Matrix)
  rs : List Vector
  mrms : List (List Matrix)

def optButterfly (d : Nat) (rd : List F) : Option (List F) := if d = 0 then some rd else rpmButterfly rd

def maskProducts (k depth : Nat) (r : List (List F)) (m : List (List (List (List F)))) : Option (List (List (List (List F)))) :=
  (List.range depth).mapM fun d => do
    let turned ← optButterfly d (← r[d]?)
    (List.range k).mapM fun i => do
      generateDotProduct [← sliceAt turned (i * k) ((i + 1) * k)] (← cell m d i)

-- The shares come from the dealers, for one player.
def rpmCombineSharesAndMask (ms : List (List (List Matrix))) (rs : List (List Vector)) (size depth dealers : Nat) :
    Option CombinedSharesAndMask := do
  let firstMs ← ms[0]?
  let firstRs ← rs[0]?
  let rss ← (List.range rs.length).mapM fun i => do convertVectors curve.fromBytesModOrder firstRs (← rs[i]?)
  let mss ← (List.range ms.length).mapM fun i => do convertMatrices curve.fromBytesModOrder firstMs (← ms[i]?)
  let r ← rpmCollectR rss size depth dealers
  let m ← rpmCollectM mss size depth dealers
  let mrm ← maskProducts (Nat.sqrt size) depth r m
  let rb ← convertVectors curve.toBytes r r
  let mb ← convertMatrices curve.toBytes m m
  let mrmb ← convertMatrices curve.toBytes mrm mrm
  return ⟨mb, rb, mrmb⟩

def interpolateVectors (shares : List Vector) (parties : List Nat) : Option (List F) := do
  let first ← shares[0]?
  (List.range first.length).mapM fun j => do
    let r ← (List.range shares.length).mapM fun k => do return curve.fromBytesModOrder (← cell shares k j)
    interpolatePolynomialShares r parties

def permuteBlock (bigR : List F) (m mrm : List (List (List (List F)))) (r : List (List F)) (k depthIndex i : Nat) : Option (List (List F)) := do
  let product ← generateDotProduct [← sliceAt bigR (i * k) ((i + 1) * k)] (← cell m depthIndex i)
  let out ← subtractMatrices product (← cell mrm depthIndex i)
  if depthIndex + 1 ≠ r.length then
    addMatrices out [← sliceAt (← r[depthIndex + 1]?) (i * k) ((i + 1) * k)]
  else return out

def rpmPermute (maskedInputShares : List Vector) (mb : List (List Matrix)) (rb : List Vector) (mrmb : List (List Matrix)) (depthIndex : Nat)
    (parties : List Nat) : Option (List Vector) := do
  let width ← (rb[0]?).map List.length
  let bigR ← interpolateVectors curve maskedInputShares parties
  let m ← convertMatrices curve.fromBytesModOrder mb mb
  let r ← convertVectors curve.fromBytesModOrder rb rb
  let mrm ← convertMatrices curve.fromBytesModOrder mrmb mrmb
  let k ← (r[0]?).map fun first => Nat.sqrt first.length
  let filled ← (List.range k).foldlM (fun y i => do
    let out ← permuteBlock bigR m mrm r k depthIndex i
    (List.range k).foldlM (fun y j => do setAt y (i * k + j) (← cell out 0 j)) y) (List.replicate width 0)
  let y ← rpmButterfly filled
  let yb ← (List.range width).mapM fun i => do return curve.toBytes (← y[i]?)
  return [yb]

def rpmFinalize (input : List Vector) (parties : List Nat) : Option Vector := do
  return (← interpolateVectors curve input parties).map curve.toBytes

-- A run: the dealers deal, every player combines its shares, the masked inputs go through all depths, and the end is opened.
def combineFor (initial : List InitialShares) (size depth dealers p : Nat) : Option CombinedSharesAndMask := do
  let ms ← initial.mapM fun shares => (List.range depth).mapM fun j => (List.range (Nat.sqrt size)).mapM fun l => do
    (← cell shares.ms j l)[p]?
  let rs ← initial.mapM fun shares => (List.range depth).mapM fun j => cell shares.rs j p
  rpmCombineSharesAndMask curve ms rs size depth dealers

def maskInput (x : List F) (draw : Nat → Nat → F) (combined : CombinedSharesAndMask) (size dealers players p : Nat) : Option Vector :=
  (List.range size).mapM fun i => do
    let frags ← genPolyFrags curve (← x[i]?) (draw i) players dealers
    return curve.toBytes (curve.fromBytesModOrder (← frags[p]?) + curve.fromBytesModOrder (← cell combined.rs 0 i))

def permuteRound (combined : List CombinedSharesAndMask) (players : Nat) (masked : List Vector) (depthIndex : Nat) : Option (List Vector) :=
  combined.mapM fun own => do
    let out ← rpmPermute curve masked own.ms own.rs own.mrms depthIndex (List.range' 1 players)
    out[0]?

def shuffle (draws : Nat → Draws F) (x : List F) (inputDraw : Nat → Nat → F) (size depth dealers players : Nat) : Option Vector := do
  let initial ← (List.range dealers).mapM fun d => rpmGenerateInitialShares curve (draws d) size depth dealers players
  let combined ← (List.range players).mapM fun p => combineFor curve initial size depth dealers p
  let masked ← (List.range players).mapM fun p => do maskInput curve x inputDraw (← combined[p]?) size dealers players p
  let permuted ← (List.range depth).foldlM (permuteRound curve combined players) masked
  rpmFinalize curve permuted (List.range' 1 players)

end Protocol

section Tables

variable {α β : Type} {c m n k : Nat}

def levels (depth : Nat) (A : Nat → Fin c → Grid m n α) : List (List (List (List α))) :=
  tabulate depth fun i => List.ofFn fun j => rows (A i j)

def vectors (depth : Nat) (V : Nat → Grid k k α) : List (List α) := tabulate depth fun i => flat (V i)

theorem cell_levels (A : Nat → Fin c → Grid m n α) (isLevel : i < depth) (j : Fin c) : cell (levels depth A) i j = some (rows (A i j)) := by
  rw [cell, levels, tabulate_get isLevel, Option.bind_eq_bind, Option.bind_some, of_fn_get]

theorem cell_vectors (V : Nat → Grid k k α) (isVector : d < depth) (i j : Fin k) :
    cell (vectors depth V) d (i.val * k + j.val) = some (V d i j) := by
  rw [cell, vectors, tabulate_get isVector, Option.bind_eq_bind, Option.bind_some, flat_get]

theorem convert_matrices_levels {convert : α → β} {A B : Nat → Fin c → Grid m n α} (someLevels : 0 < depth) (someMatrices : 0 < c)
    (someRows : 0 < m) :
    convertMatrices convert (levels depth A) (levels depth B) = some (levels depth fun i j => (B i j).map convert) := by
  have level : (levels depth A)[0]? = some (List.ofFn fun j => rows (A 0 j)) := tabulate_get someLevels
  have matrix : (List.ofFn fun j => rows (A 0 j))[0]? = some (rows (A 0 ⟨0, someMatrices⟩)) := of_fn_get _ ⟨0, someMatrices⟩
  have row : (rows (A 0 ⟨0, someMatrices⟩))[0]? = some (List.ofFn (A 0 ⟨0, someMatrices⟩ ⟨0, someRows⟩)) := rows_get _ ⟨0, someRows⟩
  have count : (levels depth A).length = depth := length_tabulate
  simp only [convertMatrices, level, matrix, row, count, Option.bind_eq_bind, Option.bind_some, List.length_ofFn, length_rows]
  refine map_m_range depth _ _ fun i isLevel => map_m_fin fun j => map_m_rows _ _ fun x y => ?_
  rw [cell_levels B isLevel j, Option.bind_some, cell_rows]
  rfl

theorem convert_vectors_eq {convert : α → β} {V W : Nat → Grid k k α} (someLevels : 0 < depth) :
    convertVectors convert (vectors depth V) (vectors depth W) = some (vectors depth fun i => (W i).map convert) := by
  have first : (vectors depth V)[0]? = some (flat (V 0)) := tabulate_get someLevels
  have count : (vectors depth V).length = depth := length_tabulate
  rw [convertVectors, first, count, Option.bind_eq_bind, Option.bind_some, length_flat]
  refine map_m_range depth _ _ fun d isVector => map_m_flat fun i j => ?_
  rw [cell_vectors W isVector i j]
  rfl

end Tables

section Combining

variable {F : Type} [Field F] {k : Nat}

theorem collect_r_eq {V : Nat → Nat → Grid k k F} :
    rpmCollectR (tabulate dealers fun d => vectors depth (V d)) (k * k) depth dealers =
      some (vectors depth fun i => ∑ d ∈ Finset.range dealers, V d i) := by
  refine map_m_range depth _ _ fun e isVector => map_m_flat fun i j => ?_
  rw [fold_sum_range (fun d => V d e i j), zero_add]
  · exact congrArg some (Matrix.sum_apply i j _ fun d => V d e).symm
  · intro d isDealer sum
    rw [tabulate_get isDealer, Option.bind_eq_bind, Option.bind_some, cell_vectors (V d) isVector i j]
    rfl

theorem product_loop {A : Nat → Grid k k F} {start : List (List F)} (someRows : 0 < k) (fewRows : k ≤ 100)
    {body : List (List F) → Nat → Option (List (List F))}
    (each : ∀ d < dealers, ∀ m, body m d = if d = 0 then some (rows (A d)) else generateDotProduct m (rows (A d)))
    (someDealers : 0 < dealers) : (List.range dealers).foldlM body start = some (rows ((List.range dealers).map A).prod) := by
  induction dealers with
  | zero => exact absurd someDealers (lt_irrefl 0)
  | succ d ih =>
      rw [List.range_succ, List.foldlM_append, List.map_append, List.prod_append]
      cases d with
      | zero => simp [each]
      | succ d =>
          rw [ih (fun e isDealer => each e (by omega)) (by omega), Option.bind_eq_bind, Option.bind_some, List.foldlM_cons, each _ (by omega),
            if_neg (by omega), dot_product_rows someRows fewRows someRows]
          simp

theorem collect_m_eq {A : Nat → Nat → Fin k → Grid k k F} (someRows : 0 < k) (fewRows : k ≤ 100) (someDealers : 0 < dealers) :
    rpmCollectM (tabulate dealers fun d => levels depth (A d)) (k * k) depth dealers =
      some (levels depth fun i j => ((List.range dealers).map fun d => A d i j).prod) := by
  rw [rpmCollectM, Nat.sqrt_eq]
  refine map_m_range depth _ _ fun i isLevel => map_m_fin fun j => ?_
  refine product_loop someRows fewRows (fun d isDealer m => ?_) someDealers
  rw [tabulate_get isDealer, Option.bind_eq_bind, Option.bind_some, cell_levels (A d) isLevel j]
  rfl

def blockRow {R : Type} (V : Grid k k R) (i : Fin k) : Grid 1 k R := Matrix.of fun _ => V i

omit [Field F] in
theorem rows_block {V : Grid k k F} {i : Fin k} : rows (blockRow V i) = [List.ofFn (V i)] := by
  rw [rows, List.ofFn_succ, List.ofFn_zero]
  rfl

-- The masks of all depths but the first are turned by the butterfly before they meet the matrices.
def turned {R : Type} (d : Nat) (V : Grid k k R) : Grid k k R := if d = 0 then V else V.transpose

theorem opt_butterfly_flat {V : Grid k k F} : optButterfly d (flat V) = some (flat (turned d V)) := by
  rw [optButterfly, turned]
  by_cases first : d = 0
  · rw [if_pos first, if_pos first]
  · rw [if_neg first, if_neg first, butterfly_flat]

theorem mask_products_eq {R : Nat → Grid k k F} {M : Nat → Fin k → Grid k k F} (someRows : 0 < k) :
    maskProducts k depth (vectors depth R) (levels depth M) = some (levels depth fun d i => blockRow (turned d (R d)) i * M d i) := by
  refine map_m_range depth _ _ fun d isLevel => ?_
  have read : (vectors depth R)[d]? = some (flat (R d)) := tabulate_get isLevel
  rw [read, Option.bind_eq_bind, Option.bind_some, opt_butterfly_flat, Option.bind_some]
  refine map_m_fin fun i => ?_
  rw [slice_flat, Option.bind_eq_bind, Option.bind_some, cell_levels M isLevel i, Option.bind_eq_bind, Option.bind_some, ← rows_block,
    dot_product_rows Nat.one_pos (by omega) someRows]

def following {R : Type} [Zero R] (depth d : Nat) (V : Nat → Grid k k R) : Grid k k R := if d + 1 ≠ depth then V (d + 1) else 0

def permutedBlock {R : Type} [CommRing R] (W : Grid k k R) (A : Fin k → Grid k k R) (B : Fin k → Grid 1 k R) (next : Grid k k R) (i : Fin k) :
    Grid 1 k R :=
  blockRow W i * A i - B i + blockRow next i

def permutedBlocks {R : Type} [CommRing R] (W : Grid k k R) (A : Fin k → Grid k k R) (B : Fin k → Grid 1 k R) (next : Grid k k R) : Grid k k R :=
  Matrix.of fun i j => permutedBlock W A B next i 0 j

theorem permute_block_eq (W : Grid k k F) (A : Nat → Fin k → Grid k k F) (B : Nat → Fin k → Grid 1 k F) (V : Nat → Grid k k F)
    (isLevel : d < depth) (i : Fin k) (someRows : 0 < k) :
    permuteBlock (flat W) (levels depth A) (levels depth B) (vectors depth V) k d i =
      some (rows (permutedBlock W (A d) (B d) (following depth d V) i)) := by
  have count : (vectors depth V).length = depth := length_tabulate
  simp only [permuteBlock, slice_flat, cell_levels A isLevel i, cell_levels B isLevel i, Option.bind_eq_bind, Option.bind_some, count]
  rw [← rows_block, dot_product_rows Nat.one_pos (by omega) someRows, Option.bind_some, subtract_matrices_rows Nat.one_pos, Option.bind_some,
    permutedBlock, following]
  by_cases more : d + 1 ≠ depth
  · have read : (vectors depth V)[d + 1]? = some (flat (V (d + 1))) := tabulate_get (by omega)
    rw [if_pos more, if_pos more, read, Option.bind_some, slice_flat, Option.bind_some, ← rows_block, add_matrices_rows Nat.one_pos]
  · rw [if_neg more, if_neg more]
    refine congrArg (fun last : Grid 1 k F => some (rows last)) (Eq.symm ?_)
    exact add_zero _

theorem permute_blocks_eq (depth : Nat) (W : Grid k k F) (A : Nat → Fin k → Grid k k F) (B : Nat → Fin k → Grid 1 k F) (V : Nat → Grid k k F)
    (d : Nat) (isLevel : d < depth) (someRows : 0 < k) (start : List F) (long : start.length = k * k) :
    ((List.range k).foldlM (fun y i => do
      let out ← permuteBlock (flat W) (levels depth A) (levels depth B) (vectors depth V) k d i
      (List.range k).foldlM (fun y j => do setAt y (i * k + j) (← cell out 0 j)) y) start) =
      some (flat (permutedBlocks W (A d) (B d) (following depth d V))) := by
  refine fold_blocks long fun i y wide => ?_
  rw [permute_block_eq W A B V isLevel i someRows, Option.bind_eq_bind, Option.bind_some]
  let block := permutedBlock W (A d) (B d) (following depth d V) i
  have read (j : Nat) (short : j < k) : cell (rows block) 0 j = some (block 0 ⟨j, short⟩) := cell_rows block 0 ⟨j, short⟩
  obtain ⟨out, done, sameLength, written, kept⟩ := fold_set_range k (fun y j => do setAt y (i.val * k + j) (← cell (rows block) 0 j))
    (fun j => i.val * k + j) (fun j => (cell (rows block) 0 j).getD 0) y
    (fun j short => by rw [wide]; exact block_lt i ⟨j, short⟩) (fun j _ j' _ same => by omega)
    (fun j short y => by rw [read j short]; rfl)
  refine ⟨out, done, sameLength.trans wide, fun j => ?_, fun t before => kept t fun j _ => by omega⟩
  rw [written j.val j.isLt, read j.val j.isLt]
  rfl

end Combining

section Shares

variable {F G : Type} [Field F] (curve : Curve F G) {k : Nat}

-- The polynomials that share the combined matrices, the combined masks and their products.
noncomputable def combinedMatrix (dealers : Nat) (P : Nat → Nat → Fin k → Grid k k F[X]) (i : Nat) (j : Fin k) : Grid k k F[X] :=
  ((List.range dealers).map fun d => P d i j).prod

noncomputable def combinedMask (dealers : Nat) (Q : Nat → Nat → Grid k k F[X]) (i : Nat) : Grid k k F[X] := ∑ d ∈ Finset.range dealers, Q d i

noncomputable def maskProduct (dealers : Nat) (P : Nat → Nat → Fin k → Grid k k F[X]) (Q : Nat → Nat → Grid k k F[X]) (i : Nat) (j : Fin k) :
    Grid 1 k F[X] :=
  blockRow (turned i (combinedMask dealers Q i)) j * combinedMatrix dealers P i j

noncomputable def combinedShares (dealers depth : Nat) (P : Nat → Nat → Fin k → Grid k k F[X]) (Q : Nat → Nat → Grid k k F[X]) (player : Nat) :
    CombinedSharesAndMask :=
  ⟨tabulate depth fun i => List.ofFn fun j => shareRows curve (combinedMatrix dealers P i j) player,
    tabulate depth fun i => shareVector curve (combinedMask dealers Q i) player,
    tabulate depth fun i => List.ofFn fun j => shareRows curve (maskProduct dealers P Q i j) player⟩

variable {x : F}

theorem eval_product {m n p : Nat} {A : Grid m n F[X]} {B : Grid n p F[X]} :
    (A * B).map (fun f => f.eval x) = A.map (fun f => f.eval x) * B.map (fun f => f.eval x) :=
  Matrix.map_mul (f := Polynomial.evalRingHom x)

variable {P : Nat → Nat → Fin k → Grid k k F[X]}

theorem eval_combined_matrix {j : Fin k} :
    (combinedMatrix dealers P i j).map (fun f => f.eval x) = ((List.range dealers).map fun d => (P d i j).map fun f => f.eval x).prod := by
  refine (map_list_prod (Polynomial.evalRingHom x).mapMatrix _).trans ?_
  rw [List.map_map]
  rfl

variable {Q : Nat → Nat → Grid k k F[X]}

theorem eval_combined_mask :
    (combinedMask dealers Q i).map (fun f => f.eval x) = ∑ d ∈ Finset.range dealers, (Q d i).map fun f => f.eval x :=
  map_sum (Polynomial.evalRingHom x).mapMatrix _ _

theorem eval_turned {V : Grid k k F[X]} : (turned d V).map (fun f => f.eval x) = turned d (V.map fun f => f.eval x) := by
  rw [turned, turned]
  split
  · rfl
  · rfl

theorem eval_mask_product {j : Fin k} :
    (maskProduct dealers P Q i j).map (fun f => f.eval x) =
      blockRow (turned i ((combinedMask dealers Q i).map fun f => f.eval x)) j * (combinedMatrix dealers P i j).map fun f => f.eval x := by
  rw [maskProduct, eval_product, ← eval_turned]
  rfl

variable (fromTo : ∀ scalar, curve.fromBytesModOrder (curve.toBytes scalar) = scalar)

include fromTo in
theorem decode_encode {m n : Nat} {A : Grid m n F[X]} :
    (A.map fun f => curve.toBytes (f.eval x)).map curve.fromBytesModOrder = A.map fun f => f.eval x := by
  rw [Matrix.map_map]
  exact congrArg A.map (funext fun f => fromTo (f.eval x))

theorem encode_eval {m n : Nat} {A : Grid m n F[X]} :
    (A.map fun f => f.eval x).map curve.toBytes = A.map fun f => curve.toBytes (f.eval x) := by
  rw [Matrix.map_map]
  rfl

include fromTo in
theorem combine_shares_eq {player : Nat} (someRows : 0 < k)
    (fewRows : k ≤ 100) (someLevels : 0 < depth) (someDealers : 0 < dealers) :
    rpmCombineSharesAndMask curve (tabulate dealers fun d => tabulate depth fun i => List.ofFn fun j => shareRows curve (P d i j) player)
      (tabulate dealers fun d => tabulate depth fun i => shareVector curve (Q d i) player) (k * k) depth dealers =
      some (combinedShares curve dealers depth P Q player) := by
  let x : F := (player : F)
  have decodedMasks : ((List.range dealers).mapM fun d => do
      convertVectors curve.fromBytesModOrder (vectors depth fun i => (Q 0 i).map fun f => curve.toBytes (f.eval x))
        (← (tabulate dealers fun d => vectors depth fun i => (Q d i).map fun f => curve.toBytes (f.eval x))[d]?)) =
      some (tabulate dealers fun d => vectors depth fun i => (Q d i).map fun f => f.eval x) := by
    refine map_m_range dealers _ _ fun d isDealer => ?_
    rw [tabulate_get isDealer, Option.bind_eq_bind, Option.bind_some, convert_vectors_eq someLevels]
    simp only [decode_encode curve fromTo]
  have decodedMatrices : ((List.range dealers).mapM fun d => do
      convertMatrices curve.fromBytesModOrder (levels depth fun i j => (P 0 i j).map fun f => curve.toBytes (f.eval x))
        (← (tabulate dealers fun d => levels depth fun i j => (P d i j).map fun f => curve.toBytes (f.eval x))[d]?)) =
      some (tabulate dealers fun d => levels depth fun i j => (P d i j).map fun f => f.eval x) := by
    refine map_m_range dealers _ _ fun d isDealer => ?_
    rw [tabulate_get isDealer, Option.bind_eq_bind, Option.bind_some, convert_matrices_levels someLevels someRows someRows]
    simp only [decode_encode curve fromTo]
  change rpmCombineSharesAndMask curve (tabulate dealers fun d => levels depth fun i j => (P d i j).map fun f => curve.toBytes (f.eval x))
    (tabulate dealers fun d => vectors depth fun i => (Q d i).map fun f => curve.toBytes (f.eval x)) (k * k) depth dealers = _
  rw [rpmCombineSharesAndMask, tabulate_get someDealers, tabulate_get someDealers, length_tabulate, length_tabulate]
  simp only [Option.bind_eq_bind, Option.bind_some] at decodedMasks decodedMatrices ⊢
  rw [decodedMasks, Option.bind_some, decodedMatrices, Option.bind_some, collect_r_eq, Option.bind_some,
    collect_m_eq someRows fewRows someDealers, Option.bind_some, Nat.sqrt_eq, mask_products_eq someRows, Option.bind_some,
    convert_vectors_eq someLevels, Option.bind_some, convert_matrices_levels someLevels someRows someRows, Option.bind_some,
    convert_matrices_levels someLevels someRows Nat.one_pos, Option.bind_some]
  simp only [← eval_combined_matrix, ← eval_combined_mask, ← eval_mask_product, encode_eval]
  rfl

end Shares

section Rounds

variable {q : Nat} [Fact q.Prime] {G : Type} (curve : Curve (ZMod q) G) {k : Nat}

theorem interpolate_shares {ids : List Nat} (players : Players q n ids) {f : (ZMod q)[X]} (degree : f.degree < ids.length) :
    interpolatePolynomialShares (tabulate n fun p => f.eval ((p + 1 : Nat) : ZMod q)) ids = some (f.eval 0) := by
  rw [interpolatePolynomialShares, fold_sum_range fun j => lagrangeCoeff ids j * f.eval (ids.getD j 0 : ZMod q)]
  · rw [zero_add, interpolate_at_zero players degree]
  · intro j short sum
    rw [share_at_tabulate players (fun p => f.eval (p : ZMod q)) short]
    rfl

omit [Fact q.Prime] in
theorem all_players (small : n < q) : Players q n (List.range' 1 n) := by
  refine ⟨List.nodup_range', fun id isId => ?_, fun id isId => ?_, small⟩
  · have := List.mem_range'_1.mp isId
    omega
  · have := List.mem_range'_1.mp isId
    omega

variable (fromTo : ∀ scalar, curve.fromBytesModOrder (curve.toBytes scalar) = scalar)

variable {Y : Grid k k (ZMod q)[X]}

include fromTo in
theorem interpolate_vectors_eq (somePlayers : 0 < n) (small : n < q) (degrees : ∀ i j, (Y i j).degree < n) :
    interpolateVectors curve (tabulate n fun p => shareVector curve Y (p + 1)) (List.range' 1 n) = some (flat (Y.map fun f => f.eval 0)) := by
  have width : (shareVector curve Y (0 + 1)).length = k * k := length_flat
  rw [interpolateVectors, tabulate_get somePlayers, Option.bind_eq_bind, Option.bind_some, width, length_tabulate]
  refine map_m_flat fun i j => ?_
  have column : ((List.range n).mapM fun p => do
      return curve.fromBytesModOrder (← cell (tabulate n fun p => shareVector curve Y (p + 1)) p (i.val * k + j.val))) =
      some (tabulate n fun p => (Y i j).eval ((p + 1 : Nat) : ZMod q)) := by
    refine map_m_range n _ _ fun p isPlayer => ?_
    have read : cell (tabulate n fun p => shareVector curve Y (p + 1)) p (i.val * k + j.val) = some (curve.toBytes ((Y i j).eval ((p + 1 : Nat) : ZMod q))) :=
      cell_vectors (fun p => Y.map fun f => curve.toBytes (f.eval ((p + 1 : Nat) : ZMod q))) isPlayer i j
    rw [read]
    exact congrArg some (fromTo _)
  rw [column, Option.bind_eq_bind, Option.bind_some, interpolate_shares (all_players small) (by rw [List.length_range']; exact degrees i j)]
  rfl

noncomputable def nextShares (dealers depth : Nat) (P : Nat → Nat → Fin k → Grid k k (ZMod q)[X]) (Q : Nat → Nat → Grid k k (ZMod q)[X])
    (Y : Grid k k (ZMod q)[X]) (d : Nat) : Grid k k (ZMod q)[X] :=
  (permutedBlocks (Y.map fun f => C (f.eval 0)) (combinedMatrix dealers P d) (maskProduct dealers P Q d)
    (following depth d (combinedMask dealers Q))).transpose

theorem eval_permuted_blocks {R S : Type} [CommRing R] [CommRing S] (φ : R →+* S) {W : Grid k k R} {A : Fin k → Grid k k R}
    {B : Fin k → Grid 1 k R} {next : Grid k k R} :
    (permutedBlocks W A B next).map φ = permutedBlocks (W.map φ) (fun i => (A i).map φ) (fun i => (B i).map φ) (next.map φ) := by
  ext i j
  simp only [permutedBlocks, permutedBlock, Matrix.map_apply, Matrix.of_apply, Matrix.add_apply, Matrix.sub_apply, map_add, map_sub]
  have product : φ ((blockRow W i * A i) 0 j) = (blockRow (W.map φ) i * (A i).map φ) 0 j :=
    congrFun (congrFun (Matrix.map_mul (f := φ) (L := blockRow W i) (M := A i)) 0) j
  rw [product]
  rfl

theorem eval_following {x : ZMod q} {V : Nat → Grid k k (ZMod q)[X]} :
    (following depth d V).map (fun f => f.eval x) = following depth d fun i => (V i).map fun f => f.eval x := by
  rw [following, following]
  split
  · rfl
  · exact Matrix.map_zero _ Polynomial.eval_zero

theorem eval_next_shares {x : ZMod q} {P : Nat → Nat → Fin k → Grid k k (ZMod q)[X]} {Q : Nat → Nat → Grid k k (ZMod q)[X]}
    :
    (nextShares dealers depth P Q Y d).map (fun f => f.eval x) =
      (permutedBlocks (Y.map fun f => f.eval 0) (fun i => (combinedMatrix dealers P d i).map fun f => f.eval x)
        (fun i => (maskProduct dealers P Q d i).map fun f => f.eval x)
        (following depth d fun i => (combinedMask dealers Q i).map fun f => f.eval x)).transpose := by
  rw [nextShares, Matrix.transpose_map]
  refine congrArg Matrix.transpose ((eval_permuted_blocks (Polynomial.evalRingHom x)).trans ?_)
  rw [← eval_following, Matrix.map_map]
  have constant : (⇑(evalRingHom x) ∘ fun f : (ZMod q)[X] => C (f.eval 0)) = fun f => f.eval 0 := by
    funext f
    simp
  rw [constant]
  rfl

include fromTo in
theorem permute_shares (dealers : Nat) (P : Nat → Nat → Fin k → Grid k k (ZMod q)[X]) (Q : Nat → Nat → Grid k k (ZMod q)[X])
    (player : Nat) (someRows : 0 < k) (somePlayers : 0 < n) (small : n < q) (isLevel : d < depth)
    (degrees : ∀ i j, (Y i j).degree < n) :
    rpmPermute curve (tabulate n fun p => shareVector curve Y (p + 1)) (combinedShares curve dealers depth P Q player).ms
      (combinedShares curve dealers depth P Q player).rs (combinedShares curve dealers depth P Q player).mrms d (List.range' 1 n) =
      some [shareVector curve (nextShares dealers depth P Q Y d) player] := by
  let x : ZMod q := (player : ZMod q)
  have someLevels : 0 < depth := Nat.zero_lt_of_lt isLevel
  have masks : (combinedShares curve dealers depth P Q player).rs =
    vectors depth fun i => (combinedMask dealers Q i).map fun f => curve.toBytes (f.eval x) := rfl
  have matrices : (combinedShares curve dealers depth P Q player).ms =
    levels depth fun i j => (combinedMatrix dealers P i j).map fun f => curve.toBytes (f.eval x) := rfl
  have products : (combinedShares curve dealers depth P Q player).mrms =
    levels depth fun i j => (maskProduct dealers P Q i j).map fun f => curve.toBytes (f.eval x) := rfl
  have head {α : Type} (V : Nat → Grid k k α) : (vectors depth V)[0]? = some (flat (V 0)) := tabulate_get someLevels
  rw [rpmPermute, masks, matrices, products, interpolate_vectors_eq curve fromTo somePlayers small degrees,
    convert_matrices_levels someLevels someRows someRows, convert_vectors_eq someLevels,
    convert_matrices_levels someLevels someRows Nat.one_pos]
  simp only [decode_encode curve fromTo, head, Option.bind_eq_bind, Option.bind_some, Option.map_some, length_flat, Nat.sqrt_eq]
  have blocks := permute_blocks_eq depth (Y.map fun f => f.eval 0) (fun i j => (combinedMatrix dealers P i j).map fun f => f.eval x)
    (fun i j => (maskProduct dealers P Q i j).map fun f => f.eval x) (fun i => (combinedMask dealers Q i).map fun f => f.eval x) d isLevel someRows
    (List.replicate (k * k) 0) List.length_replicate
  simp only [Option.bind_eq_bind] at blocks
  rw [blocks, Option.bind_some, butterfly_flat, Option.bind_some, ← eval_next_shares, map_m_flat]
  · rfl
  · intro i j
    rw [flat_get]
    rfl

section Degrees

variable {m n p : Nat}

theorem product_degree {A : Grid m n (ZMod q)[X]} {B : Grid n p (ZMod q)[X]} {a b : Nat} (first : ∀ i j, (A i j).natDegree ≤ a)
    (second : ∀ i j, (B i j).natDegree ≤ b) {i : Fin m} {j : Fin p} : ((A * B) i j).natDegree ≤ a + b := by
  rw [Matrix.mul_apply]
  exact Polynomial.natDegree_sum_le_of_forall_le _ _ fun l _ => Polynomial.natDegree_mul_le_of_le (first i l) (second l j)

variable {P : Nat → Nat → Fin k → Grid k k (ZMod q)[X]}

theorem combined_matrix_degree {sub : Fin k}
    (each : ∀ e < dealers, ∀ i j, (P e d sub i j).natDegree ≤ t) {i j : Fin k} :
    (combinedMatrix dealers P d sub i j).natDegree ≤ dealers * t := by
  rw [combinedMatrix]
  induction dealers generalizing i j with
  | zero =>
      simp only [List.range_zero, List.map_nil, List.prod_nil, Matrix.one_apply]
      split
      · simp
      · simp
  | succ e ih =>
      rw [List.range_succ, List.map_append, List.prod_append, List.map_cons, List.map_nil, List.prod_singleton, Nat.succ_mul]
      exact product_degree (fun i j => ih (fun e isDealer => each e (by omega))) (each e (by omega))

theorem combined_mask_degree (dealers t : Nat) (Q : Nat → Nat → Grid k k (ZMod q)[X]) (d : Nat)
    (each : ∀ e < dealers, ∀ i j, (Q e d i j).natDegree ≤ t) (i j : Fin k) : (combinedMask dealers Q d i j).natDegree ≤ t := by
  rw [combinedMask, Matrix.sum_apply]
  exact Polynomial.natDegree_sum_le_of_forall_le _ _ fun e isDealer => each e (Finset.mem_range.mp isDealer) i j

theorem turned_degree {V : Grid k k (ZMod q)[X]} (each : ∀ i j, (V i j).natDegree ≤ t) {i j : Fin k} : (turned d V i j).natDegree ≤ t := by
  rw [turned]
  split
  · exact each i j
  · exact each j i

theorem next_shares_degree {Q : Nat → Nat → Grid k k (ZMod q)[X]} {Y : Grid k k (ZMod q)[X]}
    (isLevel : d < depth) (someDealers : 0 < dealers)
    (matrices : ∀ e < dealers, ∀ d < depth, ∀ sub i j, (P e d sub i j).natDegree ≤ dealers - 1)
    (masks : ∀ e < dealers, ∀ d < depth, ∀ i j, (Q e d i j).natDegree ≤ dealers - 1) (i j : Fin k) :
    (nextShares dealers depth P Q Y d i j).natDegree < dealers * dealers := by
  have square : dealers - 1 + dealers * (dealers - 1) < dealers * dealers := by
    obtain ⟨e, isNext⟩ := Nat.exists_eq_succ_of_ne_zero someDealers.ne'
    rw [isNext, Nat.succ_sub_one, Nat.succ_mul, Nat.mul_succ, Nat.succ_mul]
    omega
  have matrix (sub x y : Fin k) : (combinedMatrix dealers P d sub x y).natDegree ≤ dealers * (dealers - 1) :=
    combined_matrix_degree (fun e isDealer => matrices e isDealer d isLevel sub)
  have mask (e : Nat) (isDepth : e < depth) (x y : Fin k) : (combinedMask dealers Q e x y).natDegree ≤ dealers - 1 :=
    combined_mask_degree dealers (dealers - 1) Q e (fun c isDealer => masks c isDealer e isDepth) x y
  have opened : ((blockRow (Y.map fun f => C (f.eval 0)) j * combinedMatrix dealers P d j) 0 i).natDegree ≤ 0 + dealers * (dealers - 1) :=
    product_degree (fun _ y => (Polynomial.natDegree_C _).le) (matrix j)
  have masked : (maskProduct dealers P Q d j 0 i).natDegree ≤ dealers - 1 + dealers * (dealers - 1) :=
    product_degree (fun _ y => turned_degree (mask d isLevel)) (matrix j)
  have added : (following depth d (combinedMask dealers Q) j i).natDegree ≤ dealers - 1 := by
    rw [following]
    split
    · exact mask (d + 1) (by omega) j i
    · exact (Polynomial.natDegree_zero).le.trans (Nat.zero_le _)
  have total : (nextShares dealers depth P Q Y d i j).natDegree ≤ dealers - 1 + dealers * (dealers - 1) := by
    refine Polynomial.natDegree_add_le_of_degree_le (Polynomial.natDegree_sub_le_of_le ?_ masked |>.trans (max_self _).le) (added.trans (by omega))
    exact opened.trans (by omega)
  exact total.trans_lt square

end Degrees

theorem product_of_permutations (order : List (Equiv.Perm (Fin k))) :
    ∃ τ : Equiv.Perm (Fin k), (order.map fun σ => σ.permMatrix (ZMod q)).prod = τ.permMatrix (ZMod q) := by
  induction order with
  | nil => exact ⟨1, (Matrix.permMatrix_one).symm⟩
  | cons σ order ih =>
      obtain ⟨τ, product⟩ := ih
      exact ⟨τ * σ, by rw [List.map_cons, List.prod_cons, product, Matrix.permMatrix_mul]⟩

def movedBlocks (V : Grid k k (ZMod q)) (τ : Fin k → Equiv.Perm (Fin k)) : Grid k k (ZMod q) := Matrix.of fun i j => V j ((τ j).symm i)

omit [Fact q.Prime] in
theorem moved_blocks_perm {V : Grid k k (ZMod q)} {τ : Fin k → Equiv.Perm (Fin k)} : (flat (movedBlocks V τ)).Perm (flat V) := by
  let move : Equiv.Perm (Fin k × Fin k) :=
    ⟨fun place => (place.2, (τ place.2).symm place.1), fun place => (τ place.1 place.2, place.1), fun place => by simp, fun place => by simp⟩
  exact flat_perm V move

theorem permuted_blocks_unmasked {V T next : Grid k k (ZMod q)} {τ : Fin k → Equiv.Perm (Fin k)} :
    (permutedBlocks (V + T) (fun i => (τ i).permMatrix (ZMod q)) (fun i => blockRow T i * (τ i).permMatrix (ZMod q)) next).transpose =
      movedBlocks V τ + next.transpose := by
  ext i j
  have split : blockRow (V + T) j = blockRow V j + blockRow T j := rfl
  have row : (blockRow V j * (τ j).permMatrix (ZMod q)) 0 i = V j ((τ j).symm i) :=
    congrFun (Matrix.vecMul_permMatrix (v := V j) (σ := τ j)) i
  have block : permutedBlock (V + T) (fun i => (τ i).permMatrix (ZMod q)) (fun i => blockRow T i * (τ i).permMatrix (ZMod q)) next j =
      blockRow V j * (τ j).permMatrix (ZMod q) + blockRow next j := by
    rw [permutedBlock, split, Matrix.add_mul, add_sub_cancel_right]
  rw [Matrix.transpose_apply, permutedBlocks, Matrix.of_apply, block, Matrix.add_apply, row]
  rfl

end Rounds

end Rpm

end Ceremony
