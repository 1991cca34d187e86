import CeremonyClient.Rpm.Shuffle

set_option autoImplicit false

namespace Ceremony

namespace Rpm

open GoSem Sharing OptionLoops Polynomial Rows

variable {q : Nat} [Fact q.Prime] {G : Type} (curve : Curve (ZMod q) G) {k : Nat}

section Setup

variable (fromTo : ∀ scalar, curve.fromBytesModOrder (curve.toBytes scalar) = scalar)

include fromTo in
theorem combine_for_eq (draws : Nat → Draws (ZMod q)) (σ : Nat → Nat → Fin k → Equiv.Perm (Fin k)) (initial : List InitialShares)
    (depth dealers players p : Nat) (isPlayer : p < players) (someRows : 0 < k) (fewRows : k ≤ 100) (someLevels : 0 < depth) (someDealers : 0 < dealers)
    (dealt : initial = tabulate dealers fun d =>
      ⟨tabulate depth fun i => List.ofFn fun j => tabulate players fun p => shareRows curve (matrixPolys (draws d) (σ d) dealers i j) (p + 1),
        tabulate depth fun i => tabulate players fun p => shareVector curve (maskPolys (draws d) dealers i : Grid k k (ZMod q)[X]) (p + 1)⟩) :
    combineFor curve initial (k * k) depth dealers p =
      some (combinedShares curve dealers depth (fun d => matrixPolys (draws d) (σ d) dealers) (fun d => maskPolys (draws d) dealers) (p + 1)) := by
  have matrices : (initial.mapM fun shares => (List.range depth).mapM fun j => (List.range (Nat.sqrt (k * k))).mapM fun l => do
      (← cell shares.ms j l)[p]?) =
      some (tabulate dealers fun d => tabulate depth fun i => List.ofFn fun j => shareRows curve (matrixPolys (draws d) (σ d) dealers i j) (p + 1)) := by
    rw [dealt, Nat.sqrt_eq]
    refine map_m_tabulate fun d _ => map_m_range depth _ _ fun i isLevel => map_m_fin fun j => ?_
    simp only [cell, tabulate_get isLevel, Option.bind_eq_bind, Option.bind_some, of_fn_get, tabulate_get isPlayer]
  have masks : (initial.mapM fun shares => (List.range depth).mapM fun j => cell shares.rs j p) =
      some (tabulate dealers fun d => tabulate depth fun i => shareVector curve (maskPolys (draws d) dealers i : Grid k k (ZMod q)[X]) (p + 1)) := by
    rw [dealt]
    refine map_m_tabulate fun d _ => map_m_range depth _ _ fun i isLevel => ?_
    rw [cell, tabulate_get isLevel, Option.bind_eq_bind, Option.bind_some, tabulate_get isPlayer]
  rw [combineFor, matrices, Option.bind_eq_bind, Option.bind_some, masks, Option.bind_eq_bind, Option.bind_some]
  exact combine_shares_eq curve fromTo someRows fewRows someLevels someDealers

noncomputable def inputPolys (X : Grid k k (ZMod q)) (draw : Nat → Nat → ZMod q) (dealers : Nat) : Grid k k (ZMod q)[X] :=
  Matrix.of fun i j => sharePoly (X i j) (draw (i.val * k + j.val)) dealers

include fromTo in
theorem mask_inputs_eq (X : Grid k k (ZMod q)) (draw : Nat → Nat → ZMod q) (dealers depth players : Nat) (someLevels : 0 < depth)
    {P : Nat → Nat → Fin k → Grid k k (ZMod q)[X]} {Q : Nat → Nat → Grid k k (ZMod q)[X]} :
    ((List.range players).mapM fun p => do
      maskInput curve (flat X) draw (← (tabulate players fun p => combinedShares curve dealers depth P Q (p + 1))[p]?) (k * k) dealers players p) =
      some (tabulate players fun p => shareVector curve (inputPolys X draw dealers + combinedMask dealers Q 0) (p + 1)) := by
  refine map_m_range players _ _ fun p isPlayer => ?_
  rw [tabulate_get isPlayer, Option.bind_eq_bind, Option.bind_some]
  refine map_m_flat fun i j => ?_
  have mask : cell (combinedShares curve dealers depth P Q (p + 1)).rs 0 (i.val * k + j.val) =
      some (curve.toBytes ((combinedMask dealers Q 0 i j).eval ((p + 1 : Nat) : ZMod q))) :=
    cell_vectors (fun e => (combinedMask dealers Q e).map fun f => curve.toBytes (f.eval ((p + 1 : Nat) : ZMod q))) someLevels i j
  simp only [flat_get, gen_poly_frags_eq, tabulate_get isPlayer, mask, Option.bind_eq_bind, Option.bind_some, fromTo, ← Polynomial.eval_add]
  rfl

end Setup

section Run

variable (fromTo : ∀ scalar, curve.fromBytesModOrder (curve.toBytes scalar) = scalar) (n dealers depth : Nat)
  (P : Nat → Nat → Fin k → Grid k k (ZMod q)[X]) (Q : Nat → Nat → Grid k k (ZMod q)[X])

-- Dealers whose combined matrices are permutations and whose shares have the degree of their threshold.
structure Dealt (τ : Nat → Fin k → Equiv.Perm (Fin k)) : Prop where
  permutes : ∀ d < depth, ∀ i, (combinedMatrix dealers P d i).map (fun f => f.eval 0) = (τ d i).permMatrix (ZMod q)
  matrices : ∀ e < dealers, ∀ d < depth, ∀ sub i j, (P e d sub i j).natDegree ≤ dealers - 1
  masks : ∀ e < dealers, ∀ d < depth, ∀ i j, (Q e d i j).natDegree ≤ dealers - 1

noncomputable def maskAt (d : Nat) : Grid k k (ZMod q) := if d < depth then turned d ((combinedMask dealers Q d).map fun f => f.eval 0) else 0

structure Holds (X : Grid k k (ZMod q)) (d : Nat) (held : List Vector) : Prop where
  shared : ∃ Y V, held = tabulate n (fun p => shareVector curve Y (p + 1)) ∧ (∀ i j, (Y i j).natDegree < dealers * dealers) ∧
    Y.map (fun f => f.eval 0) = V + maskAt dealers depth Q d ∧ (flat V).Perm (flat X)

include fromTo in
theorem permute_round_holds {τ : Nat → Fin k → Equiv.Perm (Fin k)} (dealt : Dealt dealers depth P Q τ) {X : Grid k k (ZMod q)} {d : Nat}
    (isLevel : d < depth) (someRows : 0 < k) (someDealers : 0 < dealers) (fits : dealers * dealers ≤ n) (small : n < q) {held : List Vector}
    (holds : Holds curve n dealers depth Q X d held) :
    ∃ after, permuteRound curve (tabulate n fun p => combinedShares curve dealers depth P Q (p + 1)) n held d = some after ∧
      Holds curve n dealers depth Q X (d + 1) after := by
  obtain ⟨Y, V, isHeld, degrees, value, isOrder⟩ := holds.shared
  have somePlayers : 0 < n := (Nat.mul_pos someDealers someDealers).trans_le fits
  have enough (i j : Fin k) : (Y i j).degree < n :=
    (Polynomial.degree_le_natDegree).trans_lt (Nat.cast_lt.mpr ((degrees i j).trans_le fits))
  refine ⟨tabulate n fun p => shareVector curve (nextShares dealers depth P Q Y d) (p + 1), ?_, ⟨_, movedBlocks V (τ d), rfl, ?_, ?_, ?_⟩⟩
  · refine map_m_tabulate fun p _ => ?_
    rw [isHeld, permute_shares curve fromTo dealers P Q (p + 1) someRows somePlayers small isLevel enough]
    rfl
  · exact next_shares_degree isLevel someDealers dealt.matrices dealt.masks
  · have products (i : Fin k) : (maskProduct dealers P Q d i).map (fun f => f.eval 0) =
        blockRow (turned d ((combinedMask dealers Q d).map fun f => f.eval 0)) i * (τ d i).permMatrix (ZMod q) := by
      rw [eval_mask_product, dealt.permutes d isLevel i]
    rw [eval_next_shares, value, maskAt, if_pos isLevel]
    simp only [products, dealt.permutes d isLevel]
    rw [permuted_blocks_unmasked, maskAt, following]
    by_cases more : d + 1 ≠ depth
    · rw [if_pos more, if_pos (by omega), turned, if_neg (Nat.succ_ne_zero d)]
    · rw [if_neg more, if_neg (by omega), Matrix.transpose_zero]
  · exact moved_blocks_perm.trans isOrder

include fromTo in
theorem permute_rounds_hold (τ : Nat → Fin k → Equiv.Perm (Fin k)) (dealt : Dealt dealers depth P Q τ) (X : Grid k k (ZMod q)) (rounds : Nat)
    (fewRounds : rounds ≤ depth) (someRows : 0 < k) (someDealers : 0 < dealers) (fits : dealers * dealers ≤ n) (small : n < q) (masked : List Vector)
    (holds : Holds curve n dealers depth Q X 0 masked) :
    ∃ after, (List.range rounds).foldlM
        (permuteRound curve (tabulate n fun p => combinedShares curve dealers depth P Q (p + 1)) n) masked = some after ∧
      Holds curve n dealers depth Q X rounds after := by
  induction rounds with
  | zero => exact ⟨masked, rfl, holds⟩
  | succ d ih =>
      obtain ⟨held, before, holding⟩ := ih (by omega)
      obtain ⟨after, step, next⟩ := permute_round_holds curve fromTo n dealers depth P Q dealt (by omega) someRows someDealers fits small holding
      refine ⟨after, ?_, next⟩
      rw [List.range_succ, List.foldlM_append, before, Option.bind_eq_bind, Option.bind_some, List.foldlM_cons, step]
      rfl

include fromTo in
theorem finalize_holds (X : Grid k k (ZMod q)) (someDealers : 0 < dealers) (fits : dealers * dealers ≤ n) (small : n < q) (held : List Vector)
    (holds : Holds curve n dealers depth Q X depth held) :
    ∃ y : List (ZMod q), rpmFinalize curve held (List.range' 1 n) = some (y.map curve.toBytes) ∧ y.Perm (flat X) := by
  obtain ⟨Y, V, isHeld, degrees, value, isOrder⟩ := holds.shared
  have somePlayers : 0 < n := (Nat.mul_pos someDealers someDealers).trans_le fits
  rw [maskAt, if_neg (lt_irrefl depth), add_zero] at value
  refine ⟨flat V, ?_, isOrder⟩
  rw [rpmFinalize, isHeld, interpolate_vectors_eq curve fromTo somePlayers small fun i j =>
    (Polynomial.degree_le_natDegree).trans_lt (Nat.cast_lt.mpr ((degrees i j).trans_le fits)), value]
  rfl

end Run

section Whole

variable (fromTo : ∀ scalar, curve.fromBytesModOrder (curve.toBytes scalar) = scalar)

theorem split_polys_zero {m n : Nat} (A : Grid m n (ZMod q)) (draw : Nat → Nat → Nat → ZMod q) (threshold : Nat) :
    (splitPolys A draw threshold).map (fun f => f.eval 0) = A := by
  ext x y
  exact share_poly_zero _ _ _

theorem dealt_by (draws : Nat → Draws (ZMod q)) (σ : Nat → Nat → Fin k → Equiv.Perm (Fin k)) (dealers depth : Nat) :
    ∃ τ, Dealt dealers depth (fun d => matrixPolys (draws d) (σ d) dealers) (fun d => maskPolys (draws d) dealers) τ := by
  have product (d : Nat) (i : Fin k) := product_of_permutations (q := q) ((List.range dealers).map fun e => σ e d i)
  choose τ isProduct using product
  refine ⟨τ, fun d _ i => ?_, fun e _ d _ sub i j => share_poly_degree _ _ _, fun e _ d _ i j => share_poly_degree _ _ _⟩
  rw [eval_combined_matrix, ← isProduct d i, List.map_map]
  refine congrArg List.prod (List.map_congr_left fun e _ => ?_)
  exact split_polys_zero _ _ _

include fromTo in
theorem shuffle_permutes (depth dealers n : Nat) (someRows : 1 ≤ k) (fits : k * k ≤ 10000) (someLevels : 1 ≤ depth) (someDealers : 1 ≤ dealers)
    (enough : dealers * dealers ≤ n) (small : n < q) (draws : Nat → Draws (ZMod q))
    (inRange : ∀ d < dealers, ∀ i < depth, ∀ j < k, InRange k ((draws d).positions i j)) (x : List (ZMod q)) (long : x.length = k * k)
    (inputDraw : Nat → Nat → ZMod q) :
    ∃ y : List (ZMod q), shuffle curve draws x inputDraw (k * k) depth dealers n = some (y.map curve.toBytes) ∧ y.Perm x := by
  have fewRows : k ≤ 100 := by
    by_contra many
    have := Nat.mul_le_mul (Nat.lt_of_not_le many) (Nat.lt_of_not_le many)
    omega
  have permutation (d i : Nat) (j : Fin k) : ∃ σ : Equiv.Perm (Fin k), d < dealers → i < depth →
      generatePermutationMatrix k ((draws d).positions i j) = some (rows (σ.permMatrix (ZMod q))) := by
    by_cases bounds : d < dealers ∧ i < depth
    · obtain ⟨σ, drawn⟩ := permutation_matrix_drawn (F := ZMod q) _ (inRange d bounds.1 i bounds.2 j j.isLt)
      exact ⟨σ, fun _ _ => drawn⟩
    · exact ⟨1, fun isDealer isLevel => absurd ⟨isDealer, isLevel⟩ bounds⟩
  choose σ drawn using permutation
  obtain ⟨τ, dealt⟩ := dealt_by draws σ dealers depth
  let X : Grid k k (ZMod q) := Matrix.of fun i j => x.getD (i.val * k + j.val) 0
  have isFlat : x = flat X := by
    refine eq_flat x X long fun i j => ?_
    have short : i.val * k + j.val < x.length := long ▸ block_lt i j
    change _ = some (x.getD (i.val * k + j.val) 0)
    rw [List.getD_eq_getElem?_getD, List.getElem?_eq_getElem short, Option.getD_some]
  have initial := map_m_range dealers _ _ fun d isDealer => initial_shares_eq curve (draws d) (σ d) depth dealers n someRows enough
    fun i isLevel j => drawn d i j isDealer isLevel
  have combined := map_m_range n _ _ fun p isPlayer =>
    combine_for_eq curve fromTo draws σ _ depth dealers n p isPlayer someRows fewRows someLevels someDealers rfl
  have start : Holds curve n dealers depth (fun d => maskPolys (draws d) dealers) X 0
      (tabulate n fun p => shareVector curve (inputPolys X inputDraw dealers + combinedMask dealers (fun d => maskPolys (draws d) dealers) 0) (p + 1)) := by
    refine ⟨_, X, rfl, fun i j => ?_, ?_, List.Perm.refl _⟩
    · have low : dealers - 1 < dealers * dealers := (Nat.sub_lt someDealers Nat.one_pos).trans_le (Nat.le_mul_self dealers)
      refine (Polynomial.natDegree_add_le_of_degree_le (share_poly_degree _ _ _) ?_).trans_lt low
      exact combined_mask_degree dealers _ _ 0 (fun e isDealer => dealt.masks e isDealer 0 someLevels) i j
    · rw [maskAt, if_pos (show 0 < depth from someLevels), turned, if_pos rfl]
      refine (Matrix.map_add _ (fun f g => Polynomial.eval_add) _ _).trans (congrArg (· + _) ?_)
      ext i j
      exact share_poly_zero _ _ _
  obtain ⟨after, permuted, finished⟩ := permute_rounds_hold curve fromTo n dealers depth _ _ τ dealt X depth le_rfl someRows someDealers enough small _ start
  obtain ⟨y, opened, isOrder⟩ := finalize_holds curve fromTo n dealers depth _ X someDealers enough small after finished
  refine ⟨y, ?_, isFlat ▸ isOrder⟩
  rw [shuffle, initial, Option.bind_eq_bind, Option.bind_some, combined, Option.bind_eq_bind, Option.bind_some, isFlat,
    mask_inputs_eq curve fromTo X inputDraw dealers depth n someLevels, Option.bind_eq_bind, Option.bind_some, permuted,
    Option.bind_some, opened]

-- Two dealers and four players over the field of five elements, two depths.
def modFive : Curve (ZMod 5) Unit where
  base := ()
  compress := fun _ => []
  decompress := fun _ => some ()
  toBytes := fun scalar => [UInt8.ofNat scalar.val]
  fromBytesModOrder := fun bytes => ((bytes.headD 0).toNat : ZMod 5)

def swapDraws (d : Nat) : Draws (ZMod 5) where
  positions := fun i j => if i + j + d = 1 then [0, 0] else [1, 0]
  matrixCoeffs := fun i j x y c => (i + 2 * j + 3 * x + y + c + d : Nat)
  masks := fun i t => (i + t + d : Nat)
  maskCoeffs := fun i t c => (i * t + c + d : Nat)

instance primeFive : Fact (Nat.Prime 5) := ⟨by decide⟩

theorem shuffle_permutes_two_dealers :
    ∃ y : List (ZMod 5), shuffle modFive swapDraws [0, 1, 2, 3] (fun i c => (i + c : Nat)) (2 * 2) 2 2 4 = some (y.map modFive.toBytes) ∧
      y.Perm [0, 1, 2, 3] := by
  refine shuffle_permutes (k := 2) modFive (by decide) 2 2 4 (by decide) (by decide) (by decide) (by decide) (by decide) (by decide) swapDraws ?_ _ rfl _
  intro d isDealer i isLevel j isMatrix
  change InRange 2 (if i + j + d = 1 then [0, 0] else [1, 0])
  split
  · exact ⟨by decide, by decide, trivial⟩
  · exact ⟨by decide, by decide, trivial⟩

end Whole

end Rpm

end Ceremony
