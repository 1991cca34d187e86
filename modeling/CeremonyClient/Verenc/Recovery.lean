import CeremonyClient.Lib.Sharing
import CeremonyClient.Verenc.Expansion

set_option autoImplicit false

namespace Ceremony

variable {i : Nat} {parties hideIndices : List Nat} {N : Nat}

namespace Verenc

open GoSem Sharing Polynomial

section Points

variable {F : Type} [Field F]

def partyPoint (F : Type) [Field F] (i : Nat) : F := ((i + 1 : Nat) : F)

theorem party_x_point (small : i + 1 < 2 ^ 32) : partyX i = .ok (partyPoint F i) := by
  have low : i % 2 ^ 32 = i := Nat.mod_eq_of_lt (Nat.lt_of_succ_lt small)
  rw [partyX, low, if_pos small, partyPoint]

theorem share_x_point (small : i + 1 < 2 ^ 32) : shareX i = partyPoint F i := by
  rw [shareX, Nat.mod_eq_of_lt small, partyPoint]

theorem share_loop {wit x : F} {coeff : Nat → F} {t : Nat} :
    ((List.range t).map coeff).foldl (fun (acc : F × F) c => (acc.1 + c * acc.2, acc.2 * x)) (wit, x) =
      (wit + ∑ j ∈ Finset.range t, coeff j * x ^ (j + 1), x ^ (t + 1)) := by
  induction t with
  | zero => simp
  | succ t ih =>
      rw [List.range_succ, List.map_append, List.foldl_append, ih, List.map_singleton, List.foldl_cons, List.foldl_nil,
        Finset.sum_range_succ, add_assoc, ← pow_succ]

theorem prover_share_eval (t : Nat) (draws : ProverDraws F) (wit : F) (i : Nat) (small : i + 1 < 2 ^ 32) :
    proverShare t draws wit i = (sharePoly wit draws.coeff (t + 1)).eval (partyPoint F i) := by
  rw [proverShare, shareValue, share_loop, share_x_point small, sharePoly, Polynomial.eval_add, Polynomial.eval_finsetSum]
  simp

def openCoeff (parties : List Nat) (i : Nat) : F :=
  ((parties.filter (· ≠ i)).map fun j => partyPoint F j * (partyPoint F j - partyPoint F i)⁻¹).prod

theorem open_factors_ok (i : Nat) {iFF : F} (small : ∀ j ∈ parties, j + 1 < 2 ^ 32) {prod denom : F} :
    openFactors i iFF parties (prod, denom) =
      .ok (prod * ((parties.filter (· ≠ i)).map (partyPoint F)).prod,
        denom * ((parties.filter (· ≠ i)).map fun j => partyPoint F j - iFF).prod) := by
  induction parties generalizing prod denom with
  | nil => simp [openFactors]
  | cons j rest ih =>
      obtain ⟨first, others⟩ := List.forall_mem_cons.mp small
      by_cases other : j ≠ i
      · rw [openFactors, if_pos other, party_x_point first, ok_bind, ih others]
        simp [other, mul_assoc]
      · rw [openFactors, if_neg other, ih others]
        simp [other]

theorem open_lagrange_ok (small : ∀ j ∈ parties, j + 1 < 2 ^ 32) (member : i ∈ parties) :
    openLagrange parties i = .ok (openCoeff parties i : F) := by
  rw [openLagrange, party_x_point (small i member), ok_bind, open_factors_ok i small, ok_bind, one_mul, one_mul, openCoeff,
    List.prod_map_mul]
  refine congrArg (fun value => Except.ok (_ * value)) ?_
  rw [List.prod_inv, List.map_map]
  rfl

theorem hidden_factor_ok (iHide : Nat) {iHideFF : F} (small : ∀ j ∈ parties, j + 1 < 2 ^ 32) {prod : F} :
    hiddenFactor iHide iHideFF parties prod =
      .ok (prod * ((parties.filter (· ≠ iHide)).map fun j => partyPoint F j * (partyPoint F j - iHideFF)⁻¹).prod) := by
  induction parties generalizing prod with
  | nil => simp [hiddenFactor]
  | cons j rest ih =>
      obtain ⟨first, others⟩ := List.forall_mem_cons.mp small
      by_cases other : j ≠ iHide
      · rw [hiddenFactor, if_pos other, party_x_point first, ok_bind, ih others]
        simp [other, mul_assoc]
      · rw [hiddenFactor, if_neg other, ih others]
        simp [other]

theorem add_opened_ok {lagrange : List F} {sharesRands : List (F × F × Nat)} {iHideFF : F} {value : Nat → F} {share : Nat → F × F × Nat}
    (small : ∀ j ∈ parties, j + 1 < 2 ^ 32) (reads : ∀ j ∈ parties, lagrange[j]? = some (value j)) {ctrOpen : Nat}
    (listed : sharesRands.drop ctrOpen = parties.map share) {c2 : F} :
    addOpened lagrange sharesRands iHideFF parties ctrOpen c2 =
      .ok (c2 + (parties.map fun i => value i * iHideFF * (iHideFF - partyPoint F i)⁻¹ * (share i).1).sum) := by
  induction parties generalizing ctrOpen c2 with
  | nil => simp [addOpened]
  | cons i rest ih =>
      obtain ⟨first, others⟩ := List.forall_mem_cons.mp small
      obtain ⟨read, reads⟩ := List.forall_mem_cons.mp reads
      obtain ⟨here, later⟩ := index_drop_cons (listed.trans (List.map_cons ..))
      rw [addOpened, party_x_point first, ok_bind, here, index, read, deref_some, ok_bind, ok_bind]
      refine (ih others reads later).trans ?_
      rw [List.map_cons, List.sum_cons, add_assoc]

omit [Field F] in
theorem store_coeffs_ok (body : Nat → Go F) (value : Nat → F) (parties : List Nat) (start : List F)
    (each : ∀ i ∈ parties, body i = .ok (value i)) (inside : ∀ i ∈ parties, i < start.length) (kept : List Nat)
    (stored : ∀ i ∈ kept, start[i]? = some (value i)) :
    ∃ final, parties.foldlM (fun coeffs i => return coeffs.set i (← body i)) start = .ok final ∧
      ∀ i ∈ kept ++ parties, final[i]? = some (value i) := by
  induction parties generalizing start kept with
  | nil => exact ⟨start, rfl, by simpa using stored⟩
  | cons i rest ih =>
      obtain ⟨first, later⟩ := List.forall_mem_cons.mp each
      obtain ⟨firstInside, laterInside⟩ := List.forall_mem_cons.mp inside
      have step : ∀ j ∈ kept ++ [i], (start.set i (value i))[j]? = some (value j) := by
        intro j member
        by_cases same : i = j
        · rw [← same, List.getElem?_set_self firstInside]
        · rw [List.getElem?_set_ne same]
          refine stored j ?_
          simpa [Ne.symm same] using member
      obtain ⟨final, folded, reads⟩ := ih (start.set i (value i)) later (by simpa using laterInside) (kept ++ [i]) step
      refine ⟨final, ?_, by simpa using reads⟩
      rw [List.foldlM_cons, first]
      exact folded

theorem zero_value_split (parties : List Nat) (distinct : parties.Nodup) (iHide : Nat) (hidden : iHide ∉ parties)
    (injective : Set.InjOn (partyPoint F) (insert iHide parties.toFinset : Finset Nat)) (f : F[X]) (degree : f.degree < parties.length + 1) :
    openCoeff parties iHide * f.eval (partyPoint F iHide) +
      (parties.map fun i => openCoeff parties i * partyPoint F iHide * (partyPoint F iHide - partyPoint F i)⁻¹ * f.eval (partyPoint F i)).sum =
      f.eval 0 := by
  have coeff (i : Nat) : (openCoeff parties i : F) =
      ∏ j ∈ parties.toFinset.erase i, partyPoint F j * (partyPoint F j - partyPoint F i)⁻¹ := by
    rw [openCoeff, ← List.prod_toFinset _ (distinct.filter _), List.toFinset_filter]
    refine Finset.prod_congr ?_ fun _ _ => rfl
    ext j
    simp [and_comm]
  have fresh : iHide ∉ parties.toFinset := fun member => hidden (List.mem_toFinset.mp member)
  have card : (insert iHide parties.toFinset).card = parties.length + 1 := by
    rw [Finset.card_insert_of_notMem fresh, List.toFinset_card_of_nodup distinct]
  rw [← sum_basis_at_zero injective (by rw [card]; exact_mod_cast degree),
    Finset.sum_insert fresh, Finset.erase_insert fresh, coeff, Finset.erase_eq_of_notMem fresh, ← List.sum_toFinset _ distinct]
  refine congrArg _ (Finset.sum_congr rfl fun i member => ?_)
  have other : i ≠ iHide := fun same => fresh (same ▸ member)
  have apart : iHide ∉ parties.toFinset.erase i := fun inside => fresh (Finset.mem_of_mem_erase inside)
  rw [Finset.erase_insert_of_ne other.symm, Finset.prod_insert apart, coeff]
  ring

end Points

section Recovery

variable {F G : Type} [Field F] [AddCommGroup G] [Module F G] [DecidableEq G] (curve : Curve F G)

omit [AddCommGroup G] [Module F G] [DecidableEq G] in
theorem compress_hidden_ok (pi : RDkgithProof F G) (parties : List Nat) (lagrange : List F) (subset : List Nat) (ciphertext : Nat → PKECipherText F G)
    (share : Nat → F × F × Nat) (shares : pi.sharesRands = parties.map share) (smallParties : ∀ j ∈ parties, j + 1 < 2 ^ 32)
    (reads : ∀ j ∈ parties, lagrange[j]? = some (openCoeff parties j)) (hidden : List Nat) (small : ∀ i ∈ hidden, i + 1 < 2 ^ 32) (ctrHide : Nat)
    (listed : pi.ctexts.drop ctrHide = hidden.map fun i => (ciphertext i, i)) :
    compressHidden pi parties lagrange subset hidden ctrHide = .ok ((hidden.filter fun i => subset.contains i).map fun i =>
      (⟨(ciphertext i).c1, (ciphertext i).c2 * openCoeff parties i + (parties.map fun j =>
        openCoeff parties j * partyPoint F i * (partyPoint F i - partyPoint F j)⁻¹ * (share j).1).sum⟩, openCoeff parties i)) := by
  induction hidden generalizing ctrHide with
  | nil => rfl
  | cons i rest ih =>
      obtain ⟨first, others⟩ := List.forall_mem_cons.mp small
      obtain ⟨here, later⟩ := index_drop_cons (listed.trans (List.map_cons ..))
      cases chosen : subset.contains i with
      | false =>
          rw [compressHidden, chosen, ih others (ctrHide + 1) later, List.filter_cons_of_neg (Bool.eq_false_iff.mp chosen)]
          rfl
      | true =>
          have opened : pi.sharesRands.drop 0 = parties.map share := shares
          rw [compressHidden, chosen, List.filter_cons_of_pos chosen, List.map_cons]
          simp only [here, ok_bind, party_x_point first, hidden_factor_ok i smallParties, one_mul,
            add_opened_ok smallParties reads opened, ih others (ctrHide + 1) later]
          rfl

omit [AddCommGroup G] [Module F G] [DecidableEq G] in
theorem compress_ok (ve : RDkgith G) (fuel : Nat) {pi : RDkgithProof F G} (subset hideIndices : List Nat) (lagrange : List F)
    {parts : List (PKECipherText F G × F)} (expanded : expandChallenge curve ve.vparams fuel pi.challenge = .ok hideIndices)
    (opened : (openIndices ve.vparams.N hideIndices).length = ve.vparams.t) (stored : (openIndices ve.vparams.N hideIndices).foldlM
      (fun lagrange i => return lagrange.set i (← openLagrange (openIndices ve.vparams.N hideIndices) i)) (List.replicate ve.vparams.N 0) = .ok lagrange)
    (shrunk : compressHidden pi (openIndices ve.vparams.N hideIndices) lagrange subset hideIndices 0 = .ok parts) :
    compress curve ve fuel pi subset = .ok ⟨parts.map Prod.fst, parts.map Prod.snd⟩ := by
  rw [compress, expanded, ok_bind]
  dsimp only
  rw [← openIndices, if_neg (not_not.mpr opened), stored, ok_bind, shrunk, ok_bind]
  rfl

def folded (ve : RDkgith G) (draws : ProverDraws F) (wit : F) (hideIndices : List Nat) (i : Nat) : PKECipherText F G × F :=
  (⟨(proverCiphertext curve ve draws wit i).c1, (proverCiphertext curve ve draws wit i).c2 * openCoeff (openIndices ve.vparams.N hideIndices) i +
    ((openIndices ve.vparams.N hideIndices).map fun j => openCoeff (openIndices ve.vparams.N hideIndices) j * partyPoint F i *
      (partyPoint F i - partyPoint F j)⁻¹ * proverShare ve.vparams.t draws wit j).sum⟩, openCoeff (openIndices ve.vparams.N hideIndices) i)

omit [DecidableEq G] in
theorem compress_prove_ok {ve : RDkgith G} {fuel : Nat} {stm : G} {wit : F} {draws : ProverDraws F} (subset : List Nat)
    (small : ve.vparams.N < 2 ^ 32)
    (expanded : expandChallenge curve ve.vparams fuel (proverChallenge curve ve stm wit draws) = .ok hideIndices) :
    (do compress curve ve fuel (← prove curve ve fuel stm wit draws) subset) =
      .ok ⟨((hideIndices.filter fun i => subset.contains i).map (folded curve ve draws wit hideIndices)).map Prod.fst,
        ((hideIndices.filter fun i => subset.contains i).map (folded curve ve draws wit hideIndices)).map Prod.snd⟩ := by
  obtain ⟨listed, -, opened⟩ := expand_challenge_expanded curve ve.vparams fuel hideIndices expanded
  have smallParties : ∀ j ∈ openIndices ve.vparams.N hideIndices, j + 1 < 2 ^ 32 := by
    intro j member
    have inside := List.mem_range.mp (List.mem_of_mem_filter member)
    omega
  have smallHidden : ∀ j ∈ hideIndices, j + 1 < 2 ^ 32 := by
    intro j member
    rw [← listed] at member
    have inside := List.mem_range.mp (List.mem_of_mem_filter member)
    omega
  obtain ⟨lagrange, stored, reads⟩ := store_coeffs_ok (openLagrange (F := F) (openIndices ve.vparams.N hideIndices))
    (openCoeff (openIndices ve.vparams.N hideIndices)) (openIndices ve.vparams.N hideIndices) (List.replicate ve.vparams.N 0)
    (fun i member => open_lagrange_ok smallParties member)
    (fun i member => by simpa using List.mem_range.mp (List.mem_of_mem_filter member)) [] (by simp)
  have parts := compress_hidden_ok (provedProof curve ve stm wit draws hideIndices) _ lagrange subset (proverCiphertext curve ve draws wit)
    (fun j => (proverShare ve.vparams.t draws wit j, draws.rand j, j)) rfl smallParties reads hideIndices smallHidden 0 rfl
  rw [prove_ok curve ve fuel stm wit draws hideIndices expanded, ok_bind]
  exact compress_ok curve ve fuel subset hideIndices lagrange expanded opened stored parts

theorem recover_first {ve : RDkgith G} {stm : G} {dk wit : F} {first : PKECipherText F G × F} {rest : List (PKECipherText F G × F)}
    (some : 1 ≤ ve.vparams.n) (matching : wit • ve.base = stm) (opens : first.1.c2 - hashToFF curve (dk • first.1.c1) * first.2 = wit) :
    recover curve ve stm dk ⟨(first :: rest).map Prod.fst, (first :: rest).map Prod.snd⟩ = .ok wit := by
  obtain ⟨n, isN⟩ : ∃ n, ve.vparams.n = n + 1 := ⟨ve.vparams.n - 1, by omega⟩
  rw [recover, isN, List.range_succ_eq_map, recoverLoop]
  change (if checkInstance ve stm (first.1.c2 - hashToFF curve (dk • first.1.c1) * first.2) then _ else _) = _
  rw [opens, checkInstance, if_pos (decide_eq_true matching)]
  rfl

omit [DecidableEq G] in
theorem folded_opens {ve : RDkgith G} {draws : ProverDraws F} {wit dk : F} (expanded : Expanded ve.vparams hideIndices)
    (small : ve.vparams.N < 2 ^ 32) (injective : Set.InjOn (partyPoint F) { i | i < ve.vparams.N }) (key : ve.ek = dk • curve.generator)
    (isHidden : i ∈ hideIndices) :
    (folded curve ve draws wit hideIndices i).1.c2 - hashToFF curve (dk • (folded curve ve draws wit hideIndices i).1.c1) *
      (folded curve ve draws wit hideIndices i).2 = wit := by
  obtain ⟨listed, -, opened⟩ := expanded
  have inside : i < ve.vparams.N := by
    rw [← listed] at isHidden
    exact List.mem_range.mp (List.mem_of_mem_filter isHidden)
  have openInside (j : Nat) (member : j ∈ openIndices ve.vparams.N hideIndices) : j < ve.vparams.N :=
    List.mem_range.mp (List.mem_of_mem_filter member)
  have closed : i ∉ openIndices ve.vparams.N hideIndices := by
    intro member
    simpa [isHidden] using (List.mem_filter.mp member).2
  have degree : (sharePoly wit draws.coeff (ve.vparams.t + 1)).degree < ((openIndices ve.vparams.N hideIndices).length : WithBot Nat) + 1 := by
    rw [opened]
    refine Polynomial.degree_le_natDegree.trans_lt ?_
    exact_mod_cast Nat.lt_succ_of_le (share_poly_degree wit draws.coeff (ve.vparams.t + 1))
  have zero := zero_value_split (openIndices ve.vparams.N hideIndices) (List.nodup_range.filter _) i closed
    (injective.mono fun j member => ?_) (sharePoly wit draws.coeff (ve.vparams.t + 1)) degree
  · have shared : dk • (draws.rand i • curve.generator) = draws.rand i • ve.ek := by rw [key, smul_comm]
    rw [share_poly_zero, ← prover_share_eval ve.vparams.t draws wit i (by omega)] at zero
    have values : ((openIndices ve.vparams.N hideIndices).map fun j => openCoeff (openIndices ve.vparams.N hideIndices) j * partyPoint F i *
        (partyPoint F i - partyPoint F j)⁻¹ * proverShare ve.vparams.t draws wit j).sum = _ :=
      congrArg List.sum (List.map_congr_left fun j member => by
        rw [prover_share_eval ve.vparams.t draws wit j (by have := openInside j member; omega)])
    simp only [folded, proverCiphertext, encryptGivenR, shared, values]
    linear_combination zero
  · rcases Finset.mem_insert.mp member with same | isOpen
    · rw [same]
      exact inside
    · exact openInside j (List.mem_toFinset.mp isOpen)

end Recovery

section Witness

variable {q : Nat} [Fact q.Prime] {G : Type} [AddCommGroup G] [Module (ZMod q) G] [DecidableEq G] (curve : Curve (ZMod q) G)

-- recover(stm, dk, compress(stm, prove(stm, w)))
def recovered (ve : RDkgith G) (fuel : Nat) (stm : G) (wit dk : ZMod q) (draws : ProverDraws (ZMod q)) (subset : List Nat) : Go (ZMod q) := do
  let veCt ← (do compress curve ve fuel (← prove curve ve fuel stm wit draws) subset)
  recover curve ve stm dk veCt

theorem party_point_injective (order : N < q) : Set.InjOn (partyPoint (ZMod q)) { i | i < N } := by
  intro i inside j inside' same
  have small : i + 1 < q := Nat.lt_of_le_of_lt inside order
  have small' : j + 1 < q := Nat.lt_of_le_of_lt inside' order
  have values := congrArg ZMod.val same
  rw [partyPoint, partyPoint, ZMod.val_cast_of_lt small, ZMod.val_cast_of_lt small'] at values
  exact Nat.succ.inj values

theorem recovered_witness (ve : RDkgith G) (fuel : Nat) (stm : G) (wit dk seed : ZMod q) (draws : ProverDraws (ZMod q)) (subset hideIndices : List Nat)
    (parties : ve.vparams.N < 2 ^ 32) (order : ve.vparams.N < q) (keys : (ve.ek, dk) = pkeKgen curve seed) (matching : wit • ve.base = stm)
    (expanded : expandChallenge curve ve.vparams fuel (proverChallenge curve ve stm wit draws) = .ok hideIndices)
    (some : 1 ≤ ve.vparams.n) (size : subset.length = ve.vparams.n) (drawn : ∀ i ∈ subset, i ∈ hideIndices) :
    recovered curve ve fuel stm wit dk draws subset = .ok wit := by
  obtain ⟨isKey, isSeed⟩ := Prod.mk.inj keys
  obtain ⟨chosen, isChosen⟩ := List.exists_mem_of_length_pos (l := subset) (by omega)
  rw [recovered, compress_prove_ok curve subset parties expanded, ok_bind]
  cases listed : hideIndices.filter (fun i => subset.contains i) with
  | nil =>
      have member : chosen ∈ hideIndices.filter (fun i => subset.contains i) :=
        List.mem_filter.mpr ⟨drawn chosen isChosen, List.contains_iff_mem.mpr isChosen⟩
      rw [listed] at member
      exact absurd member List.not_mem_nil
  | cons i rest =>
      have isHidden : i ∈ hideIndices := List.mem_of_mem_filter (listed ▸ List.mem_cons_self)
      refine recover_first curve some matching ?_
      exact folded_opens curve (expand_challenge_expanded curve ve.vparams fuel hideIndices expanded) parties
        (party_point_injective order) (by rw [isKey, isSeed]) isHidden

end Witness

-- A curve of which only the order and the hash matter.
def plainCurve (q : Nat) (sha512 : Bytes → { digest : Bytes // digest.length = 64 }) : Curve (ZMod q) (ZMod q) where
  generator := 1
  compress := fun _ => []
  decompress := fun _ => some 1
  toBytes := fun _ => []
  fromBytes := fun _ => 0
  sha512 := sha512

theorem recovered_witness_two_parties :
    2 < 3 ∧ recovered (q := 3) (plainCurve 3 fun _ => ⟨List.replicate 64 0, List.length_replicate⟩) ⟨2, ⟨2, 1, 1⟩, 2⟩ 1 1 2 2
      ⟨fun _ => 1, fun _ => 2⟩ [0] = .ok 2 :=
  ⟨by decide, recovered_witness (q := 3) (plainCurve 3 fun _ => ⟨List.replicate 64 0, List.length_replicate⟩) ⟨2, ⟨2, 1, 1⟩, 2⟩ 1 1 2 2 2
    ⟨fun _ => 1, fun _ => 2⟩ [0] [0] (by decide) (by decide) rfl rfl rfl (by decide) rfl (by decide)⟩


-- A hash under which the expansion runs through the indices in order, sixteen at a time.
def leBytes (value : Nat) : Bytes := [UInt8.ofNat value, UInt8.ofNat (value / 256), UInt8.ofNat (value / 65536), UInt8.ofNat (value / 16777216)]

def counterBlock (k : Nat) : { digest : Bytes // digest.length = 64 } :=
  ⟨(List.range 16).flatMap fun j => leBytes (16 * k + j), by simp [leBytes]⟩

def counterHash (input : Bytes) : { digest : Bytes // digest.length = 64 } :=
  if input.length = 64 then counterBlock ((bytesToU32 input).headD 0 / 16 + 1) else counterBlock 0

theorem bytes_to_u32_le {value : Nat} (small : value < 2 ^ 32) {rest : Bytes} :
    bytesToU32 (leBytes value ++ rest) = value :: bytesToU32 rest := by
  simp only [leBytes, List.cons_append, List.nil_append, bytesToU32, List.cons.injEq, and_true, UInt8.toNat_ofNat']
  omega

theorem bytes_to_u32_flat (values : List Nat) (small : ∀ value ∈ values, value < 2 ^ 32) : bytesToU32 (values.flatMap leBytes) = values := by
  induction values with
  | nil => rfl
  | cons value rest ih =>
      obtain ⟨first, others⟩ := List.forall_mem_cons.mp small
      rw [List.flatMap_cons, bytes_to_u32_le first, ih others]

theorem counter_block_ints (k : Nat) (small : k < 2 ^ 28) : bytesToU32 (counterBlock k).val = (List.range 16).map fun j => 16 * k + j := by
  have ints := bytes_to_u32_flat ((List.range 16).map fun j => 16 * k + j) (by
    intro value member
    obtain ⟨j, isIndex, isValue⟩ := List.mem_map.mp member
    have := List.mem_range.mp isIndex
    omega)
  rwa [List.flatMap_map] at ints

theorem counter_hash_next {k : Nat} (small : k < 2 ^ 28) : counterHash (counterBlock k).val = counterBlock (k + 1) := by
  rw [counterHash, if_pos (counterBlock k).property, counter_block_ints k small, List.range_succ_eq_map, List.map_cons, List.headD_cons]
  congr 1
  omega

theorem push_indices_fresh {lengthRequired : Nat} {ints output : List Nat} (fresh : ∀ idx ∈ ints, idx < N ∧ idx ∉ output)
    (distinct : ints.Nodup) (room : output.length + ints.length ≤ lengthRequired) :
    pushIndices N lengthRequired ints output = output ++ ints := by
  induction ints generalizing output with
  | nil => rw [pushIndices, List.append_nil]
  | cons next rest ih =>
      obtain ⟨⟨inside, absent⟩, others⟩ := List.forall_mem_cons.mp fresh
      obtain ⟨once, distinct⟩ := List.nodup_cons.mp distinct
      rw [List.length_cons] at room
      rw [pushIndices, Nat.mod_eq_of_lt inside, if_neg (fun known => absent (List.contains_iff_mem.mp known)), List.length_append, List.length_singleton]
      split
      · next filled =>
          have last : rest = [] := List.length_eq_zero_iff.mp (by omega)
          rw [last]
      · rw [ih (fun idx member => ⟨(others idx member).1, ?_⟩) distinct (by simp; omega), List.append_assoc, List.singleton_append]
        intro isOutput
        rcases List.mem_append.mp isOutput with old | new
        · exact (others idx member).2 old
        · exact once (List.mem_singleton.mp new ▸ member)

theorem counter_expansion (q N blocks : Nat) (small : blocks ≤ 2 ^ 28) (inside : 16 * blocks ≤ N) (k fuel : Nat) (enough : k + fuel = blocks) (c : Bytes)
    (current : k < blocks → c = (counterBlock k).val) :
    expandLoop (plainCurve q counterHash) N (16 * blocks) fuel c (List.range (16 * k)) = .ok (List.range (16 * blocks)) := by
  induction fuel generalizing k c with
  | zero =>
      have full : k = blocks := enough
      rw [expandLoop, List.length_range, if_neg (by omega), full]
  | succ fuel ih =>
      have before : k < blocks := by omega
      have grown : pushIndices N (16 * blocks) ((List.range 16).map fun j => 16 * k + j) (List.range (16 * k)) = List.range (16 * (k + 1)) := by
        rw [push_indices_fresh, Nat.mul_succ, List.range_add]
        · intro idx member
          obtain ⟨j, isIndex, isValue⟩ := List.mem_map.mp member
          have short := List.mem_range.mp isIndex
          rw [List.mem_range]
          omega
        · exact List.nodup_range.map fun j j' same => Nat.add_left_cancel same
        · rw [List.length_range, List.length_map, List.length_range]
          omega
      rw [expandLoop, List.length_range, if_pos (by omega), current before, counter_block_ints k (by omega), grown]
      refine ih (k + 1) (by omega) _ fun more => ?_
      rw [List.length_range, if_pos (by omega)]
      exact congrArg Subtype.val (counter_hash_next (by omega))

theorem open_last (M : Nat) : openIndices (M + 1) (List.range M) = [M] := by
  rw [openIndices, List.range_succ, List.filter_append, List.filter_eq_nil_iff.mpr (by simp), List.nil_append]
  simp

section Wrapped

variable {q : Nat} [Fact q.Prime]

theorem wrapped_party_x (M : Nat) (wraps : M % 2 ^ 32 = 0) : partyX M = .ok (1 : ZMod q) := by
  rw [partyX, wraps, if_pos (by decide), Nat.zero_add, Nat.cast_one]

theorem plain_challenge {sha512 : Bytes → { digest : Bytes // digest.length = 64 }} {ve : RDkgith (ZMod q)} {stm wit : ZMod q}
    {draws : ProverDraws (ZMod q)} : proverChallenge (plainCurve q sha512) ve stm wit draws = (sha512 []).val := by
  refine congrArg (fun input => (sha512 input).val) ?_
  simp [transcript, plainCurve, PKECipherText.toBytes]

omit [Fact q.Prime] in
theorem compress_hidden_skips {F G : Type} [Field F] {pi : RDkgithProof F G} {lagrange : List F} {subset hidden : List Nat}
    (apart : ∀ i ∈ hidden, i ∉ subset) {ctrHide : Nat} : compressHidden pi parties lagrange subset hidden ctrHide = .ok [] := by
  induction hidden generalizing ctrHide with
  | nil => rfl
  | cons i rest ih =>
      obtain ⟨first, others⟩ := List.forall_mem_cons.mp apart
      have skipped : (!subset.contains i) = true := by simpa using first
      rw [compressHidden, if_pos skipped, ih others]

-- Party 0 is hidden and the only open party has the same point, so both coefficients divide by zero.
theorem compress_wrapped (M : Nat) (some : 0 < M) (wraps : M % 2 ^ 32 = 0) {pi : RDkgithProof (ZMod q) (ZMod q)}
    {ct : PKECipherText (ZMod q) (ZMod q)} {share : ZMod q × ZMod q × Nat} (ctexts : pi.ctexts[0]? = .some (ct, 0))
    (shares : pi.sharesRands[0]? = .some share) (lagrange : List (ZMod q)) (coeff : ZMod q) (read : lagrange[M]? = .some coeff) :
    compressHidden pi [M] lagrange [0] (List.range M) 0 = .ok [(⟨ct.c1, 0⟩, 0)] := by
  obtain ⟨m, isM⟩ : ∃ m, M = m + 1 := ⟨M - 1, by omega⟩
  have later : compressHidden pi [M] lagrange [0] ((List.range m).map Nat.succ) 1 = .ok [] :=
    compress_hidden_skips (by simp)
  have one : partyX 0 = .ok (1 : ZMod q) := wrapped_party_x 0 rfl
  have last : partyX M = .ok (1 : ZMod q) := wrapped_party_x M wraps
  have factor : hiddenFactor 0 1 [M] 1 = .ok (0 : ZMod q) := by
    rw [hiddenFactor, if_pos some.ne', last, ok_bind, hiddenFactor, sub_self, inv_zero, mul_zero]
  have added : addOpened lagrange pi.sharesRands 1 [M] 0 (ct.c2 * 0) = .ok (0 : ZMod q) := by
    rw [addOpened, last, ok_bind, index, read, deref_some, ok_bind, index, shares, deref_some, ok_bind, sub_self, inv_zero, mul_zero]
    simp [addOpened]
  have first : List.range M = 0 :: (List.range m).map Nat.succ := isM ▸ List.range_succ_eq_map
  rw [first, compressHidden, if_neg (by simp), index, ctexts, deref_some, ok_bind]
  dsimp only
  rw [one, ok_bind, factor, ok_bind, added, ok_bind, later]
  rfl

def wrappedScheme (q M : Nat) : RDkgith (ZMod q) := ⟨1, ⟨M + 1, 1, 1⟩, 0⟩

theorem wrapped_expansion (blocks : Nat) (small : blocks ≤ 2 ^ 28) (stm wit : ZMod q) (draws : ProverDraws (ZMod q)) :
    expandChallenge (plainCurve q counterHash) (wrappedScheme q (16 * blocks)).vparams blocks
      (proverChallenge (plainCurve q counterHash) (wrappedScheme q (16 * blocks)) stm wit draws) = .ok (List.range (16 * blocks)) := by
  have loop := counter_expansion q (16 * blocks + 1) blocks small (Nat.le_succ _) 0 blocks (Nat.zero_add _) (counterHash []).val fun _ => rfl
  have sorted := List.Pairwise.insertionSort_eq (List.pairwise_le_range (n := 16 * blocks))
  rw [plain_challenge, expandChallenge, wrappedScheme, if_neg (Nat.not_lt.mpr (Nat.le_add_left 1 _))]
  change (do let output ← expandLoop (plainCurve q counterHash) (16 * blocks + 1) (16 * blocks) blocks (counterHash []).val (List.range (16 * 0)); _) = _
  rw [loop, ok_bind, sorted]
  rfl

def zeroDraws : ProverDraws (ZMod q) := ⟨fun _ => 0, fun _ => 0⟩

theorem wrapped_recovers_zero {blocks : Nat} (small : blocks ≤ 2 ^ 28) (some : 0 < blocks) (wraps : 16 * blocks % 2 ^ 32 = 0) :
    recovered (plainCurve q counterHash) (wrappedScheme q (16 * blocks)) blocks 1 1 0 zeroDraws [0] = .ok 0 := by
  have expanded := wrapped_expansion (q := q) blocks small 1 1 zeroDraws
  have last : partyX (16 * blocks) = .ok (1 : ZMod q) := wrapped_party_x (16 * blocks) wraps
  have coefficient : openLagrange [16 * blocks] (16 * blocks) = .ok (1 : ZMod q) := by
    rw [openLagrange, last, ok_bind, openFactors, if_neg (not_not.mpr rfl), openFactors, ok_bind]
    simp
    rfl
  obtain ⟨lagrange, stored, reads⟩ := store_coeffs_ok (openLagrange [16 * blocks]) (fun _ => (1 : ZMod q)) [16 * blocks]
    (List.replicate (16 * blocks + 1) 0) (by simpa using coefficient) (by simp) [] (by simp)
  have opened : openIndices (wrappedScheme q (16 * blocks)).vparams.N (List.range (16 * blocks)) = [16 * blocks] := open_last (16 * blocks)
  have firstText : (provedProof (plainCurve q counterHash) (wrappedScheme q (16 * blocks)) 1 1 zeroDraws (List.range (16 * blocks))).ctexts[0]? =
      .some (proverCiphertext (plainCurve q counterHash) (wrappedScheme q (16 * blocks)) zeroDraws 1 0, 0) := by
    simp [provedProof, some]
  have firstShare : (provedProof (plainCurve q counterHash) (wrappedScheme q (16 * blocks)) 1 1 zeroDraws (List.range (16 * blocks))).sharesRands[0]? =
      .some (proverShare 1 zeroDraws 1 (16 * blocks), 0, 16 * blocks) := by
    rw [provedProof, opened]
    rfl
  have shrunk := compress_wrapped (16 * blocks) (by omega) wraps firstText firstShare lagrange 1 (by simpa using reads)
  rw [← opened] at stored shrunk
  have compressed := compress_ok (plainCurve q counterHash) (wrappedScheme q (16 * blocks)) blocks [0] (List.range (16 * blocks)) lagrange expanded
    (by rw [opened]; rfl) stored shrunk
  rw [recovered, prove_ok _ _ _ _ _ _ _ expanded, ok_bind, compressed, ok_bind]
  rw [recover]
  change recoverLoop _ _ _ _ _ [0] = _
  rw [recoverLoop]
  simp only [List.map_cons, List.map_nil, index, List.getElem?_cons_zero, deref_some, ok_bind, mul_zero, sub_zero, recoverLoop]
  split
  · rfl
  · rfl

end Wrapped

theorem wrapped_party_not_recovered :
    ∃ (q : Nat) (_ : Fact q.Prime) (hideIndices : List Nat), 2 ^ 32 + 1 < q ∧
      expandChallenge (plainCurve q counterHash) (wrappedScheme q (2 ^ 32)).vparams (2 ^ 28)
        (proverChallenge (plainCurve q counterHash) (wrappedScheme q (2 ^ 32)) 1 1 zeroDraws) = .ok hideIndices ∧ 0 ∈ hideIndices ∧
      ((wrappedScheme q (2 ^ 32)).ek, 0) = pkeKgen (plainCurve q counterHash) 0 ∧ (1 : ZMod q) • (wrappedScheme q (2 ^ 32)).base = 1 ∧
      recovered (plainCurve q counterHash) (wrappedScheme q (2 ^ 32)) (2 ^ 28) 1 1 0 zeroDraws [0] ≠ .ok 1 := by
  obtain ⟨q, large, isPrime⟩ := Nat.exists_infinite_primes (2 ^ 32 + 2)
  have prime : Fact q.Prime := ⟨isPrime⟩
  have blocks : 2 ^ 32 = 16 * 2 ^ 28 := by norm_num
  refine ⟨q, prime, List.range (16 * 2 ^ 28), large, ?_, by simp, ?_, ?_, ?_⟩
  · rw [blocks]
    exact wrapped_expansion (2 ^ 28) le_rfl 1 1 zeroDraws
  · rw [pkeKgen, zero_smul]
    rfl
  · rw [wrappedScheme, one_smul]
  · rw [blocks, wrapped_recovers_zero le_rfl (by norm_num) (by norm_num)]
    exact fun same => zero_ne_one (Except.ok.inj same)

end Verenc

end Ceremony
