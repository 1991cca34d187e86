import CeremonyClient.Verenc.Recovery
import Mathlib.Data.List.GetD

set_option autoImplicit false

namespace Ceremony

variable {count fuel : Nat} {hideIndices : List Nat}

namespace Verenc

open GoSem

section Loops

variable {F G : Type} [Field F] [AddCommGroup G] [Module F G] (curve : Curve F G)

theorem map_m_index {α : Type} {items : List α} (enough : count ≤ items.length) :
    (List.range count).mapM (index items) = .ok (items.take count) := by
  rw [map_m_iff, List.forall₂_iff_get]
  refine ⟨by simp [enough], fun i inside inside' => ?_⟩
  rw [index_ok_iff]
  simp only [List.get_eq_getElem, List.getElem_range, List.getElem_take]
  exact List.getElem?_eq_getElem _

theorem map_m_index_panics {α : Type} {items : List α} (few : items.length < count) {results : List α} :
    (List.range count).mapM (index items) ≠ .ok results := by
  intro indexed
  obtain ⟨value, -, read⟩ := forall₂_left_member ((map_m_iff _ _ _).mp indexed) items.length (List.mem_range.mpr few)
  rw [index_ok_iff, List.getElem?_eq_none le_rfl] at read
  cases read

-- What party i contributes to the hash, given its ciphertext or its opened share and randomness.
def partyText (ve : RDkgith G) (hideIndices : List Nat) (ciphertext : Nat → PKECipherText F G) (opened : Nat → F × F) (i : Nat) : Bytes :=
  if hideIndices.contains i then (ciphertext i).toBytes curve else (encryptGivenR curve ve.ek (opened i).1 (opened i).2).toBytes curve

theorem reconstruct_listed (ve : RDkgith G) (hideIndices : List Nat) (pi : RDkgithProof F G) (ciphertext : Nat → PKECipherText F G)
    (opened : Nat → F × F) (parties : List Nat) (ctrHide ctrOpen : Nat)
    (ctexts : pi.ctexts.drop ctrHide = (parties.filter fun i => hideIndices.contains i).map fun i => (ciphertext i, i))
    (shares : pi.sharesRands.drop ctrOpen = (parties.filter fun i => !hideIndices.contains i).map fun i => ((opened i).1, (opened i).2, i)) :
    reconstruct curve ve hideIndices pi parties ctrHide ctrOpen =
      .ok (some (parties.flatMap (partyText curve ve hideIndices ciphertext opened))) := by
  induction parties generalizing ctrHide ctrOpen with
  | nil => rfl
  | cons i rest ih =>
      cases hidden : hideIndices.contains i with
      | true =>
          rw [List.filter_cons_of_pos hidden, List.map_cons] at ctexts
          rw [List.filter_cons_of_neg (by rw [hidden]; decide)] at shares
          obtain ⟨here, next⟩ := index_drop_cons ctexts
          rw [reconstruct, if_pos hidden, here, ok_bind]
          dsimp only
          rw [if_neg (not_not.mpr rfl), ih (ctrHide + 1) ctrOpen next shares, List.flatMap_cons, partyText, if_pos hidden]
          rfl
      | false =>
          have closed : ¬ hideIndices.contains i := by rw [hidden]; decide
          rw [List.filter_cons_of_neg closed] at ctexts
          rw [List.filter_cons_of_pos (by rw [hidden]; rfl), List.map_cons] at shares
          obtain ⟨here, next⟩ := index_drop_cons shares
          rw [reconstruct, if_neg closed, here, ok_bind]
          dsimp only
          rw [if_neg (not_not.mpr rfl), ih ctrHide (ctrOpen + 1) ctexts next, List.flatMap_cons, partyText, if_neg closed]
          rfl

theorem reconstruct_returns (ve : RDkgith G) (hideIndices : List Nat) (pi : RDkgithProof F G) (parties : List Nat) (ctrHide ctrOpen : Nat)
    (ctexts : (pi.ctexts.drop ctrHide).length = (parties.filter fun i => hideIndices.contains i).length)
    (shares : (pi.sharesRands.drop ctrOpen).length = (parties.filter fun i => !hideIndices.contains i).length) :
    ∃ text, reconstruct curve ve hideIndices pi parties ctrHide ctrOpen = .ok text ∧ (text.isSome →
      (pi.ctexts.drop ctrHide).map Prod.snd = (parties.filter fun i => hideIndices.contains i) ∧
      (pi.sharesRands.drop ctrOpen).map (fun entry => entry.2.2) = parties.filter fun i => !hideIndices.contains i) := by
  induction parties generalizing ctrHide ctrOpen with
  | nil =>
      rw [List.filter_nil, List.length_nil, List.length_eq_zero_iff] at ctexts shares
      exact ⟨some [], rfl, fun _ => by rw [ctexts, shares]; exact ⟨rfl, rfl⟩⟩
  | cons i rest ih =>
      cases hidden : hideIndices.contains i with
      | true =>
          rw [List.filter_cons_of_pos hidden, List.length_cons] at ctexts
          rw [List.filter_cons_of_neg (by rw [hidden]; decide)] at shares
          obtain ⟨⟨ct, idx⟩, later, listed⟩ := List.exists_cons_of_length_eq_add_one ctexts
          obtain ⟨here, next⟩ := index_drop_cons listed
          obtain ⟨text, run, matched⟩ := ih (ctrHide + 1) ctrOpen (by rw [next]; rw [listed] at ctexts; exact Nat.succ.inj ctexts) shares
          rw [reconstruct, if_pos hidden, here, ok_bind]
          dsimp only
          by_cases same : i = idx
          · rw [if_neg (not_not.mpr same), run, ok_bind]
            refine ⟨_, rfl, fun isSome => ?_⟩
            obtain ⟨first, second⟩ := matched (by simpa using isSome)
            rw [List.filter_cons_of_pos hidden, List.filter_cons_of_neg (by rw [hidden]; decide), listed, List.map_cons, ← same, ← first, next]
            exact ⟨rfl, second⟩
          · rw [if_pos same]
            exact ⟨none, rfl, fun isSome => Bool.noConfusion isSome⟩
      | false =>
          have closed : ¬ hideIndices.contains i := by rw [hidden]; decide
          rw [List.filter_cons_of_neg closed] at ctexts
          rw [List.filter_cons_of_pos (by rw [hidden]; rfl), List.length_cons] at shares
          obtain ⟨⟨s, r, idx⟩, later, listed⟩ := List.exists_cons_of_length_eq_add_one shares
          obtain ⟨here, next⟩ := index_drop_cons listed
          obtain ⟨text, run, matched⟩ := ih ctrHide (ctrOpen + 1) ctexts (by rw [next]; rw [listed] at shares; exact Nat.succ.inj shares)
          rw [reconstruct, if_neg closed, here, ok_bind]
          dsimp only
          by_cases same : i = idx
          · rw [if_neg (not_not.mpr same), run, ok_bind]
            refine ⟨_, rfl, fun isSome => ?_⟩
            obtain ⟨first, second⟩ := matched (by simpa using isSome)
            rw [List.filter_cons_of_neg closed, List.filter_cons_of_pos (by rw [hidden]; rfl), listed, List.map_cons, ← same, ← second, next]
            exact ⟨first, rfl⟩
          · rw [if_pos same]
            exact ⟨none, rfl, fun isSome => Bool.noConfusion isSome⟩

end Loops


section Batch

variable {F G : Type} [Field F] [AddCommGroup G] [Module F G]

variable {rights : List F}

theorem add_powers_length {x d pow : F} : (addPowers x d pow rights).length = rights.length := by
  induction rights generalizing pow with
  | nil => rfl
  | cons scalar rest ih => rw [addPowers, List.length_cons, ih, List.length_cons]

theorem add_powers_get {x d pow : F} {j : Nat} (inside : j < rights.length) :
    (addPowers x d pow rights).getD j 0 = rights.getD j 0 + pow * x ^ j * d := by
  induction rights generalizing pow j with
  | nil => exact absurd inside (Nat.not_lt_zero j)
  | cons scalar rest ih =>
      cases j with
      | zero => simp [addPowers]
      | succ j =>
          rw [addPowers, List.getD_cons_succ, List.getD_cons_succ, ih (Nat.lt_of_succ_lt_succ inside), pow_succ']
          ring

theorem batch_scalars_ok (coeff : Nat → F) (t : Nat) (shares : List (F × F × Nat)) (small : ∀ entry ∈ shares, entry.2.2 + 1 < 2 ^ 32)
    (draw : Nat → F) (left : F) (rights : List F) (width : rights.length = t + 1) :
    ∃ final : F × List F, batchScalars shares draw (left, rights) = .ok final ∧ final.2.length = t + 1 ∧
      ((∀ entry ∈ shares, entry.1 = ∑ j ∈ Finset.range (t + 1), coeff j * partyPoint F entry.2.2 ^ j) →
        left = ∑ j ∈ Finset.range (t + 1), coeff j * rights.getD j 0 → final.1 = ∑ j ∈ Finset.range (t + 1), coeff j * final.2.getD j 0) := by
  induction shares generalizing draw left rights with
  | nil => exact ⟨(left, rights), rfl, width, fun _ balanced => balanced⟩
  | cons entry rest ih =>
      obtain ⟨first, others⟩ := List.forall_mem_cons.mp small
      obtain ⟨final, run, finalWidth, kept⟩ := ih others (fun k => draw (k + 1)) (left + entry.1 * draw 0)
        (addPowers (partyPoint F entry.2.2) (draw 0) 1 rights) (by rw [add_powers_length, width])
      refine ⟨final, ?_, finalWidth, fun valued balanced => ?_⟩
      · obtain ⟨s, r, i⟩ := entry
        rw [batchScalars, party_x_point first]
        exact run
      · obtain ⟨value, values⟩ := List.forall_mem_cons.mp valued
        refine kept values ?_
        rw [balanced, value, Finset.sum_mul, ← Finset.sum_add_distrib]
        refine Finset.sum_congr rfl fun j isIndex => ?_
        rw [add_powers_get (by rw [width]; exact Finset.mem_range.mp isIndex)]
        ring

theorem combine_ok {polycom : List G} (enough : polycom.length ≤ rights.length) :
    combine polycom rights = .ok (∑ j ∈ Finset.range polycom.length, rights.getD j 0 • polycom.getD j 0) := by
  have partly (count : Nat) (inside : count ≤ polycom.length) : (List.range count).foldlM (fun right i => do
      let com ← index polycom i
      let scalar ← index rights i
      return right + scalar • com) (0 : G) = (.ok (∑ j ∈ Finset.range count, rights.getD j 0 • polycom.getD j 0) : Go G) := by
    induction count with
    | zero => rfl
    | succ count ih =>
        have first : polycom[count]? = some (polycom.getD count 0) := by simp [show count < polycom.length by omega]
        have second : rights[count]? = some (rights.getD count 0) := by simp [show count < rights.length by omega]
        rw [List.range_succ, List.foldlM_append, ih (by omega), ok_bind, List.foldlM_cons, index, first, deref_some, ok_bind, index, second,
          deref_some, ok_bind, Finset.sum_range_succ]
        rfl
  exact partly polycom.length le_rfl

theorem combine_panics {polycom : List G} (few : rights.length < polycom.length) {right : G} :
    combine polycom rights ≠ .ok right := by
  intro combined
  obtain ⟨more, isMore⟩ : ∃ more, polycom.length = rights.length + (more + 1) := ⟨polycom.length - rights.length - 1, by omega⟩
  rw [combine, isMore, List.range_add, List.foldlM_append, List.range_succ_eq_map, List.map_cons] at combined
  obtain ⟨partly, -, combined⟩ := (bind_ok_iff _ _ _).mp combined
  rw [List.foldlM_cons] at combined
  obtain ⟨next, step, -⟩ := (bind_ok_iff _ _ _).mp combined
  obtain ⟨com, -, step⟩ := (bind_ok_iff _ _ _).mp step
  obtain ⟨scalar, read, -⟩ := (bind_ok_iff _ _ _).mp step
  rw [index_ok_iff, List.getElem?_eq_none (Nat.le_add_right _ _)] at read
  cases read

end Batch


theorem listed_function {β : Type} (filler : β) (entries : List β) (number : β → Nat) (distinct : (entries.map number).Nodup) :
    ∃ entry : Nat → β, entries = (entries.map number).map entry ∧ ∀ i ∈ entries.map number, number (entry i) = i := by
  induction entries with
  | nil => exact ⟨fun _ => filler, rfl, by simp⟩
  | cons first rest ih =>
      rw [List.map_cons, List.nodup_cons] at distinct
      obtain ⟨fresh, distinct⟩ := distinct
      obtain ⟨entry, listed, numbered⟩ := ih distinct
      have other (i : Nat) (member : i ∈ rest.map number) : Function.update entry (number first) first i = entry i := by
        have apart : i ≠ number first := fun same => fresh (same ▸ member)
        exact Function.update_of_ne apart _ _
      refine ⟨Function.update entry (number first) first, ?_, ?_⟩
      · rw [List.map_cons, List.map_cons, Function.update_self, List.map_congr_left other, ← listed]
      · rw [List.map_cons, List.forall_mem_cons, Function.update_self]
        refine ⟨rfl, fun i member => ?_⟩
        rw [other i member]
        exact numbered i member

section Verify

variable {F G : Type} [Field F] [AddCommGroup G] [Module F G] [DecidableEq G] (curve : Curve F G)

-- The entries are those of the parties the challenge names, and the challenge is the hash of all of it.
structure Transcribed (ve : RDkgith G) (stm : G) (pi : RDkgithProof F G) (hideIndices : List Nat) (ciphertext : Nat → PKECipherText F G)
    (opened : Nat → F × F) : Prop where
  ctexts : pi.ctexts = hideIndices.map fun i => (ciphertext i, i)
  shares : pi.sharesRands = (openIndices ve.vparams.N hideIndices).map fun i => ((opened i).1, (opened i).2, i)
  hashed : (curve.sha512 (transcript curve ve.ek stm (pi.polycom.take (ve.vparams.t + 1))
    ((List.range ve.vparams.N).flatMap (partyText curve ve hideIndices ciphertext opened)))).val = pi.challenge

variable {pi : RDkgithProof F G}

theorem verify_few_commitments {ve : RDkgith G} {stm : G} {draw : Nat → F}
    (few : pi.polycom.length < ve.vparams.t + 1) {verdict : Bool} : verify curve ve fuel stm pi draw ≠ .ok verdict := by
  intro verified
  obtain ⟨hideIndices, -, verified⟩ := (bind_ok_iff _ _ _).mp verified
  obtain ⟨commitments, indexed, -⟩ := (bind_ok_iff _ _ _).mp verified
  exact map_m_index_panics few indexed

theorem verify_transcribed {ve : RDkgith G} {stm : G} (draw : Nat → F)
    (expanded : expandChallenge curve ve.vparams fuel pi.challenge = .ok hideIndices) (enough : ve.vparams.t + 1 ≤ pi.polycom.length)
    {ciphertext : Nat → PKECipherText F G} {opened : Nat → F × F} (transcribed : Transcribed curve ve stm pi hideIndices ciphertext opened) :
    verify curve ve fuel stm pi draw = checkShares curve ve.vparams.t pi draw := by
  obtain ⟨listed, hidden, open'⟩ := expand_challenge_expanded curve ve.vparams fuel hideIndices expanded
  obtain ⟨ctexts, shares, hashed⟩ := transcribed
  have texts := reconstruct_listed curve ve hideIndices pi ciphertext opened (List.range ve.vparams.N) 0 0 (by rw [List.drop_zero, listed, ctexts]) shares
  rw [verify, expanded, ok_bind, map_m_index enough, ok_bind, if_neg, checkTranscript, texts, ok_bind]
  · dsimp only
    rw [if_neg (not_not.mpr hashed)]
  · rw [ctexts, shares, List.length_map, List.length_map, hidden, open']
    simp

theorem verify_not_transcribed {ve : RDkgith G} {stm : G} (draw : Nat → F)
    (expanded : expandChallenge curve ve.vparams fuel pi.challenge = .ok hideIndices) (enough : ve.vparams.t + 1 ≤ pi.polycom.length)
    (never : ∀ ciphertext opened, ¬ Transcribed curve ve stm pi hideIndices ciphertext opened) :
    verify curve ve fuel stm pi draw = .ok false := by
  obtain ⟨listed, hidden, open'⟩ := expand_challenge_expanded curve ve.vparams fuel hideIndices expanded
  rw [verify, expanded, ok_bind, map_m_index enough, ok_bind]
  by_cases sizes : pi.ctexts.length ≠ ve.vparams.N - ve.vparams.t ∨ pi.sharesRands.length ≠ ve.vparams.t ∨
      hideIndices.length ≠ ve.vparams.N - ve.vparams.t
  · rw [if_pos sizes]
    rfl
  · rw [if_neg sizes]
    simp only [not_or, not_not] at sizes
    obtain ⟨text, run, matched⟩ := reconstruct_returns curve ve hideIndices pi (List.range ve.vparams.N) 0 0
      (by rw [List.drop_zero, listed, sizes.1, hidden]) (by rw [List.drop_zero, sizes.2.1]; exact open'.symm)
    rw [checkTranscript, run, ok_bind]
    cases text with
    | none => rfl
    | some hashed =>
        dsimp only
        rw [if_pos]
        · rfl
        · intro same
          obtain ⟨numbers, openNumbers⟩ := matched rfl
          rw [List.drop_zero, listed] at numbers
          rw [List.drop_zero, ← openIndices] at openNumbers
          have distinct : hideIndices.Nodup := listed ▸ List.nodup_range.filter _
          obtain ⟨entry, isEntry, numbered⟩ := listed_function (⟨0, 0⟩, 0) pi.ctexts Prod.snd (numbers ▸ distinct)
          obtain ⟨share, isShare, shareNumbered⟩ := listed_function (0, 0, 0) pi.sharesRands (fun entry => entry.2.2)
            (openNumbers ▸ List.nodup_range.filter _)
          rw [numbers] at isEntry numbered
          rw [openNumbers] at isShare shareNumbered
          have ctexts : pi.ctexts = hideIndices.map fun i => ((entry i).1, i) :=
            isEntry.trans (List.map_congr_left fun i member => Prod.ext rfl (numbered i member))
          have shares : pi.sharesRands = (openIndices ve.vparams.N hideIndices).map fun i => ((share i).1, (share i).2.1, i) :=
            isShare.trans (List.map_congr_left fun i member => Prod.ext rfl (Prod.ext rfl (shareNumbered i member)))
          have texts := reconstruct_listed curve ve hideIndices pi (fun i => (entry i).1) (fun i => ((share i).1, (share i).2.1))
            (List.range ve.vparams.N) 0 0 (by rw [List.drop_zero, listed]; exact ctexts) shares
          rw [run] at texts
          refine never (fun i => (entry i).1) (fun i => ((share i).1, (share i).2.1)) ⟨ctexts, shares, ?_⟩
          rw [← Option.some.inj (Except.ok.inj texts)]
          exact same

end Verify


section Accepted

variable {F G : Type} [Field F] [AddCommGroup G] [Module F G] [DecidableEq G] (curve : Curve F G)

def proverCoeff (t : Nat) (draws : ProverDraws F) (wit : F) (j : Nat) : F := (wit :: (List.range t).map draws.coeff).getD j 0

variable {draws : ProverDraws F}

omit [AddCommGroup G] [Module F G] [DecidableEq G] in
theorem prover_share_sum {t : Nat} {wit : F} {i : Nat} (small : i + 1 < 2 ^ 32) :
    proverShare t draws wit i = ∑ j ∈ Finset.range (t + 1), proverCoeff t draws wit j * partyPoint F i ^ j := by
  rw [proverShare, shareValue, share_loop, share_x_point small, Finset.sum_range_succ', add_comm]
  refine congrArg₂ _ (Finset.sum_congr rfl fun j isIndex => ?_) (by simp [proverCoeff])
  rw [proverCoeff, List.getD_cons_succ]
  simp [List.getD_eq_getElem?_getD, Finset.mem_range.mp isIndex]

theorem check_proved_shares {ve : RDkgith G} {stm : G} {wit : F} {draw : Nat → F} (parties : ve.vparams.N < 2 ^ 32) :
    checkShares curve ve.vparams.t (provedProof curve ve stm wit draws hideIndices) draw = .ok true := by
  have small : ∀ i ∈ openIndices ve.vparams.N hideIndices, i + 1 < 2 ^ 32 := fun i member => by
    have inside := List.mem_range.mp (List.mem_of_mem_filter member)
    omega
  obtain ⟨⟨left, rights⟩, run, width, balanced⟩ := batch_scalars_ok (proverCoeff ve.vparams.t draws wit) ve.vparams.t
    (provedProof curve ve stm wit draws hideIndices).sharesRands (List.forall_mem_map.mpr small) draw 0 (List.replicate (ve.vparams.t + 1) 0)
    List.length_replicate
  have commitments : (provedProof curve ve stm wit draws hideIndices).polycom.length = ve.vparams.t + 1 := by
    simp [provedProof, proverPolycom]
  have start : (0 : F) = ∑ j ∈ Finset.range (ve.vparams.t + 1),
      proverCoeff ve.vparams.t draws wit j * (List.replicate (ve.vparams.t + 1) 0).getD j 0 := by
    refine (Finset.sum_eq_zero fun j isIndex => ?_).symm
    rw [List.getD_replicate _ (Finset.mem_range.mp isIndex), mul_zero]
  have scalar : left = ∑ j ∈ Finset.range (ve.vparams.t + 1), proverCoeff ve.vparams.t draws wit j * rights.getD j 0 :=
    balanced (List.forall_mem_map.mpr fun i member => prover_share_sum (small i member)) start
  have equal : left • curve.generator = ∑ j ∈ Finset.range (ve.vparams.t + 1), rights.getD j 0 •
      (provedProof curve ve stm wit draws hideIndices).polycom.getD j 0 := by
    rw [scalar, Finset.sum_smul]
    refine Finset.sum_congr rfl fun j isIndex => ?_
    have commitment := List.getD_map (n := j) (wit :: (List.range ve.vparams.t).map draws.coeff) 0 fun aj => aj • curve.generator
    rw [zero_smul] at commitment
    rw [mul_comm, mul_smul, provedProof, proverPolycom, commitment, proverCoeff]
  rw [checkShares, run, ok_bind]
  dsimp only
  rw [combine_ok (by rw [commitments, width]), ok_bind, commitments, decide_eq_true equal]
  rfl

-- verify(stm, prove(stm, w))
def provedVerdict (ve : RDkgith G) (fuel : Nat) (stm : G) (wit : F) (draws : ProverDraws F) (draw : Nat → F) : Go Bool := do
  verify curve ve fuel stm (← prove curve ve fuel stm wit draws) draw

theorem proved_accepted {ve : RDkgith G} {stm : G} {wit : F} {draw : Nat → F} (parties : ve.vparams.N < 2 ^ 32)
    (expanded : expandChallenge curve ve.vparams fuel (proverChallenge curve ve stm wit draws) = .ok hideIndices) :
    provedVerdict curve ve fuel stm wit draws draw = .ok true := by
  have transcribed : Transcribed curve ve stm (provedProof curve ve stm wit draws hideIndices) hideIndices (proverCiphertext curve ve draws wit)
      (fun i => (proverShare ve.vparams.t draws wit i, draws.rand i)) := by
    refine ⟨rfl, rfl, ?_⟩
    have text (i : Nat) : partyText curve ve hideIndices (proverCiphertext curve ve draws wit)
        (fun i => (proverShare ve.vparams.t draws wit i, draws.rand i)) i = (proverCiphertext curve ve draws wit i).toBytes curve := by
      rw [partyText]
      exact ite_self _
    have whole : (proverPolycom curve ve draws wit).take (ve.vparams.t + 1) = proverPolycom curve ve draws wit :=
      List.take_of_length_le (by simp [proverPolycom])
    rw [provedProof, whole, funext text]
    rfl
  rw [provedVerdict, prove_ok curve ve fuel stm wit draws hideIndices expanded, ok_bind,
    verify_transcribed curve draw expanded (by simp [provedProof, proverPolycom]) transcribed]
  exact check_proved_shares curve parties

-- Nothing that verify looks at depends on the base point.
theorem accepted_sound_iff (ve : RDkgith G) (fuel : Nat) (stm : G) (wit : F) (draws : ProverDraws F) (draw : Nat → F) (hideIndices : List Nat)
    (parties : ve.vparams.N < 2 ^ 32) (expanded : expandChallenge curve ve.vparams fuel (proverChallenge curve ve stm wit draws) = .ok hideIndices) :
    (provedVerdict curve ve fuel stm wit draws draw = .ok true → wit • ve.base = stm) ↔ wit • ve.base = stm :=
  ⟨fun sound => sound (proved_accepted curve parties expanded), fun matching _ => matching⟩

end Accepted

theorem accepted_sound_two_parties :
    2 < 2 ^ 32 ∧ ((provedVerdict (plainCurve 3 fun _ => ⟨List.replicate 64 0, List.length_replicate⟩) ⟨2, ⟨2, 1, 1⟩, 2⟩ 1 1 2
      ⟨fun _ => 1, fun _ => 2⟩ (fun _ => 1) = .ok true → (2 : ZMod 3) • (2 : ZMod 3) = 1) ↔ (2 : ZMod 3) • (2 : ZMod 3) = 1) :=
  ⟨by decide, accepted_sound_iff (plainCurve 3 fun _ => ⟨List.replicate 64 0, List.length_replicate⟩) ⟨2, ⟨2, 1, 1⟩, 2⟩ 1 1 2 ⟨fun _ => 1, fun _ => 2⟩
    (fun _ => 1) [0] (by decide) rfl⟩

theorem false_statement_accepted :
    provedVerdict (plainCurve 3 fun _ => ⟨List.replicate 64 0, List.length_replicate⟩) ⟨2, ⟨2, 1, 1⟩, 2⟩ 1 0 2
      ⟨fun _ => 1, fun _ => 2⟩ (fun _ => 1) = .ok true ∧ (2 : ZMod 3) • (2 : ZMod 3) ≠ 0 :=
  ⟨proved_accepted _ (by decide) rfl, by decide⟩

end Verenc

end Ceremony
