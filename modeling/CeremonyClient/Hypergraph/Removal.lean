import CeremonyClient.Hypergraph.Integrity

set_option autoImplicit false

namespace Ceremony

open GoSem

variable {m : TwoPhase} {id other : AtomId}

def TwoPhase.RefersTo (m : TwoPhase) (other id : AtomId) : Prop :=
  ∃ extrinsics extTree, m.member .hyperedge .adds other = some (.hyperedge other extrinsics extTree) ∧ ∃ e ∈ extrinsics, e.1 = id

def removal : Atom → HypergraphCall
  | .vertex v => .removeVertex v
  | .hyperedge id extrinsics extTree => .removeHyperedge ⟨id, extrinsics, extTree⟩

theorem removal_answered (env : HypergraphEnv) (atom : Atom) (hg : Hypergraph) (built : Built env hg) :
    Refined env ((view env hg).remove atom) ((removal atom).on env hg) ∧
      (((removal atom).on env hg).1 = .ok () ↔ ¬ ((view env hg).AtomLive atom ∧ (view env hg).IsExtrinsic atom.getId)) := by
  have looked := lookup_atom_looked env atom hg built
  have answered (text : String) := remove_answered env atom text _ _ looked.built (looked.view ▸ looked.answer)
  rw [looked.view] at answered
  cases atom with
  | vertex v =>
      have removed := answered "remove vertex"
      rw [Hypergraph.lookupAtom] at removed
      exact removed
  | hyperedge id extrinsics extTree => exact answered "remove hyperedge"

theorem remove_entered {atom : Atom} (allowed : ¬ (m.AtomLive atom ∧ m.IsExtrinsic atom.getId)) :
    (m.remove atom).member atom.getAtomType .removes atom.getId = some atom := by
  rw [TwoPhase.remove]
  by_cases before : m.AtomLive atom
  · rw [if_neg (not_not.mpr before), if_neg fun extrinsic => allowed ⟨before, extrinsic⟩]
    exact if_pos ⟨rfl, rfl, rfl⟩
  · rw [if_pos before]
    exact if_pos ⟨rfl, rfl, rfl⟩

theorem removed_not_live {atom : Atom} (allowed : ¬ (m.AtomLive atom ∧ m.IsExtrinsic atom.getId)) : ¬ (m.remove atom).AtomLive atom := by
  intro live
  have isLive := TwoPhase.atom_live_live _ atom live
  rw [TwoPhase.Live, remove_entered allowed] at isLive
  exact Option.some_ne_none _ isLive.2

theorem is_extrinsic_refers : m.IsExtrinsic id ↔ ∃ other, m.RefersTo other id := Iff.rfl

theorem refers_dead_iff (refers : m.RefersTo other id) : ¬ m.Live .hyperedge other ↔ m.member .hyperedge .removes other ≠ none := by
  obtain ⟨extrinsics, extTree, added, -⟩ := refers
  rw [TwoPhase.Live, added]
  simp

-- Where no live hyperedge refers to an atom, only a removed one can still block its removal.
theorem removal_succeeds_iff (env : HypergraphEnv) (calls : List HypergraphCall) (atom : Atom)
    (free : ∀ other, (view env (afterCalls env calls)).RefersTo other atom.getId → ¬ (view env (afterCalls env calls)).Live .hyperedge other) :
    (((removal atom).on env (afterCalls env calls)).1 = .ok () ∧
      (Hypergraph.lookupAtom env atom ((removal atom).on env (afterCalls env calls)).2).1 = false) ↔
    ¬ ((view env (afterCalls env calls)).AtomLive atom ∧ ∃ other, (view env (afterCalls env calls)).RefersTo other atom.getId ∧
      (view env (afterCalls env calls)).member .hyperedge .removes other ≠ none) := by
  obtain ⟨built, -⟩ := after_calls_refined env calls
  obtain ⟨refined, answer⟩ := removal_answered env atom (afterCalls env calls) built
  have dead : (view env (afterCalls env calls)).IsExtrinsic atom.getId ↔ ∃ other, (view env (afterCalls env calls)).RefersTo other atom.getId ∧
      (view env (afterCalls env calls)).member .hyperedge .removes other ≠ none := by
    rw [is_extrinsic_refers]
    refine exists_congr fun other => ⟨fun refers => ⟨refers, (refers_dead_iff refers).mp (free other refers)⟩, fun both => both.1⟩
  rw [answer, ← dead]
  refine ⟨fun both => both.1, fun allowed => ⟨allowed, ?_⟩⟩
  have looked := lookup_atom_looked env atom _ refined.built
  rw [refined.view] at looked
  rw [← Bool.not_eq_true, looked.answer]
  exact removed_not_live allowed

theorem put_keeps {t t' : AtomType} {p p' : PhaseType} {atom : Atom} (there : m.member t p id ≠ none) : (m.put t' p' atom).member t p id ≠ none := by
  rw [TwoPhase.put_member]
  split
  · exact Option.some_ne_none _
  · exact there

theorem remove_keeps {t : AtomType} {p : PhaseType} (atom : Atom) (there : m.member t p id ≠ none) : (m.remove atom).member t p id ≠ none := by
  rw [TwoPhase.remove]
  split
  · exact put_keeps (put_keeps there)
  · split
    · exact there
    · exact put_keeps there

theorem step_keeps {t : AtomType} {p : PhaseType} (call : HypergraphCall) (there : m.member t p id ≠ none) : (m.step call).member t p id ≠ none := by
  cases call with
  | addVertex v => exact put_keeps there
  | addHyperedge h =>
      rw [TwoPhase.step]
      split
      · exact put_keeps there
      · exact there
  | removeVertex v => exact remove_keeps (.vertex v) there
  | removeHyperedge h => exact remove_keeps h.atom there

theorem step_removal (m : TwoPhase) (atom : Atom) : m.step (removal atom) = m.remove atom := by
  cases atom <;> rfl

theorem plain_added :
    (abstractAfter [.addVertex plainVertex, .addHyperedge plainHyperedge]).member .hyperedge .adds other =
      if other = plainHyperedge.id then some plainHyperedge.atom else none := by
  by_cases same : other = plainHyperedge.id
  · rw [if_pos same, same]
    exact plain_view.1
  · have different : other ≠ ⟨plainAddress 0, plainAddress 2⟩ := same
    rw [if_neg same]
    simp [abstractAfter, TwoPhase.step, TwoPhase.put_member, TwoPhase.empty, TwoPhase.AllLive, TwoPhase.AtomLive, TwoPhase.Live, Atom.getId,
      plainHyperedge, Hyperedge.atom, different]

def deadReference : List HypergraphCall := [.addVertex plainVertex, .addHyperedge plainHyperedge, .removeHyperedge plainHyperedge]

theorem plain_members (t : AtomType) (p : PhaseType) :
    (abstractAfter deadReference).member t p id =
      if t = .hyperedge ∧ p = .removes ∧ id = plainHyperedge.id then some plainHyperedge.atom
      else (abstractAfter [.addVertex plainVertex, .addHyperedge plainHyperedge]).member t p id := by
  have live : (abstractAfter [.addVertex plainVertex, .addHyperedge plainHyperedge]).AtomLive plainHyperedge.atom := by
    simp [abstractAfter, TwoPhase.step, TwoPhase.put_member, TwoPhase.empty, TwoPhase.AllLive, TwoPhase.AtomLive, TwoPhase.Live, Atom.getId,
      plainHyperedge, Hyperedge.atom]
  have unreferred : ¬ (abstractAfter [.addVertex plainVertex, .addHyperedge plainHyperedge]).IsExtrinsic plainHyperedge.atom.getId := by
    rintro ⟨other, extrinsics, extTree, added, e, inside, isKey⟩
    rw [plain_added] at added
    split at added
    · cases added
      rw [List.mem_singleton.mp inside] at isKey
      exact absurd isKey (by decide)
    · cases added
  change ((abstractAfter [.addVertex plainVertex, .addHyperedge plainHyperedge]).remove plainHyperedge.atom).member t p id = _
  rw [TwoPhase.remove, if_neg (not_not.mpr live), if_neg unreferred]
  rfl

theorem plain_free (other : AtomId)
    (refers : (abstractAfter deadReference).RefersTo other plainVertex.id) :
    ¬ (abstractAfter deadReference).Live .hyperedge other := by
  obtain ⟨extrinsics, extTree, added, -⟩ := refers
  rw [plain_members, if_neg (by simp), plain_added] at added
  split at added
  · next same =>
      rw [TwoPhase.Live, plain_members _ .removes, if_pos ⟨rfl, rfl, same⟩]
      simp
  · cases added

theorem dead_hyperedge_blocks :
    (view plainEnv (afterCalls plainEnv deadReference)).Live .vertex plainVertex.id ∧
      (∀ other, (view plainEnv (afterCalls plainEnv deadReference)).RefersTo other plainVertex.id →
        ¬ (view plainEnv (afterCalls plainEnv deadReference)).Live .hyperedge other) ∧
      ((afterCalls plainEnv deadReference).removeVertex plainEnv plainVertex).1 ≠ .ok () := by
  obtain ⟨built, isView⟩ := after_calls_refined plainEnv deadReference
  have live : (abstractAfter deadReference).Live .vertex plainVertex.id := by
    rw [TwoPhase.Live, plain_members _ .adds, plain_members _ .removes, if_neg (by simp), if_neg (by simp)]
    simp [abstractAfter, TwoPhase.step, TwoPhase.put_member, TwoPhase.empty, TwoPhase.AllLive, TwoPhase.AtomLive, TwoPhase.Live, Atom.getId,
      plainHyperedge, Hyperedge.atom]
  have answer := (removal_answered plainEnv (.vertex plainVertex) _ built).2
  rw [isView] at answer ⊢
  refine ⟨live, plain_free, fun accepted => ?_⟩
  refine answer.mp accepted ⟨live, plainHyperedge.id, plainHyperedge.extrinsics, plainHyperedge.extTree, ?_,
    (plainVertex.id, .vertex plainVertex), List.mem_singleton_self _, rfl⟩
  rw [plain_members, if_neg (by simp), plain_added, if_pos rfl]
  rfl

theorem removal_succeeds_vertex :
    (((removal (.vertex plainVertex)).on plainEnv (afterCalls plainEnv [.addVertex plainVertex])).1 = .ok () ∧
      (Hypergraph.lookupAtom plainEnv (.vertex plainVertex) ((removal (.vertex plainVertex)).on plainEnv (afterCalls plainEnv [.addVertex plainVertex])).2).1 =
        false) ↔
    ¬ ((view plainEnv (afterCalls plainEnv [.addVertex plainVertex])).AtomLive (.vertex plainVertex) ∧
      ∃ other, (view plainEnv (afterCalls plainEnv [.addVertex plainVertex])).RefersTo other (Atom.vertex plainVertex).getId ∧
      (view plainEnv (afterCalls plainEnv [.addVertex plainVertex])).member .hyperedge .removes other ≠ none) := by
  refine removal_succeeds_iff plainEnv [.addVertex plainVertex] (.vertex plainVertex) ?_
  rw [(after_calls_refined plainEnv [.addVertex plainVertex]).2]
  rintro other ⟨extrinsics, extTree, added, -⟩
  simp [abstractAfter, TwoPhase.step, TwoPhase.put_member, TwoPhase.empty] at added

end Ceremony
