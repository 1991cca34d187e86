import CeremonyClient.Hypergraph.Accounting

set_option autoImplicit false

namespace Ceremony

variable {m : TwoPhase} {t : AtomType}

inductive Occurs (a : Atom) : Atom → Prop where
  | self : Occurs a a
  | extrinsic (id : AtomId) (extrinsics : List (AtomId × Atom)) (extTree : VectorCommitmentTree) (e : AtomId × Atom) (inside : e ∈ extrinsics)
      (below : Occurs a e.2) : Occurs a (.hyperedge id extrinsics extTree)

def HypergraphCall.atom : HypergraphCall → Atom
  | .addVertex v => .vertex v
  | .addHyperedge h => h.atom
  | .removeVertex v => .vertex v
  | .removeHyperedge h => h.atom

def Used (calls : List HypergraphCall) (a : Atom) : Prop := ∃ call ∈ calls, Occurs a call.atom

def Consistent (used : Atom → Prop) : Prop := ∀ a b, used a → used b → a.getId = b.getId → a = b

def ExtrinsicsKeyed (used : Atom → Prop) : Prop :=
  ∀ id extrinsics extTree, used (.hyperedge id extrinsics extTree) → ∀ e ∈ extrinsics, e.1 = e.2.getId

def ExtrinsicsUsed (used : Atom → Prop) : Prop :=
  ∀ id extrinsics extTree, used (.hyperedge id extrinsics extTree) → ∀ e ∈ extrinsics, used e.2

theorem occurs_trans {a b c : Atom} (first : Occurs a b) (second : Occurs b c) : Occurs a c := by
  induction second with
  | self => exact first
  | extrinsic id extrinsics extTree e inside below ih => exact .extrinsic id extrinsics extTree e inside ih

theorem used_extrinsics {calls : List HypergraphCall} : ExtrinsicsUsed (Used calls) := by
  intro id extrinsics extTree used e inside
  obtain ⟨call, member, occurs⟩ := used
  exact ⟨call, member, occurs_trans (.extrinsic id extrinsics extTree e inside .self) occurs⟩

namespace TwoPhase

section Integrity

variable (used : Atom → Prop)

structure Intact (m : TwoPhase) : Prop where
  members : ∀ t p id a, m.member t p id = some a → used a ∧ a.getId = id ∧ a.getAtomType = t
  extrinsics : ∀ id extrinsics extTree, m.member .hyperedge .adds id = some (.hyperedge id extrinsics extTree) →
    m.member .hyperedge .removes id = none → ∀ e ∈ extrinsics, m.Live e.2.getAtomType e.2.getId

theorem atom_live_live (m : TwoPhase) (a : Atom) (live : m.AtomLive a) : m.Live a.getAtomType a.getId := by
  cases a with
  | vertex v => exact live
  | hyperedge id extrinsics extTree => exact live.2

mutual
theorem live_atom_live (m : TwoPhase) (consistent : Consistent used) (below : ExtrinsicsUsed used) (intact : Intact used m) (a : Atom)
    (isUsed : used a) (live : m.Live a.getAtomType a.getId) : m.AtomLive a := by
  cases a with
  | vertex v => exact live
  | hyperedge id extrinsics extTree =>
      obtain ⟨there, kept⟩ := live
      obtain ⟨stored, isStored⟩ := Option.ne_none_iff_exists'.mp there
      obtain ⟨storedUsed, sameId, -⟩ := intact.members _ _ _ stored isStored
      rw [consistent stored _ storedUsed isUsed sameId] at isStored
      refine ⟨?_, there, kept⟩
      exact live_all_live m consistent below intact extrinsics (below id extrinsics extTree isUsed)
        (intact.extrinsics id extrinsics extTree isStored kept)
theorem live_all_live (m : TwoPhase) (consistent : Consistent used) (below : ExtrinsicsUsed used) (intact : Intact used m)
    (extrinsics : List (AtomId × Atom)) (areUsed : ∀ e ∈ extrinsics, used e.2) (live : ∀ e ∈ extrinsics, m.Live e.2.getAtomType e.2.getId) :
    m.AllLive extrinsics := by
  cases extrinsics with
  | nil => trivial
  | cons e rest =>
      obtain ⟨key, atom⟩ := e
      obtain ⟨firstUsed, restUsed⟩ := List.forall_mem_cons.mp areUsed
      obtain ⟨firstLive, restLive⟩ := List.forall_mem_cons.mp live
      exact ⟨live_atom_live m consistent below intact atom firstUsed firstLive, live_all_live m consistent below intact rest restUsed restLive⟩
end

variable {atom : Atom}

theorem put_members {p : PhaseType} (isUsed : used atom) (typed : atom.getAtomType = t)
    (members : ∀ t p id a, m.member t p id = some a → used a ∧ a.getId = id ∧ a.getAtomType = t) (t' : AtomType) (p' : PhaseType)
    (id : AtomId) (a : Atom) (found : (m.put t p atom).member t' p' id = some a) : used a ∧ a.getId = id ∧ a.getAtomType = t' := by
  rw [put_member] at found
  by_cases here : t' = t ∧ p' = p ∧ id = atom.getId
  · rw [if_pos here] at found
    rw [← Option.some.inj found]
    exact ⟨isUsed, here.2.2.symm, typed.trans here.1.symm⟩
  · rw [if_neg here] at found
    exact members t' p' id a found

theorem put_adds_live (m : TwoPhase) (t t' : AtomType) (atom : Atom) (id : AtomId) (live : m.Live t' id) : (m.put t .adds atom).Live t' id := by
  obtain ⟨there, kept⟩ := live
  refine ⟨?_, by rw [put_member, if_neg (by simp)]; exact kept⟩
  rw [put_member]
  by_cases here : t' = t ∧ PhaseType.adds = .adds ∧ id = atom.getId
  · rw [if_pos here]
    exact Option.some_ne_none atom
  · rw [if_neg here]
    exact there

theorem put_adds_removes : (m.put t .adds atom).put t .removes atom = (m.put t .removes atom).put t .adds atom := by
  apply TwoPhase.ext
  · rfl
  · funext t' p' id
    simp only [put_member]
    cases p' <;> simp

theorem put_adds_intact (m : TwoPhase) (t : AtomType) (atom : Atom) (isUsed : used atom) (typed : atom.getAtomType = t) (intact : Intact used m)
    (live : m.member t .removes atom.getId = none → ∀ extrinsics extTree, atom = .hyperedge atom.getId extrinsics extTree → ∀ e ∈ extrinsics, m.Live e.2.getAtomType e.2.getId) :
    Intact used (m.put t .adds atom) := by
  refine ⟨put_members used isUsed typed intact.members, fun id extrinsics extTree found kept e inside => ?_⟩
  apply put_adds_live
  rw [put_member, if_neg (by simp)] at kept
  rw [put_member] at found
  by_cases here : AtomType.hyperedge = t ∧ PhaseType.adds = .adds ∧ id = atom.getId
  · rw [if_pos here] at found
    refine live ?_ extrinsics extTree ?_ e inside
    · rw [← here.1, ← here.2.2]
      exact kept
    · rw [← here.2.2]
      exact Option.some.inj found
  · rw [if_neg here] at found
    exact intact.extrinsics id extrinsics extTree found kept e inside

theorem put_removes_intact (isUsed : used atom) (typed : atom.getAtomType = t) (intact : Intact used m)
    (unreferenced : ∀ id extrinsics extTree,
      m.member .hyperedge .adds id = some (.hyperedge id extrinsics extTree) → m.member .hyperedge .removes id = none →
        ∀ e ∈ extrinsics, ¬ (e.2.getAtomType = t ∧ e.2.getId = atom.getId)) : Intact used (m.put t .removes atom) := by
  refine ⟨put_members used isUsed typed intact.members, fun id extrinsics extTree found kept e inside => ?_⟩
  rw [put_member, if_neg (by simp)] at found
  have keptBefore : m.member .hyperedge .removes id = none := by
    rw [put_member] at kept
    by_cases here : AtomType.hyperedge = t ∧ PhaseType.removes = .removes ∧ id = atom.getId
    · rw [if_pos here] at kept
      cases kept
    · rwa [if_neg here] at kept
  obtain ⟨there, stays⟩ := intact.extrinsics id extrinsics extTree found keptBefore e inside
  have other := unreferenced id extrinsics extTree found keptBefore e inside
  refine ⟨by rw [put_member, if_neg (by simp)]; exact there, ?_⟩
  rw [put_member, if_neg fun here => other ⟨here.1, here.2.2⟩]
  exact stays

theorem remove_intact (consistent : Consistent used) (keyed : ExtrinsicsKeyed used) (below : ExtrinsicsUsed used)
    (isUsed : used atom) (intact : Intact used m) : Intact used (m.remove atom) := by
  rw [remove]
  by_cases live : m.AtomLive atom
  · rw [if_neg (not_not.mpr live)]
    by_cases extrinsic : m.IsExtrinsic atom.getId
    · rw [if_pos extrinsic]
      exact intact
    · rw [if_neg extrinsic]
      have kept := put_removes_intact used isUsed rfl intact fun id extrinsics extTree found _ e inside same =>
        extrinsic ⟨id, extrinsics, extTree, found, e, inside, by
          rw [keyed id extrinsics extTree (intact.members _ _ _ _ found).1 e inside]
          exact same.2⟩
      exact ⟨kept.members, kept.extrinsics⟩
  · rw [if_pos live]
    -- An absent atom is not referred to by a live hyperedge, whose extrinsics are all live.
    have absent : ¬ m.Live atom.getAtomType atom.getId := mt (live_atom_live used m consistent below intact atom isUsed) live
    have removed := put_removes_intact used isUsed rfl intact fun id extrinsics extTree found kept e inside same => by
      have there := intact.extrinsics id extrinsics extTree found kept e inside
      rw [same.1, same.2] at there
      exact absent there
    rw [put_adds_removes]
    apply put_adds_intact used _ _ atom isUsed rfl removed
    intro kept
    rw [put_member, if_pos ⟨rfl, rfl, rfl⟩] at kept
    cases kept

theorem step_intact {call : HypergraphCall} (consistent : Consistent used) (keyed : ExtrinsicsKeyed used) (below : ExtrinsicsUsed used)
    (isUsed : used call.atom) (intact : Intact used m) : Intact used (m.step call) := by
  cases call with
  | addVertex v =>
      have added := put_adds_intact used m .vertex (.vertex v) isUsed rfl intact fun _ _ _ isHyperedge => by cases isHyperedge
      exact ⟨added.members, added.extrinsics⟩
  | addHyperedge h =>
      rw [step]
      by_cases entered : m.AllLive h.extrinsics ∧ m.member .hyperedge .removes h.id = none
      · rw [if_pos entered]
        have added := put_adds_intact used m .hyperedge h.atom isUsed rfl intact fun _ extrinsics extTree isHyperedge e inside => by
          rw [Hyperedge.atom, Atom.hyperedge.injEq] at isHyperedge
          rw [← isHyperedge.2.1] at inside
          exact atom_live_live m e.2 ((all_live_iff m h.extrinsics).mp entered.1 e inside)
        exact ⟨added.members, added.extrinsics⟩
      · rw [if_neg entered]
        exact intact
  | removeVertex v => exact remove_intact used consistent keyed below isUsed intact
  | removeHyperedge h => exact remove_intact used consistent keyed below isUsed intact

end Integrity

end TwoPhase

theorem abstract_intact {used : Atom → Prop} (consistent : Consistent used) (keyed : ExtrinsicsKeyed used) (below : ExtrinsicsUsed used)
    {calls : List HypergraphCall} (areUsed : ∀ call ∈ calls, used call.atom) : TwoPhase.Intact used (abstractAfter calls) := by
  induction calls using List.reverseRecOn with
  | nil => exact ⟨fun t p id a found => (by cases found), fun id extrinsics extTree found => (by cases found)⟩
  | append_singleton calls call ih =>
      rw [abstractAfter, List.foldl_append]
      exact TwoPhase.step_intact used consistent keyed below (areUsed call (by simp))
        (ih fun earlier member => areUsed earlier (List.mem_append_left _ member))

theorem hypergraph_referential_integrity (env : HypergraphEnv) (calls : List HypergraphCall) (consistent : Consistent (Used calls))
    (keyed : ExtrinsicsKeyed (Used calls)) (h : Hyperedge)
    (added : (view env (afterCalls env calls)).member .hyperedge .adds h.id = some h.atom)
    (kept : (view env (afterCalls env calls)).member .hyperedge .removes h.id = none) :
    (∀ e ∈ h.extrinsics, (view env (afterCalls env calls)).Live e.2.getAtomType e.2.getId) ∧
      ((afterCalls env calls).lookupHyperedge env h).1 = true := by
  obtain ⟨built, isView⟩ := after_calls_refined env calls
  have intact := abstract_intact consistent keyed used_extrinsics fun call member => ⟨call, member, .self⟩
  rw [← isView] at intact
  have isUsed := (intact.members _ _ _ _ added).1
  refine ⟨intact.extrinsics h.id h.extrinsics h.extTree added kept, (lookup_atom_looked env h.atom _ built).answer.mpr ?_⟩
  apply TwoPhase.live_atom_live (Used calls) _ consistent used_extrinsics intact h.atom isUsed
  exact ⟨by rw [show h.atom.getId = h.id from rfl, show h.atom.getAtomType = .hyperedge from rfl, added]; simp, kept⟩

def plainHyperedge : Hyperedge := ⟨⟨plainAddress 0, plainAddress 2⟩, [(plainVertex.id, .vertex plainVertex)], emptyTree⟩

theorem plain_used {a : Atom} (isUsed : Used [.addVertex plainVertex, .addHyperedge plainHyperedge] a) :
    a = .vertex plainVertex ∨ a = plainHyperedge.atom := by
  have vertex_only : Occurs a (.vertex plainVertex) → a = .vertex plainVertex := fun occurs => by cases occurs; rfl
  obtain ⟨call, member, occurs⟩ := isUsed
  simp only [List.mem_cons, List.not_mem_nil, or_false] at member
  cases member with
  | inl isAdd =>
      rw [isAdd] at occurs
      exact .inl (vertex_only occurs)
  | inr isAdd =>
      rw [isAdd] at occurs
      cases occurs with
      | self => exact .inr rfl
      | extrinsic id extrinsics extTree e inside below =>
          rw [List.mem_singleton.mp inside] at below
          exact .inl (vertex_only below)

theorem plain_view :
    (abstractAfter [.addVertex plainVertex, .addHyperedge plainHyperedge]).member .hyperedge .adds plainHyperedge.id = some plainHyperedge.atom ∧
      (abstractAfter [.addVertex plainVertex, .addHyperedge plainHyperedge]).member .hyperedge .removes plainHyperedge.id = none := by
  simp [abstractAfter, TwoPhase.step, TwoPhase.put_member, TwoPhase.empty, TwoPhase.AllLive, TwoPhase.AtomLive, TwoPhase.Live, Atom.getId,
    plainHyperedge, Hyperedge.atom]

theorem hypergraph_referential_integrity_two :
    (∀ e ∈ plainHyperedge.extrinsics, (view plainEnv (afterCalls plainEnv [.addVertex plainVertex, .addHyperedge plainHyperedge])).Live
        e.2.getAtomType e.2.getId) ∧
      ((afterCalls plainEnv [.addVertex plainVertex, .addHyperedge plainHyperedge]).lookupHyperedge plainEnv plainHyperedge).1 = true := by
  have isView := (after_calls_refined plainEnv [.addVertex plainVertex, .addHyperedge plainHyperedge]).2
  apply hypergraph_referential_integrity plainEnv
  · intro a b aUsed bUsed same
    cases plain_used aUsed with
    | inl isVertex =>
        cases plain_used bUsed with
        | inl alsoVertex => rw [isVertex, alsoVertex]
        | inr isHyperedge =>
            rw [isVertex, isHyperedge] at same
            exact absurd same (by decide)
    | inr isHyperedge =>
        cases plain_used bUsed with
        | inl isVertex =>
            rw [isVertex, isHyperedge] at same
            exact absurd same (by decide)
        | inr alsoHyperedge => rw [isHyperedge, alsoHyperedge]
  · intro id extrinsics extTree isUsed e inside
    cases plain_used isUsed with
    | inl isVertex => cases isVertex
    | inr isHyperedge =>
        cases isHyperedge
        rw [List.mem_singleton.mp inside]
        rfl
  · rw [isView]
    exact plain_view.1
  · rw [isView]
    exact plain_view.2

end Ceremony
