import CeremonyClient.Hypergraph.Members
import CeremonyClient.Lib.Runs

set_option autoImplicit false

namespace Ceremony

open GoSem

variable {atom : Atom}

open Classical in
noncomputable def liveSize (m : TwoPhase) (x : AtomType × AtomId) : Int :=
  if m.member x.1 .removes x.2 = none then ((m.member x.1 .adds x.2).map Atom.getSize).getD 0 else 0

def SizeAccounted (m : TwoPhase) : Prop := (Function.support (liveSize m)).Finite ∧ m.size = ∑ᶠ x, liveSize m x

open Classical in
def CallAccounted (m : TwoPhase) : HypergraphCall → Prop
  | .addVertex v =>
      if m.member .vertex .removes v.id = none then liveSize m (.vertex, v.id) = 0 else (Atom.vertex v).getSize = 0
  | .addHyperedge h => m.AllLive h.extrinsics → m.member .hyperedge .removes h.id = none → liveSize m (.hyperedge, h.id) = 0
  | .removeVertex v =>
      m.AtomLive (.vertex v) → ¬ m.IsExtrinsic v.id → liveSize m (.vertex, v.id) = (Atom.vertex v).getSize
  | .removeHyperedge h =>
      if m.AtomLive h.atom then ¬ m.IsExtrinsic h.id → liveSize m (.hyperedge, h.id) = h.atom.getSize
      else liveSize m (.hyperedge, h.id) = 0

section Sums

variable {ι : Type} [DecidableEq ι]

theorem finsum_update {weight : ι → Int} (finite : (Function.support weight).Finite) {i : ι} {value : Int} :
    (Function.support (Function.update weight i value)).Finite ∧
      ∑ᶠ x, Function.update weight i value x = (∑ᶠ x, weight x) + (value - weight i) := by
  have inside : Function.support weight ⊆ ↑(insert i finite.toFinset) := by
    intro x member
    exact Finset.mem_coe.mpr (Finset.mem_insert_of_mem (finite.mem_toFinset.mpr member))
  have insideUpdated : Function.support (Function.update weight i value) ⊆ ↑(insert i finite.toFinset) := by
    intro x member
    by_cases same : x = i
    · simp [same]
    · rw [Function.mem_support, Function.update_of_ne same] at member
      exact inside member
  refine ⟨(Finset.finite_toSet _).subset insideUpdated, ?_⟩
  rw [finsum_eq_sum_of_support_subset _ insideUpdated, finsum_eq_sum_of_support_subset _ inside,
    Finset.sum_update_of_mem (Finset.mem_insert_self _ _), ← Finset.add_sum_erase _ weight (Finset.mem_insert_self i finite.toFinset),
    Finset.sdiff_singleton_eq_erase]
  ring

end Sums

theorem accounted_change (m after : TwoPhase) (x : AtomType × AtomId) (value change : Int) (accounted : SizeAccounted m)
    (weights : liveSize after = Function.update (liveSize m) x value) (sizes : after.size = m.size + change) :
    SizeAccounted after ↔ change = value - liveSize m x := by
  obtain ⟨finite, isSize⟩ := accounted
  obtain ⟨finiteAfter, sum⟩ := finsum_update finite
  rw [SizeAccounted, weights, sizes, isSize, sum]
  constructor
  · exact fun both => add_left_cancel both.2
  · exact fun same => ⟨finiteAfter, by rw [same]⟩

theorem live_size_put (m : TwoPhase) (t : AtomType) (p : PhaseType) (atom : Atom) :
    liveSize (m.put t p atom) = Function.update (liveSize m) (t, atom.getId) (liveSize (m.put t p atom) (t, atom.getId)) := by
  funext x
  by_cases same : x = (t, atom.getId)
  · rw [same, Function.update_self]
  · have other : ¬ (x.1 = t ∧ x.2 = atom.getId) := fun both => same (Prod.ext both.1 both.2)
    have others : ∀ p', (m.put t p atom).member x.1 p' x.2 = m.member x.1 p' x.2 := by
      intro p'
      rw [TwoPhase.put_member, if_neg fun all => other ⟨all.1, all.2.2⟩]
    rw [Function.update_of_ne same, liveSize, liveSize, others, others]

theorem live_size_put_adds (m : TwoPhase) (t : AtomType) (atom : Atom) (kept : m.member t .removes atom.getId = none) :
    liveSize (m.put t .adds atom) (t, atom.getId) = atom.getSize := by
  simp [liveSize, TwoPhase.put_member, kept]

theorem live_size_put_removes {m : TwoPhase} {t : AtomType} : liveSize (m.put t .removes atom) (t, atom.getId) = 0 := by
  simp [liveSize, TwoPhase.put_member]

theorem remove_accounted (m : TwoPhase) (accounted : SizeAccounted m) :
    SizeAccounted (m.remove atom) ↔ (¬ m.AtomLive atom → liveSize m (atom.getAtomType, atom.getId) = 0) ∧
      (m.AtomLive atom → ¬ m.IsExtrinsic atom.getId → liveSize m (atom.getAtomType, atom.getId) = atom.getSize) := by
  rw [TwoPhase.remove]
  by_cases live : m.AtomLive atom
  · rw [if_neg (not_not.mpr live)]
    by_cases extrinsic : m.IsExtrinsic atom.getId
    · rw [if_pos extrinsic]
      exact ⟨fun _ => ⟨fun absent => absurd live absent, fun _ not_one => absurd extrinsic not_one⟩, fun _ => accounted⟩
    · have weights : liveSize (m.put atom.getAtomType .removes atom) = Function.update (liveSize m) (atom.getAtomType, atom.getId) 0 := by
        rw [live_size_put, live_size_put_removes]
      rw [if_neg extrinsic]
      refine (accounted_change m { m.put atom.getAtomType .removes atom with size := m.size - atom.getSize }
        (atom.getAtomType, atom.getId) 0 (- atom.getSize) accounted weights (sub_eq_add_neg _ _)).trans ?_
      constructor
      · exact fun same => ⟨fun absent => absurd live absent, fun _ _ => by omega⟩
      · intro both
        have same := both.2 live extrinsic
        omega
  · rw [if_pos live]
    have weights : liveSize ((m.put atom.getAtomType .adds atom).put atom.getAtomType .removes atom) =
        Function.update (liveSize m) (atom.getAtomType, atom.getId) 0 := by
      rw [live_size_put, live_size_put_removes, live_size_put m, Function.update_idem]
    rw [accounted_change m _ (atom.getAtomType, atom.getId) 0 0 accounted weights (add_zero _).symm]
    constructor
    · exact fun same => ⟨fun _ => by omega, fun there => absurd there live⟩
    · intro both
      have same := both.1 live
      omega

theorem step_accounted (m : TwoPhase) (call : HypergraphCall) (accounted : SizeAccounted m) : SizeAccounted (m.step call) ↔ CallAccounted m call := by
  cases call with
  | addVertex v =>
      rw [TwoPhase.step, CallAccounted]
      have change := accounted_change m { m.put .vertex .adds (.vertex v) with size := m.size + (Atom.vertex v).getSize } (.vertex, v.id)
        _ (Atom.vertex v).getSize accounted (live_size_put m .vertex .adds (.vertex v)) rfl
      rw [change]
      by_cases kept : m.member .vertex .removes v.id = none
      · have same : liveSize (m.put .vertex .adds (.vertex v)) (.vertex, v.id) = (Atom.vertex v).getSize :=
          live_size_put_adds m .vertex (.vertex v) kept
        rw [if_pos kept]
        change (Atom.vertex v).getSize = liveSize (m.put .vertex .adds (.vertex v)) (.vertex, v.id) - _ ↔ _
        omega
      · have gone : liveSize (m.put .vertex .adds (.vertex v)) (.vertex, v.id) = 0 := by simp [liveSize, TwoPhase.put_member, kept]
        have before : liveSize m (.vertex, v.id) = 0 := by simp [liveSize, kept]
        rw [if_neg kept]
        change (Atom.vertex v).getSize = liveSize (m.put .vertex .adds (.vertex v)) (.vertex, v.id) - _ ↔ _
        omega
  | addHyperedge h =>
      rw [TwoPhase.step, CallAccounted]
      by_cases entered : m.AllLive h.extrinsics ∧ m.member .hyperedge .removes h.id = none
      · rw [if_pos entered]
        have same : liveSize (m.put .hyperedge .adds h.atom) (.hyperedge, h.id) = h.atom.getSize :=
          live_size_put_adds m .hyperedge h.atom entered.2
        rw [accounted_change m { m.put .hyperedge .adds h.atom with size := m.size + h.atom.getSize } (.hyperedge, h.id)
          _ h.atom.getSize accounted (live_size_put m .hyperedge .adds h.atom) rfl]
        change h.atom.getSize = liveSize (m.put .hyperedge .adds h.atom) (.hyperedge, h.id) - _ ↔ _
        constructor
        · exact fun isChange _ _ => by omega
        · intro condition
          have before := condition entered.1 entered.2
          omega
      · rw [if_neg entered]
        exact ⟨fun _ live kept => absurd ⟨live, kept⟩ entered, fun _ => accounted⟩
  | removeVertex v =>
      rw [TwoPhase.step, CallAccounted, remove_accounted m accounted]
      refine ⟨fun both => both.2, fun condition => ⟨fun absent => ?_, condition⟩⟩
      change liveSize m (.vertex, v.id) = 0
      rw [liveSize]
      by_cases kept : m.member .vertex .removes v.id = none
      · have nothing : m.member .vertex .adds v.id = none := by_contra fun there => absent ⟨there, kept⟩
        simp [nothing]
      · simp [kept]
  | removeHyperedge h =>
      rw [TwoPhase.step, CallAccounted, remove_accounted m accounted]
      by_cases live : m.AtomLive h.atom
      · rw [if_pos live]
        exact ⟨fun both => both.2 live, fun condition => ⟨fun absent => absurd live absent, fun _ => condition⟩⟩
      · rw [if_neg live]
        exact ⟨fun both => both.1 live, fun condition => ⟨fun _ => condition, fun there => absurd there live⟩⟩

theorem empty_accounted : SizeAccounted TwoPhase.empty := by
  have nothing : liveSize TwoPhase.empty = fun _ => 0 := by
    funext x
    simp [liveSize, TwoPhase.empty]
  rw [SizeAccounted, nothing]
  simp [TwoPhase.empty]

theorem hypergraph_size_iff (env : HypergraphEnv) (calls : List HypergraphCall) :
    (∀ front rest, calls = front ++ rest → SizeAccounted (view env (afterCalls env front))) ↔
      ∀ front call rest, calls = front ++ call :: rest → CallAccounted (view env (afterCalls env front)) call := by
  have run : ∀ front, view env (afterCalls env front) = runActions (fun call m => TwoPhase.step m call) front TwoPhase.empty :=
    fun front => (after_calls_refined env front).2
  simp only [run]
  exact run_holds_iff (fun call m => TwoPhase.step m call) (fun _ => True) SizeAccounted (fun call m => CallAccounted m call)
    (fun _ _ _ => trivial) (fun call m _ accounted => step_accounted m call accounted) calls TwoPhase.empty trivial empty_accounted

def plainEnv : HypergraphEnv where
  tree := plainPrimitives
  gob := ⟨fun _ => some [], fun _ => none, fun _ => none⟩
  verEncFromBytes bytes := ⟨bytes, []⟩
  bloomFilterIndices _ := ⟨[0, 1, 2], rfl⟩

def plainAddress (first : UInt8) : Address := ⟨first :: List.replicate 31 0, rfl⟩

def plainVertex : Vertex := ⟨⟨plainAddress 0, plainAddress 1⟩, [⟨[7], [8]⟩], emptyTree⟩

theorem repeated_vertex_counts_twice :
    (afterCalls plainEnv [.addVertex plainVertex, .addVertex plainVertex]).size = 108 ∧
      ¬ SizeAccounted (view plainEnv (afterCalls plainEnv [.addVertex plainVertex, .addVertex plainVertex])) := by
  have first := (step_accounted TwoPhase.empty (.addVertex plainVertex) empty_accounted).mpr (by simp [CallAccounted, liveSize, TwoPhase.empty])
  have isView := (after_calls_refined plainEnv [.addVertex plainVertex, .addVertex plainVertex]).2
  have isSize : (view plainEnv (afterCalls plainEnv [.addVertex plainVertex, .addVertex plainVertex])).size = 108 := by
    rw [isView]
    rfl
  refine ⟨isSize, ?_⟩
  rw [isView]
  intro accounted
  have found := (step_accounted _ (.addVertex plainVertex) first).mp accounted
  simp [CallAccounted, liveSize, TwoPhase.step, TwoPhase.put_member, TwoPhase.empty, Atom.getId, Atom.getSize, plainVertex] at found

end Ceremony
