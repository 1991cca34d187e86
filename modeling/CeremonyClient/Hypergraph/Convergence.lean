import CeremonyClient.Hypergraph.Integrity

set_option autoImplicit false

namespace Ceremony

variable {m other : TwoPhase} {t : AtomType} {p : PhaseType} {atom : Atom}

namespace HypergraphCall

def OnVertex : HypergraphCall → Prop
  | .addVertex _ => True
  | .removeVertex _ => True
  | _ => False

def OnFlatHyperedge : HypergraphCall → Prop
  | .addHyperedge h => ∀ e ∈ h.extrinsics, ∃ v, e.2 = .vertex v
  | .removeHyperedge h => ∀ e ∈ h.extrinsics, ∃ v, e.2 = .vertex v
  | _ => False

def Removes : HypergraphCall → Prop
  | .removeVertex _ => True
  | .removeHyperedge _ => True
  | _ => False

def id (call : HypergraphCall) : AtomId := call.atom.getId

end HypergraphCall

def RemovalsUnreferenced (calls : List HypergraphCall) : Prop :=
  ∀ call ∈ calls, call.Removes → ∀ other ∈ calls, ∀ id extrinsics extTree, other.atom = .hyperedge id extrinsics extTree →
    ∀ e ∈ extrinsics, e.1 ≠ call.id

namespace TwoPhase

def SameMembers (m other : TwoPhase) : Prop := ∀ t p id, m.member t p id = none ↔ other.member t p id = none

theorem same_live (same : SameMembers m other) {id : AtomId} : m.Live t id ↔ other.Live t id := by
  rw [Live, Live, Ne, same t .adds id, same t .removes id]

mutual
theorem same_atom_live (same : SameMembers m other) (atom : Atom) : m.AtomLive atom ↔ other.AtomLive atom := by
  cases atom with
  | vertex v => exact same_live same
  | hyperedge id extrinsics extTree => rw [AtomLive, AtomLive, same_all_live same extrinsics, same_live same]
theorem same_all_live (same : SameMembers m other) (extrinsics : List (AtomId × Atom)) :
    m.AllLive extrinsics ↔ other.AllLive extrinsics := by
  cases extrinsics with
  | nil => simp [AllLive]
  | cons e rest =>
      obtain ⟨key, atom⟩ := e
      rw [AllLive, AllLive, same_atom_live same atom, same_all_live same rest]
end

theorem put_none_iff {t' : AtomType} {p' : PhaseType} {id : AtomId} :
    (m.put t p atom).member t' p' id = none ↔ ¬ (t' = t ∧ p' = p ∧ id = atom.getId) ∧ m.member t' p' id = none := by
  rw [put_member]
  by_cases here : t' = t ∧ p' = p ∧ id = atom.getId
  · simp [here]
  · simp [here]

theorem remove_none_iff (free : ¬ m.IsExtrinsic atom.getId) {id : AtomId} :
    (m.remove atom).member t p id = none ↔ ¬ (t = atom.getAtomType ∧ id = atom.getId) ∧ m.member t p id = none := by
  by_cases live : m.AtomLive atom
  · have there := (atom_live_live m atom live).1
    rw [remove, if_neg (not_not.mpr live), if_neg free]
    change (m.put atom.getAtomType .removes atom).member t p id = none ↔ _
    rw [put_none_iff]
    cases p with
    | adds =>
        by_cases here : t = atom.getAtomType ∧ id = atom.getId
        · rw [here.1, here.2]
          simp [there]
        · simp [here]
    | removes => simp
  · rw [remove, if_pos live, put_none_iff, put_none_iff]
    cases p with
    | adds => simp
    | removes => simp

-- What a sequence of calls on one type leaves, whatever their order.
structure Settled (t : AtomType) (effective : HypergraphCall → Prop) (calls : List HypergraphCall) (m : TwoPhase) : Prop where
  adds : ∀ id, m.member t .adds id = none ↔ ∀ call ∈ calls, effective call → call.id ≠ id
  removes : ∀ id, m.member t .removes id = none ↔ ∀ call ∈ calls, call.Removes → call.id ≠ id

theorem forall_mem_concat {α : Type} {property : α → Prop} {list : List α} {last : α} :
    (∀ x ∈ list ++ [last], property x) ↔ property last ∧ ∀ x ∈ list, property x := by
  rw [List.forall_mem_append, List.forall_mem_singleton, and_comm]

theorem settled_remove (t : AtomType) (effective : HypergraphCall → Prop) (calls : List HypergraphCall) (m : TwoPhase) (call : HypergraphCall)
    (before : Settled t effective calls m) (removes : call.Removes) (isEffective : effective call) (ofType : call.atom.getAtomType = t)
    (free : ¬ m.IsExtrinsic call.id) : Settled t effective (calls ++ [call]) (m.remove call.atom) := by
  constructor
  · intro id
    rw [remove_none_iff free, forall_mem_concat, before.adds, ofType]
    simp [isEffective, HypergraphCall.id, eq_comm]
  · intro id
    rw [remove_none_iff free, forall_mem_concat, before.removes, ofType]
    simp [removes, HypergraphCall.id, eq_comm]

theorem settled_add (t : AtomType) (effective : HypergraphCall → Prop) (calls : List HypergraphCall) (m : TwoPhase) (call : HypergraphCall)
    (before : Settled t effective calls m) (kept : ¬ call.Removes) (isEffective : effective call) :
    Settled t effective (calls ++ [call]) (m.put t .adds call.atom) := by
  constructor
  · intro id
    rw [put_none_iff, forall_mem_concat, before.adds]
    simp [isEffective, HypergraphCall.id, eq_comm]
  · intro id
    rw [put_none_iff, forall_mem_concat, before.removes]
    simp [kept]

theorem settled_skip (t : AtomType) (effective : HypergraphCall → Prop) (calls : List HypergraphCall) (m : TwoPhase) (call : HypergraphCall)
    (before : Settled t effective calls m) (kept : ¬ call.Removes)
    (covered : effective call → ∃ earlier ∈ calls, effective earlier ∧ earlier.id = call.id) : Settled t effective (calls ++ [call]) m := by
  constructor
  · intro id
    rw [forall_mem_concat, before.adds]
    constructor
    · intro apart
      refine ⟨?_, apart⟩
      intro isEffective same
      obtain ⟨earlier, member, earlierEffective, sameId⟩ := covered isEffective
      exact apart earlier member earlierEffective (sameId.trans same)
    · exact fun apart => apart.2
  · intro id
    rw [forall_mem_concat, before.removes]
    simp [kept]

theorem settled_same (t : AtomType) {effective : HypergraphCall → Prop} {calls others : List HypergraphCall} (same : calls.Perm others)
    (settled : Settled t effective calls m) (otherSettled : Settled t effective others other) (p : PhaseType) (id : AtomId) :
    m.member t p id = none ↔ other.member t p id = none := by
  have sameMem (call : HypergraphCall) : call ∈ calls ↔ call ∈ others := same.mem_iff
  cases p with
  | adds => simp only [settled.adds, otherSettled.adds, sameMem]
  | removes => simp only [settled.removes, otherSettled.removes, sameMem]

theorem step_source (m : TwoPhase) (call : HypergraphCall) (t : AtomType) (p : PhaseType) (id : AtomId) :
    (m.step call).member t p id = m.member t p id ∨ (t = call.atom.getAtomType ∧ (m.step call).member t p id = some call.atom) := by
  have put_source (n : TwoPhase) (p' : PhaseType) (atom : Atom) :
      (n.put atom.getAtomType p' atom).member t p id = n.member t p id ∨
        (t = atom.getAtomType ∧ (n.put atom.getAtomType p' atom).member t p id = some atom) := by
    rw [put_member]
    by_cases here : t = atom.getAtomType ∧ p = p' ∧ id = atom.getId
    · exact .inr ⟨here.1, if_pos here⟩
    · exact .inl (if_neg here)
  have remove_source (atom : Atom) :
      (m.remove atom).member t p id = m.member t p id ∨ (t = atom.getAtomType ∧ (m.remove atom).member t p id = some atom) := by
    rw [remove]
    by_cases live : m.AtomLive atom
    · rw [if_neg (not_not.mpr live)]
      by_cases extrinsic : m.IsExtrinsic atom.getId
      · rw [if_pos extrinsic]
        exact .inl rfl
      · rw [if_neg extrinsic]
        exact put_source m .removes atom
    · rw [if_pos live]
      cases put_source (m.put atom.getAtomType .adds atom) .removes atom with
      | inl same =>
          rw [same]
          exact put_source m .adds atom
      | inr entered => exact .inr entered
  cases call with
  | addVertex v => exact put_source m .adds (.vertex v)
  | addHyperedge h =>
      rw [step]
      by_cases entered : m.AllLive h.extrinsics ∧ m.member .hyperedge .removes h.id = none
      · rw [if_pos entered]
        exact put_source m .adds h.atom
      · rw [if_neg entered]
        exact .inl rfl
  | removeVertex v => exact remove_source (.vertex v)
  | removeHyperedge h => exact remove_source h.atom

theorem step_other_type (m : TwoPhase) (call : HypergraphCall) (t : AtomType) (other : t ≠ call.atom.getAtomType) (p : PhaseType) (id : AtomId) :
    (m.step call).member t p id = m.member t p id := by
  cases step_source m call t p id with
  | inl same => exact same
  | inr entered => exact absurd entered.1 other

end TwoPhase

-- An add of a hyperedge has an effect when its extrinsics are live; they are vertices, which calls on hyperedges leave alone.
def HypergraphCall.Effective (m : TwoPhase) : HypergraphCall → Prop
  | .addHyperedge h => m.AllLive h.extrinsics
  | _ => True

namespace TwoPhase

structure VertexPhase (calls : List HypergraphCall) (m : TwoPhase) : Prop where
  settled : Settled .vertex (fun _ => True) calls m
  hyperedges : ∀ p id, m.member .hyperedge p id = none

theorem vertex_phase (calls : List HypergraphCall) (onVertex : ∀ call ∈ calls, call.OnVertex) : VertexPhase calls (abstractAfter calls) := by
  induction calls using List.reverseRecOn with
  | nil => exact ⟨⟨fun id => by simp [abstractAfter, empty], fun id => by simp [abstractAfter, empty]⟩, fun p id => rfl⟩
  | append_singleton calls call ih =>
      have before := ih fun earlier member => onVertex earlier (List.mem_append_left _ member)
      have last := onVertex call (by simp)
      rw [abstractAfter, List.foldl_append]
      change VertexPhase _ (step (abstractAfter calls) call)
      generalize abstractAfter calls = m at before
      have ofType : call.atom.getAtomType = .vertex := by
        cases call with
        | addVertex v => rfl
        | removeVertex v => rfl
        | addHyperedge h => cases last
        | removeHyperedge h => cases last
      have hyperedges (p : PhaseType) (id : AtomId) : (step m call).member .hyperedge p id = none :=
        (step_other_type m call .hyperedge (by simp [ofType]) p id).trans (before.hyperedges p id)
      have free (id : AtomId) : ¬ m.IsExtrinsic id := by
        intro extrinsic
        obtain ⟨other, extrinsics, extTree, found, -⟩ := extrinsic
        rw [before.hyperedges] at found
        cases found
      refine ⟨?_, hyperedges⟩
      cases call with
      | addVertex v =>
          have added := settled_add .vertex _ calls m (.addVertex v) before.settled id trivial
          exact ⟨added.adds, added.removes⟩
      | removeVertex v => exact settled_remove .vertex _ calls m (.removeVertex v) before.settled trivial trivial rfl (free _)
      | addHyperedge h => cases last
      | removeHyperedge h => cases last

structure HyperedgePhase (base : TwoPhase) (calls : List HypergraphCall) (m : TwoPhase) : Prop where
  settled : Settled .hyperedge (HypergraphCall.Effective base) calls m
  vertices : ∀ p id, m.member .vertex p id = base.member .vertex p id
  sources : ∀ id a, m.member .hyperedge .adds id = some a → ∃ call ∈ calls, call.atom = a

theorem flat_all_live (m base : TwoPhase) (vertices : ∀ p id, m.member .vertex p id = base.member .vertex p id)
    (extrinsics : List (AtomId × Atom)) (flat : ∀ e ∈ extrinsics, ∃ v, e.2 = .vertex v) : m.AllLive extrinsics ↔ base.AllLive extrinsics := by
  rw [all_live_iff, all_live_iff]
  apply forall₂_congr
  intro e inside
  obtain ⟨v, isVertex⟩ := flat e inside
  rw [isVertex, AtomLive, AtomLive, Live, Live, vertices, vertices]

theorem removals_unreferenced_front (calls : List HypergraphCall) (call : HypergraphCall) (unreferenced : RemovalsUnreferenced (calls ++ [call])) :
    RemovalsUnreferenced calls :=
  fun one inside removes other otherInside =>
    unreferenced one (List.mem_append_left _ inside) removes other (List.mem_append_left _ otherInside)

theorem hyperedge_phase (base : TwoPhase) (fresh : ∀ p id, base.member .hyperedge p id = none) (calls : List HypergraphCall)
    (onHyperedge : ∀ call ∈ calls, call.OnFlatHyperedge) (unreferenced : RemovalsUnreferenced calls) :
    HyperedgePhase base calls (calls.foldl step base) := by
  induction calls using List.reverseRecOn with
  | nil =>
      refine ⟨⟨fun id => by simp [fresh], fun id => by simp [fresh]⟩, fun p id => rfl, ?_⟩
      intro id a found
      rw [List.foldl_nil, fresh] at found
      cases found
  | append_singleton calls call ih =>
      have before := ih (fun earlier member => onHyperedge earlier (List.mem_append_left _ member)) (removals_unreferenced_front calls call unreferenced)
      have last := onHyperedge call (by simp)
      rw [List.foldl_append]
      change HyperedgePhase base _ (step (calls.foldl step base) call)
      generalize calls.foldl step base = m at before
      have ofType : call.atom.getAtomType = .hyperedge := by
        cases call with
        | addVertex v => cases last
        | removeVertex v => cases last
        | addHyperedge h => rfl
        | removeHyperedge h => rfl
      have vertices (p : PhaseType) (id : AtomId) : (step m call).member .vertex p id = base.member .vertex p id :=
        (step_other_type m call .vertex (by simp [ofType]) p id).trans (before.vertices p id)
      have sources (id : AtomId) (a : Atom) (found : (step m call).member .hyperedge .adds id = some a) : ∃ one ∈ calls ++ [call], one.atom = a := by
        cases step_source m call .hyperedge .adds id with
        | inl same =>
            obtain ⟨one, inside, isAtom⟩ := before.sources id a (same.symm.trans found)
            exact ⟨one, List.mem_append_left _ inside, isAtom⟩
        | inr entered => exact ⟨call, by simp, Option.some.inj (entered.2.symm.trans found)⟩
      refine ⟨?_, vertices, sources⟩
      cases call with
      | addVertex v => cases last
      | removeVertex v => cases last
      | addHyperedge h =>
          have sameLive := flat_all_live m base before.vertices h.extrinsics last
          rw [step]
          by_cases entered : m.AllLive h.extrinsics ∧ m.member .hyperedge .removes h.id = none
          · rw [if_pos entered]
            have added := settled_add .hyperedge _ calls m (.addHyperedge h) before.settled id (sameLive.mp entered.1)
            exact ⟨added.adds, added.removes⟩
          · rw [if_neg entered]
            apply settled_skip .hyperedge _ calls m (.addHyperedge h) before.settled id
            intro effective
            have gone : m.member .hyperedge .removes h.id ≠ none := fun kept => entered ⟨sameLive.mpr effective, kept⟩
            rw [Ne, before.settled.removes] at gone
            push Not at gone
            obtain ⟨earlier, member, removes, same⟩ := gone
            refine ⟨earlier, member, ?_, same⟩
            cases earlier with
            | addHyperedge h => cases removes
            | _ => trivial
      | removeHyperedge h =>
          refine settled_remove .hyperedge _ calls m (.removeHyperedge h) before.settled trivial trivial rfl ?_
          intro extrinsic
          obtain ⟨other, extrinsics, extTree, found, e, inside, same⟩ := extrinsic
          obtain ⟨one, member, isAtom⟩ := before.sources other _ found
          exact unreferenced (.removeHyperedge h) (by simp) trivial one (List.mem_append_left _ member) other extrinsics extTree isAtom e inside same

theorem effective_same {m other : TwoPhase} (same : SameMembers m other) : HypergraphCall.Effective m = HypergraphCall.Effective other := by
  funext call
  apply propext
  cases call with
  | addHyperedge h => exact same_all_live same h.extrinsics
  | _ => exact Iff.rfl

theorem phases_same (vertexCalls vertexOthers hyperedgeCalls hyperedgeOthers : List HypergraphCall) (sameVertex : vertexCalls.Perm vertexOthers)
    (sameHyperedge : hyperedgeCalls.Perm hyperedgeOthers) (onVertex : ∀ call ∈ vertexCalls, call.OnVertex)
    (onHyperedge : ∀ call ∈ hyperedgeCalls, call.OnFlatHyperedge) (unreferenced : RemovalsUnreferenced hyperedgeCalls) :
    SameMembers (abstractAfter (vertexCalls ++ hyperedgeCalls)) (abstractAfter (vertexOthers ++ hyperedgeOthers)) := by
  have vertexPhase := vertex_phase vertexCalls onVertex
  have vertexOther := vertex_phase vertexOthers fun call member => onVertex call (sameVertex.mem_iff.mpr member)
  have sameBase : SameMembers (abstractAfter vertexCalls) (abstractAfter vertexOthers) := by
    intro t p id
    cases t with
    | vertex => exact settled_same .vertex sameVertex vertexPhase.settled vertexOther.settled p id
    | hyperedge => rw [vertexPhase.hyperedges, vertexOther.hyperedges]
  have phase := hyperedge_phase _ vertexPhase.hyperedges hyperedgeCalls onHyperedge unreferenced
  have otherPhase := hyperedge_phase _ vertexOther.hyperedges hyperedgeOthers (fun call member => onHyperedge call (sameHyperedge.mem_iff.mpr member))
    fun call member removes other otherMember =>
      unreferenced call (sameHyperedge.mem_iff.mpr member) removes other (sameHyperedge.mem_iff.mpr otherMember)
  intro t p id
  simp only [abstractAfter, List.foldl_append]
  cases t with
  | vertex =>
      have here := phase.vertices p id
      have there := otherPhase.vertices p id
      rw [abstractAfter] at here there
      rw [here, there]
      exact sameBase .vertex p id
  | hyperedge =>
      have settled := otherPhase.settled
      rw [← effective_same sameBase] at settled
      exact settled_same .hyperedge sameHyperedge phase.settled settled p id

end TwoPhase

theorem looked_same (env : HypergraphEnv) (calls others : List HypergraphCall)
    (same : TwoPhase.SameMembers (abstractAfter calls) (abstractAfter others)) (atom : Atom) :
    (Hypergraph.lookupAtom env atom (afterCalls env calls)).1 = (Hypergraph.lookupAtom env atom (afterCalls env others)).1 := by
  obtain ⟨built, isView⟩ := after_calls_refined env calls
  obtain ⟨otherBuilt, otherView⟩ := after_calls_refined env others
  rw [Bool.eq_iff_iff, (lookup_atom_looked env atom _ built).answer, (lookup_atom_looked env atom _ otherBuilt).answer, isView, otherView]
  exact TwoPhase.same_atom_live same atom

theorem hypergraph_convergence (env : HypergraphEnv) (vertexCalls vertexOthers hyperedgeCalls hyperedgeOthers : List HypergraphCall)
    (sameVertex : vertexCalls.Perm vertexOthers) (sameHyperedge : hyperedgeCalls.Perm hyperedgeOthers)
    (onVertex : ∀ call ∈ vertexCalls, call.OnVertex) (onHyperedge : ∀ call ∈ hyperedgeCalls, call.OnFlatHyperedge)
    (unreferenced : RemovalsUnreferenced hyperedgeCalls) :
    (∀ v, ((afterCalls env (vertexCalls ++ hyperedgeCalls)).lookupVertex env v).1 =
        ((afterCalls env (vertexOthers ++ hyperedgeOthers)).lookupVertex env v).1) ∧
      ∀ h, ((afterCalls env (vertexCalls ++ hyperedgeCalls)).lookupHyperedge env h).1 =
        ((afterCalls env (vertexOthers ++ hyperedgeOthers)).lookupHyperedge env h).1 := by
  have same := TwoPhase.phases_same vertexCalls vertexOthers hyperedgeCalls hyperedgeOthers sameVertex sameHyperedge onVertex onHyperedge unreferenced
  refine ⟨fun v => ?_, fun h => looked_same env _ _ same h.atom⟩
  have found := looked_same env _ _ same (.vertex v)
  rwa [Hypergraph.lookupAtom, Hypergraph.lookupAtom] at found

theorem hypergraph_convergence_swapped :
    (∀ v, ((afterCalls plainEnv [.addVertex plainVertex, .addHyperedge plainHyperedge, .removeHyperedge plainHyperedge]).lookupVertex plainEnv v).1 =
        ((afterCalls plainEnv [.addVertex plainVertex, .removeHyperedge plainHyperedge, .addHyperedge plainHyperedge]).lookupVertex plainEnv v).1) ∧
      ∀ h, ((afterCalls plainEnv [.addVertex plainVertex, .addHyperedge plainHyperedge, .removeHyperedge plainHyperedge]).lookupHyperedge plainEnv h).1 =
        ((afterCalls plainEnv [.addVertex plainVertex, .removeHyperedge plainHyperedge, .addHyperedge plainHyperedge]).lookupHyperedge plainEnv h).1 := by
  have flat : ∀ e ∈ plainHyperedge.extrinsics, ∃ v, e.2 = .vertex v := by
    intro e inside
    exact ⟨plainVertex, by rw [List.mem_singleton.mp inside]⟩
  refine hypergraph_convergence plainEnv [.addVertex plainVertex] [.addVertex plainVertex]
    [.addHyperedge plainHyperedge, .removeHyperedge plainHyperedge] [.removeHyperedge plainHyperedge, .addHyperedge plainHyperedge]
    (List.Perm.refl _) (List.Perm.swap _ _ _) ?_ ?_ ?_
  · intro call inside
    rw [List.mem_singleton.mp inside]
    trivial
  · simp only [List.forall_mem_cons, List.not_mem_nil, false_imp_iff, implies_true, and_true]
    exact ⟨flat, flat⟩
  · intro call inside removes other otherInside id extrinsics extTree isAtom e member
    simp only [List.mem_cons, List.not_mem_nil, or_false] at inside otherInside
    have isCall : call.atom = plainHyperedge.atom := by cases inside with | inl is => rw [is]; rfl | inr is => rw [is]; rfl
    have isOther : other.atom = plainHyperedge.atom := by cases otherInside with | inl is => rw [is]; rfl | inr is => rw [is]; rfl
    rw [isOther] at isAtom
    cases isAtom
    rw [List.mem_singleton.mp member, HypergraphCall.id, isCall]
    decide

-- A hyperedge under the identifier of a vertex that another hyperedge refers to.
def aliasHyperedge : Hyperedge := ⟨plainVertex.id, [], emptyTree⟩

theorem alias_removal_depends_on_order :
    [HypergraphCall.addHyperedge aliasHyperedge, .addHyperedge plainHyperedge, .removeHyperedge aliasHyperedge].Perm
        [.addHyperedge aliasHyperedge, .removeHyperedge aliasHyperedge, .addHyperedge plainHyperedge] ∧
      ((afterCalls plainEnv [.addVertex plainVertex, .addHyperedge aliasHyperedge, .addHyperedge plainHyperedge,
        .removeHyperedge aliasHyperedge]).lookupHyperedge plainEnv aliasHyperedge).1 = true ∧
      ((afterCalls plainEnv [.addVertex plainVertex, .addHyperedge aliasHyperedge, .removeHyperedge aliasHyperedge,
        .addHyperedge plainHyperedge]).lookupHyperedge plainEnv aliasHyperedge).1 = false := by
  refine ⟨.cons _ (.swap _ _ _), ?_⟩
  decide +kernel

end Ceremony
