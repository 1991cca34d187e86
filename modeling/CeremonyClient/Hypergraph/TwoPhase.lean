import CeremonyClient.Hypergraph.Application

set_option autoImplicit false

namespace Ceremony

variable {t : AtomType} {p : PhaseType} {atom : Atom}

-- What a hypergraph is for: a size, and two sets of each type, the second of which takes away from the first.
@[ext] structure TwoPhase where
  size : Int
  member : AtomType → PhaseType → AtomId → Option Atom

namespace TwoPhase

def empty : TwoPhase := ⟨0, fun _ _ _ => none⟩

def Live (m : TwoPhase) (t : AtomType) (id : AtomId) : Prop := m.member t .adds id ≠ none ∧ m.member t .removes id = none

mutual
def AtomLive (m : TwoPhase) : Atom → Prop
  | .vertex v => Live m .vertex v.id
  | .hyperedge id extrinsics _ => AllLive m extrinsics ∧ Live m .hyperedge id
def AllLive (m : TwoPhase) : List (AtomId × Atom) → Prop
  | [] => True
  | (_, atom) :: rest => AtomLive m atom ∧ AllLive m rest
end

def IsExtrinsic (m : TwoPhase) (id : AtomId) : Prop :=
  ∃ other extrinsics extTree, m.member .hyperedge .adds other = some (.hyperedge other extrinsics extTree) ∧ ∃ e ∈ extrinsics, e.1 = id

def put (m : TwoPhase) (t : AtomType) (p : PhaseType) (atom : Atom) : TwoPhase :=
  { m with member := fun t' p' id => if t' = t ∧ p' = p ∧ id = atom.getId then some atom else m.member t' p' id }

open Classical in
noncomputable def remove (m : TwoPhase) (atom : Atom) : TwoPhase :=
  if ¬ m.AtomLive atom then (m.put atom.getAtomType .adds atom).put atom.getAtomType .removes atom
  else if m.IsExtrinsic atom.getId then m
  else { m.put atom.getAtomType .removes atom with size := m.size - atom.getSize }

open Classical in
noncomputable def step (m : TwoPhase) : HypergraphCall → TwoPhase
  | .addVertex v => { m.put .vertex .adds (.vertex v) with size := m.size + (Atom.vertex v).getSize }
  | .addHyperedge h =>
      if m.AllLive h.extrinsics ∧ m.member .hyperedge .removes h.id = none then
        { m.put .hyperedge .adds h.atom with size := m.size + h.atom.getSize }
      else m
  | .removeVertex v => m.remove (.vertex v)
  | .removeHyperedge h => m.remove h.atom

variable {m : TwoPhase}

theorem put_member {t' : AtomType} {p' : PhaseType} {id : AtomId} :
    (m.put t p atom).member t' p' id = if t' = t ∧ p' = p ∧ id = atom.getId then some atom else m.member t' p' id := rfl

@[simp] theorem put_size : (m.put t p atom).size = m.size := rfl

theorem all_live_iff (m : TwoPhase) (extrinsics : List (AtomId × Atom)) : m.AllLive extrinsics ↔ ∀ e ∈ extrinsics, m.AtomLive e.2 := by
  induction extrinsics with
  | nil => simp [AllLive]
  | cons e rest ih => rw [AllLive, ih, List.forall_mem_cons]

end TwoPhase

end Ceremony
