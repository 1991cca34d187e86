import CeremonyClient.Time.DataTimeReel

set_option autoImplicit false

namespace Ceremony

open GoSem

-- The store restores the parent selector as the hash of the input.
structure MasterFrame (prim : Primitives) where
  frame : ClockFrame
  selector : Fin poseidonOrder
  inputHash : Fin poseidonOrder
  isSelector : frame.getSelector prim = .ok selector
  isInputHash : (do
    let input ← slice frame.input 0 516
    returned (prim.poseidonHashBytes input)) = .ok inputHash

variable {prim : Primitives}

namespace MasterFrame

def number (f : MasterFrame prim) : UInt64 := f.frame.frameNumber

def parent (f : MasterFrame prim) : Nat := setBytes f.frame.parentSelector

-- The last check of VerifyMasterClockFrame.
def Verified (f : MasterFrame prim) : Prop := f.inputHash.val = f.parent

end MasterFrame

-- The frames that wait for an earlier one, under their own numbers.
structure PendingFrames (prim : Primitives) where
  frames : Table UInt64 (List (MasterFrame prim))
  keyed : ∀ number waiting, frames.lookup number = some waiting → ∀ f ∈ waiting, f.number = number

namespace PendingFrames

def none : PendingFrames prim := ⟨∅, nofun⟩

def add (p : PendingFrames prim) (f : MasterFrame prim) : PendingFrames prim where
  frames := p.frames.insert f.number ((p.frames.lookup f.number).getD [] ++ [f])
  keyed := by
    intro number waiting found g member
    by_cases same : number = f.number
    · rw [same, AList.lookup_insert] at found
      rw [← Option.some.inj found] at member
      cases List.mem_append.mp member with
      | inl earlier =>
          cases before : p.frames.lookup f.number with
          | none => rw [before] at earlier; cases earlier
          | some old =>
              rw [before] at earlier
              exact (p.keyed f.number old before g earlier).trans same.symm
      | inr new => exact (congrArg MasterFrame.number (List.mem_singleton.mp new)).trans same.symm
    · rw [AList.lookup_insert_ne same] at found
      exact p.keyed number waiting found g member

def delete (p : PendingFrames prim) (number : UInt64) : PendingFrames prim where
  frames := p.frames.erase number
  keyed := by
    intro other waiting found
    by_cases same : other = number
    · rw [same, AList.lookup_erase] at found
      cases found
    · rw [AList.lookup_erase_ne same] at found
      exact p.keyed other waiting found

end PendingFrames

structure MasterTimeReel (prim : Primitives) where
  head : MasterFrame prim
  pending : PendingFrames prim
  stored : Table UInt64 (MasterFrame prim)

variable {waiting : List (MasterFrame prim)} {f : MasterFrame prim}

namespace MasterTimeReel

-- PutMasterClockFrame followed by the new head.
def adopt (m : MasterTimeReel prim) (f : MasterFrame prim) : MasterTimeReel prim :=
  { m with stored := m.stored.insert f.number f, head := f }

-- GetMasterClockFrame: only number, difficulty, input and output are stored.
def getMasterClockFrame (m : MasterTimeReel prim) (frameNumber : UInt64) : Except GoError ClockFrame :=
  match m.stored.lookup frameNumber with
  | none => .error errNotFound
  | some f => .ok ⟨f.frame.filter, frameNumber, 0, f.frame.difficulty, beBytes 32 f.inputHash.val, f.frame.input, f.frame.output, [], none, []⟩

-- The first waiting frame that names the head as its parent becomes the head.
def adoptNext (m : MasterTimeReel prim) (waiting : List (MasterFrame prim)) : MasterTimeReel prim :=
  match waiting.find? fun f => f.parent = m.head.selector.val with
  | some f => m.adopt f
  | none => m

def clearNext (m : MasterTimeReel prim) (prev : UInt64) : MasterTimeReel prim :=
  if m.head.number ≠ prev then { m with pending := m.pending.delete m.head.number }
  else { m with pending := m.pending.delete (m.head.number + 1) }

-- One round of processPending over the frames that wait for the next number.
def processNext (m : MasterTimeReel prim) (waiting : List (MasterFrame prim)) : MasterTimeReel prim :=
  (m.adoptNext waiting).clearNext m.head.number

theorem find_next (m : MasterTimeReel prim) (found : m.pending.frames.lookup (m.head.number + 1) = some waiting)
    (isNext : waiting.find? (fun f => f.parent = m.head.selector.val) = some f) :
    f ∈ waiting ∧ f.number = m.head.number + 1 ∧ f.parent = m.head.selector.val := by
  have member := List.mem_of_find?_eq_some isNext
  have linked := List.find?_some isNext
  rw [decide_eq_true_eq] at linked
  exact ⟨member, m.pending.keyed _ _ found f member, linked⟩

theorem process_next_pending (m : MasterTimeReel prim) (found : m.pending.frames.lookup (m.head.number + 1) = some waiting) :
    (m.processNext waiting).pending = m.pending.delete (m.head.number + 1) := by
  rw [processNext, adoptNext, clearNext]
  cases isNext : waiting.find? (fun f => f.parent = m.head.selector.val) with
  | none => rw [if_neg fun moved => moved rfl]
  | some f =>
      obtain ⟨-, isNumber, -⟩ := find_next m found isNext
      have moved : (m.adopt f).head.number ≠ m.head.number := by
        change f.number ≠ m.head.number
        rw [isNumber]
        exact next_ne.symm
      rw [if_pos moved]
      exact congrArg m.pending.delete isNumber

theorem pending_shrinks {m : MasterTimeReel prim} (found : m.pending.frames.lookup (m.head.number + 1) = some waiting) :
    (m.processNext waiting).pending.frames.entries.length < m.pending.frames.entries.length := by
  rw [process_next_pending m found]
  have present : m.head.number + 1 ∈ m.pending.frames.keys :=
    AList.mem_keys.mp (AList.lookup_isSome.mp (by rw [found]; rfl))
  obtain ⟨_, front, back, -, whole, rest⟩ := List.exists_of_kerase present
  change (m.pending.frames.entries.kerase _).length < _
  rw [rest, whole, List.length_append, List.length_append, List.length_cons]
  omega

def drainPending (m : MasterTimeReel prim) : MasterTimeReel prim :=
  match _found : m.pending.frames.lookup (m.head.number + 1) with
  | none => m
  | some waiting => (m.processNext waiting).drainPending
termination_by m.pending.frames.entries.length
decreasing_by exact pending_shrinks _found

def prune (m : MasterTimeReel prim) : MasterTimeReel prim :=
  let deletes := m.pending.frames.keys.filter fun number => number < m.head.number
  { m with pending := deletes.foldl PendingFrames.delete m.pending }

def processPending (m : MasterTimeReel prim) : MasterTimeReel prim := m.drainPending.prune

-- A frame that follows the head but names another parent is reported as bad and forgotten.
def receive (m : MasterTimeReel prim) (f : MasterFrame prim) : MasterTimeReel prim :=
  if m.head.number < f.number then
    if f.number - m.head.number = 1 then
      if f.parent ≠ m.head.selector.val then m else (m.adopt f).processPending
    else processPending { m with pending := m.pending.add f }
  else m

def start (genesis : MasterFrame prim) : MasterTimeReel prim :=
  ⟨genesis, .none, (∅ : Table UInt64 (MasterFrame prim)).insert genesis.number genesis⟩

end MasterTimeReel

def Follows (f child : MasterFrame prim) : Prop := child.number.toNat = f.number.toNat + 1 ∧ child.parent = f.selector.val

def FollowsIn (received : List (MasterFrame prim)) (f child : MasterFrame prim) : Prop := child ∈ received ∧ Follows f child

-- The last frame of a chain from genesis within the received frames that none of them extends.
structure ChainEnd (received : List (MasterFrame prim)) (genesis last : MasterFrame prim) : Prop where
  chain : Relation.ReflTransGen (FollowsIn received) genesis last
  maximal : ∀ child, ¬ FollowsIn received last child

theorem chain_end_unique (received : List (MasterFrame prim)) (genesis last other : MasterFrame prim)
    (unforked : ∀ f ∈ received, ∀ g ∈ received, f.number = g.number → f.parent = g.parent → f = g)
    (isEnd : ChainEnd received genesis last) (otherEnd : ChainEnd received genesis other) : other = last := by
  have functional : Relator.RightUnique (FollowsIn received) := by
    intro f first second isFirst isSecond
    refine unforked first isFirst.1 second isSecond.1 (UInt64.toNat_inj.mp ?_) ?_
    · rw [isFirst.2.1, isSecond.2.1]
    · rw [isFirst.2.2, isSecond.2.2]
  cases Relation.ReflTransGen.total_of_right_unique functional isEnd.chain otherEnd.chain with
  | inl further =>
      cases Relation.ReflTransGen.cases_head further with
      | inl same => exact same.symm
      | inr step => obtain ⟨child, extension, -⟩ := step; exact absurd extension (isEnd.maximal child)
  | inr further =>
      cases Relation.ReflTransGen.cases_head further with
      | inl same => exact same
      | inr step => obtain ⟨child, extension, -⟩ := step; exact absurd extension (otherEnd.maximal child)

-- What holds for every received frame: it is not above the head, or waits, or has the next number and another parent.
def Kept (m : MasterTimeReel prim) (f : MasterFrame prim) : Prop :=
  f.number ≤ m.head.number ∨ (∃ waiting, m.pending.frames.lookup f.number = some waiting ∧ f ∈ waiting) ∨
    f.number.toNat = m.head.number.toNat + 1 ∧ f.parent ≠ m.head.selector.val

structure ChainStored (genesis : MasterFrame prim) (m : MasterTimeReel prim) : Prop where
  first : m.stored.lookup genesis.number = some genesis
  last : m.stored.lookup m.head.number = some m.head
  linked : ∀ number f, m.stored.lookup number = some f →
    f.number = number ∧ genesis.number ≤ number ∧ number ≤ m.head.number ∧
      (f = genesis ∨ ∃ prev, m.stored.lookup prev.number = some prev ∧ Follows prev f)

structure MasterSound (genesis : MasterFrame prim) (received : List (MasterFrame prim)) (m : MasterTimeReel prim) : Prop where
  stored : ChainStored genesis m
  reached : Relation.ReflTransGen (FollowsIn received) genesis m.head
  accounted : ∀ f ∈ received, Kept m f
  waiting : ∀ number frames, m.pending.frames.lookup number = some frames → number ≠ 0 ∧ ∀ f ∈ frames, f ∈ received
  inside : ∀ number f, m.stored.lookup number = some f → f = genesis ∨ f ∈ received

theorem adopt_stored {genesis : MasterFrame prim} {m : MasterTimeReel prim} (stored : ChainStored genesis m) (follows : Follows m.head f) :
    ChainStored genesis (m.adopt f) := by
  have higher : m.head.number < f.number := by
    rw [UInt64.lt_iff_toNat_lt, follows.1]
    omega
  have above : ∀ number, number ≤ m.head.number → number ≠ f.number := by
    intro number below same
    rw [same] at below
    exact absurd higher (UInt64.not_lt.mpr below)
  have headStored := stored.linked _ _ stored.last
  refine ⟨?_, AList.lookup_insert _, fun number g found => ?_⟩
  · rw [MasterTimeReel.adopt, AList.lookup_insert_ne (above _ headStored.2.1)]
    exact stored.first
  · simp only [MasterTimeReel.adopt] at found ⊢
    by_cases same : number = f.number
    · rw [same, AList.lookup_insert] at found
      cases found
      refine ⟨same.symm, ?_, by rw [same]; exact UInt64.le_refl _, .inr ⟨m.head, ?_, follows⟩⟩
      · rw [same]
        exact UInt64.le_trans headStored.2.1 (UInt64.le_of_lt higher)
      · rw [AList.lookup_insert_ne (above _ (UInt64.le_refl _))]
        exact stored.last
    · rw [AList.lookup_insert_ne same] at found
      obtain ⟨isNumber, fromGenesis, upToHead, parent⟩ := stored.linked number g found
      refine ⟨isNumber, fromGenesis, UInt64.le_trans upToHead (UInt64.le_of_lt higher), parent.imp_right ?_⟩
      rintro ⟨prev, isPrev, isParent⟩
      refine ⟨prev, ?_, isParent⟩
      rw [AList.lookup_insert_ne (above _ (stored.linked _ _ isPrev).2.2.1)]
      exact isPrev

variable {genesis : MasterFrame prim} {received : List (MasterFrame prim)} {m : MasterTimeReel prim}

variable {p : PendingFrames prim}

theorem lookup_delete {number other : UInt64} :
    (p.delete number).frames.lookup other = if other = number then none else p.frames.lookup other := by
  by_cases same : other = number
  · rw [if_pos same, same]
    exact AList.lookup_erase ..
  · rw [if_neg same]
    exact AList.lookup_erase_ne same

theorem lookup_delete_all {deletes : List UInt64} {number : UInt64} :
    (deletes.foldl PendingFrames.delete p).frames.lookup number = if number ∈ deletes then none else p.frames.lookup number := by
  induction deletes generalizing p with
  | nil => rfl
  | cons first tail ih =>
      rw [List.foldl_cons, ih, lookup_delete]
      by_cases same : number = first
      · rw [if_pos same, if_pos (List.mem_cons.mpr (.inl same)), ite_self]
      · rw [if_neg same]
        simp only [List.mem_cons, same, false_or]

theorem lookup_add (number : UInt64) :
    (p.add f).frames.lookup number =
      if number = f.number then some ((p.frames.lookup number).getD [] ++ [f]) else p.frames.lookup number := by
  by_cases same : number = f.number
  · rw [if_pos same, same]
    exact AList.lookup_insert _
  · rw [if_neg same]
    exact AList.lookup_insert_ne same

theorem reached_more {more : List (MasterFrame prim)} {last : MasterFrame prim}
    (reached : Relation.ReflTransGen (FollowsIn received) genesis last) (still : ∀ g ∈ received, g ∈ more) :
    Relation.ReflTransGen (FollowsIn more) genesis last := by
  have wider : FollowsIn received ≤ FollowsIn more := fun _ _ step => ⟨still _ step.1, step.2⟩
  exact Relation.ReflTransGen.mono wider _ _ reached

theorem adopt_sound (sound : MasterSound genesis received m) {more : List (MasterFrame prim)} (still : ∀ g ∈ received, g ∈ more)
    (others : ∀ g ∈ more, g ∈ received ∨ g = f) (member : f ∈ more) (follows : Follows m.head f) :
    MasterSound genesis more (m.adopt f) := by
  have higher := follows.1
  have before := reached_more sound.reached still
  refine ⟨adopt_stored sound.stored follows, before.tail ⟨member, follows⟩, fun g isReceived => ?_, fun number frames found => ?_,
    fun number g found => ?_⟩
  · cases others g isReceived with
    | inl earlier =>
        rcases sound.accounted g earlier with below | waits | ⟨next, -⟩
        · refine .inl (UInt64.le_iff_toNat_le.mpr ?_)
          have bound := UInt64.le_iff_toNat_le.mp below
          change g.number.toNat ≤ f.number.toNat
          omega
        · exact .inr (.inl waits)
        · refine .inl (UInt64.le_iff_toNat_le.mpr ?_)
          change g.number.toNat ≤ f.number.toNat
          omega
    | inr same =>
        rw [same]
        exact .inl (UInt64.le_refl _)
  · obtain ⟨nonzero, isInside⟩ := sound.waiting number frames found
    exact ⟨nonzero, fun g waits => still g (isInside g waits)⟩
  · simp only [MasterTimeReel.adopt] at found
    by_cases same : number = f.number
    · rw [same, AList.lookup_insert] at found
      cases found
      exact .inr member
    · rw [AList.lookup_insert_ne same] at found
      exact (sound.inside number g found).imp_right (still g)

theorem delete_sound (sound : MasterSound genesis received m) {pending : PendingFrames prim}
    (fewer : ∀ number frames, pending.frames.lookup number = some frames → m.pending.frames.lookup number = some frames)
    (otherwise : ∀ f ∈ received, ∀ frames, m.pending.frames.lookup f.number = some frames → f ∈ frames →
      pending.frames.lookup f.number = some frames ∨ f.number ≤ m.head.number ∨
        f.number.toNat = m.head.number.toNat + 1 ∧ f.parent ≠ m.head.selector.val) :
    MasterSound genesis received { m with pending := pending } := by
  refine ⟨⟨sound.stored.first, sound.stored.last, sound.stored.linked⟩, sound.reached, fun f member => ?_, fun number frames found =>
    sound.waiting number frames (fewer number frames found), sound.inside⟩
  rcases sound.accounted f member with below | ⟨frames, found, waits⟩ | next
  · exact .inl below
  · rcases otherwise f member frames found waits with kept | below | next
    · exact .inr (.inl ⟨frames, kept, waits⟩)
    · exact .inl below
    · exact .inr (.inr next)
  · exact .inr (.inr next)

theorem next_waiting (sound : MasterSound genesis received m) (found : m.pending.frames.lookup (m.head.number + 1) = some waiting) :
    (m.head.number + 1).toNat = m.head.number.toNat + 1 := by
  have nonzero := (sound.waiting _ _ found).1
  have bound := m.head.number.toNat_lt
  rw [ne_eq, ← UInt64.toNat_inj] at nonzero
  rw [UInt64.toNat_add] at nonzero ⊢
  simp at nonzero ⊢
  omega

theorem clear_next_eq {next : MasterTimeReel prim} {prev : UInt64} :
    next.clearNext prev = { next with pending := (next.clearNext prev).pending } := by
  rw [MasterTimeReel.clearNext]
  split <;> rfl

section

variable (sound : MasterSound genesis received m)

include sound

theorem process_next_sound (found : m.pending.frames.lookup (m.head.number + 1) = some waiting) :
    MasterSound genesis received (m.processNext waiting) := by
  have isNumber := next_waiting sound found
  have deleted := m.process_next_pending found
  rw [MasterTimeReel.processNext] at deleted ⊢
  rw [clear_next_eq, deleted]
  rw [MasterTimeReel.adoptNext]
  have fewer : ∀ number frames, (m.pending.delete (m.head.number + 1)).frames.lookup number = some frames →
      m.pending.frames.lookup number = some frames := by
    intro number frames kept
    rw [lookup_delete] at kept
    split at kept
    · cases kept
    · exact kept
  cases isNext : waiting.find? (fun f => f.parent = m.head.selector.val) with
  | none =>
      refine delete_sound sound fewer fun f member frames isFrames waits => ?_
      rw [lookup_delete]
      by_cases same : f.number = m.head.number + 1
      · rw [same, found] at isFrames
        cases isFrames
        have differs := List.find?_eq_none.mp isNext f waits
        rw [decide_eq_true_eq] at differs
        exact .inr (.inr ⟨by rw [same, isNumber], differs⟩)
      · rw [if_neg same]
        exact .inl isFrames
  | some next =>
      obtain ⟨member, sameNumber, linked⟩ := m.find_next found isNext
      have follows : Follows m.head next := ⟨by rw [sameNumber, isNumber], linked⟩
      have adopted := adopt_sound sound (fun _ => id) (fun _ => .inl) ((sound.waiting _ _ found).2 next member) follows
      refine delete_sound adopted fewer fun f _ frames isFrames waits => ?_
      rw [lookup_delete]
      by_cases same : f.number = m.head.number + 1
      · refine .inr (.inl ?_)
        rw [same, ← sameNumber]
        exact UInt64.le_refl _
      · rw [if_neg same]
        exact .inl isFrames

theorem drain_sound :
    MasterSound genesis received m.drainPending ∧ m.drainPending.pending.frames.lookup (m.drainPending.head.number + 1) = none := by
  induction m using MasterTimeReel.drainPending.induct with
  | case1 m nothing =>
      rw [MasterTimeReel.drainPending]
      split
      · exact ⟨sound, nothing⟩
      · rename_i found
        cases nothing.symm.trans found
  | case2 m waiting found ih =>
      rw [MasterTimeReel.drainPending]
      split
      · rename_i nothing
        cases nothing.symm.trans found
      · rename_i again isAgain
        cases found.symm.trans isAgain
        exact ih (process_next_sound sound found)

theorem process_pending_sound :
    MasterSound genesis received m.processPending ∧ m.processPending.pending.frames.lookup (m.processPending.head.number + 1) = none := by
  obtain ⟨drained, quiet⟩ := drain_sound sound
  rw [MasterTimeReel.processPending, MasterTimeReel.prune]
  constructor
  · refine delete_sound drained (fun number frames kept => ?_) fun f _ frames isFrames _ => ?_
    · rw [lookup_delete_all] at kept
      split at kept
      · cases kept
      · exact kept
    · rw [lookup_delete_all]
      by_cases pruned : f.number ∈ m.drainPending.pending.frames.keys.filter fun number => number < m.drainPending.head.number
      · have lower := of_decide_eq_true (List.mem_filter.mp pruned).2
        exact .inr (.inl (UInt64.le_of_lt lower))
      · rw [if_neg pruned]
        exact .inl isFrames
  · simp only [lookup_delete_all, quiet, ite_self]

theorem more_received (accounted : Kept m f) : MasterSound genesis (received ++ [f]) m := by
  refine ⟨sound.stored, reached_more sound.reached fun _ => List.mem_append_left _, fun g member => ?_, fun number frames found => ?_, fun number g found =>
    (sound.inside number g found).imp_right (List.mem_append_left _)⟩
  · cases List.mem_append.mp member with
    | inl earlier => exact sound.accounted g earlier
    | inr new => rw [List.mem_singleton.mp new]; exact accounted
  · obtain ⟨nonzero, inside⟩ := sound.waiting number frames found
    exact ⟨nonzero, fun g waits => List.mem_append_left _ (inside g waits)⟩

theorem add_sound (higher : m.head.number < f.number) :
    MasterSound genesis (received ++ [f]) { m with pending := m.pending.add f } := by
  have added : ∀ number, (m.pending.add f).frames.lookup number =
      if number = f.number then some ((m.pending.frames.lookup number).getD [] ++ [f]) else m.pending.frames.lookup number :=
    lookup_add
  refine ⟨⟨sound.stored.first, sound.stored.last, sound.stored.linked⟩, reached_more sound.reached fun _ => List.mem_append_left _, fun g member => ?_,
    fun number frames found => ?_, fun number g found => (sound.inside number g found).imp_right (List.mem_append_left _)⟩
  · cases List.mem_append.mp member with
    | inl earlier =>
        rcases sound.accounted g earlier with below | ⟨frames, found, waits⟩ | next
        · exact .inl below
        · refine .inr (.inl ?_)
          by_cases same : g.number = f.number
          · refine ⟨frames ++ [f], ?_, List.mem_append_left _ waits⟩
            rw [added, if_pos same, found, Option.getD_some]
          · exact ⟨frames, by rw [added, if_neg same, found], waits⟩
        · exact .inr (.inr next)
    | inr new =>
        rw [List.mem_singleton.mp new]
        refine .inr (.inl ⟨_, (added f.number).trans (if_pos rfl), List.mem_append_right _ List.mem_cons_self⟩)
  · rw [added] at found
    by_cases same : number = f.number
    · rw [if_pos same] at found
      constructor
      · rw [same]
        intro zero
        rw [zero, UInt64.lt_iff_toNat_lt] at higher
        exact absurd higher (Nat.not_lt_zero _)
      · intro g waits
        rw [← Option.some.inj found] at waits
        cases List.mem_append.mp waits with
        | inl earlier =>
            cases before : m.pending.frames.lookup number with
            | none => rw [before] at earlier; cases earlier
            | some old =>
                rw [before] at earlier
                exact List.mem_append_left _ ((sound.waiting number old before).2 g earlier)
        | inr new => exact List.mem_append_right _ new
    · rw [if_neg same] at found
      obtain ⟨nonzero, inside⟩ := sound.waiting number frames found
      exact ⟨nonzero, fun g waits => List.mem_append_left _ (inside g waits)⟩

def Quiet (m : MasterTimeReel prim) : Prop := m.pending.frames.lookup (m.head.number + 1) = none

theorem receive_sound (quiet : Quiet m) :
    MasterSound genesis (received ++ [f]) (m.receive f) ∧ Quiet (m.receive f) := by
  rw [MasterTimeReel.receive]
  by_cases higher : m.head.number < f.number
  · rw [if_pos higher]
    by_cases next : f.number - m.head.number = 1
    · have isNext : f.number = m.head.number + 1 := by
        rw [← UInt64.sub_add_cancel f.number m.head.number, next, UInt64.add_comm]
      have follows := successor_number isNext higher
      rw [if_pos next]
      by_cases linked : f.parent ≠ m.head.selector.val
      · rw [if_pos linked]
        exact ⟨more_received sound (.inr (.inr ⟨follows, linked⟩)), quiet⟩
      · rw [if_neg linked]
        rw [not_not] at linked
        refine process_pending_sound (adopt_sound sound (fun _ => List.mem_append_left _) (fun g member => ?_)
          (List.mem_append_right _ List.mem_cons_self) ⟨follows, linked⟩)
        exact (List.mem_append.mp member).imp_right List.mem_singleton.mp
    · rw [if_neg next]
      exact process_pending_sound (add_sound sound higher)
  · rw [if_neg higher]
    exact ⟨more_received sound (.inl (UInt64.not_lt.mp higher)), quiet⟩

end

theorem start_master_sound {genesis : MasterFrame prim} : MasterSound genesis [] (MasterTimeReel.start genesis) := by
  have only : ∀ number, (MasterTimeReel.start genesis).stored.lookup number = if number = genesis.number then some genesis else none := by
    intro number
    by_cases same : number = genesis.number
    · rw [if_pos same, same]
      exact AList.lookup_insert _
    · rw [if_neg same]
      exact AList.lookup_insert_ne same
  refine ⟨⟨(only _).trans (if_pos rfl), (only _).trans (if_pos rfl), fun number f found => ?_⟩, .refl, (by simp),
    (fun _ _ found => by cases found), fun number f found => ?_⟩
  · rw [only] at found
    split at found
    · rename_i same
      cases found
      exact ⟨same.symm, by rw [same]; exact UInt64.le_refl _, by rw [same]; exact UInt64.le_refl _, .inl rfl⟩
    · cases found
  · rw [only] at found
    split at found
    · cases found
      exact .inl rfl
    · cases found

theorem receive_all_sound (genesis : MasterFrame prim) (received : List (MasterFrame prim)) :
    MasterSound genesis received (received.foldl MasterTimeReel.receive (MasterTimeReel.start genesis)) ∧
      Quiet (received.foldl MasterTimeReel.receive (MasterTimeReel.start genesis)) := by
  induction received using List.reverseRecOn with
  | nil => exact ⟨start_master_sound, rfl⟩
  | append_singleton received f ih =>
      rw [List.foldl_append]
      exact receive_sound ih.1 ih.2

theorem head_chain_end (sound : MasterSound genesis received m) (quiet : Quiet m) : ChainEnd received genesis m.head := by
  refine ⟨sound.reached, fun child extension => ?_⟩
  obtain ⟨member, next, linked⟩ := extension
  rcases sound.accounted child member with below | ⟨frames, found, -⟩ | ⟨-, differs⟩
  · have bound := UInt64.le_iff_toNat_le.mp below
    omega
  · rw [← next_number next, quiet] at found
    cases found
  · exact differs linked

def StoredLinked (m : MasterTimeReel prim) : Prop :=
  ∀ number next frame child, m.getMasterClockFrame number = .ok frame → m.getMasterClockFrame next = .ok child →
    next.toNat = number.toNat + 1 →
      ∃ selector, frame.getSelector prim = .ok selector ∧ setBytes child.parentSelector = selector.val

theorem get_master_ok {m : MasterTimeReel prim} {number : UInt64} {frame : ClockFrame} (found : m.getMasterClockFrame number = .ok frame) :
    ∃ f, m.stored.lookup number = some f ∧ frame.output = f.frame.output ∧ frame.parentSelector = beBytes 32 f.inputHash.val := by
  rw [MasterTimeReel.getMasterClockFrame] at found
  cases stored : m.stored.lookup number with
  | none => rw [stored] at found; cases found
  | some f =>
      rw [stored] at found
      cases found
      exact ⟨f, rfl, rfl, rfl⟩

theorem stored_linked (sound : MasterSound genesis received m) (verified : ∀ f ∈ received, f.Verified) : StoredLinked m := by
  intro number next frame child first second follows
  obtain ⟨f, isStored, sameOutput, -⟩ := get_master_ok first
  obtain ⟨g, isChild, -, isParent⟩ := get_master_ok second
  obtain ⟨isNumber, fromGenesis, -, -⟩ := sound.stored.linked number f isStored
  obtain ⟨isNext, -, -, parent⟩ := sound.stored.linked next g isChild
  have later : g ≠ genesis := by
    intro same
    rw [same] at isNext
    have bound := UInt64.le_iff_toNat_le.mp fromGenesis
    rw [isNext] at bound
    omega
  obtain ⟨prev, isPrev, isFollowing⟩ := parent.resolve_left later
  have samePrev : prev.number = number := by
    apply UInt64.toNat_inj.mp
    have counted := isFollowing.1
    rw [isNext] at counted
    omega
  rw [samePrev, isStored] at isPrev
  cases isPrev
  refine ⟨f.selector, ?_, ?_⟩
  · rw [← f.isSelector, ClockFrame.getSelector, ClockFrame.getSelector, sameOutput]
  · have isVerified := verified g ((sound.inside next g isChild).resolve_left later)
    rw [isParent, set_bytes_be_bytes _ _ (lt_trans g.inputHash.isLt (by decide)), isVerified, isFollowing.2]

theorem master_order_independence (genesis : MasterFrame prim) (received : List (MasterFrame prim))
    (unforked : ∀ f ∈ received, ∀ g ∈ received, f.number = g.number → f.parent = g.parent → f = g) :
    (∀ front rest, received = front ++ rest →
        ChainStored genesis (front.foldl MasterTimeReel.receive (MasterTimeReel.start genesis)) ∧
        ((∀ f ∈ front, f.Verified) → StoredLinked (front.foldl MasterTimeReel.receive (MasterTimeReel.start genesis)))) ∧
      ChainEnd received genesis (received.foldl MasterTimeReel.receive (MasterTimeReel.start genesis)).head ∧
      (∀ last, ChainEnd received genesis last →
        last = (received.foldl MasterTimeReel.receive (MasterTimeReel.start genesis)).head) ∧
      ∀ reordered : List (MasterFrame prim), reordered.Perm received →
        (reordered.foldl MasterTimeReel.receive (MasterTimeReel.start genesis)).head =
          (received.foldl MasterTimeReel.receive (MasterTimeReel.start genesis)).head := by
  obtain ⟨sound, quiet⟩ := receive_all_sound genesis received
  have isEnd := head_chain_end sound quiet
  refine ⟨fun front _ _ => ?_, isEnd, fun last otherEnd => chain_end_unique received genesis _ last unforked isEnd otherEnd,
    fun reordered same => ?_⟩
  · have before := (receive_all_sound genesis front).1
    exact ⟨before.stored, stored_linked before⟩
  · obtain ⟨otherSound, otherQuiet⟩ := receive_all_sound genesis reordered
    have otherEnd := head_chain_end otherSound otherQuiet
    have inReceived : ChainEnd received genesis (reordered.foldl MasterTimeReel.receive (MasterTimeReel.start genesis)).head := by
      refine ⟨reached_more otherEnd.chain fun _ => same.mem_iff.mp, fun child extension => ?_⟩
      exact otherEnd.maximal child ⟨same.mem_iff.mpr extension.1, extension.2⟩
    exact chain_end_unique received genesis _ _ unforked isEnd inReceived

def masterFrame (number : UInt64) (tag parentTag : UInt8) : MasterFrame samplePrimitives where
  frame := ⟨[], number, 0, 160000, beBytes 32 (setBytes (List.replicate 516 parentTag) % poseidonOrder), List.replicate 516 parentTag,
    List.replicate 516 tag, [], none, []⟩
  selector := fieldElement (setBytes (List.replicate 516 tag))
  inputHash := fieldElement (setBytes (List.replicate 516 parentTag))
  isSelector := by
    simp only [ClockFrame.getSelector, slice, List.length_replicate, Nat.zero_le, Nat.le_refl, and_self, if_true, List.drop_zero,
      Nat.sub_zero, List.take_replicate, Nat.min_self, ok_bind]
    rfl
  isInputHash := by
    simp only [slice, List.length_replicate, Nat.zero_le, Nat.le_refl, and_self, if_true, List.drop_zero, Nat.sub_zero,
      List.take_replicate, Nat.min_self, ok_bind]
    rfl

def masterArrivals : List (MasterFrame samplePrimitives) :=
  [masterFrame 2 3 2, masterFrame 3 9 8, masterFrame 1 2 1, masterFrame 1 2 1]

theorem master_order_independence_late_parent :
    (masterArrivals.foldl MasterTimeReel.receive (MasterTimeReel.start (masterFrame 0 1 0))).head.number = 2 ∧
      (masterArrivals.reverse.foldl MasterTimeReel.receive (MasterTimeReel.start (masterFrame 0 1 0))).head =
        (masterArrivals.foldl MasterTimeReel.receive (MasterTimeReel.start (masterFrame 0 1 0))).head := by
  refine ⟨by decide +kernel, (master_order_independence (masterFrame 0 1 0) masterArrivals ?_).2.2.2 _ (List.reverse_perm _)⟩
  intro f isF g isG sameNumber _
  simp only [masterArrivals, List.mem_cons, List.not_mem_nil, or_false, or_self] at isF isG
  rcases isF with rfl | rfl | rfl <;> rcases isG with rfl | rfl | rfl <;> first
    | rfl
    | exact absurd sameNumber (by decide)

end Ceremony
