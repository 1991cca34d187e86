import CeremonyClient.Time.DataTimeReel

set_option autoImplicit false

namespace Ceremony

open GoSem

variable {prim : Primitives} {σ : Type}

variable {d : DataTimeReel prim σ} {frame : ReelFrame prim} {key : UInt64 × Bytes} {number : UInt64} {pc : LoopPc prim}
  {calls : List (ReelFrame prim × InsertPc)} {exec : Exec σ} {rawFrame : ReelFrame prim} {s : ReelSystem prim σ} {next : InsertPc}
  {world : σ} {tries : List RollingFrecencyCritbitTrie} {genesis : ReelFrame prim}

-- Staged frames stand under their own number and selector, and everything committed, queued
-- or set as the head is staged.
structure ReelSound (d : DataTimeReel prim σ) : Prop where
  keyed : ∀ key frame, d.staged.lookup key = some frame → key = (frame.number, frame.key)
  backed : ∀ number selector tries, d.committed.lookup number = some (selector, tries) →
    ∃ frame, d.staged.lookup (number, selector) = some frame
  headKnown : ∃ tries, d.getDataClockFrame d.head.number = .ok (d.head, tries)
  queued : ∀ pending ∈ d.frames, ∃ frame, d.staged.lookup (pending.frameNumber, pending.selector) = some frame

def LoopSound (d : DataTimeReel prim σ) : LoopPc prim → Prop
  | .dequeued last => ∃ frame, d.staged.lookup (last.frameNumber, last.selector) = some frame
  | .executing _ rawFrame _ => d.staged.lookup (rawFrame.number, rawFrame.key) = some rawFrame ∧ rawFrame.number = d.head.number + 1 ∧
      (rawFrame.frame.parentSelector = d.head.key ∨ d.head.number < rawFrame.number)
  | .stored _ rawFrame _ tries => d.staged.lookup (rawFrame.number, rawFrame.key) = some rawFrame ∧
      d.committed.lookup rawFrame.number = some (rawFrame.key, tries)
  | _ => True

def CallsSound (d : DataTimeReel prim σ) (calls : List (ReelFrame prim × InsertPc)) : Prop :=
  ∀ call ∈ calls, call.2 = .rereading ∨ call.2 = .sending → ∃ frame, d.staged.lookup (call.1.number, call.1.key) = some frame

structure Sound (s : ReelSystem prim σ) : Prop where
  reel : ReelSound s.reel
  loop : LoopSound s.reel s.loop
  calls : CallsSound s.reel s.calls

theorem store_pending_lookup :
    (d.storePending frame).staged.lookup key =
      if key = (frame.number, frame.key) then some ((d.staged.lookup key).getD frame) else d.staged.lookup key := by
  rw [DataTimeReel.storePending, DataTimeReel.getStagedDataClockFrame]
  by_cases same : key = (frame.number, frame.key)
  · rw [if_pos same, same]
    cases found : d.staged.lookup (frame.number, frame.key) with
    | none => exact AList.lookup_insert _
    | some other => exact found
  · rw [if_neg same]
    cases d.staged.lookup (frame.number, frame.key) with
    | none => exact AList.lookup_insert_ne same
    | some other => rfl

theorem store_pending_keeps (d : DataTimeReel prim σ) (frame staged : ReelFrame prim) (key : UInt64 × Bytes)
    (found : d.staged.lookup key = some staged) : (d.storePending frame).staged.lookup key = some staged := by
  rw [store_pending_lookup, found, Option.getD_some, ite_self]

theorem store_pending_rest (d : DataTimeReel prim σ) (frame : ReelFrame prim) :
    (d.storePending frame).head = d.head ∧ (d.storePending frame).committed = d.committed ∧
      (d.storePending frame).frames = d.frames ∧ (d.storePending frame).closed = d.closed := by
  rw [DataTimeReel.storePending]
  split <;> exact ⟨rfl, rfl, rfl, rfl⟩

theorem store_pending_committed (sound : ReelSound d) {found : ReelFrame prim × List RollingFrecencyCritbitTrie} :
    (d.storePending frame).getDataClockFrame number = .ok found ↔ d.getDataClockFrame number = .ok found := by
  obtain ⟨committed, tries⟩ := found
  rw [committed_ok_iff, committed_ok_iff, (store_pending_rest d frame).2.1]
  apply exists_congr
  intro selector
  apply and_congr_right
  intro isCommitted
  -- A committed number is already backed by a staged frame, which staging does not replace.
  obtain ⟨backing, isBacking⟩ := sound.backed number selector tries isCommitted
  rw [store_pending_keeps d frame backing _ isBacking, isBacking]

theorem store_pending_sound (sound : ReelSound d) : ReelSound (d.storePending frame) := by
  obtain ⟨sameHead, sameCommitted, sameFrames, -⟩ := store_pending_rest d frame
  constructor
  · intro key staged found
    rw [store_pending_lookup] at found
    split at found
    · rename_i same
      cases before : d.staged.lookup key with
      | none =>
          rw [before] at found
          rw [same, ← Option.some.inj found, Option.getD_none]
      | some other =>
          rw [before] at found
          rw [← Option.some.inj found, Option.getD_some]
          exact sound.keyed key other before
    · exact sound.keyed key staged found
  · intro number selector tries committed
    rw [sameCommitted] at committed
    obtain ⟨backing, isBacking⟩ := sound.backed number selector tries committed
    exact ⟨backing, store_pending_keeps d frame backing _ isBacking⟩
  · obtain ⟨tries, known⟩ := sound.headKnown
    exact ⟨tries, by rw [sameHead]; exact (store_pending_committed sound).mpr known⟩
  · intro pending member
    rw [sameFrames] at member
    obtain ⟨staged, isStaged⟩ := sound.queued pending member
    exact ⟨staged, store_pending_keeps d frame staged _ isStaged⟩

theorem store_pending_loop (sound : LoopSound d pc) : LoopSound (d.storePending frame) pc := by
  obtain ⟨sameHead, sameCommitted, -, -⟩ := store_pending_rest d frame
  cases pc with
  | dequeued last =>
      obtain ⟨staged, isStaged⟩ := sound
      exact ⟨staged, store_pending_keeps d frame staged _ isStaged⟩
  | executing last rawFrame distance =>
      refine ⟨store_pending_keeps d frame rawFrame _ sound.1, ?_⟩
      rw [sameHead]
      exact sound.2
  | stored last rawFrame distance tries =>
      refine ⟨store_pending_keeps d frame rawFrame _ sound.1, ?_⟩
      rw [sameCommitted]
      exact sound.2
  | idle => trivial
  | scanning last => trivial
  | crashed => trivial

theorem store_pending_calls (sound : CallsSound d calls) : CallsSound (d.storePending frame) calls := by
  intro call member waiting
  obtain ⟨staged, isStaged⟩ := sound call member waiting
  exact ⟨staged, store_pending_keeps d frame staged _ isStaged⟩

theorem store_pending_staged : ∃ staged, (d.storePending frame).staged.lookup (frame.number, frame.key) = some staged := by
  rw [store_pending_lookup, if_pos rfl]
  exact ⟨_, rfl⟩

theorem calls_sound_set {number : Nat} {pc : InsertPc} (sound : CallsSound d calls)
    (staged : pc = .rereading ∨ pc = .sending → ∃ found, d.staged.lookup (frame.number, frame.key) = some found) :
    CallsSound d (calls.set number (frame, pc)) := by
  intro call member waiting
  cases List.mem_or_eq_of_mem_set member with
  | inl other => exact sound call other waiting
  | inr same =>
      rw [same] at waiting ⊢
      exact staged waiting

theorem loop_step_staged : (loopStep exec d pc).1.staged = d.staged := by
  cases pc with
  | idle =>
      rw [loopStep]
      split <;> rfl
  | dequeued last => rfl
  | executing last rawFrame distance =>
      rw [loopStep]
      split <;> rfl
  | stored last rawFrame distance tries => rfl
  | scanning last =>
      rw [loopStep]
      split <;> rfl
  | crashed => rfl

theorem commit_lookup (world : σ) (tries : List RollingFrecencyCritbitTrie)
    (staged : d.staged.lookup (rawFrame.number, rawFrame.key) = some rawFrame) (number : UInt64) :
    DataTimeReel.getDataClockFrame
        { d with world := world, committed := d.committed.insert rawFrame.number (rawFrame.key, tries) } number =
      if number = rawFrame.number then .ok (rawFrame, tries) else d.getDataClockFrame number := by
  rw [DataTimeReel.getDataClockFrame]
  by_cases same : number = rawFrame.number
  · rw [if_pos same, same, AList.lookup_insert]
    simp only [staged]
  · rw [if_neg same, AList.lookup_insert_ne same, DataTimeReel.getDataClockFrame]

theorem loop_step_reel_sound (sound : ReelSound d) (loop : LoopSound d pc) : ReelSound (loopStep exec d pc).1 := by
  cases pc with
  | idle =>
      rw [loopStep]
      split
      · exact sound
      · rename_i frame tail isFrames
        refine ⟨sound.keyed, sound.backed, sound.headKnown, fun pending member => sound.queued pending ?_⟩
        rw [isFrames]
        exact List.mem_cons_of_mem _ member
  | dequeued last => exact sound
  | executing last rawFrame distance =>
      obtain ⟨staged, next, -⟩ := loop
      rw [loopStep]
      split
      · exact ⟨sound.keyed, sound.backed, sound.headKnown, sound.queued⟩
      · rename_i tries world executed
        refine ⟨sound.keyed, ?_, ?_, sound.queued⟩
        · intro number selector stored committed
          by_cases same : number = rawFrame.number
          · rw [same, AList.lookup_insert] at committed
            cases committed
            exact ⟨rawFrame, by rw [same]; exact staged⟩
          · rw [AList.lookup_insert_ne same] at committed
            exact sound.backed number selector stored committed
        · obtain ⟨headTries, known⟩ := sound.headKnown
          refine ⟨headTries, ?_⟩
          simp only
          rw [commit_lookup world tries staged, if_neg (by rw [next]; exact next_ne)]
          exact known
  | stored last rawFrame distance tries =>
      refine ⟨sound.keyed, sound.backed, ⟨tries, ?_⟩, sound.queued⟩
      exact committed_ok_iff.mpr ⟨rawFrame.key, loop.2, loop.1⟩
  | scanning last =>
      rw [loopStep]
      split
      · exact sound
      · exact ⟨sound.keyed, sound.backed, sound.headKnown, sound.queued⟩
      · exact sound
  | crashed => exact sound

theorem loop_step_loop_sound (sound : ReelSound d) (loop : LoopSound d pc) : LoopSound (loopStep exec d pc).1 (loopStep exec d pc).2 := by
  cases pc with
  | idle =>
      rw [loopStep]
      split
      · trivial
      · rename_i frame tail isFrames
        exact sound.queued frame (by rw [isFrames]; exact List.mem_cons_self)
  | dequeued last =>
      rw [loopStep]
      rcases handle_pending_cases with crash | ⟨rawFrame, staged, ⟨-, -, scan⟩ | ⟨-, -, scan⟩ | ⟨higher, next, distance, run⟩ |
        ⟨-, scan⟩ | ⟨-, drop⟩⟩
      · rw [crash]; trivial
      · rw [scan]; trivial
      · rw [scan]; trivial
      · rw [run]
        have keyed := sound.keyed _ _ staged
        rw [keyed] at staged
        exact ⟨staged, next, .inr higher⟩
      · rw [scan]; trivial
      · rw [drop]; trivial
  | executing last rawFrame distance =>
      rw [loopStep]
      split
      · trivial
      · exact ⟨loop.1, AList.lookup_insert _⟩
  | stored last rawFrame distance tries => trivial
  | scanning last =>
      rw [loopStep]
      split
      · trivial
      · trivial
      · rename_i rawFrame distance found
        obtain ⟨member, linked⟩ := next_pending_some found
        obtain ⟨selector, staged⟩ := mem_staged_for.mp member
        have keyed := sound.keyed _ _ staged
        rw [keyed] at staged
        exact ⟨staged, (Prod.mk.inj keyed).1.symm, .inl linked⟩
  | crashed => trivial

theorem insert_step_sound (sound : Sound s) {number : Nat} {pc : InsertPc} (call : s.calls[number]? = some (frame, pc))
    (done : insertStep s.reel number frame pc = .ok (d, next)) : Sound { s with reel := d, calls := s.calls.set number (frame, next) } := by
  have member := List.mem_of_getElem? call
  cases pc with
  | called =>
      rw [insertStep, bind_ok_iff] at done
      obtain ⟨_, -, done⟩ := done
      cases done
      refine ⟨sound.reel, sound.loop, calls_sound_set sound.calls fun waiting => ?_⟩
      split at waiting <;> cases waiting <;> contradiction
  | staging =>
      cases done
      exact ⟨store_pending_sound sound.reel, store_pending_loop sound.loop,
        calls_sound_set (store_pending_calls sound.calls) fun _ => store_pending_staged⟩
  | rereading =>
      cases done
      exact ⟨sound.reel, sound.loop, calls_sound_set sound.calls fun _ => sound.calls _ member (.inl rfl)⟩
  | sending =>
      have staged := sound.calls _ member (.inr rfl)
      rw [insertStep] at done
      split at done
      · cases done
        refine ⟨⟨sound.reel.keyed, sound.reel.backed, sound.reel.headKnown, ?_⟩, ?_, calls_sound_set sound.calls (by simp)⟩
        · intro pending queued
          cases List.mem_append.mp queued with
          | inl earlier => exact sound.reel.queued pending earlier
          | inr new =>
              rw [List.mem_singleton.mp new]
              exact staged
        · have loop := sound.loop
          revert loop
          cases s.loop <;> exact id
      · cases done
        exact ⟨sound.reel, sound.loop, calls_sound_set sound.calls fun _ => staged⟩
  | returned channel =>
      cases done
      exact ⟨sound.reel, sound.loop, calls_sound_set sound.calls (by simp)⟩

theorem step_sound (exec : Exec σ) (action : ReelAction prim) (s : ReelSystem prim σ) (sound : Sound s) : Sound (s.step exec action) := by
  apply ReelSystem.step_elim Sound
  · exact sound
  · exact ⟨sound.reel, trivial, sound.calls⟩
  · intro frame
    refine ⟨sound.reel, sound.loop, fun call member waiting => ?_⟩
    cases List.mem_append.mp member with
    | inl earlier => exact sound.calls call earlier waiting
    | inr new =>
        rw [List.mem_singleton.mp new] at waiting
        cases waiting <;> contradiction
  · intro number frame pc reel next call done
    exact insert_step_sound sound call done
  · refine ⟨loop_step_reel_sound sound.reel sound.loop, loop_step_loop_sound sound.reel sound.loop,
      fun call member waiting => ?_⟩
    rw [loop_step_staged]
    exact sound.calls call member waiting

def Linked (d : DataTimeReel prim σ) : Prop :=
  ∀ number next frame child tries childTries, d.getDataClockFrame number = .ok (frame, tries) →
    d.getDataClockFrame next = .ok (child, childTries) → next.toNat = number.toNat + 1 → child.frame.parentSelector = frame.key

-- The frame names the head as its parent, and is named by a frame that a wrapped number has committed already.
def Fits (d : DataTimeReel prim σ) (rawFrame : ReelFrame prim) : Prop :=
  rawFrame.frame.parentSelector = d.head.key ∧
    ∀ next child childTries, d.getDataClockFrame next = .ok (child, childTries) → next.toNat = rawFrame.number.toNat + 1 →
      child.frame.parentSelector = rawFrame.key

-- What a step has to meet for the chain to stay linked: only the commit of an executed frame matters.
def LinkedStep (exec : Exec σ) (action : ReelAction prim) (s : ReelSystem prim σ) : Prop :=
  match action, s.loop with
  | .loop, .executing _ rawFrame _ => (exec s.reel.world rawFrame.frame (s.reel.triesAtFrame rawFrame)).1.isOk = true → Fits s.reel rawFrame
  | _, _ => True

theorem linked_congr {other : DataTimeReel prim σ}
    (same : ∀ number found, d.getDataClockFrame number = .ok found ↔ other.getDataClockFrame number = .ok found) :
    Linked d ↔ Linked other := by
  simp only [Linked, same]

theorem commit_linked_iff {last : PendingFrame} {distance : Nat} (sound : ReelSound d)
    (loop : LoopSound d (.executing last rawFrame distance)) (linked : Linked d) :
    Linked { d with world := world, committed := d.committed.insert rawFrame.number (rawFrame.key, tries) } ↔ Fits d rawFrame := by
  obtain ⟨staged, isNext, known⟩ := loop
  obtain ⟨headTries, headKnown⟩ := sound.headKnown
  have committed := commit_lookup world tries staged
  constructor
  · intro after
    constructor
    · cases known with
      | inl parent => exact parent
      | inr higher =>
          apply after d.head.number rawFrame.number d.head rawFrame headTries tries _ _ (successor_number isNext higher)
          · rw [committed, if_neg (by rw [isNext]; exact next_ne)]
            exact headKnown
          · rw [committed, if_pos rfl]
    · intro next child childTries found follows
      apply after rawFrame.number next rawFrame child tries childTries _ _ follows
      · rw [committed, if_pos rfl]
      · rw [committed, if_neg (by intro same; rw [same] at follows; omega)]
        exact found
  · intro fits number next frame child frameTries childTries first second follows
    rw [committed] at first second
    split at first
    · rename_i same
      cases first
      rw [if_neg (by intro again; rw [same, again] at follows; omega)] at second
      exact fits.2 next child childTries second (by rw [← same]; exact follows)
    · split at second
      · rename_i same
        cases second
        rw [same] at follows
        rw [predecessor_number isNext follows, headKnown] at first
        cases first
        exact fits.1
      · exact linked number next frame child frameTries childTries first second follows

theorem insert_step_committed {reel : DataTimeReel prim σ} (sound : ReelSound d) {number : Nat} {pc : InsertPc}
    (done : insertStep d number frame pc = .ok (reel, next)) (height : UInt64) (found : ReelFrame prim × List RollingFrecencyCritbitTrie) :
    reel.getDataClockFrame height = .ok found ↔ d.getDataClockFrame height = .ok found := by
  cases pc with
  | called =>
      rw [insertStep, bind_ok_iff] at done
      obtain ⟨_, -, done⟩ := done
      cases done
      rfl
  | staging =>
      cases done
      exact store_pending_committed sound
  | rereading =>
      cases done
      rfl
  | sending =>
      rw [insertStep] at done
      split at done <;> cases done <;> rfl
  | returned channel =>
      cases done
      rfl

theorem loop_step_linked_iff (sound : Sound s) (linked : Linked s.reel) :
    Linked (loopStep exec s.reel s.loop).1 ↔ LinkedStep exec .loop s := by
  obtain ⟨reel, pc, calls⟩ := s
  have loop := sound.loop
  simp only at linked loop ⊢
  cases pc with
  | idle =>
      rw [loopStep]
      split <;> exact iff_of_true linked trivial
  | dequeued last => exact iff_of_true linked trivial
  | executing last rawFrame distance =>
      simp only [loopStep, LinkedStep]
      cases executed : exec reel.world rawFrame.frame (reel.triesAtFrame rawFrame) with
      | mk outcome world =>
          cases outcome with
          | error cause => exact iff_of_true linked (fun ran => by cases ran)
          | ok tries =>
              refine (commit_linked_iff sound.reel loop linked).trans ?_
              exact ⟨fun fits _ => fits, fun given => given rfl⟩
  | stored last rawFrame distance tries => exact iff_of_true linked trivial
  | scanning last =>
      rw [loopStep]
      split <;> exact iff_of_true linked trivial
  | crashed => exact iff_of_true linked trivial

theorem step_linked_iff (action : ReelAction prim) (s : ReelSystem prim σ) (sound : Sound s) (linked : Linked s.reel) :
    Linked (s.step exec action).reel ↔ LinkedStep exec action s := by
  have elsewhere : action ≠ .loop → LinkedStep exec action s := by
    intro other
    rw [LinkedStep.eq_def]
    split
    · exact absurd rfl other
    · trivial
  rw [ReelSystem.step.eq_def]
  split
  · rename_i crashed
    refine iff_of_true linked ?_
    rw [LinkedStep.eq_def]
    split
    · rename_i executing
      cases crashed.symm.trans executing
    · trivial
  · exact iff_of_true linked (elsewhere (by simp))
  · refine iff_of_true ?_ (elsewhere (by simp))
    split
    · exact linked
    · rename_i frame pc found
      split
      · exact linked
      · rename_i reel next done
        exact (linked_congr (insert_step_committed sound.reel done)).mpr linked
  · exact loop_step_linked_iff sound linked

-- A dequeued frame is executed without a check that it names the head as its parent.
theorem chain_linkage_iff (exec : Exec σ) (start : ReelSystem prim σ) (sound : Sound start) (linked : Linked start.reel)
    (actions : List (ReelAction prim)) :
    (∀ front rest, actions = front ++ rest → Linked (runActions (ReelSystem.step exec) front start).reel) ↔
      ∀ front action rest, actions = front ++ action :: rest →
        LinkedStep exec action (runActions (ReelSystem.step exec) front start) :=
  run_holds_iff (ReelSystem.step exec) Sound (fun s => Linked s.reel) (LinkedStep exec) (step_sound exec) step_linked_iff
    actions start sound linked

-- createGenesisFrame and Start on an empty store.
def ReelSystem.start (genesis : ReelFrame prim) (tries : List RollingFrecencyCritbitTrie) (world : σ) : ReelSystem prim σ where
  reel := {
    head := genesis
    headDistance := 0
    proverTries := tries
    staged := (∅ : Table (UInt64 × Bytes) (ReelFrame prim)).insert (genesis.number, genesis.key) genesis
    committed := (∅ : Table UInt64 (Bytes × List RollingFrecencyCritbitTrie)).insert genesis.number (genesis.key, tries)
    frames := []
    closed := []
    world := world }
  loop := .idle
  calls := []

theorem start_lookup :
    (ReelSystem.start genesis tries world).reel.staged.lookup key =
      if key = (genesis.number, genesis.key) then some genesis else none := by
  by_cases same : key = (genesis.number, genesis.key)
  · rw [if_pos same, same]
    exact AList.lookup_insert _
  · rw [if_neg same]
    exact AList.lookup_insert_ne same

theorem start_committed :
    (ReelSystem.start genesis tries world).reel.committed.lookup number =
      if number = genesis.number then some (genesis.key, tries) else none := by
  by_cases same : number = genesis.number
  · rw [if_pos same, same]
    exact AList.lookup_insert _
  · rw [if_neg same]
    exact AList.lookup_insert_ne same

theorem start_sound : Sound (ReelSystem.start genesis tries world) := by
  refine ⟨⟨?_, ?_, ⟨tries, committed_ok_iff.mpr ⟨genesis.key, ?_, ?_⟩⟩, fun _ member => by cases member⟩, trivial, fun _ member => by cases member⟩
  · intro key frame found
    rw [start_lookup] at found
    split at found
    · cases found
      assumption
    · cases found
  · intro number selector stored committed
    rw [start_committed] at committed
    split at committed
    · rename_i same
      cases committed
      exact ⟨genesis, by rw [start_lookup, same, if_pos rfl]⟩
    · cases committed
  · exact start_committed.trans (if_pos rfl)
  · exact start_lookup.trans (if_pos rfl)

theorem start_linked : Linked (ReelSystem.start genesis tries world).reel := by
  intro number next frame child stored childStored first second follows
  obtain ⟨_, committed, -⟩ := committed_ok_iff.mp first
  obtain ⟨_, childCommitted, -⟩ := committed_ok_iff.mp second
  rw [start_committed] at committed childCommitted
  split at committed
  · split at childCommitted
    · rename_i isNumber isNext
      rw [isNumber, isNext] at follows
      omega
    · cases childCommitted
  · cases committed

-- Frames told apart by one byte of their output, signed by one key, and a callback that keeps the tries.
def reelFrame (number : UInt64) (tag : UInt8) (parentSelector : Bytes) : ReelFrame samplePrimitives where
  frame := ⟨[], number, 0, 0, parentSelector, [], List.replicate 516 tag, [], some ⟨[], some ⟨List.replicate 57 7⟩⟩, []⟩
  selector := fieldElement (setBytes (List.replicate 516 tag))
  address := if number = 0 then List.replicate 32 0 else beBytes 32 (setBytes (List.replicate 57 7) % poseidonOrder)
  isSelector := by
    simp only [ClockFrame.getSelector, slice, List.length_replicate, Nat.zero_le, Nat.le_refl, and_self, if_true, List.drop_zero,
      Nat.sub_zero, List.take_replicate, Nat.min_self, ok_bind]
    rfl
  isAddress := by
    simp only [ClockFrame.getAddress]
    split <;> rfl

def reelGenesis : ReelFrame samplePrimitives := reelFrame 0 1 (List.replicate 32 0)

def reelTries : List RollingFrecencyCritbitTrie := [RollingFrecencyCritbitTrie.zero.add (List.replicate 32 1) 0]

def reelStart : ReelSystem samplePrimitives Unit := ReelSystem.start reelGenesis reelTries ()

def keepTries : Exec Unit := fun world _ tries => (.ok tries, world)

def reelRun (frame : ReelFrame samplePrimitives) : List (ReelAction samplePrimitives) :=
  [.insert frame, .call 0, .call 0, .call 0, .call 0, .loop, .loop, .loop]

def reelAfter (actions : List (ReelAction samplePrimitives)) : ReelSystem samplePrimitives Unit :=
  runActions (ReelSystem.step keepTries) actions reelStart

def linkedFrame : ReelFrame samplePrimitives := reelFrame 1 2 reelGenesis.key

def executed (s : ReelSystem samplePrimitives Unit) : Option (UInt64 × Bytes) :=
  match s.loop with
  | .executing _ rawFrame _ => some (rawFrame.number, rawFrame.frame.parentSelector)
  | _ => none

theorem linked_step_quiet {action : ReelAction samplePrimitives} {s : ReelSystem samplePrimitives Unit} (quiet : executed s = none) :
    LinkedStep keepTries action s := by
  rw [LinkedStep.eq_def]
  split
  · rename_i executing
    rw [executed, executing] at quiet
    cases quiet
  · trivial

theorem linked_step_next (action : ReelAction samplePrimitives) (s : ReelSystem samplePrimitives Unit) (number : UInt64)
    (isNext : executed s = some (number, s.reel.head.key)) (lower : s.reel.committed.keys.all (fun key => key.toNat ≤ number.toNat) = true) :
    LinkedStep keepTries action s := by
  rw [LinkedStep.eq_def]
  split
  · rename_i rawFrame distance executing
    rw [executed, executing] at isNext
    obtain ⟨isNumber, isParent⟩ := Prod.mk.inj (Option.some.inj isNext)
    refine fun _ => ⟨isParent, fun next child childTries found follows => ?_⟩
    obtain ⟨selector, committed, -⟩ := committed_ok_iff.mp found
    have member : next ∈ s.reel.committed.keys := AList.mem_keys.mp (AList.lookup_isSome.mp (by rw [committed]; rfl))
    have bound := of_decide_eq_true (List.all_eq_true.mp lower next member)
    rw [← isNumber] at bound
    omega
  · trivial

theorem chain_linkage_child : Linked (reelAfter (reelRun linkedFrame)).reel := by
  refine (chain_linkage_iff keepTries reelStart start_sound start_linked (reelRun linkedFrame)).mpr ?_
    (reelRun linkedFrame) [] (List.append_nil _).symm
  intro front action rest isSplit
  have isFront : front = (reelRun linkedFrame).take front.length := by rw [isSplit, List.take_left]
  have short : front.length < 8 := by
    have total := congrArg List.length isSplit
    rw [List.length_append, List.length_cons, reelRun] at total
    simp only [List.length_cons, List.length_nil] at total
    omega
  rw [isFront]
  by_cases commits : front.length = 7
  · rw [commits]
    exact linked_step_next action _ 1 (by decide +kernel) (by decide +kernel)
  · have quiet : ∀ taken < 8, taken ≠ 7 → executed (reelAfter ((reelRun linkedFrame).take taken)) = none := by decide +kernel
    exact linked_step_quiet (quiet front.length short commits)

def unlinkedFrame : ReelFrame samplePrimitives := reelFrame 1 2 (List.replicate 32 5)

def committedParent (s : ReelSystem samplePrimitives Unit) (number : UInt64) : Option (Bytes × Bytes) :=
  (s.reel.getDataClockFrame number).toOption.map fun found => (found.1.key, found.1.frame.parentSelector)

theorem committed_parent_some {s : ReelSystem samplePrimitives Unit} {key parentSelector : Bytes}
    (found : committedParent s number = some (key, parentSelector)) :
    ∃ frame tries, s.reel.getDataClockFrame number = .ok (frame, tries) ∧ frame.key = key ∧ frame.frame.parentSelector = parentSelector := by
  rw [committedParent] at found
  cases read : s.reel.getDataClockFrame number with
  | error cause => rw [read] at found; cases found
  | ok entry =>
      rw [read] at found
      obtain ⟨sameKey, sameParent⟩ := Prod.mk.inj (Option.some.inj found)
      exact ⟨entry.1, entry.2, rfl, sameKey, sameParent⟩

theorem unlinked_frame_committed : Sound reelStart ∧ Linked reelStart.reel ∧ ¬ Linked (reelAfter (reelRun unlinkedFrame)).reel := by
  have first : committedParent (reelAfter (reelRun unlinkedFrame)) 0 = some (reelGenesis.key, List.replicate 32 0) := by decide +kernel
  have second : committedParent (reelAfter (reelRun unlinkedFrame)) 1 = some (unlinkedFrame.key, List.replicate 32 5) := by decide +kernel
  refine ⟨start_sound, start_linked, fun linked => ?_⟩
  obtain ⟨genesis, tries, readFirst, isKey, -⟩ := committed_parent_some first
  obtain ⟨child, childTries, readSecond, -, isParent⟩ := committed_parent_some second
  have parent := linked 0 1 genesis child tries childTries readFirst readSecond (by decide)
  rw [isKey, isParent] at parent
  exact absurd parent (by decide +kernel)

end Ceremony
