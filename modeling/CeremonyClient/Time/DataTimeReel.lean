import CeremonyClient.Lib.Runs
import CeremonyClient.Lib.Table
import CeremonyClient.Protobufs.Messages
import CeremonyClient.Protobufs.Primitives
import CeremonyClient.Token.Application
import CeremonyClient.Tries.RollingFrecency

set_option autoImplicit false

namespace Ceremony

open GoSem

variable {next frameNumber : UInt64}

def ClockFrame.getSelector (prim : Primitives) (frame : ClockFrame) : Go (Fin poseidonOrder) := do
  let output ← slice frame.output 0 516
  wrapErr "get selector" (returned (prim.poseidonHashBytes output))

def ClockFrame.getAddress (prim : Primitives) (frame : ClockFrame) : Go Bytes :=
  if frame.frameNumber = 0 then .ok (List.replicate 32 0)
  else
    match frame.publicKeySignatureEd448 with
    | none => raise ((errorsNew "no valid signature provided").wrap "get address")
    | some ed448PublicKey => do
        let publicKey ← deref ed448PublicKey.publicKey
        wrapErr "get parent selector and distance" (hashAddress prim publicKey.keyValue)

-- A structurally valid frame of the reel's filter, with what the reel reads from it.
structure ReelFrame (prim : Primitives) where
  frame : ClockFrame
  selector : Fin poseidonOrder
  address : Bytes
  isSelector : frame.getSelector prim = .ok selector
  isAddress : frame.getAddress prim = .ok address

namespace ReelFrame

variable {prim : Primitives}

def number (f : ReelFrame prim) : UInt64 := f.frame.frameNumber

-- selector.FillBytes(make([]byte, 32))
def key (f : ReelFrame prim) : Bytes := beBytes 32 f.selector.val

end ReelFrame

structure PendingFrame where
  selector : Bytes
  frameNumber : UInt64
  done : Nat
deriving DecidableEq

-- A committed number points to a staged frame. The world is whatever the execution callback remembers between calls.
structure DataTimeReel (prim : Primitives) (σ : Type) where
  head : ReelFrame prim
  headDistance : Nat
  proverTries : List RollingFrecencyCritbitTrie
  staged : Table (UInt64 × Bytes) (ReelFrame prim)
  committed : Table UInt64 (Bytes × List RollingFrecencyCritbitTrie)
  frames : List PendingFrame
  closed : List Nat
  world : σ

abbrev Exec (σ : Type) :=
  σ → ClockFrame → List RollingFrecencyCritbitTrie → Except GoError (List RollingFrecencyCritbitTrie) × σ

section Reel

variable {prim : Primitives} {σ : Type}

namespace DataTimeReel

def getStagedDataClockFrame (d : DataTimeReel prim σ) (frameNumber : UInt64) (selector : Bytes) : Except GoError (ReelFrame prim) :=
  match d.staged.lookup (frameNumber, selector) with
  | some frame => .ok frame
  | none => .error (errNotFound.wrap "get parent data clock frame")

def getDataClockFrame (d : DataTimeReel prim σ) (frameNumber : UInt64) :
    Except GoError (ReelFrame prim × List RollingFrecencyCritbitTrie) :=
  match d.committed.lookup frameNumber with
  | none => .error errNotFound
  | some (selector, tries) =>
      match d.staged.lookup (frameNumber, selector) with
      | none => .error errNotFound
      | some frame => .ok (frame, tries)

def getStagedDataClockFramesForFrameNumber (d : DataTimeReel prim σ) (frameNumber : UInt64) : List (ReelFrame prim) :=
  ((d.staged.entries.filter fun entry => entry.1.1 = frameNumber).insertionSort fun left right => ¬ right.1.2 < left.1.2).map
    fun entry => entry.2

def getDistance (d : DataTimeReel prim σ) (frame : ReelFrame prim) : Go Nat :=
  if frame.number = 0 then .ok 0
  else do
    let (prev, _) ← wrapErr "get distance" (returned (d.getDataClockFrame (frame.number - 1)))
    let beacons ← index d.proverTries 0
    let discriminatorNode ← index (beacons.findNearestAndApproximateNeighbors prev.key) 0
    return ((setBytes discriminatorNode.key : Int) - setBytes frame.address).natAbs

def storePending (d : DataTimeReel prim σ) (frame : ReelFrame prim) : DataTimeReel prim σ :=
  match d.getStagedDataClockFrame frame.number frame.key with
  | .ok _ => d
  | .error _ => { d with staged := d.staged.insert (frame.number, frame.key) frame }

-- The next frame that processPending sets as the head, with its distance.
def nextPending (d : DataTimeReel prim σ) : List (ReelFrame prim) → Go (Option (ReelFrame prim × Nat))
  | [] => .ok none
  | rawFrame :: tail =>
      if rawFrame.frame.parentSelector ≠ d.head.key then nextPending d tail
      else
        match d.getDistance rawFrame with
        | .ok distance => .ok (some (rawFrame, distance))
        | .error (.err cause) => if errorsIs cause errNotFound then nextPending d tail else crash
        | .error fault => .error fault

end DataTimeReel

-- Where the loop stands. The two steps of setHead that others can see are the committed
-- transaction and the new head.
inductive LoopPc (prim : Primitives) where
  | idle
  | dequeued (last : PendingFrame)
  | executing (last : PendingFrame) (rawFrame : ReelFrame prim) (distance : Nat)
  | stored (last : PendingFrame) (rawFrame : ReelFrame prim) (distance : Nat) (tries : List RollingFrecencyCritbitTrie)
  | scanning (last : PendingFrame)
  | crashed

-- A frame not higher than the head is only processed further at equal height, whether or not it is the head itself.
def handlePending (d : DataTimeReel prim σ) (last : PendingFrame) : LoopPc prim :=
  match d.getStagedDataClockFrame last.frameNumber last.selector with
  | .error _ => .crashed
  | .ok rawFrame =>
      if d.head.number < rawFrame.number then
        match d.getDistance rawFrame with
        | .error (.err cause) => if errorsIs cause errNotFound then .scanning last else .crashed
        | .error _ => .crashed
        | .ok distance => if rawFrame.number - d.head.number ≠ 1 then .scanning last else .executing last rawFrame distance
      else if d.head.number = rawFrame.number then .scanning last
      else .idle

def DataTimeReel.close (d : DataTimeReel prim σ) (last : PendingFrame) : DataTimeReel prim σ := { d with closed := d.closed ++ [last.done] }

-- The tries that setHead passes to the callback: nil when the parent's number is not committed.
def DataTimeReel.triesAtFrame (d : DataTimeReel prim σ) (frame : ReelFrame prim) : List RollingFrecencyCritbitTrie :=
  ((d.getDataClockFrame (frame.number - 1)).toOption.map Prod.snd).getD []

-- A failed execution ends both the direct path and processPending, and either closes the channel.
def loopStep (exec : Exec σ) (d : DataTimeReel prim σ) : LoopPc prim → DataTimeReel prim σ × LoopPc prim
  | .idle =>
      match d.frames with
      | [] => (d, .idle)
      | frame :: tail => ({ d with frames := tail }, .dequeued frame)
  | .dequeued last => (d, handlePending d last)
  | .executing last rawFrame distance =>
      match exec d.world rawFrame.frame (d.triesAtFrame rawFrame) with
      | (.error _, world) => ({ d with world := world }.close last, .idle)
      | (.ok tries, world) =>
          ({ d with world := world, committed := d.committed.insert rawFrame.number (rawFrame.key, tries) },
            .stored last rawFrame distance tries)
  | .stored last rawFrame distance tries =>
      ({ d with proverTries := tries, head := rawFrame, headDistance := distance }, .scanning last)
  | .scanning last =>
      match d.nextPending (d.getStagedDataClockFramesForFrameNumber (d.head.number + 1)) with
      | .error _ => (d, .crashed)
      | .ok none => (d.close last, .idle)
      | .ok (some (rawFrame, distance)) => (d, .executing last rawFrame distance)
  | .crashed => (d, .crashed)

-- Where a call of Insert stands. It returns its own done channel or one that is already closed.
inductive InsertPc where
  | called
  | staging
  | rereading
  | sending
  | returned (done : Option Nat)
deriving DecidableEq

def framesCapacity : Nat := 65536

-- One step of the call with the given number, which also names its done channel.
def insertStep (d : DataTimeReel prim σ) (call : Nat) (frame : ReelFrame prim) : InsertPc → Go (DataTimeReel prim σ × InsertPc)
  | .called => do
      let _ ← attempt (d.getDistance frame)
      return (d, if d.head.number < frame.number then .staging else .returned none)
  | .staging => .ok (d.storePending frame, .rereading)
  | .rereading => .ok (d, if d.head.number + 1 = frame.number then .sending else .returned none)
  | .sending =>
      if d.frames.length < framesCapacity then
        .ok ({ d with frames := d.frames ++ [⟨frame.key, frame.number, call⟩] }, .returned (some call))
      else .ok (d, .sending)
  | .returned done => .ok (d, .returned done)

structure ReelSystem (prim : Primitives) (σ : Type) where
  reel : DataTimeReel prim σ
  loop : LoopPc prim
  calls : List (ReelFrame prim × InsertPc)

inductive ReelAction (prim : Primitives) where
  | insert (frame : ReelFrame prim)
  | call (number : Nat)
  | loop

-- A panic in any goroutine ends the process.
def ReelSystem.step (exec : Exec σ) (action : ReelAction prim) (s : ReelSystem prim σ) : ReelSystem prim σ :=
  match s.loop, action with
  | .crashed, _ => s
  | _, .insert frame => { s with calls := s.calls ++ [(frame, .called)] }
  | _, .call number =>
      match s.calls[number]? with
      | none => s
      | some (frame, pc) =>
          match insertStep s.reel number frame pc with
          | .error _ => { s with loop := .crashed }
          | .ok (reel, pc) => { s with reel := reel, calls := s.calls.set number (frame, pc) }
  | pc, .loop => { s with reel := (loopStep exec s.reel pc).1, loop := (loopStep exec s.reel pc).2 }

theorem next_ne {number : UInt64} : number ≠ number + 1 := by
  intro same
  have wrapped := congrArg UInt64.toNat same
  rw [UInt64.toNat_add] at wrapped
  have bound := number.toNat_lt
  simp at wrapped
  omega

theorem successor_number {number : UInt64} (isNext : next = number + 1) (higher : number < next) : next.toNat = number.toNat + 1 := by
  have bound := number.toNat_lt
  rw [UInt64.lt_iff_toNat_lt] at higher
  rw [isNext, UInt64.toNat_add] at higher ⊢
  simp at higher ⊢
  omega

theorem predecessor_number {number prior : UInt64} (isNext : next = number + 1) (after : next.toNat = prior.toNat + 1) :
    prior = number := by
  apply UInt64.toNat_inj.mp
  have bound := number.toNat_lt
  rw [isNext, UInt64.toNat_add] at after
  simp at after
  omega

theorem next_number {number : UInt64} (follows : next.toNat = number.toNat + 1) : number + 1 = next := by
  apply UInt64.toNat_inj.mp
  have bound := next.toNat_lt
  rw [UInt64.toNat_add]
  simp
  omega

theorem ReelSystem.step_elim {exec : Exec σ} {action : ReelAction prim} {s : ReelSystem prim σ} (motive : ReelSystem prim σ → Prop)
    (same : motive s) (crash : motive { s with loop := .crashed })
    (insert : ∀ frame, motive { s with calls := s.calls ++ [(frame, .called)] })
    (call : ∀ number frame pc reel next, s.calls[number]? = some (frame, pc) →
      insertStep s.reel number frame pc = .ok (reel, next) → motive { s with reel := reel, calls := s.calls.set number (frame, next) })
    (loop : motive { s with reel := (loopStep exec s.reel s.loop).1, loop := (loopStep exec s.reel s.loop).2 }) :
    motive (s.step exec action) := by
  rw [ReelSystem.step.eq_def]
  split
  · exact same
  · exact insert _
  · rename_i number _
    split
    · exact same
    · rename_i frame pc found
      split
      · exact crash
      · rename_i reel next done
        exact call number frame pc reel next found done
  · exact loop

variable {d : DataTimeReel prim σ}

variable {frame : ReelFrame prim}

theorem staged_ok_iff {selector : Bytes} :
    d.getStagedDataClockFrame frameNumber selector = .ok frame ↔ d.staged.lookup (frameNumber, selector) = some frame := by
  rw [DataTimeReel.getStagedDataClockFrame]
  cases d.staged.lookup (frameNumber, selector) <;> simp

theorem committed_ok_iff {tries : List RollingFrecencyCritbitTrie} :
    d.getDataClockFrame frameNumber = .ok (frame, tries) ↔
      ∃ selector, d.committed.lookup frameNumber = some (selector, tries) ∧ d.staged.lookup (frameNumber, selector) = some frame := by
  rw [DataTimeReel.getDataClockFrame]
  cases d.committed.lookup frameNumber with
  | none => simp
  | some entry =>
      obtain ⟨selector, stored⟩ := entry
      simp only
      cases found : d.staged.lookup (frameNumber, selector) with
      | none => simp +contextual [found]
      | some other =>
          simp only [Except.ok.injEq, Prod.mk.injEq, Option.some.injEq]
          constructor
          · rintro ⟨rfl, rfl⟩
            exact ⟨selector, ⟨rfl, rfl⟩, found⟩
          · rintro ⟨_, ⟨rfl, rfl⟩, again⟩
            exact ⟨Option.some.inj (found.symm.trans again), rfl⟩

theorem mem_staged_for :
    frame ∈ d.getStagedDataClockFramesForFrameNumber frameNumber ↔ ∃ selector, d.staged.lookup (frameNumber, selector) = some frame := by
  simp only [DataTimeReel.getStagedDataClockFramesForFrameNumber, List.mem_map, List.mem_insertionSort, List.mem_filter,
    decide_eq_true_eq]
  constructor
  · rintro ⟨⟨⟨number, selector⟩, staged⟩, ⟨member, rfl⟩, rfl⟩
    exact ⟨selector, AList.mem_lookup_iff.mpr member⟩
  · rintro ⟨selector, found⟩
    exact ⟨⟨(frameNumber, selector), frame⟩, ⟨AList.mem_lookup_iff.mp found, rfl⟩, rfl⟩

theorem get_distance_known (d : DataTimeReel prim σ) (frame prev : ReelFrame prim) (tries : List RollingFrecencyCritbitTrie)
    (known : d.getDataClockFrame (frame.number - 1) = .ok (prev, tries)) (cause : GoError) :
    d.getDistance frame ≠ .error (.err cause) := by
  intro failed
  rw [DataTimeReel.getDistance] at failed
  by_cases first : frame.number = 0
  · rw [if_pos first] at failed
    cases failed
  · rw [if_neg first, known] at failed
    simp only [returned, wrapErr, mapErr, ok_bind, index] at failed
    cases beacon : d.proverTries[0]? with
    | none =>
        rw [beacon] at failed
        cases failed
    | some beacons =>
        simp only [beacon, deref_some, ok_bind] at failed
        cases nearest : (beacons.findNearestAndApproximateNeighbors prev.key)[0]? with
        | none =>
            rw [nearest] at failed
            cases failed
        | some node =>
            rw [nearest] at failed
            cases failed

theorem next_pending_some {frames : List (ReelFrame prim)} {rawFrame : ReelFrame prim} {distance : Nat}
    (found : d.nextPending frames = .ok (some (rawFrame, distance))) : rawFrame ∈ frames ∧ rawFrame.frame.parentSelector = d.head.key := by
  induction frames with
  | nil => cases found
  | cons frame tail ih =>
      rw [DataTimeReel.nextPending] at found
      split at found
      · exact ⟨List.mem_cons_of_mem _ (ih found).1, (ih found).2⟩
      · rename_i linked
        rw [Decidable.not_not] at linked
        split at found
        · cases found
          exact ⟨List.mem_cons_self, linked⟩
        · split at found
          · exact ⟨List.mem_cons_of_mem _ (ih found).1, (ih found).2⟩
          · cases found
        · cases found

theorem next_pending_none {frames : List (ReelFrame prim)} (nothing : d.nextPending frames = .ok none)
    {rawFrame : ReelFrame prim} (member : rawFrame ∈ frames) (linked : rawFrame.frame.parentSelector = d.head.key) :
    ∃ cause, d.getDistance rawFrame = .error (.err cause) := by
  induction frames with
  | nil => cases member
  | cons frame tail ih =>
      rw [DataTimeReel.nextPending] at nothing
      cases List.mem_cons.mp member with
      | inl same =>
          rw [← same, if_neg (not_not.mpr linked)] at nothing
          split at nothing
          · cases nothing
          · rename_i cause failed
            exact ⟨cause, failed⟩
          · cases nothing
      | inr later =>
          split at nothing
          · exact ih nothing later
          · split at nothing
            · cases nothing
            · split at nothing
              · exact ih nothing later
              · cases nothing
            · cases nothing

theorem handle_pending_cases {last : PendingFrame} :
    handlePending d last = .crashed ∨
      ∃ rawFrame, d.staged.lookup (last.frameNumber, last.selector) = some rawFrame ∧
        (d.head.number < rawFrame.number ∧ (∃ cause, d.getDistance rawFrame = .error (.err cause)) ∧ handlePending d last = .scanning last ∨
          d.head.number < rawFrame.number ∧ rawFrame.number ≠ d.head.number + 1 ∧ handlePending d last = .scanning last ∨
          d.head.number < rawFrame.number ∧ rawFrame.number = d.head.number + 1 ∧
            (∃ distance, handlePending d last = .executing last rawFrame distance) ∨
          d.head.number = rawFrame.number ∧ handlePending d last = .scanning last ∨
          rawFrame.number < d.head.number ∧ handlePending d last = .idle) := by
  rw [handlePending]
  cases found : d.getStagedDataClockFrame last.frameNumber last.selector with
  | error cause => exact .inl rfl
  | ok rawFrame =>
      simp only
      have staged := staged_ok_iff.mp found
      by_cases higher : d.head.number < rawFrame.number
      · rw [if_pos higher]
        split
        · rename_i cause failed
          split
          · exact .inr ⟨rawFrame, staged, .inl ⟨higher, ⟨cause, failed⟩, rfl⟩⟩
          · exact .inl rfl
        · exact .inl rfl
        · rename_i distance known
          split
          · rename_i gap
            refine .inr ⟨rawFrame, staged, .inr (.inl ⟨higher, fun next => gap ?_, rfl⟩)⟩
            rw [next, UInt64.add_comm, UInt64.add_sub_cancel]
          · rename_i next
            rw [Decidable.not_not] at next
            refine .inr ⟨rawFrame, staged, .inr (.inr (.inl ⟨higher, ?_, distance, rfl⟩))⟩
            rw [← UInt64.sub_add_cancel rawFrame.number d.head.number, next, UInt64.add_comm]
      · rw [if_neg higher]
        split
        · rename_i same
          exact .inr ⟨rawFrame, staged, .inr (.inr (.inr (.inl ⟨same, rfl⟩)))⟩
        · rename_i differs
          have lower : rawFrame.number < d.head.number :=
            UInt64.lt_of_le_of_ne (UInt64.not_lt.mp higher) (Ne.symm differs)
          exact .inr ⟨rawFrame, staged, .inr (.inr (.inr (.inr ⟨lower, rfl⟩)))⟩

end Reel

end Ceremony
