import CeremonyClient.Time.Linkage

set_option autoImplicit false

namespace Ceremony

open GoSem

variable {number : UInt64} {fuel : Nat} {last : PendingFrame}

section Pending

variable {prim : Primitives} {σ : Type} (execAt : ReelFrame prim → Exec σ) (accepts : ReelFrame prim → ReelFrame prim → Bool)

-- processPending from its scan until it returns. What the callback answers may depend on the head at the time.
def pendingRun : Nat → DataTimeReel prim σ → LoopPc prim → Go (DataTimeReel prim σ)
  | _, d, .idle => .ok d
  | _, _, .crashed => crash
  | 0, _, _ => .error .outOfFuel
  | fuel + 1, d, pc => pendingRun fuel (loopStep (execAt d.head) d pc).1 (loopStep (execAt d.head) d pc).2

def processPending (fuel : Nat) (d : DataTimeReel prim σ) (last : PendingFrame) : Go (DataTimeReel prim σ) := pendingRun execAt fuel d (.scanning last)

def Decides : Prop := ∀ head world (frame : ReelFrame prim) tries, (execAt head world frame.frame tries).1.isOk = accepts head frame

def Filed (d : DataTimeReel prim σ) : Prop := ∀ key frame, d.staged.lookup key = some frame → key = (frame.number, frame.key)

def siblings (d : DataTimeReel prim σ) (head : ReelFrame prim) : List (ReelFrame prim) :=
  (d.getStagedDataClockFramesForFrameNumber (head.number + 1)).filter fun frame => frame.frame.parentSelector = head.key

def HeadStored (d : DataTimeReel prim σ) (head : ReelFrame prim) : Prop := ∃ prev, d.getDataClockFrame head.number = .ok prev

def Exhausted (d : DataTimeReel prim σ) : Prop :=
  ∀ frame ∈ d.getStagedDataClockFramesForFrameNumber (d.head.number + 1), frame.frame.parentSelector = d.head.key →
    (∃ prev, d.getDataClockFrame (frame.number - 1) = .ok prev) → accepts d.head frame = false

-- The heads that are reached by accepting the first sibling each time, with whether they are stored.
inductive HeadReached (d : DataTimeReel prim σ) : ReelFrame prim → Prop → Prop where
  | start : HeadReached d d.head (HeadStored d d.head)
  | next (head frame : ReelFrame prim) (stored : Prop) (reached : HeadReached d head stored) (ready : stored ∨ head.number + 1 = 0)
      (first : (siblings d head).head? = some frame) (accepted : accepts head frame = true) : HeadReached d frame True

theorem siblings_staged {d other : DataTimeReel prim σ} (head : ReelFrame prim) (same : d.staged = other.staged) :
    siblings d head = siblings other head := by
  rw [siblings, siblings, DataTimeReel.getStagedDataClockFramesForFrameNumber, DataTimeReel.getStagedDataClockFramesForFrameNumber, same]

variable {d : DataTimeReel prim σ}

variable {frame : ReelFrame prim}

theorem staged_number (filed : Filed d)
    (member : frame ∈ d.getStagedDataClockFramesForFrameNumber (number + 1)) : frame.number = number + 1 ∧ frame.number - 1 = number := by
  obtain ⟨selector, found⟩ := mem_staged_for.mp member
  have isNumber : number + 1 = frame.number := congrArg Prod.fst (filed _ frame found)
  rw [← isNumber]
  exact ⟨rfl, UInt64.add_sub_cancel number 1⟩

theorem next_pending_first (filed : Filed d) (ready : HeadStored d d.head ∨ d.head.number + 1 = 0)
    {frames : List (ReelFrame prim)} (staged : ∀ frame ∈ frames, frame ∈ d.getStagedDataClockFramesForFrameNumber (d.head.number + 1))
    {found : Option (ReelFrame prim × Nat)} (scanned : d.nextPending frames = .ok found) :
    found.map Prod.fst = (frames.filter fun frame => frame.frame.parentSelector = d.head.key).head? := by
  induction frames with
  | nil =>
      cases scanned
      rfl
  | cons frame rest ih =>
      obtain ⟨isStaged, others⟩ := List.forall_mem_cons.mp staged
      rw [DataTimeReel.nextPending] at scanned
      by_cases linked : frame.frame.parentSelector = d.head.key
      · rw [if_neg (not_not.mpr linked)] at scanned
        rw [List.filter_cons_of_pos (by simpa using linked), List.head?_cons]
        obtain ⟨isNumber, isPrevious⟩ := staged_number filed isStaged
        have known (cause : GoError) : d.getDistance frame ≠ .error (.err cause) := by
          rcases ready with ⟨⟨prev, tries⟩, stored⟩ | wrapped
          · exact get_distance_known d frame prev tries (isPrevious ▸ stored) cause
          · rw [DataTimeReel.getDistance, if_pos (isNumber.trans wrapped)]
            exact fun failed => by cases failed
        split at scanned
        · cases scanned
          rfl
        · next cause failed => exact absurd failed (known cause)
        · cases scanned
      · rw [if_pos linked] at scanned
        rw [List.filter_cons_of_neg (by simpa using linked)]
        exact ih others scanned

theorem missing_frame (missing : ¬ ∃ prev, d.getDataClockFrame number = .ok prev) :
    d.getDataClockFrame number = .error errNotFound := by
  rw [DataTimeReel.getDataClockFrame] at missing ⊢
  cases committed : d.committed.lookup number with
  | none => rfl
  | some entry =>
      obtain ⟨selector, tries⟩ := entry
      rw [committed] at missing
      dsimp only at missing ⊢
      cases staged : d.staged.lookup (number, selector) with
      | none => rfl
      | some frame =>
          rw [staged] at missing
          exact absurd ⟨_, rfl⟩ missing

theorem next_pending_unstored (filed : Filed d) (missing : ¬ HeadStored d d.head) (inside : d.head.number + 1 ≠ 0)
    {frames : List (ReelFrame prim)} (staged : ∀ frame ∈ frames, frame ∈ d.getStagedDataClockFramesForFrameNumber (d.head.number + 1)) :
    d.nextPending frames = .ok none := by
  induction frames with
  | nil => rfl
  | cons frame rest ih =>
      obtain ⟨isStaged, others⟩ := List.forall_mem_cons.mp staged
      obtain ⟨isNumber, isPrevious⟩ := staged_number filed isStaged
      have unknown : d.getDistance frame = .error (.err (errNotFound.wrap "get distance")) := by
        rw [DataTimeReel.getDistance, if_neg (isNumber ▸ inside), isPrevious, missing_frame missing]
        rfl
      rw [DataTimeReel.nextPending, unknown, ih others]
      split
      · rfl
      · rfl

def Ready (d : DataTimeReel prim σ) : Prop := HeadStored d d.head ∨ d.head.number + 1 = 0

theorem filed_staged (d other : DataTimeReel prim σ) (same : other.staged = d.staged) (filed : Filed d) : Filed other := by
  rw [Filed, same]
  exact filed

theorem commit_stored (filed : Filed d)
    (member : frame ∈ d.getStagedDataClockFramesForFrameNumber number) {tries : List RollingFrecencyCritbitTrie}
    {other : DataTimeReel prim σ} (sameStaged : other.staged = d.staged)
    (committed : other.committed = d.committed.insert frame.number (frame.key, tries)) : HeadStored other frame := by
  obtain ⟨selector, found⟩ := mem_staged_for.mp member
  refine ⟨(frame, tries), committed_ok_iff.mpr ⟨frame.key, ?_, ?_⟩⟩
  · rw [committed]
    exact AList.lookup_insert d.committed
  · rw [sameStaged, ← filed _ frame found]
    exact found

theorem pending_run_idle : pendingRun execAt fuel d .idle = .ok d := by
  cases fuel <;> rfl

section

variable (decides : Decides execAt accepts)

include decides

theorem execute_cases {d final : DataTimeReel prim σ} {distance : Nat}
    (returns : pendingRun execAt fuel d (.executing last frame distance) = .ok final) :
    (final.head = d.head ∧ final.staged = d.staged ∧ final.committed = d.committed ∧ accepts d.head frame = false) ∨
    ∃ fuel' next tries, fuel' < fuel ∧ accepts d.head frame = true ∧ next.head = frame ∧ next.staged = d.staged ∧
      next.committed = d.committed.insert frame.number (frame.key, tries) ∧ pendingRun execAt fuel' next (.scanning last) = .ok final := by
  cases fuel with
  | zero => cases returns
  | succ fuel =>
      have executed : pendingRun execAt fuel (loopStep (execAt d.head) d (.executing last frame distance)).1
        (loopStep (execAt d.head) d (.executing last frame distance)).2 = .ok final := returns
      have answer := decides d.head d.world frame (d.triesAtFrame frame)
      rw [loopStep] at executed
      cases ran : execAt d.head d.world frame.frame (d.triesAtFrame frame) with
      | mk result world =>
          rw [ran] at executed answer
          cases result with
          | error cause =>
              refine .inl ?_
              rw [pending_run_idle] at executed
              cases executed
              exact ⟨rfl, rfl, rfl, answer.symm⟩
          | ok tries =>
              cases fuel with
              | zero => cases executed
              | succ fuel =>
                  refine .inr ⟨fuel, { d with
                    world := world, committed := d.committed.insert frame.number (frame.key, tries), proverTries := tries, head := frame,
                    headDistance := distance }, tries, by omega, answer.symm, rfl, rfl, rfl, executed⟩

theorem round_cases {d final : DataTimeReel prim σ} (filed : Filed d)
    (returns : pendingRun execAt fuel d (.scanning last) = .ok final) :
    (final.head = d.head ∧ final.staged = d.staged ∧ final.committed = d.committed ∧
      (Ready d → ∀ frame, (siblings d d.head).head? = some frame → accepts d.head frame = false)) ∨
    ∃ frame fuel' next, fuel' < fuel ∧ Ready d ∧ (siblings d d.head).head? = some frame ∧ accepts d.head frame = true ∧
      next.head = frame ∧ next.staged = d.staged ∧ HeadStored next frame ∧ pendingRun execAt fuel' next (.scanning last) = .ok final := by
  cases fuel with
  | zero => cases returns
  | succ fuel =>
      have scan : pendingRun execAt fuel (loopStep (execAt d.head) d (.scanning last)).1 (loopStep (execAt d.head) d (.scanning last)).2 = .ok final :=
        returns
      rw [loopStep] at scan
      have inside (frame : ReelFrame prim) (member : frame ∈ d.getStagedDataClockFramesForFrameNumber (d.head.number + 1)) := member
      cases scanned : d.nextPending (d.getStagedDataClockFramesForFrameNumber (d.head.number + 1)) with
      | error fault =>
          rw [scanned] at scan
          cases fuel <;> cases scan
      | ok found =>
          rw [scanned] at scan
          by_cases ready : Ready d
          · have first := next_pending_first filed ready inside scanned
            cases found with
            | none =>
                rw [pending_run_idle] at scan
                cases scan
                exact .inl ⟨rfl, rfl, rfl, fun _ frame isFirst => by rw [siblings, ← first] at isFirst; cases isFirst⟩
            | some pair =>
                obtain ⟨frame, distance⟩ := pair
                have isFirst : (siblings d d.head).head? = some frame := first.symm
                rcases execute_cases execAt accepts decides scan with
                  ⟨sameHead, sameStaged, sameCommitted, rejected⟩ | ⟨fuel', next, tries, less, accepted, isHead, sameStaged, committed, rest⟩
                · refine .inl ⟨sameHead, sameStaged, sameCommitted, fun _ other isOther => ?_⟩
                  cases isFirst.symm.trans isOther
                  exact rejected
                · have member := List.mem_of_mem_filter (List.mem_of_mem_head? isFirst)
                  exact .inr ⟨frame, fuel', next, by omega, ready, isFirst, accepted, isHead, sameStaged,
                    commit_stored filed member sameStaged committed, rest⟩
          · rw [next_pending_unstored filed (fun stored => ready (.inl stored)) (fun wrapped => ready (.inr wrapped)) inside] at scanned
            cases scanned
            rw [pending_run_idle] at scan
            cases scan
            exact .inl ⟨rfl, rfl, rfl, fun isReady => absurd isReady ready⟩

theorem run_ends_reached {start : DataTimeReel prim σ} {final : DataTimeReel prim σ}
    (d : DataTimeReel prim σ) (filed : Filed d) (sameStaged : d.staged = start.staged) (stored : Prop)
    (reached : HeadReached accepts start d.head stored) (isStored : stored ↔ HeadStored d d.head)
    (returns : pendingRun execAt fuel d (.scanning last) = .ok final) :
    final.staged = start.staged ∧ ∃ stored, HeadReached accepts start final.head stored ∧ (stored ↔ HeadStored final final.head) ∧
      (stored → ∀ frame, (siblings start final.head).head? = some frame → accepts final.head frame = false) := by
  induction fuel using Nat.strong_induction_on generalizing d stored with
  | _ fuel ih =>
      rcases round_cases execAt accepts decides filed returns with
        ⟨sameHead, keptStaged, sameCommitted, rejected⟩ | ⟨frame, fuel', next, less, ready, isFirst, accepted, isHead, keptStaged, nextStored, rest⟩
      · have same : HeadStored final d.head ↔ HeadStored d d.head := by
          rw [HeadStored, HeadStored, DataTimeReel.getDataClockFrame, DataTimeReel.getDataClockFrame, sameCommitted, keptStaged]
        rw [sameHead]
        refine ⟨keptStaged.trans sameStaged, stored, reached, isStored.trans same.symm, fun isTrue => ?_⟩
        rw [siblings_staged d.head sameStaged.symm]
        exact rejected (.inl (isStored.mp isTrue))
      · refine ih fuel' less next (filed_staged d next keptStaged filed) (keptStaged.trans sameStaged) True ?_ ?_ rest
        · rw [isHead]
          refine .next d.head frame stored reached ?_ ?_ accepted
          · rcases ready with isReady | wrapped
            · exact .inl (isStored.mpr isReady)
            · exact .inr wrapped
          · rw [siblings_staged d.head sameStaged.symm]
            exact isFirst
        · rw [isHead]
          exact iff_of_true trivial nextStored

theorem reached_passed {start : DataTimeReel prim σ} {final : DataTimeReel prim σ} (filed : Filed start)
    (returns : pendingRun execAt fuel start (.scanning last) = .ok final) {head : ReelFrame prim} {stored : Prop}
    (reached : HeadReached accepts start head stored) :
    ∃ fuel d, d.head = head ∧ d.staged = start.staged ∧ (stored ↔ HeadStored d head) ∧ pendingRun execAt fuel d (.scanning last) = .ok final := by
  induction reached with
  | start => exact ⟨fuel, start, rfl, rfl, Iff.rfl, returns⟩
  | next head frame stored reached isOpen first accepted ih =>
      obtain ⟨fuel, d, isHead, sameStaged, isStored, rest⟩ := ih
      have isFirst : (siblings d d.head).head? = some frame := by
        rw [siblings_staged d.head sameStaged, isHead]
        exact first
      have ready : Ready d := by
        rw [Ready, isHead, ← isStored]
        exact isOpen
      rcases round_cases execAt accepts decides (filed_staged start d sameStaged filed) rest with
        ⟨-, -, -, rejected⟩ | ⟨other, fuel', next, -, -, isOther, -, nextHead, keptStaged, nextStored, later⟩
      · have refused := rejected ready frame isFirst
        rw [isHead, accepted] at refused
        cases refused
      · cases isFirst.symm.trans isOther
        exact ⟨fuel', next, nextHead, keptStaged.trans sameStaged, iff_of_true trivial nextStored, later⟩

end

theorem pending_exhausted_iff (decides : Decides execAt accepts) (fuel : Nat) (d final : DataTimeReel prim σ) (last : PendingFrame) (filed : Filed d)
    (returns : processPending execAt fuel d last = .ok final) :
    Exhausted accepts final ↔ ∀ head stored, HeadReached accepts d head stored → stored → ∀ first, (siblings d head).head? = some first →
      accepts head first = false → ∀ frame ∈ siblings d head, accepts head frame = false := by
  constructor
  · intro exhausted head stored reached isTrue first isFirst rejected frame member
    obtain ⟨fuel', here, isHead, sameStaged, isStored, rest⟩ := reached_passed execAt accepts decides filed returns reached
    have hereFiled := filed_staged d here sameStaged filed
    subst isHead
    rw [siblings_staged here.head sameStaged.symm] at isFirst member
    rcases round_cases execAt accepts decides hereFiled rest with
      ⟨sameHead, keptStaged, sameCommitted, -⟩ | ⟨other, _, _, _, _, isOther, accepted, _, _, _, _⟩
    · rw [siblings_staged here.head keptStaged.symm, ← sameHead] at member
      obtain ⟨inside, linked⟩ := List.mem_filter.mp member
      obtain ⟨prev, known⟩ := isStored.mp isTrue
      have isPrevious := (staged_number (filed_staged here final keptStaged hereFiled) inside).2
      rw [← sameHead]
      refine exhausted frame inside (of_decide_eq_true linked) ⟨prev, ?_⟩
      rw [isPrevious, sameHead, ← known, DataTimeReel.getDataClockFrame, DataTimeReel.getDataClockFrame, sameCommitted, keptStaged]
    · cases isFirst.symm.trans isOther
      rw [rejected] at accepted
      cases accepted
  · intro condition frame inside linked known
    obtain ⟨sameStaged, stored, reached, isStored, rejected⟩ :=
      run_ends_reached execAt accepts decides d filed rfl (HeadStored d d.head) .start Iff.rfl returns
    have isPrevious := (staged_number (filed_staged d final sameStaged filed) inside).2
    rw [isPrevious] at known
    have member : frame ∈ siblings d final.head := by
      rw [siblings_staged final.head sameStaged.symm]
      exact List.mem_filter.mpr ⟨inside, decide_eq_true linked⟩
    cases isFirst : (siblings d final.head).head? with
    | none =>
        rw [List.head?_eq_none_iff.mp isFirst] at member
        exact absurd member List.not_mem_nil
    | some first =>
        have isTrue := isStored.mpr known
        exact condition final.head stored reached isTrue first isFirst (rejected isTrue first isFirst) frame member

end Pending

-- Of two children of genesis only the one that comes second in the order of selectors is accepted.
def pickyAccepts (_ frame : ReelFrame samplePrimitives) : Bool := frame.frame.output = linkedFrame.frame.output

def pickyExec (_ : ReelFrame samplePrimitives) : Exec Unit := fun world frame tries =>
  if frame.output = linkedFrame.frame.output then (.ok tries, world) else (.error (errorsNew "invalid frame"), world)

def blockedReel : DataTimeReel samplePrimitives Unit := (reelStart.reel.storePending linkedFrame).storePending (reelFrame 1 3 reelGenesis.key)

theorem picky_decides : Decides pickyExec pickyAccepts := by
  intro head world frame tries
  rw [pickyExec, pickyAccepts]
  split
  · next same => exact (decide_eq_true same).symm
  · next different => exact (decide_eq_false different).symm

theorem blocked_reel_filed : Filed blockedReel :=
  (store_pending_sound (store_pending_sound start_sound.reel)).keyed

def pendingLeft (d : DataTimeReel samplePrimitives Unit) : Bool :=
  (d.getStagedDataClockFramesForFrameNumber (d.head.number + 1)).any fun frame =>
    frame.frame.parentSelector = d.head.key && (d.getDataClockFrame (frame.number - 1)).isOk && pickyAccepts d.head frame

theorem pending_left_accepted {d : DataTimeReel samplePrimitives Unit} (left : pendingLeft d = true) : ¬ Exhausted pickyAccepts d := by
  intro exhausted
  obtain ⟨frame, inside, checks⟩ := List.any_eq_true.mp left
  simp only [Bool.and_eq_true, decide_eq_true_eq] at checks
  obtain ⟨⟨linked, known⟩, accepted⟩ := checks
  cases stored : d.getDataClockFrame (frame.number - 1) with
  | error cause =>
      rw [stored] at known
      cases known
  | ok prev =>
      rw [exhausted frame inside linked ⟨prev, stored⟩] at accepted
      cases accepted

theorem blocked_reel_leaves : ∃ final, processPending pickyExec 2 blockedReel ⟨[], 1, 0⟩ = .ok final ∧ pendingLeft final = true :=
  (returns_with_iff _ _).mp (by decide +kernel)

theorem pending_exhausted_blocked : ∃ final, processPending pickyExec 2 blockedReel ⟨[], 1, 0⟩ = .ok final ∧
    (Exhausted pickyAccepts final ↔ ∀ head stored, HeadReached pickyAccepts blockedReel head stored → stored → ∀ first,
      (siblings blockedReel head).head? = some first → pickyAccepts head first = false → ∀ frame ∈ siblings blockedReel head, pickyAccepts head frame = false) := by
  obtain ⟨final, returns, -⟩ := blocked_reel_leaves
  exact ⟨final, returns, pending_exhausted_iff pickyExec pickyAccepts picky_decides 2 blockedReel final ⟨[], 1, 0⟩ blocked_reel_filed returns⟩

theorem rejected_sibling_blocks :
    Decides pickyExec pickyAccepts ∧ Filed blockedReel ∧
      ∃ final, processPending pickyExec 2 blockedReel ⟨[], 1, 0⟩ = .ok final ∧ ¬ Exhausted pickyAccepts final := by
  obtain ⟨final, returns, left⟩ := blocked_reel_leaves
  exact ⟨picky_decides, blocked_reel_filed, final, returns, pending_left_accepted left⟩

end Ceremony
