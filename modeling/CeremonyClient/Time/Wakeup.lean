import CeremonyClient.Time.Linkage

set_option autoImplicit false

namespace Ceremony

open GoSem

variable {prim : Primitives} {σ : Type}

variable {s : ReelSystem prim σ} {calls : List (ReelFrame prim × InsertPc)} {number : UInt64} {position : Nat} {frame : ReelFrame prim}
  {pc next : InsertPc} {d : DataTimeReel prim σ} {exec : Exec σ}

structure Awaited (d : DataTimeReel prim σ) (frame : ReelFrame prim) : Prop where
  staged : d.staged.lookup (frame.number, frame.key) = some frame
  next : frame.number.toNat = d.head.number.toNat + 1
  linked : frame.frame.parentSelector = d.head.key

def InsertPc.Waiting (pc : InsertPc) : Prop := pc = .rereading ∨ pc = .sending

-- The loop is on its way to a scan, or there is a queue entry of the number, taken, waiting or about to be sent.
def Covered (s : ReelSystem prim σ) (number : UInt64) : Prop :=
  match s.loop with
  | .idle => Sent s none
  | .dequeued last => Sent s (some last)
  | _ => True
where
  Sent (s : ReelSystem prim σ) (taken : Option PendingFrame) : Prop :=
    (∃ last, taken = some last ∧ last.frameNumber = number) ∨ (∃ pending ∈ s.reel.frames, pending.frameNumber = number) ∨
      ∃ call ∈ s.calls, call.1.number = number ∧ call.2.Waiting

def Attended (s : ReelSystem prim σ) : Prop := ∀ frame, Awaited s.reel frame → Covered s frame.number

theorem covered_mono {reel : DataTimeReel prim σ} (more : ((∃ pending ∈ s.reel.frames, pending.frameNumber = number) ∨
        ∃ call ∈ s.calls, call.1.number = number ∧ call.2.Waiting) →
      (∃ pending ∈ reel.frames, pending.frameNumber = number) ∨ ∃ call ∈ calls, call.1.number = number ∧ call.2.Waiting)
    (covered : Covered s number) : Covered { s with reel := reel, calls := calls } number := by
  obtain ⟨old, pc, oldCalls⟩ := s
  cases pc with
  | idle => exact covered.imp_right more
  | dequeued last => exact covered.imp_right more
  | executing last rawFrame distance => trivial
  | stored last rawFrame distance tries => trivial
  | scanning last => trivial
  | crashed => trivial

theorem covered_sent
    (sent : (∃ pending ∈ s.reel.frames, pending.frameNumber = number) ∨ ∃ call ∈ s.calls, call.1.number = number ∧ call.2.Waiting) :
    Covered s number := by
  obtain ⟨reel, pc, calls⟩ := s
  cases pc with
  | idle => exact .inr sent
  | dequeued last => exact .inr sent
  | executing last rawFrame distance => trivial
  | stored last rawFrame distance tries => trivial
  | scanning last => trivial
  | crashed => trivial

theorem mem_set_other {α : Type} {items : List α} {old new item : α} (found : items[position]? = some old) (member : item ∈ items)
    (differs : item ≠ old) : item ∈ items.set position new := by
  obtain ⟨index, isItem⟩ := List.mem_iff_getElem?.mp member
  apply List.mem_iff_getElem?.mpr
  refine ⟨index, ?_⟩
  rw [List.getElem?_set_ne, isItem]
  intro same
  rw [same, isItem] at found
  exact differs (Option.some.inj found)

theorem mem_set_self {α : Type} {items : List α} {old new : α} (found : items[position]? = some old) : new ∈ items.set position new := by
  obtain ⟨inside, -⟩ := List.getElem?_eq_some_iff.mp found
  exact List.mem_iff_getElem?.mpr ⟨position, List.getElem?_set_self inside⟩

theorem waiting_set (found : calls[position]? = some (frame, pc)) (own : frame.number = number → pc.Waiting → next.Waiting)
    (waits : ∃ call ∈ calls, call.1.number = number ∧ call.2.Waiting) :
    ∃ call ∈ calls.set position (frame, next), call.1.number = number ∧ call.2.Waiting := by
  obtain ⟨call, member, isNumber, waiting⟩ := waits
  by_cases same : call = (frame, pc)
  · subst same
    exact ⟨(frame, next), mem_set_self found, isNumber, own isNumber waiting⟩
  · exact ⟨call, mem_set_other found member same, isNumber, waiting⟩

theorem insert_step_attended (attended : Attended s) {number : Nat} (call : s.calls[number]? = some (frame, pc))
    (done : insertStep s.reel number frame pc = .ok (d, next)) :
    Attended { s with reel := d, calls := s.calls.set number (frame, next) } := by
  intro awaited waits
  cases pc with
  | called =>
      rw [insertStep, bind_ok_iff] at done
      obtain ⟨_, -, done⟩ := done
      cases done
      refine covered_mono (Or.imp_right (waiting_set call fun _ waiting => ?_)) (attended awaited waits)
      cases waiting <;> contradiction
  | staging =>
      cases done
      obtain ⟨sameHead, -, sameFrames, -⟩ := store_pending_rest s.reel frame
      by_cases own : frame.number = awaited.number
      · exact covered_sent (.inr ⟨(frame, .rereading), mem_set_self call, own, .inl rfl⟩)
      · have staged := waits.staged
        rw [store_pending_lookup, if_neg fun same => own (Prod.mk.inj same).1.symm] at staged
        have before : Awaited s.reel awaited := ⟨staged, sameHead ▸ waits.next, sameHead ▸ waits.linked⟩
        refine covered_mono (Or.imp ?_ (waiting_set call fun isNumber => absurd isNumber own)) (attended awaited before)
        rw [sameFrames]
        exact id
  | rereading =>
      cases done
      refine covered_mono (Or.imp_right (waiting_set call fun isNumber _ => ?_)) (attended awaited waits)
      rw [if_pos (by rw [isNumber]; exact next_number waits.next)]
      exact .inr rfl
  | sending =>
      rw [insertStep] at done
      split at done
      · cases done
        refine covered_mono (fun sent => ?_) (attended awaited ⟨waits.staged, waits.next, waits.linked⟩)
        by_cases own : frame.number = awaited.number
        · exact .inl ⟨_, List.mem_append_right _ List.mem_cons_self, own⟩
        · refine sent.imp ?_ (waiting_set call fun isNumber => absurd isNumber own)
          rintro ⟨pending, member, isNumber⟩
          exact ⟨pending, List.mem_append_left _ member, isNumber⟩
      · cases done
        exact covered_mono (Or.imp_right (waiting_set call fun _ waiting => waiting)) (attended awaited waits)
  | returned channel =>
      cases done
      exact covered_mono (Or.imp_right (waiting_set call fun _ waiting => waiting)) (attended awaited waits)

theorem awaited_distance (sound : ReelSound d) (awaited : Awaited d frame) {cause : GoError} :
    d.getDistance frame ≠ .error (.err cause) := by
  obtain ⟨tries, known⟩ := sound.headKnown
  refine get_distance_known d frame d.head tries ?_ cause
  rw [← next_number awaited.next, UInt64.add_sub_cancel]
  exact known

theorem loop_step_attended (succeeds : ∀ world frame tries, (exec world frame tries).1.isOk = true) (sound : Sound s)
    (attended : Attended s) : Attended { s with reel := (loopStep exec s.reel s.loop).1, loop := (loopStep exec s.reel s.loop).2 } := by
  obtain ⟨d, pc, calls⟩ := s
  intro frame awaited
  simp only at awaited ⊢
  cases pc with
  | idle =>
      rw [loopStep] at awaited ⊢
      split at awaited <;> rename_i isFrames
      · exact attended frame awaited
      · rename_i pending tail
        have before := attended frame ⟨awaited.staged, awaited.next, awaited.linked⟩
        rcases before with ⟨_, taken, -⟩ | ⟨queued, member, isNumber⟩ | waiting
        · cases taken
        · rw [isFrames] at member
          cases List.mem_cons.mp member with
          | inl first => exact .inl ⟨pending, rfl, by rw [← first]; exact isNumber⟩
          | inr later => exact .inr (.inl ⟨queued, later, isNumber⟩)
        · exact .inr (.inr waiting)
  | dequeued last =>
      rw [loopStep] at awaited ⊢
      rcases handle_pending_cases with crash | ⟨rawFrame, staged, ⟨-, -, scan⟩ | ⟨-, -, scan⟩ | ⟨-, -, distance, run⟩ |
        ⟨-, scan⟩ | ⟨lower, drop⟩⟩
      · rw [crash]; trivial
      · rw [scan]; trivial
      · rw [scan]; trivial
      · rw [run]; trivial
      · rw [scan]; trivial
      · rw [drop]
        -- The dropped entry is below the head, so it is not the one that covers the frame.
        have isNumber := (Prod.mk.inj (sound.reel.keyed _ _ staged)).1
        rcases attended frame awaited with ⟨_, taken, same⟩ | sent
        · cases taken
          have next : frame.number.toNat = d.head.number.toNat + 1 := awaited.next
          rw [UInt64.lt_iff_toNat_lt, ← isNumber, same, next] at lower
          omega
        · exact .inr sent
  | executing last rawFrame distance =>
      have ran := succeeds d.world rawFrame.frame (d.triesAtFrame rawFrame)
      rw [loopStep]
      split
      · rename_i failed
        rw [failed] at ran
        cases ran
      · trivial
  | stored last rawFrame distance tries => trivial
  | scanning last =>
      rw [loopStep] at awaited ⊢
      split at awaited
      · trivial
      · rename_i nothing
        have before : Awaited d frame := ⟨awaited.staged, awaited.next, awaited.linked⟩
        have member : frame ∈ d.getStagedDataClockFramesForFrameNumber (d.head.number + 1) := by
          rw [mem_staged_for, next_number before.next]
          exact ⟨frame.key, before.staged⟩
        obtain ⟨cause, failed⟩ := next_pending_none nothing member before.linked
        exact absurd failed (awaited_distance sound.reel before)
      · trivial
  | crashed => trivial

theorem step_attended (succeeds : ∀ world frame tries, (exec world frame tries).1.isOk = true) {action : ReelAction prim} (sound : Sound s)
    (attended : Attended s) : Attended (s.step exec action) := by
  apply ReelSystem.step_elim Attended
  · exact attended
  · exact fun _ _ => trivial
  · intro frame awaited waits
    refine covered_mono (Or.imp_right ?_) (attended awaited waits)
    rintro ⟨call, member, isNumber, waiting⟩
    exact ⟨call, List.mem_append_left _ member, isNumber, waiting⟩
  · intro number frame pc reel next call done
    exact insert_step_attended attended call done
  · exact loop_step_attended succeeds sound attended

structure Quiescent (s : ReelSystem prim σ) : Prop where
  idle : s.loop = .idle
  empty : s.reel.frames = []
  returned : ∀ call ∈ s.calls, ∃ done, call.2 = .returned done

theorem quiescent_uncovered (quiet : Quiescent s) : ¬ Covered s number := by
  rw [Covered, quiet.idle]
  rintro (⟨_, taken, -⟩ | ⟨pending, member, -⟩ | ⟨call, member, -, waiting⟩)
  · cases taken
  · rw [quiet.empty] at member
    cases member
  · obtain ⟨done, isReturned⟩ := quiet.returned call member
    rw [isReturned] at waiting
    cases waiting <;> contradiction

-- Two staged frames with one parent do no harm here: whichever is taken moves the head past both.
theorem no_lost_wakeup (exec : Exec σ) (succeeds : ∀ world frame tries, (exec world frame tries).1.isOk = true)
    (start : ReelSystem prim σ) (sound : Sound start) (settled : ∀ frame, ¬ Awaited start.reel frame)
    (actions : List (ReelAction prim)) (quiet : Quiescent (runActions (ReelSystem.step exec) actions start)) :
    ∀ key frame, (runActions (ReelSystem.step exec) actions start).reel.staged.lookup key = some frame →
      frame.number.toNat = (runActions (ReelSystem.step exec) actions start).reel.head.number.toNat + 1 →
      frame.frame.parentSelector ≠ (runActions (ReelSystem.step exec) actions start).reel.head.key := by
  have both := run_invariant (ReelSystem.step exec) (fun s => Sound s ∧ Attended s)
    (fun action s holds => ⟨step_sound exec action s holds.1, step_attended succeeds holds.1 holds.2⟩) actions start
    ⟨sound, fun frame awaited => absurd awaited (settled frame)⟩
  intro key frame staged next linked
  rw [both.1.reel.keyed key frame staged] at staged
  exact quiescent_uncovered quiet (both.2 frame ⟨staged, next, linked⟩)

theorem start_settled {genesis : ReelFrame prim} {tries : List RollingFrecencyCritbitTrie} {world : σ} (frame : ReelFrame prim) :
    ¬ Awaited (ReelSystem.start genesis tries world).reel frame := by
  intro awaited
  have staged := awaited.staged
  rw [start_lookup] at staged
  split at staged
  · rename_i same
    have next : frame.number.toNat = genesis.number.toNat + 1 := awaited.next
    rw [(Prod.mk.inj same).1] at next
    omega
  · cases staged

-- The second frame is staged before the first is executed, and its call sees the new head before the loop scans.
def raceRun : List (ReelAction samplePrimitives) :=
  [.insert (reelFrame 2 3 linkedFrame.key), .call 0, .call 0, .insert linkedFrame, .call 1, .call 1, .call 1, .call 1, .loop, .loop, .loop,
    .loop, .call 0, .call 0, .loop, .loop, .loop, .loop, .loop, .loop, .loop]

def quiescent (s : ReelSystem prim σ) : Bool :=
  (match s.loop with
    | .idle => true
    | _ => false) && s.reel.frames.isEmpty && s.calls.all fun call =>
      match call.2 with
      | .returned _ => true
      | _ => false

theorem quiescent_sound (check : quiescent s = true) : Quiescent s := by
  rw [quiescent, Bool.and_eq_true, Bool.and_eq_true] at check
  obtain ⟨⟨idle, empty⟩, returned⟩ := check
  refine ⟨?_, List.isEmpty_iff.mp empty, fun call member => ?_⟩
  · split at idle
    · assumption
    · cases idle
  · have isReturned := List.all_eq_true.mp returned call member
    split at isReturned
    · rename_i done found
      exact ⟨done, found⟩
    · cases isReturned

theorem no_lost_wakeup_race :
    (reelAfter raceRun).reel.head.number = 2 ∧ ∀ key frame, (reelAfter raceRun).reel.staged.lookup key = some frame →
      frame.number.toNat = (reelAfter raceRun).reel.head.number.toNat + 1 →
      frame.frame.parentSelector ≠ (reelAfter raceRun).reel.head.key := by
  have head : (reelAfter raceRun).reel.head.number = 2 := by decide +kernel
  have quiet : Quiescent (reelAfter raceRun) := quiescent_sound (by decide +kernel)
  rw [reelAfter] at head quiet ⊢
  exact ⟨head, no_lost_wakeup keepTries (fun _ _ _ => rfl) reelStart start_sound start_settled raceRun quiet⟩

end Ceremony
