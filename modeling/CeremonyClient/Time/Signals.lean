import CeremonyClient.Time.Linkage

set_option autoImplicit false

namespace Ceremony

open GoSem

variable {prim : Primitives} {σ : Type}

variable {exec : Exec σ} {d : DataTimeReel prim σ} {last : PendingFrame} {pc : LoopPc prim} {s : ReelSystem prim σ} {number : Nat}
  {frame : ReelFrame prim} {next : InsertPc} {action : ReelAction prim} {dequeuedAt : ReelSystem prim σ}

def LoopPc.serving : LoopPc prim → Option PendingFrame
  | .dequeued last => some last
  | .executing last _ _ => some last
  | .stored last _ _ _ => some last
  | .scanning last => some last
  | .idle => none
  | .crashed => none

def LoopPc.engaged : LoopPc prim → Option PendingFrame
  | .dequeued _ => none
  | pc => pc.serving

theorem dequeued_step :
    (loopStep exec d (.dequeued last)).1 = d ∧
      ((loopStep exec d (.dequeued last)).2 = .crashed ∨
        ∃ rawFrame, d.staged.lookup (last.frameNumber, last.selector) = some rawFrame ∧
          (rawFrame.number < d.head.number ∧ (loopStep exec d (.dequeued last)).2 = .idle ∨
            ¬ rawFrame.number < d.head.number ∧ (loopStep exec d (.dequeued last)).2.engaged = some last)) := by
  refine ⟨rfl, ?_⟩
  rw [loopStep]
  rcases handle_pending_cases with crash | ⟨rawFrame, staged, ⟨higher, -, scan⟩ | ⟨higher, -, scan⟩ | ⟨higher, -, distance, run⟩ |
    ⟨same, scan⟩ | ⟨lower, drop⟩⟩
  · exact .inl crash
  · exact .inr ⟨rawFrame, staged, .inr ⟨UInt64.not_lt.mpr (UInt64.le_of_lt higher), by rw [scan]; rfl⟩⟩
  · exact .inr ⟨rawFrame, staged, .inr ⟨UInt64.not_lt.mpr (UInt64.le_of_lt higher), by rw [scan]; rfl⟩⟩
  · exact .inr ⟨rawFrame, staged, .inr ⟨UInt64.not_lt.mpr (UInt64.le_of_lt higher), by rw [run]; rfl⟩⟩
  · exact .inr ⟨rawFrame, staged, .inr ⟨by rw [same]; exact UInt64.lt_irrefl _, by rw [scan]; rfl⟩⟩
  · exact .inr ⟨rawFrame, staged, .inl ⟨lower, drop⟩⟩

theorem engaged_step (engaged : pc.engaged = some last) :
    (loopStep exec d pc).1.frames = d.frames ∧
      ((loopStep exec d pc).1.closed = d.closed ∧ ((loopStep exec d pc).2 = .crashed ∨ (loopStep exec d pc).2.engaged = some last) ∨
        (loopStep exec d pc).1.closed = d.closed ++ [last.done] ∧ (loopStep exec d pc).2 = .idle) := by
  cases pc with
  | idle => cases engaged
  | dequeued other => cases engaged
  | executing other rawFrame distance =>
      cases engaged
      rw [loopStep]
      split
      · exact ⟨rfl, .inr ⟨rfl, rfl⟩⟩
      · exact ⟨rfl, .inl ⟨rfl, .inr rfl⟩⟩
  | stored other rawFrame distance tries =>
      cases engaged
      exact ⟨rfl, .inl ⟨rfl, .inr rfl⟩⟩
  | scanning other =>
      cases engaged
      rw [loopStep]
      split
      · exact ⟨rfl, .inl ⟨rfl, .inl rfl⟩⟩
      · exact ⟨rfl, .inr ⟨rfl, rfl⟩⟩
      · exact ⟨rfl, .inl ⟨rfl, .inr rfl⟩⟩
  | crashed => cases engaged

def ReelSystem.channels (s : ReelSystem prim σ) : List Nat :=
  s.reel.frames.map PendingFrame.done ++ (s.loop.serving.toList.map PendingFrame.done ++ s.reel.closed)

-- Every channel in use belongs to one call, which has returned it, and is queued, served or closed only once.
structure Channels (s : ReelSystem prim σ) : Prop where
  distinct : s.channels.Nodup
  owned : ∀ channel ∈ s.channels, ∃ frame, s.calls[channel]? = some (frame, .returned (some channel))

theorem channels_fewer {other : ReelSystem prim σ} (channels : Channels s) (sameCalls : other.calls = s.calls)
    (fewer : List.Subperm other.channels s.channels) : Channels other := by
  refine ⟨?_, fun channel member => ?_⟩
  · obtain ⟨kept, same, part⟩ := fewer
    exact same.nodup_iff.mp (channels.distinct.sublist part)
  · rw [sameCalls]
    exact channels.owned channel (fewer.subset member)

theorem serving_engaged (engaged : pc.engaged = some last) : pc.serving = some last := by
  cases pc with
  | dequeued other => cases engaged
  | idle => exact engaged
  | executing other rawFrame distance => exact engaged
  | stored other rawFrame distance tries => exact engaged
  | scanning other => exact engaged
  | crashed => exact engaged

theorem loop_step_channels :
    List.Subperm (ReelSystem.channels ⟨(loopStep exec s.reel s.loop).1, (loopStep exec s.reel s.loop).2, s.calls⟩) s.channels := by
  obtain ⟨d, pc, calls⟩ := s
  simp only [ReelSystem.channels]
  cases isServing : pc.engaged with
  | some last =>
      obtain ⟨sameFrames, ⟨sameClosed, crash | next⟩ | ⟨closed, idle⟩⟩ := engaged_step isServing
      · rw [sameFrames, sameClosed, crash]
        exact ((List.sublist_append_right _ _).append_left _).subperm
      · rw [sameFrames, sameClosed, serving_engaged next, serving_engaged isServing]
      · rw [sameFrames, closed, idle, serving_engaged isServing]
        have moved : (d.closed ++ [last.done]).Perm ([last.done] ++ d.closed) := List.perm_append_comm
        exact (moved.append_left _).subperm
  | none =>
      cases pc with
      | idle =>
          rw [loopStep]
          split
          · exact List.Subperm.refl _
          · rename_i frame tail isFrames
            rw [isFrames]
            exact (List.perm_middle).subperm
      | dequeued last =>
          obtain ⟨same, crash | ⟨rawFrame, -, ⟨-, idle⟩ | ⟨-, next⟩⟩⟩ := dequeued_step
          · rw [same, crash]
            exact ((List.sublist_append_right _ _).append_left _).subperm
          · rw [same, idle]
            exact ((List.sublist_append_right _ _).append_left _).subperm
          · rw [same, serving_engaged next]
            exact List.Subperm.refl _
      | executing last rawFrame distance => cases isServing
      | stored last rawFrame distance tries => cases isServing
      | scanning last => cases isServing
      | crashed => exact List.Subperm.refl _

theorem insert_step_channels (channels : Channels s) {pc : InsertPc} (call : s.calls[number]? = some (frame, pc))
    (done : insertStep s.reel number frame pc = .ok (d, next)) :
    Channels { s with reel := d, calls := s.calls.set number (frame, next) } := by
  -- Only a call that has returned its channel owns it, and that call no longer changes.
  have kept : ∀ channel ∈ s.channels, (pc = .returned (some number) → next = .returned (some number)) →
      ∃ owner, (s.calls.set number (frame, next))[channel]? = some (owner, .returned (some channel)) := by
    intro channel member unchanged
    obtain ⟨owner, isOwner⟩ := channels.owned channel member
    by_cases same : number = channel
    · subst same
      rw [call] at isOwner
      obtain ⟨-, isReturned⟩ := Prod.mk.inj (Option.some.inj isOwner)
      obtain ⟨inside, -⟩ := List.getElem?_eq_some_iff.mp call
      exact ⟨frame, by rw [List.getElem?_set_self inside, unchanged isReturned]⟩
    · exact ⟨owner, by rw [List.getElem?_set_ne same, isOwner]⟩
  have unused : (∃ done, pc = .returned done) ∨ number ∉ s.channels := by
    by_cases returned : ∃ done, pc = .returned done
    · exact .inl returned
    · refine .inr fun member => returned ?_
      obtain ⟨owner, isOwner⟩ := channels.owned number member
      rw [call] at isOwner
      exact ⟨_, (Prod.mk.inj (Option.some.inj isOwner)).2⟩
  cases pc with
  | called =>
      rw [insertStep, bind_ok_iff] at done
      obtain ⟨_, -, done⟩ := done
      cases done
      exact ⟨channels.distinct, fun channel member => kept channel member (by simp)⟩
  | staging =>
      cases done
      obtain ⟨-, -, sameFrames, sameClosed⟩ := store_pending_rest s.reel frame
      have same : ReelSystem.channels ⟨s.reel.storePending frame, s.loop, s.calls.set number (frame, .rereading)⟩ = s.channels := by
        rw [ReelSystem.channels, sameFrames, sameClosed, ReelSystem.channels]
      exact ⟨same ▸ channels.distinct, fun channel member => kept channel (same ▸ member) (by simp)⟩
  | rereading =>
      cases done
      exact ⟨channels.distinct, fun channel member => kept channel member (by simp)⟩
  | sending =>
      rw [insertStep] at done
      split at done
      · cases done
        have fresh : number ∉ s.channels := by
          cases unused with
          | inl returned => obtain ⟨_, impossible⟩ := returned; cases impossible
          | inr absent => exact absent
        have moved : (ReelSystem.channels ⟨{ s.reel with frames := s.reel.frames ++ [⟨frame.key, frame.number, number⟩] }, s.loop,
            s.calls.set number (frame, .returned (some number))⟩).Perm (number :: s.channels) := by
          simp only [ReelSystem.channels, List.map_append, List.map_cons, List.map_nil, List.append_assoc, List.singleton_append]
          exact List.perm_middle
        refine ⟨moved.nodup_iff.mpr (List.nodup_cons.mpr ⟨fresh, channels.distinct⟩), fun channel member => ?_⟩
        cases List.mem_cons.mp (moved.subset member) with
        | inl new =>
            obtain ⟨inside, -⟩ := List.getElem?_eq_some_iff.mp call
            rw [new]
            exact ⟨frame, List.getElem?_set_self inside⟩
        | inr earlier => exact kept channel earlier (by simp)
      · cases done
        exact ⟨channels.distinct, fun channel member => kept channel member (by simp)⟩
  | returned channel =>
      cases done
      exact ⟨channels.distinct, fun channel member => kept channel member id⟩

theorem step_channels (channels : Channels s) : Channels (s.step exec action) := by
  apply ReelSystem.step_elim Channels
  · exact channels
  · have fewer : List.Subperm (ReelSystem.channels ⟨s.reel, .crashed, s.calls⟩) s.channels :=
      ((List.sublist_append_right _ _).append_left _).subperm
    exact channels_fewer channels rfl fewer
  · intro frame
    refine ⟨channels.distinct, fun channel member => ?_⟩
    obtain ⟨owner, isOwner⟩ := channels.owned channel member
    obtain ⟨inside, -⟩ := List.getElem?_eq_some_iff.mp isOwner
    exact ⟨owner, by rw [List.getElem?_append_left inside, isOwner]⟩
  · intro number frame pc reel next call done
    exact insert_step_channels channels call done
  · exact channels_fewer channels rfl loop_step_channels

-- Before the loop decides the head stays, and after it has taken the entry on the channel stays open.
def Serving (dequeuedAt : ReelSystem prim σ) (last : PendingFrame) (s : ReelSystem prim σ) : Prop :=
  s.reel.closed = dequeuedAt.reel.closed ∧
    (s.loop = .dequeued last ∧ s.reel.head = dequeuedAt.reel.head ∨
      s.loop.engaged = some last ∧ dequeuedAt.reel.head.number ≤ last.frameNumber)

def Served (dequeuedAt : ReelSystem prim σ) (last : PendingFrame) (s : ReelSystem prim σ) : Prop :=
  s.loop = .idle ∧
    (s.reel.closed = dequeuedAt.reel.closed ∧ last.frameNumber < dequeuedAt.reel.head.number ∨
      s.reel.closed = dequeuedAt.reel.closed ++ [last.done] ∧ dequeuedAt.reel.head.number ≤ last.frameNumber)

theorem insert_step_rest {reel : DataTimeReel prim σ} {pc : InsertPc} (done : insertStep d number frame pc = .ok (reel, next)) :
    reel.head = d.head ∧ reel.closed = d.closed := by
  cases pc with
  | called =>
      rw [insertStep, bind_ok_iff] at done
      obtain ⟨_, -, done⟩ := done
      cases done
      exact ⟨rfl, rfl⟩
  | staging =>
      cases done
      exact ⟨(store_pending_rest d frame).1, (store_pending_rest d frame).2.2.2⟩
  | rereading =>
      cases done
      exact ⟨rfl, rfl⟩
  | sending =>
      rw [insertStep] at done
      split at done <;> cases done <;> exact ⟨rfl, rfl⟩
  | returned channel =>
      cases done
      exact ⟨rfl, rfl⟩

theorem serving_loop_step (sound : Sound s) (serving : Serving dequeuedAt last s) : let after : ReelSystem prim σ := { s with reel := (loopStep exec s.reel s.loop).1, loop := (loopStep exec s.reel s.loop).2 }
    after.loop = .crashed ∨ Serving dequeuedAt last after ∨ Served dequeuedAt last after := by
  obtain ⟨d, pc, calls⟩ := s
  obtain ⟨sameClosed, ⟨isDequeued, sameHead⟩ | ⟨engaged, above⟩⟩ := serving
  · simp only at isDequeued sameHead sameClosed ⊢
    subst isDequeued
    obtain ⟨same, crash | ⟨rawFrame, staged, ⟨lower, idle⟩ | ⟨above, next⟩⟩⟩ := dequeued_step
    · exact .inl crash
    · have isNumber := (Prod.mk.inj (sound.reel.keyed _ _ staged)).1
      rw [← isNumber, sameHead] at lower
      exact .inr (.inr ⟨idle, .inl ⟨by rw [same]; exact sameClosed, lower⟩⟩)
    · have isNumber := (Prod.mk.inj (sound.reel.keyed _ _ staged)).1
      rw [← isNumber, sameHead, UInt64.not_lt] at above
      exact .inr (.inl ⟨by rw [same]; exact sameClosed, .inr ⟨next, above⟩⟩)
  · simp only at engaged sameClosed ⊢
    obtain ⟨-, ⟨unclosed, crash | next⟩ | ⟨closed, idle⟩⟩ := engaged_step engaged
    · exact .inl crash
    · exact .inr (.inl ⟨unclosed.trans sameClosed, .inr ⟨next, above⟩⟩)
    · exact .inr (.inr ⟨idle, .inr ⟨by rw [closed, sameClosed], above⟩⟩)

theorem serving_step (sound : Sound s) (serving : Serving dequeuedAt last s) :
    (s.step exec action).loop = .crashed ∨ Serving dequeuedAt last (s.step exec action) ∨ Served dequeuedAt last (s.step exec action) := by
  apply ReelSystem.step_elim fun after => after.loop = .crashed ∨ Serving dequeuedAt last after ∨ Served dequeuedAt last after
  · exact .inr (.inl serving)
  · exact .inl rfl
  · exact fun _ => .inr (.inl serving)
  · intro number frame pc reel next call done
    obtain ⟨sameHead, sameClosed⟩ := insert_step_rest done
    refine .inr (.inl ⟨sameClosed.trans serving.1, serving.2.imp_left fun waiting => ⟨waiting.1, sameHead.trans waiting.2⟩⟩)
  · exact serving_loop_step sound serving

theorem crashed_stays (exec : Exec σ) (actions : List (ReelAction prim)) (s : ReelSystem prim σ) (crashed : s.loop = .crashed) :
    runActions (ReelSystem.step exec) actions s = s := by
  induction actions with
  | nil => rfl
  | cons action tail ih =>
      have stuck : s.step exec action = s := by
        rw [ReelSystem.step.eq_def]
        split
        · rfl
        · contradiction
        · contradiction
        · contradiction
      rw [run_cons, stuck, ih]

-- The actions up to the point at which the loop is idle again, with any steps of calls in between.
structure UntilIdle (exec : Exec σ) (s : ReelSystem prim σ) (actions : List (ReelAction prim)) : Prop where
  busy : ∀ front rest, actions = front ++ rest → rest ≠ [] → (runActions (ReelSystem.step exec) front s).loop ≠ .idle
  idle : (runActions (ReelSystem.step exec) actions s).loop = .idle

theorem serving_until_idle {actions : List (ReelAction prim)} (sound : Sound s) (serving : Serving dequeuedAt last s)
    (untilIdle : UntilIdle exec s actions) : Served dequeuedAt last (runActions (ReelSystem.step exec) actions s) := by
  induction actions generalizing s with
  | nil =>
      have isIdle : s.loop = .idle := untilIdle.idle
      obtain ⟨-, ⟨dequeued, -⟩ | ⟨engaged, -⟩⟩ := serving
      · rw [dequeued] at isIdle
        cases isIdle
      · rw [isIdle] at engaged
        cases engaged
  | cons action tail ih =>
      have rest : UntilIdle exec (s.step exec action) tail :=
        ⟨fun front back isSplit more => untilIdle.busy (action :: front) back (by rw [isSplit]; rfl) more, untilIdle.idle⟩
      rcases serving_step sound serving with crashed | still | served
      · have stuck := crashed_stays exec tail _ crashed
        have isIdle := rest.idle
        rw [stuck, crashed] at isIdle
        cases isIdle
      · exact ih (step_sound exec action s sound) still rest
      · cases tail with
        | nil => exact served
        | cons next others => exact absurd served.1 (rest.busy [] (next :: others) rfl (by simp))

-- How many steps the loop can still take on its own while every staged frame has a successor number.
def LoopPc.rank (d : DataTimeReel prim σ) : LoopPc prim → Nat
  | .idle => 0
  | .crashed => 0
  | .dequeued _ => 3 * (2 ^ 64 - 2 - d.head.number.toNat) + 2
  | .executing _ rawFrame _ => 3 * (2 ^ 64 - 2 - rawFrame.number.toNat) + 3
  | .stored _ rawFrame _ _ => 3 * (2 ^ 64 - 2 - rawFrame.number.toNat) + 2
  | .scanning _ => 3 * (2 ^ 64 - 2 - d.head.number.toNat) + 1

def Bounded (d : DataTimeReel prim σ) : Prop := ∀ key frame, d.staged.lookup key = some frame → frame.number.toNat + 1 < 2 ^ 64

theorem loop_step_rank (exec : Exec σ) (d : DataTimeReel prim σ) (pc : LoopPc prim) (sound : ReelSound d) (bounded : Bounded d)
    (busy : 0 < pc.rank d) : (loopStep exec d pc).2.rank (loopStep exec d pc).1 < pc.rank d := by
  cases pc with
  | idle => cases busy
  | crashed => cases busy
  | dequeued last =>
      rw [loopStep]
      rcases handle_pending_cases with crash | ⟨rawFrame, staged, ⟨-, -, scan⟩ | ⟨-, -, scan⟩ | ⟨higher, next, distance, run⟩ |
        ⟨-, scan⟩ | ⟨-, drop⟩⟩
      · rw [crash]
        exact busy
      · rw [scan]
        exact Nat.lt_succ_self _
      · rw [scan]
        exact Nat.lt_succ_self _
      · have follows := successor_number next higher
        have bound := bounded _ _ staged
        rw [run]
        simp only [LoopPc.rank]
        omega
      · rw [scan]
        exact Nat.lt_succ_self _
      · rw [drop]
        exact busy
  | executing last rawFrame distance =>
      rw [loopStep]
      split
      · exact busy
      · exact Nat.lt_succ_self _
  | stored last rawFrame distance tries => exact Nat.lt_succ_self _
  | scanning last =>
      rw [loopStep]
      split
      · exact busy
      · exact busy
      · rename_i rawFrame distance found
        obtain ⟨member, -⟩ := next_pending_some found
        obtain ⟨selector, staged⟩ := mem_staged_for.mp member
        have isNumber := (Prod.mk.inj (sound.keyed _ _ staged)).1
        have bound := bounded _ _ staged
        obtain ⟨tries, known⟩ := sound.headKnown
        obtain ⟨_, -, headStaged⟩ := committed_ok_iff.mp known
        have headBound := bounded _ _ headStaged
        have follows : rawFrame.number.toNat = d.head.number.toNat + 1 := by
          rw [← isNumber, UInt64.toNat_add]
          simp
          omega
        simp only [LoopPc.rank]
        omega

theorem step_loop : s.step exec .loop = ⟨(loopStep exec s.reel s.loop).1, (loopStep exec s.reel s.loop).2, s.calls⟩ := by
  obtain ⟨d, pc, calls⟩ := s
  cases pc <;> rfl

theorem loop_comes_to_rest (exec : Exec σ) (s : ReelSystem prim σ) (sound : Sound s) (bounded : Bounded s.reel) :
    ∃ steps, (runActions (ReelSystem.step exec) (List.replicate steps .loop) s).loop = .idle ∨
      (runActions (ReelSystem.step exec) (List.replicate steps .loop) s).loop = .crashed := by
  induction measured : s.loop.rank s.reel using Nat.strongRecOn generalizing s with
  | ind rank ih =>
      by_cases busy : 0 < s.loop.rank s.reel
      · have smaller := loop_step_rank exec s.reel s.loop sound.reel bounded busy
        have stillBounded : Bounded (s.step exec .loop).reel := by
          rw [step_loop, Bounded, loop_step_staged]
          exact bounded
        obtain ⟨steps, rested⟩ := ih _ (measured ▸ smaller) (s.step exec .loop) (step_sound exec .loop s sound) stillBounded
          (by rw [step_loop])
        exact ⟨steps + 1, rested⟩
      · refine ⟨0, ?_⟩
        rw [List.replicate_zero, run_nil]
        cases isLoop : s.loop with
        | idle => exact .inl rfl
        | crashed => exact .inr rfl
        | dequeued last => rw [isLoop] at busy; exact absurd (Nat.succ_pos _) busy
        | executing last rawFrame distance => rw [isLoop] at busy; exact absurd (Nat.succ_pos _) busy
        | stored last rawFrame distance tries => rw [isLoop] at busy; exact absurd (Nat.succ_pos _) busy
        | scanning last => rw [isLoop] at busy; exact absurd (Nat.succ_pos _) busy

theorem start_channels {genesis : ReelFrame prim} {tries : List RollingFrecencyCritbitTrie} {world : σ} :
    Channels (ReelSystem.start genesis tries world) := ⟨List.nodup_nil, fun _ member => by cases member⟩

def dequeuedEntry (s : ReelSystem prim σ) : Option PendingFrame :=
  match s.loop with
  | .dequeued last => some last
  | _ => none

theorem dequeued_entry_some (found : dequeuedEntry s = some last) : s.loop = .dequeued last := by
  rw [dequeuedEntry] at found
  split at found
  · cases found
    assumption
  · cases found

def isIdle (s : ReelSystem prim σ) : Bool :=
  match s.loop with
  | .idle => true
  | _ => false

theorem is_idle_iff : isIdle s = true ↔ s.loop = .idle := by
  rw [isIdle]
  cases s.loop <;> simp

theorem until_idle_loops (exec : Exec σ) (s : ReelSystem prim σ) (steps : Nat)
    (busy : ∀ taken < steps, isIdle (runActions (ReelSystem.step exec) (List.replicate taken .loop) s) = false)
    (idle : isIdle (runActions (ReelSystem.step exec) (List.replicate steps .loop) s) = true) :
    UntilIdle exec s (List.replicate steps .loop) := by
  refine ⟨fun front rest isSplit more isNow => ?_, is_idle_iff.mp idle⟩
  obtain ⟨total, isFront, -⟩ := List.append_eq_replicate_iff.mp isSplit.symm
  have positive := List.length_pos_iff.mpr more
  have now := busy front.length (by omega)
  rw [← isFront, is_idle_iff.mpr isNow] at now
  cases now

def childTaken : List (ReelAction samplePrimitives) := [.insert linkedFrame, .call 0, .call 0, .call 0, .call 0, .loop]

-- Two frames numbered one are queued. The first one and its staged child move the head to two before the second is dequeued.
def siblingTaken : List (ReelAction samplePrimitives) :=
  [.insert linkedFrame, .insert (reelFrame 1 4 reelGenesis.key), .insert (reelFrame 2 3 linkedFrame.key), .call 0, .call 0, .call 0,
    .call 0, .call 1, .call 1, .call 1, .call 1, .call 2, .call 2, .call 2, .loop, .loop, .loop, .loop, .loop, .loop, .loop, .loop, .loop]

-- What no committed number exceeds: the head, or the frame that is about to become the head. After a crash nothing is known.
def LoopPc.top (d : DataTimeReel prim σ) : LoopPc prim → UInt64
  | .stored _ rawFrame _ _ => rawFrame.number
  | .crashed => -1
  | _ => d.head.number

def Capped (d : DataTimeReel prim σ) (pc : LoopPc prim) : Prop :=
  ∀ number found, d.getDataClockFrame number = .ok found → number ≤ pc.top d

def DataTimeReel.KeptIn (d after : DataTimeReel prim σ) : Prop :=
  ∀ number found, d.getDataClockFrame number = .ok found → after.getDataClockFrame number = .ok found

theorem crashed_capped : Capped d .crashed :=
  fun number _ _ => UInt64.le_iff_toNat_le.mpr (Nat.le_pred_of_lt number.toNat_lt)

theorem handle_pending_capped (capped : Capped d (.dequeued last)) : Capped d (handlePending d last) := by
  rw [handlePending]
  repeat' split
  all_goals first | exact crashed_capped | exact capped

theorem loop_step_kept (loop : LoopSound d pc) (capped : Capped d pc) (inside : d.head.number + 1 ≠ 0) :
    Capped (loopStep exec d pc).1 (loopStep exec d pc).2 ∧ d.KeptIn (loopStep exec d pc).1 := by
  cases pc with
  | idle =>
      rw [loopStep]
      split <;> exact ⟨capped, fun _ _ => id⟩
  | dequeued last => exact ⟨handle_pending_capped capped, fun _ _ => id⟩
  | executing last rawFrame distance =>
      obtain ⟨staged, isNext, -⟩ := loop
      have higher : d.head.number < rawFrame.number := by
        rw [isNext]
        exact UInt64.lt_add_one fun isLast => inside (by rw [isLast]; decide)
      rw [loopStep]
      split
      · exact ⟨capped, fun _ _ => id⟩
      · refine ⟨fun number found committed => ?_, fun number found committed => ?_⟩
        · rw [commit_lookup _ _ staged] at committed
          split at committed
          · rename_i same
            exact UInt64.le_of_eq same
          · exact UInt64.le_trans (capped number found committed) (UInt64.le_of_lt higher)
        · rw [commit_lookup _ _ staged, if_neg]
          · exact committed
          · intro same
            rw [same] at committed
            exact absurd higher (UInt64.not_lt.mpr (capped _ _ committed))
  | stored last rawFrame distance tries => exact ⟨capped, fun _ _ => id⟩
  | scanning last =>
      rw [loopStep]
      split
      · exact ⟨crashed_capped, fun _ _ => id⟩
      · exact ⟨capped, fun _ _ => id⟩
      · exact ⟨capped, fun _ _ => id⟩
  | crashed => exact ⟨capped, fun _ _ => id⟩

theorem step_kept (sound : Sound s) (capped : Capped s.reel s.loop) (inside : s.reel.head.number + 1 ≠ 0) :
    Capped (s.step exec action).reel (s.step exec action).loop ∧ s.reel.KeptIn (s.step exec action).reel := by
  apply ReelSystem.step_elim fun after => Capped after.reel after.loop ∧ s.reel.KeptIn after.reel
  · exact ⟨capped, fun _ _ => id⟩
  · exact ⟨crashed_capped, fun _ _ => id⟩
  · exact fun frame => ⟨capped, fun _ _ => id⟩
  · intro number frame pc reel next call done
    have same := insert_step_committed sound.reel done
    have sameTop : s.loop.top reel = s.loop.top s.reel := by
      cases s.loop <;> simp only [LoopPc.top, (insert_step_rest done).1]
    refine ⟨fun number found committed => ?_, fun number found => (same number found).mpr⟩
    rw [sameTop]
    exact capped number found ((same number found).mp committed)
  · exact loop_step_kept sound.loop capped inside

theorem run_kept (exec : Exec σ) (later : List (ReelAction prim)) (sound : Sound s) (capped : Capped s.reel s.loop) :
    Capped (runActions (ReelSystem.step exec) later s).reel (runActions (ReelSystem.step exec) later s).loop ∧
        s.reel.KeptIn (runActions (ReelSystem.step exec) later s).reel ∨
      ∃ front, front <+: later ∧ (runActions (ReelSystem.step exec) front s).reel.head.number + 1 = 0 := by
  induction later generalizing s with
  | nil => exact .inl ⟨capped, fun _ _ => id⟩
  | cons action later ih =>
      by_cases atEnd : s.reel.head.number + 1 = 0
      · exact .inr ⟨[], List.nil_prefix, atEnd⟩
      · obtain ⟨nextCapped, kept⟩ := step_kept sound capped atEnd
        rcases ih (step_sound exec action s sound) nextCapped with ⟨lastCapped, keptOn⟩ | ⟨front, within, wraps⟩
        · exact .inl ⟨lastCapped, fun number found committed => keptOn number found (kept number found committed)⟩
        · exact .inr ⟨action :: front, List.cons_prefix_cons.mpr ⟨rfl, within⟩, wraps⟩

theorem committed_frames_final (exec : Exec σ) (genesis : ReelFrame prim) (tries : List RollingFrecencyCritbitTrie) (world : σ)
    (actions later : List (ReelAction prim)) :
    (runActions (ReelSystem.step exec) actions (.start genesis tries world)).reel.KeptIn
        (runActions (ReelSystem.step exec) (actions ++ later) (.start genesis tries world)).reel ∨
      ∃ front, front <+: actions ++ later ∧
        (runActions (ReelSystem.step exec) front (.start genesis tries world)).reel.head.number + 1 = 0 := by
  have capped : Capped (ReelSystem.start genesis tries world).reel .idle := by
    intro number found committed
    obtain ⟨_, isCommitted, -⟩ := committed_ok_iff.mp committed
    rw [start_committed] at isCommitted
    split at isCommitted
    · rename_i same
      exact UInt64.le_of_eq same
    · cases isCommitted
  rcases run_kept exec actions start_sound capped with ⟨reached, -⟩ | ⟨front, within, wraps⟩
  · have sound := run_invariant (ReelSystem.step exec) Sound (step_sound exec) actions (.start genesis tries world) start_sound
    rcases run_kept exec later sound reached with ⟨-, kept⟩ | ⟨front, within, wraps⟩
    · left
      rw [run_append]
      exact kept
    · refine .inr ⟨actions ++ front, (List.prefix_append_right_inj actions).mpr within, ?_⟩
      rw [run_append]
      exact wraps
  · exact .inr ⟨front, within.trans (List.prefix_append actions later), wraps⟩

end Ceremony
