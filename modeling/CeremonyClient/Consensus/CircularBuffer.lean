import CeremonyClient.Lib.Runs
import CeremonyClient.Lib.State
import CeremonyClient.Lib.Table
import CeremonyClient.Protobufs.Messages

set_option autoImplicit false

namespace Ceremony

open GoSem

variable {β ω : Type}

variable {log : List Bytes} {maxSize : Nat}

-- A ClockFrameFragmentBuffer of any kind; its calls may share a world.
structure ClockFrameFragmentBuffers (β ω : Type) where
  newBuffer : ω → β × ω
  accumulateClockFrameFragment : β → ClockFrameFragment → ω → Go (Option ClockFrame) × β × ω

structure ClockFrameFragmentCircularBuffer (β : Type) where
  maxSize : Nat
  buffers : Table Bytes β
  keys : List Bytes
  built : Table Bytes Unit
  builtKeys : List Bytes

def newClockFrameFragmentCircularBuffer (newBuffer : Option (ClockFrameFragmentBuffers β ω)) (maxSize : Int) :
    Go (ClockFrameFragmentCircularBuffer β) :=
  match newBuffer with
  | none => raise (errorsNew "newBuffer is nil")
  | some _ => do
      failIf (maxSize ≤ 0) (errorsNew "maxSize must be greater than 0")
      return ⟨maxSize.toNat, ∅, [], ∅, []⟩

namespace ClockFrameFragmentCircularBuffer

def makeRoom (c : ClockFrameFragmentCircularBuffer β) : Go (ClockFrameFragmentCircularBuffer β) :=
  if c.buffers.keys.length = c.maxSize then do
    let oldest ← index c.keys 0
    return { c with buffers := c.buffers.erase oldest, keys := c.keys.drop 1 }
  else return c

def openBuffer (inner : ClockFrameFragmentBuffers β ω) (c : ClockFrameFragmentCircularBuffer β) (world : ω) (key : Bytes) :
    Go (β × ClockFrameFragmentCircularBuffer β × ω) :=
  match c.buffers.lookup key with
  | some buffer => return (buffer, c, world)
  | none => do
      let c ← c.makeRoom
      let (buffer, world) := inner.newBuffer world
      return (buffer, { c with buffers := c.buffers.insert key buffer, keys := c.keys ++ [key] }, world)

-- The buffer of a frame that was built goes, and its hash is remembered in place of the oldest.
def retire (c : ClockFrameFragmentCircularBuffer β) (key : Bytes) : Go (ClockFrameFragmentCircularBuffer β) := do
  let c := { c with buffers := c.buffers.erase key, keys := c.keys.erase key }
  let c ← if c.built.keys.length = c.maxSize then do
      let oldest ← index c.builtKeys 0
      pure { c with built := c.built.erase oldest, builtKeys := c.builtKeys.drop 1 }
    else pure c
  return { c with built := c.built.insert key (), builtKeys := c.builtKeys ++ [key] }

end ClockFrameFragmentCircularBuffer

def accumulateCircular (inner : ClockFrameFragmentBuffers β ω) (fragment : Option ClockFrameFragment) :
    StateGo (ClockFrameFragmentCircularBuffer β × ω) (Option ClockFrame) :=
  match fragment with
  | none => call (raise (errorsNew "fragment is nil"))
  | some fragment => do
      call (failIf (fragment.frameHash.length ≠ 32) (errorsNew "invalid frame hash size"))
      let (c, world) ← readState
      if fragment.frameHash ∈ c.built then pure none
      else do
        let (buffer, c, world) ← call (c.openBuffer inner world fragment.frameHash)
        let (outcome, buffer, world) := inner.accumulateClockFrameFragment buffer fragment world
        let c := { c with buffers := c.buffers.insert fragment.frameHash buffer }
        modifyState fun _ => (c, world)
        match ← call outcome with
        | none => pure none
        | some frame => do
            let c ← call (c.retire fragment.frameHash)
            modifyState fun _ => (c, world)
            pure (some frame)

def builtHash (fragment : Option ClockFrameFragment) (outcome : Go (Option ClockFrame)) : List Bytes :=
  match fragment, outcome with
  | some fragment, .ok (some _) => [fragment.frameHash]
  | _, _ => []

abbrev CircularHistory (β ω : Type) := (ClockFrameFragmentCircularBuffer β × ω) × List Bytes

def circularStep (inner : ClockFrameFragmentBuffers β ω) (fragment : Option ClockFrameFragment) (history : CircularHistory β ω) :
    CircularHistory β ω :=
  (((accumulateCircular inner fragment).on history.1).2, history.2 ++ builtHash fragment ((accumulateCircular inner fragment).on history.1).1)

structure CircularSound (c : ClockFrameFragmentCircularBuffer β) (log : List Bytes) : Prop where
  pending : Table.Listed c.buffers c.keys
  finished : Table.Listed c.built c.builtKeys
  room : c.keys.length ≤ c.maxSize
  apart : ∀ key ∈ c.buffers, key ∉ c.built
  recent : c.builtKeys = log.drop (log.length - c.maxSize)

namespace ClockFrameFragmentCircularBuffer

theorem make_room_sound {c : ClockFrameFragmentCircularBuffer β} (sound : CircularSound c log) (positive : 0 < c.maxSize) :
    ∃ after, c.makeRoom = .ok after ∧ CircularSound after log ∧ after.keys.length < c.maxSize ∧ after.maxSize = c.maxSize ∧
      after.built = c.built ∧ ∀ key, key ∉ c.buffers → key ∉ after.buffers := by
  have size := sound.pending.length
  by_cases isFull : c.buffers.keys.length = c.maxSize
  · cases isKeys : c.keys with
    | nil =>
        rw [isKeys, List.length_nil] at size
        omega
    | cons oldest rest =>
        have pending := sound.pending
        rw [isKeys] at pending size
        refine ⟨{ c with buffers := c.buffers.erase oldest, keys := rest }, ?_, ?_, ?_, rfl, rfl, ?_⟩
        · rw [makeRoom, if_pos isFull, isKeys]
          rfl
        · refine ⟨pending.remove_first, sound.finished, ?_, fun key member => sound.apart key (AList.mem_erase.mp member).2, sound.recent⟩
          rw [List.length_cons] at size
          exact (show rest.length ≤ c.maxSize by omega)
        · rw [List.length_cons] at size
          exact (show rest.length < c.maxSize by omega)
        · exact fun key absent member => absent (AList.mem_erase.mp member).2
  · have room := sound.room
    exact ⟨c, by rw [makeRoom, if_neg isFull]; rfl, sound, by omega, rfl, rfl, fun _ absent => absent⟩

theorem open_buffer_sound (inner : ClockFrameFragmentBuffers β ω) (c : ClockFrameFragmentCircularBuffer β) (world : ω) (key : Bytes)
    (log : List Bytes) (sound : CircularSound c log) (positive : 0 < c.maxSize) (unbuilt : key ∉ c.built) :
    ∃ buffer after afterWorld, c.openBuffer inner world key = .ok (buffer, after, afterWorld) ∧ CircularSound after log ∧
      after.maxSize = c.maxSize ∧ key ∈ after.buffers := by
  cases found : c.buffers.lookup key with
  | some buffer =>
      exact ⟨buffer, c, world, by rw [openBuffer, found]; rfl, sound, rfl, AList.lookup_isSome.mp (by rw [found]; rfl)⟩
  | none =>
      have absent : key ∉ c.buffers := AList.lookup_eq_none.mp found
      obtain ⟨after, isAfter, afterSound, room, sameSize, sameBuilt, still⟩ := make_room_sound sound positive
      refine ⟨(inner.newBuffer world).1,
        { after with buffers := after.buffers.insert key (inner.newBuffer world).1, keys := after.keys ++ [key] },
        (inner.newBuffer world).2, ?_, ?_, sameSize, (AList.mem_insert _).mpr (.inl rfl)⟩
      · rw [openBuffer, found]
        simp only [isAfter, ok_bind]
        rfl
      · refine ⟨afterSound.pending.add (still key absent), afterSound.finished, ?_, fun other member => ?_, afterSound.recent⟩
        · rw [List.length_append, List.length_singleton, sameSize]
          exact room
        · cases (AList.mem_insert _).mp member with
          | inl same => rw [same, sameBuilt]; exact unbuilt
          | inr old => exact afterSound.apart other old

theorem touch_sound (c : ClockFrameFragmentCircularBuffer β) (key : Bytes) (buffer : β) (log : List Bytes) (sound : CircularSound c log)
    (present : key ∈ c.buffers) : CircularSound { c with buffers := c.buffers.insert key buffer } log := by
  refine ⟨sound.pending.replace present, sound.finished, sound.room, fun other member => ?_, sound.recent⟩
  cases (AList.mem_insert _).mp member with
  | inl same => exact sound.apart other (same ▸ present)
  | inr old => exact sound.apart other old

theorem retire_sound (c : ClockFrameFragmentCircularBuffer β) (key : Bytes) (log : List Bytes) (sound : CircularSound c log)
    (positive : 0 < c.maxSize) (present : key ∈ c.buffers) :
    ∃ after, c.retire key = .ok after ∧ CircularSound after (log ++ [key]) ∧ after.maxSize = c.maxSize := by
  have unbuilt := sound.apart key present
  have pending := sound.pending.remove key
  have room : (c.keys.erase key).length ≤ c.maxSize := List.length_erase_le.trans sound.room
  have apart : ∀ other ∈ c.buffers.erase key, other ≠ key ∧ other ∉ c.built := by
    intro other member
    obtain ⟨different, old⟩ := AList.mem_erase.mp member
    exact ⟨different, sound.apart other old⟩
  have size := sound.finished.length
  have lastSize := congrArg List.length sound.recent
  rw [List.length_drop] at lastSize
  by_cases isFull : c.built.keys.length = c.maxSize
  · cases isKeys : c.builtKeys with
    | nil =>
        rw [isKeys, List.length_nil] at size
        omega
    | cons oldest rest =>
        have finished := sound.finished
        have recent := sound.recent
        rw [isKeys] at finished recent
        refine ⟨⟨c.maxSize, c.buffers.erase key, c.keys.erase key, (c.built.erase oldest).insert key (), rest ++ [key]⟩, ?_, ?_, rfl⟩
        · simp only [retire, if_pos isFull, isKeys]
          rfl
        · refine ⟨pending, finished.remove_first.add fun member => unbuilt (AList.mem_erase.mp member).2, room, fun other member => ?_, ?_⟩
          · intro isBuilt
            obtain ⟨different, old⟩ := apart other member
            cases (AList.mem_insert _).mp isBuilt with
            | inl same => exact different same
            | inr kept => exact old (AList.mem_erase.mp kept).2
          · change rest ++ [key] = (log ++ [key]).drop ((log ++ [key]).length - c.maxSize)
            have isRest : rest = (log.drop (log.length - c.maxSize)).drop 1 := by rw [← recent]; rfl
            rw [isRest, List.drop_drop, List.length_append, List.length_singleton, List.drop_append_of_le_length (by omega)]
            congr 2
            omega
  · refine ⟨⟨c.maxSize, c.buffers.erase key, c.keys.erase key, c.built.insert key (), c.builtKeys ++ [key]⟩, ?_, ?_, rfl⟩
    · simp only [retire, if_neg isFull]
      rfl
    · refine ⟨pending, sound.finished.add unbuilt, room, fun other member isBuilt => ?_, ?_⟩
      · obtain ⟨different, old⟩ := apart other member
        cases (AList.mem_insert _).mp isBuilt with
        | inl same => exact different same
        | inr kept => exact old kept
      · change c.builtKeys ++ [key] = (log ++ [key]).drop ((log ++ [key]).length - c.maxSize)
        have few : log.length < c.maxSize := by omega
        rw [sound.recent, List.length_append, List.length_singleton, show log.length - c.maxSize = 0 by omega,
          show log.length + 1 - c.maxSize = 0 by omega]
        rfl

end ClockFrameFragmentCircularBuffer

theorem accumulate_sound (inner : ClockFrameFragmentBuffers β ω) (fragment : Option ClockFrameFragment)
    (s : ClockFrameFragmentCircularBuffer β × ω) (log : List Bytes) (sound : CircularSound s.1 log) (positive : 0 < s.1.maxSize) :
    CircularSound ((accumulateCircular inner fragment).on s).2.1 (log ++ builtHash fragment ((accumulateCircular inner fragment).on s).1) ∧
      ((accumulateCircular inner fragment).on s).2.1.maxSize = s.1.maxSize ∧
      ∀ key ∈ builtHash fragment ((accumulateCircular inner fragment).on s).1, key ∉ s.1.built := by
  obtain ⟨c, world⟩ := s
  cases fragment with
  | none => exact ⟨by simpa [accumulateCircular, builtHash] using sound, rfl, by simp [builtHash]⟩
  | some fragment =>
      by_cases wrongSize : fragment.frameHash.length ≠ 32
      · simp only [accumulateCircular, failIf, if_pos wrongSize, on_bind, on_call, raise, builtHash, List.append_nil]
        exact ⟨sound, trivial, by simp⟩
      by_cases isBuilt : fragment.frameHash ∈ c.built
      · simp only [accumulateCircular, failIf, if_neg wrongSize, on_bind, on_call, on_read_state, if_pos isBuilt, on_pure, builtHash,
          List.append_nil]
        exact ⟨sound, trivial, by simp⟩
      obtain ⟨buffer, opened, openedWorld, isOpened, openedSound, sameSize, present⟩ :=
        c.open_buffer_sound inner world fragment.frameHash log sound positive isBuilt
      rcases called : inner.accumulateClockFrameFragment buffer fragment openedWorld with ⟨outcome, next, nextWorld⟩
      have touched := opened.touch_sound fragment.frameHash next log openedSound present
      simp only [accumulateCircular, failIf, if_neg wrongSize, on_bind, on_call, on_read_state, if_neg isBuilt, isOpened, called,
        on_modify_state]
      cases outcome with
      | error fault => exact ⟨by simpa [builtHash] using touched, sameSize, by simp [builtHash]⟩
      | ok frame =>
          cases frame with
          | none => exact ⟨by simpa [builtHash] using touched, sameSize, by simp [builtHash]⟩
          | some frame =>
              obtain ⟨after, isAfter, afterSound, afterSize⟩ := ClockFrameFragmentCircularBuffer.retire_sound _ fragment.frameHash log touched
                (sameSize ▸ positive) ((AList.mem_insert _).mpr (.inl rfl))
              simp only [on_bind, on_call, isAfter, on_modify_state, on_pure, builtHash]
              exact ⟨afterSound, afterSize.trans sameSize, by simpa using isBuilt⟩

theorem built_hash_cases {fragment : Option ClockFrameFragment} {outcome : Go (Option ClockFrame)} :
    builtHash fragment outcome = [] ∨ ∃ key, builtHash fragment outcome = [key] := by
  cases fragment with
  | none => exact .inl rfl
  | some fragment =>
      rcases outcome with fault | _ | frame
      · exact .inl rfl
      · exact .inl rfl
      · exact .inr ⟨fragment.frameHash, rfl⟩

def Spaced (maxSize : Nat) (log : List Bytes) : Prop :=
  ∀ front key middle rest, log = front ++ key :: (middle ++ key :: rest) → maxSize ≤ (middle.toFinset.erase key).card

theorem spaced_step {key : Bytes} (spaced : Spaced maxSize log) (distinct : (log.drop (log.length - maxSize)).Nodup)
    (unbuilt : key ∉ log.drop (log.length - maxSize)) : Spaced maxSize (log ++ [key]) := by
  intro front other middle rest isLog
  cases rest using List.reverseRecOn with
  | nil =>
      -- The second time is the last entry, and the hashes that are remembered lie in between.
      rw [← List.cons_append, ← List.append_assoc] at isLog
      obtain ⟨isFront, isLast⟩ := List.append_inj' isLog rfl
      cases isLast
      have long : maxSize ≤ middle.length := by
        by_contra short
        apply unbuilt
        rw [isFront, List.drop_append_of_le_length (by simp; omega)]
        exact List.mem_append_right _ List.mem_cons_self
      have between : log.drop (log.length - maxSize) = middle.drop (middle.length - maxSize) := by
        rw [isFront, ← List.singleton_append, ← List.append_assoc, List.drop_append]
        have past : (front ++ [key]).length ≤ (front ++ [key] ++ middle).length - maxSize := by
          simp only [List.length_append]
          omega
        rw [List.drop_of_length_le past, List.nil_append]
        congr 1
        simp only [List.length_append]
        omega
      rw [between] at distinct unbuilt
      have card : (middle.drop (middle.length - maxSize)).toFinset.card = maxSize := by
        rw [List.card_toFinset, distinct.dedup, List.length_drop]
        omega
      rw [← card]
      apply Finset.card_le_card
      intro found member
      rw [List.mem_toFinset] at member
      rw [Finset.mem_erase, List.mem_toFinset]
      exact ⟨fun same => unbuilt (same ▸ member), List.mem_of_mem_drop member⟩
  | append_singleton rest last =>
      have isEarlier : log ++ [key] = (front ++ other :: (middle ++ other :: rest)) ++ [last] := by rw [isLog]; simp
      exact spaced front other middle rest (List.append_inj' isEarlier rfl).1

theorem new_circular_sound : CircularSound (⟨maxSize, ∅, [], ∅, []⟩ : ClockFrameFragmentCircularBuffer β) [] :=
  ⟨Table.listed_empty, Table.listed_empty, Nat.zero_le _, fun key member => absurd member (AList.notMem_empty key), List.drop_nil.symm⟩

theorem circular_buffer_invariant (inner : ClockFrameFragmentBuffers β ω) (maxSize : Nat) (positive : 1 ≤ maxSize) (world : ω)
    (fragments : List (Option ClockFrameFragment)) :
    ∃ start, newClockFrameFragmentCircularBuffer (some inner) maxSize = .ok start ∧
      ∃ c after log, runActions (circularStep inner) fragments ((start, world), []) = ((c, after), log) ∧
        c.keys.Nodup ∧ (∀ key, key ∈ c.keys ↔ key ∈ c.buffers) ∧ c.builtKeys.Nodup ∧ (∀ key, key ∈ c.builtKeys ↔ key ∈ c.built) ∧
        c.keys.length ≤ maxSize ∧ c.builtKeys.length ≤ maxSize ∧ (∀ key ∈ c.buffers, key ∉ c.built) ∧ Spaced maxSize log := by
  refine ⟨⟨maxSize, ∅, [], ∅, []⟩, ?_, ?_⟩
  · simp only [newClockFrameFragmentCircularBuffer, failIf, if_neg (show ¬ (maxSize : Int) ≤ 0 by omega), Int.toNat_natCast]
    rfl
  have reached := run_invariant (circularStep inner)
    (fun history => CircularSound history.1.1 history.2 ∧ history.1.1.maxSize = maxSize ∧ Spaced maxSize history.2) (by
      intro fragment history holds
      obtain ⟨sound, size, spaced⟩ := holds
      obtain ⟨nextSound, nextSize, unbuilt⟩ := accumulate_sound inner fragment history.1 history.2 sound (by omega)
      refine ⟨nextSound, nextSize.trans size, ?_⟩
      rw [circularStep]
      cases built_hash_cases with
      | inl nothing =>
          rw [nothing, List.append_nil]
          exact spaced
      | inr one =>
          obtain ⟨key, isKey⟩ := one
          have fresh : key ∉ history.1.1.builtKeys :=
            fun member => unbuilt key (by rw [isKey]; exact List.mem_singleton_self key) ((sound.finished.same key).mp member)
          have recent := sound.recent
          rw [size] at recent
          rw [isKey]
          exact spaced_step spaced (recent ▸ sound.finished.distinct) (recent ▸ fresh)) fragments ((⟨maxSize, ∅, [], ∅, []⟩, world), []) ⟨new_circular_sound, rfl, by intro front key middle rest isLog; simp at isLog⟩
  generalize runActions (circularStep inner) fragments ((⟨maxSize, ∅, [], ∅, []⟩, world), []) = history at reached
  obtain ⟨⟨c, after⟩, log⟩ := history
  obtain ⟨sound, size, spaced⟩ := reached
  have last : c.builtKeys.length ≤ maxSize := by
    rw [sound.recent, List.length_drop, size]
    omega
  exact ⟨c, after, log, rfl, sound.pending.distinct, sound.pending.same, sound.finished.distinct, sound.finished.same, size ▸ sound.room,
    last, sound.apart, spaced⟩

def eagerBuffers : ClockFrameFragmentBuffers Unit Unit where
  newBuffer _ := ((), ())
  accumulateClockFrameFragment _ fragment _ :=
    (.ok (some ⟨fragment.filter, fragment.frameNumber, fragment.timestamp, 0, [], [], [], [], none, []⟩), (), ())

def hashedFragment (tag : UInt8) : ClockFrameFragment := ⟨[], 1, 1, List.replicate 32 tag, none, none⟩

theorem circular_buffer_invariant_one :
    ∃ start, newClockFrameFragmentCircularBuffer (some eagerBuffers) 1 = .ok start ∧
      ∃ c after log, runActions (circularStep eagerBuffers)
          [some (hashedFragment 1), some (hashedFragment 1), some (hashedFragment 2), some (hashedFragment 1)] ((start, ()), []) =
            ((c, after), log) ∧
        log = [List.replicate 32 1, List.replicate 32 2, List.replicate 32 1] ∧ c.builtKeys.length ≤ 1 ∧ Spaced 1 log := by
  obtain ⟨start, created, c, after, log, run, -, -, -, -, -, size, -, spaced⟩ := circular_buffer_invariant eagerBuffers 1 (by decide) ()
    [some (hashedFragment 1), some (hashedFragment 1), some (hashedFragment 2), some (hashedFragment 1)]
  refine ⟨start, created, c, after, log, run, ?_, size, spaced⟩
  cases created
  exact (congrArg Prod.snd run).symm.trans rfl

end Ceremony
