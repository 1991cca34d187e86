import CeremonyClient.Token.Rings

set_option autoImplicit false

namespace Ceremony

open GoSem RollingFrecencyCritbitTrie

variable {rings : List RollingFrecencyCritbitTrie} {frameNumber : UInt64} {beacons : RollingFrecencyCritbitTrie}
  {requests : List PeerSeniorityItem}

-- One call of ProcessJoinsAndLeaves; of the frame it reads only the number.
structure RingCall where
  joinReqs : List PeerSeniorityItem
  leaveReqs : List PeerSeniorityItem
  seniority : PeerSeniority
  frameNumber : UInt64

def RingCall.run (tries : List RollingFrecencyCritbitTrie) (call : RingCall) : Go (List RollingFrecencyCritbitTrie) :=
  processJoinsAndLeaves call.joinReqs call.leaveReqs tries call.seniority call.frameNumber

def Small (ring : RollingFrecencyCritbitTrie) : Prop := ring.members.length ≤ 2048

theorem ring_members_length {ring : RollingFrecencyCritbitTrie} : (ringMembers ring).length = ring.members.length :=
  neighbors_length

theorem zero_add_small (address : Bytes) (frameNumber : UInt64) : Small (zero.add address frameNumber) := by
  have size := add_size zero address frameNumber
  have empty : zero.members.length = 0 := rfl
  rw [Small]
  omega

-- The test for a new ring is an equality, which is enough because no ring is ever larger.
theorem join_ring_small (frameNumber : UInt64) (beacons : RollingFrecencyCritbitTrie) (rings : List RollingFrecencyCritbitTrie)
    (request : PeerSeniorityItem) (small : ∀ ring ∈ rings, Small ring) :
    ∃ after, joinRing frameNumber (beacons :: rings) request = .ok (beacons :: after) ∧ ∀ ring ∈ after, Small ring := by
  have opened : ∀ ring ∈ rings ++ [zero.add request.addr frameNumber], Small ring := by
    intro ring member
    rcases List.mem_append.mp member with old | new
    · exact small ring old
    · exact List.mem_singleton.mp new ▸ zero_add_small request.addr frameNumber
  rcases List.eq_nil_or_concat rings with empty | ⟨init, last, shape⟩
  · subst empty
    exact ⟨_, by simp [joinRing, indexFromEnd, index, pure, Except.pure], opened⟩
  · rw [List.concat_eq_append] at shape
    have read : indexFromEnd (beacons :: rings) 1 = .ok last := by
      rw [shape]
      simp [indexFromEnd, index]
    by_cases full : (ringMembers last).length = 2048
    · exact ⟨_, by simp [joinRing, read, full, pure, Except.pure], opened⟩
    · have several : (beacons :: rings).length ≠ 1 := by simp [shape]
      have front : (beacons :: rings).dropLast = beacons :: init := by
        rw [shape, ← List.cons_append, List.dropLast_concat]
      by_cases present : last.contains request.addr = true
      · refine ⟨rings, ?_, small⟩
        simp only [joinRing, read, ok_bind, full, several, or_self, if_false, present, if_true]
        rfl
      · refine ⟨init ++ [last.add request.addr frameNumber], ?_, ?_⟩
        · simp only [joinRing, read, ok_bind, full, several, or_self, if_false, present, Bool.false_eq_true, front]
          rfl
        · intro ring member
          rcases List.mem_append.mp member with old | new
          · exact small ring (by simp [shape, old])
          · have lastSmall : Small last := small last (by simp [shape])
            have added := add_size last request.addr frameNumber
            rw [ring_members_length] at full
            rw [List.mem_singleton.mp new, Small]
            rw [Small] at lastSmall
            omega

theorem remove_first_small {address : Bytes} (small : ∀ ring ∈ rings, Small ring) : ∀ ring ∈ removeFirst address rings, Small ring := by
  induction rings with
  | nil => exact small
  | cons first tail ih =>
      rw [List.forall_mem_cons] at small
      rw [removeFirst]
      by_cases present : first.contains address = true
      · rw [if_pos present, List.forall_mem_cons]
        exact ⟨(remove_size first address).trans small.1, small.2⟩
      · rw [if_neg present, List.forall_mem_cons]
        exact ⟨small.1, ih small.2⟩

theorem evict_inactive_small (frameNumber : UInt64) (t : RollingFrecencyCritbitTrie) (small : Small t) :
    Small (evictInactive frameNumber t) := by
  rw [evictInactive]
  generalize ringMembers t = nodes
  induction nodes generalizing t with
  | nil => exact small
  | cons n tail ih =>
      rw [List.foldl_cons]
      by_cases idle : inactive frameNumber n = true
      · rw [if_pos idle]
        exact ih _ ((remove_size t n.key).trans small)
      · rw [if_neg idle]
        exact ih _ small

theorem move_up_sizes (frameNumber : UInt64) (moved : List PeerSeniorityItem)
    (pair : RollingFrecencyCritbitTrie × RollingFrecencyCritbitTrie) :
    (moved.foldl (moveUp frameNumber) pair).1.members.length ≤ pair.1.members.length + moved.length ∧
      (moved.foldl (moveUp frameNumber) pair).2.members.length ≤ pair.2.members.length := by
  induction moved generalizing pair with
  | nil => exact ⟨le_refl _, le_refl _⟩
  | cons item tail ih =>
      obtain ⟨upper, lower⟩ := ih (moveUp frameNumber pair item)
      have added : (moveUp frameNumber pair item).1.members.length ≤ pair.1.members.length + 1 :=
        add_size pair.1 item.addr frameNumber
      have removed : (moveUp frameNumber pair item).2.members.length ≤ pair.2.members.length := remove_size pair.2 item.addr
      rw [List.foldl_cons, List.length_cons]
      exact ⟨by omega, by omega⟩

-- The size read before the moves leaves room for exactly as many adds as are made.
theorem promote_into_small (seniority : PeerSeniority) (frameNumber : UInt64) (upper : RollingFrecencyCritbitTrie)
    (lowers : List RollingFrecencyCritbitTrie) (upperSmall : Small upper) (small : ∀ ring ∈ lowers, Small ring) :
    ∃ after, promoteInto seniority frameNumber upper lowers = .ok after ∧ ∀ ring ∈ after, Small ring := by
  induction lowers generalizing upper with
  | nil => exact ⟨[upper], rfl, by simpa using upperSmall⟩
  | cons lower rest ih =>
      rw [List.forall_mem_cons] at small
      obtain ⟨heap, pushed⟩ := push_all_total PeerSeniorityItem.priority (fun item => ⟨item.seniority, rfl⟩)
        ((ringMembers lower).map fun n => seniority.item n.key)
      have ran : promoted seniority upper lower = .ok (heap.all.reverse.take (2048 - (ringMembers upper).length)) := by
        rw [promoted, pushed, ok_bind]
        rfl
      generalize isMoved : heap.all.reverse.take (2048 - (ringMembers upper).length) = moved at ran
      have room : moved.length ≤ 2048 - upper.members.length := by
        rw [← isMoved, ring_members_length]
        exact List.length_take_le _ _
      obtain ⟨upperSize, lowerSize⟩ := move_up_sizes frameNumber moved (upper, lower)
      obtain ⟨after, later, afterSmall⟩ := ih (moved.foldl (moveUp frameNumber) (upper, lower)).2 (lowerSize.trans small.1) small.2
      refine ⟨_, promote_into_step seniority frameNumber upper lower rest after moved ran later, ?_⟩
      rw [List.forall_mem_cons]
      refine ⟨?_, afterSmall⟩
      rw [Small] at upperSmall ⊢
      simp only at upperSize
      omega

section

variable (small : ∀ ring ∈ rings, Small ring)

include small

theorem joins_small :
    ∃ after, requests.foldlM (joinRing frameNumber) (beacons :: rings) = .ok (beacons :: after) ∧ ∀ ring ∈ after, Small ring := by
  induction requests generalizing rings with
  | nil => exact ⟨rings, rfl, small⟩
  | cons request tail ih =>
      obtain ⟨next, joined, nextSmall⟩ := join_ring_small frameNumber beacons rings request small
      obtain ⟨after, ran, afterSmall⟩ := ih nextSmall
      exact ⟨after, by rw [List.foldlM_cons, joined, ok_bind, ran], afterSmall⟩

theorem leaves_small :
    ∃ after, requests.foldlM leaveRings (beacons :: rings) = .ok (beacons :: after) ∧ ∀ ring ∈ after, Small ring := by
  induction requests generalizing rings with
  | nil => exact ⟨rings, rfl, small⟩
  | cons request tail ih =>
      obtain ⟨after, ran, afterSmall⟩ := ih (remove_first_small small)
      exact ⟨after, by rw [List.foldlM_cons, leaveRings, ok_bind, ran], afterSmall⟩

theorem evictions_small :
    ∃ after, evictRings frameNumber (beacons :: rings) = beacons :: after ∧ ∀ ring ∈ after, Small ring := by
  by_cases late : frameNumber > PROOF_FRAME_RING_RESET
  · refine ⟨rings.map (evictInactive frameNumber), by rw [evictRings, if_pos late], fun ring member => ?_⟩
    obtain ⟨old, inRings, same⟩ := List.mem_map.mp member
    rw [← same]
    exact evict_inactive_small frameNumber old (small old inRings)
  · exact ⟨rings, by rw [evictRings, if_neg late], small⟩

theorem ring_call_small {call : RingCall} :
    ∃ after, call.run (beacons :: rings) = .ok (beacons :: after) ∧ ∀ ring ∈ after, Small ring := by
  obtain ⟨joined, ranJoins, joinedSmall⟩ := joins_small small
  obtain ⟨left, ranLeaves, leftSmall⟩ := leaves_small joinedSmall
  obtain ⟨staged, ranEvictions, stagedSmall⟩ := evictions_small leftSmall
  have ran : joinsLeavesAndEvictions call.joinReqs call.leaveReqs (beacons :: rings) call.frameNumber = .ok (beacons :: staged) := by
    rw [joinsLeavesAndEvictions, ranJoins, ok_bind, ranLeaves, ok_bind, ranEvictions]
    rfl
  rw [RingCall.run, processJoinsAndLeaves, ran, ok_bind]
  cases staged with
  | nil => exact ⟨[], rfl, stagedSmall⟩
  | cons upper lowers =>
      rw [List.forall_mem_cons] at stagedSmall
      obtain ⟨after, promotedAll, afterSmall⟩ := promote_into_small call.seniority call.frameNumber upper lowers
        stagedSmall.1 stagedSmall.2
      refine ⟨after, ?_, afterSmall⟩
      simp only [promotedAll, ok_bind]
      rfl

end

theorem ring_capacity (beacons : RollingFrecencyCritbitTrie) (calls : List RingCall) :
    ∃ tries, calls.foldlM RingCall.run [beacons] = .ok tries ∧ ∀ ring ∈ tries.drop 1, ring.members.length ≤ 2048 := by
  suffices later : ∀ rings : List RollingFrecencyCritbitTrie, (∀ ring ∈ rings, Small ring) →
      ∃ after, calls.foldlM RingCall.run (beacons :: rings) = .ok (beacons :: after) ∧ ∀ ring ∈ after, Small ring by
    obtain ⟨after, ran, small⟩ := later [] (by simp)
    exact ⟨beacons :: after, ran, small⟩
  induction calls with
  | nil => exact fun rings small => ⟨rings, rfl, small⟩
  | cons call tail ih =>
      intro rings small
      obtain ⟨next, ran, nextSmall⟩ := ring_call_small small
      obtain ⟨after, rest, afterSmall⟩ := ih next nextSmall
      exact ⟨after, by rw [List.foldlM_cons, ran, ok_bind, rest], afterSmall⟩

end Ceremony
