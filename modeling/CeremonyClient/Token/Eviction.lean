import CeremonyClient.Token.Rings

set_option autoImplicit false

namespace Ceremony

open GoSem RollingFrecencyCritbitTrie

variable {seniority : PeerSeniority} {upper : RollingFrecencyCritbitTrie} {frameNumber : UInt64} {address : Bytes}

theorem move_up_upper (frameNumber : UInt64) (moved : List PeerSeniorityItem) (upper lower : RollingFrecencyCritbitTrie) (address : Bytes) :
    address ∈ (moved.foldl (moveUp frameNumber) (upper, lower)).1.members ↔
      address ∈ upper.members ∨ address ∈ moved.map PeerSeniorityItem.addr := by
  induction moved generalizing upper lower with
  | nil => simp
  | cons item tail ih =>
      rw [List.foldl_cons, moveUp, ih, mem_add, List.map_cons, List.mem_cons]
      tauto

theorem move_up_lower (frameNumber : UInt64) (moved : List PeerSeniorityItem) (upper lower : RollingFrecencyCritbitTrie) (formed : Formed lower) :
    Formed (moved.foldl (moveUp frameNumber) (upper, lower)).2 ∧
      ∀ address, address ∈ (moved.foldl (moveUp frameNumber) (upper, lower)).2.members ↔
        address ∈ lower.members ∧ address ∉ moved.map PeerSeniorityItem.addr := by
  induction moved generalizing upper lower with
  | nil => exact ⟨formed, by simp⟩
  | cons item tail ih =>
      obtain ⟨-, removedFormed⟩ := remove_entries lower formed item.addr
      obtain ⟨after, members⟩ := ih (upper.add item.addr frameNumber) (lower.remove item.addr) removedFormed
      refine ⟨after, fun address => ?_⟩
      rw [List.foldl_cons, moveUp, members, mem_remove formed, List.map_cons, List.mem_cons, not_or, and_assoc]

theorem promoted_origin {lower : RollingFrecencyCritbitTrie} (formed : Formed lower) {moved : List PeerSeniorityItem}
    (ran : promoted seniority upper lower = .ok moved) {item : PeerSeniorityItem} (member : item ∈ moved) :
    item.addr = [] ∨ item.addr ∈ lower.members := by
  obtain ⟨moved', order, ran', ordered, taken⟩ := promoted_total seniority upper lower
  cases ran.symm.trans ran'
  obtain ⟨n, visited, same⟩ := List.mem_map.mp (ordered.mem_iff.mp (taken.subset member))
  rw [← same]
  cases item_cases seniority n.key with
  | inl missing =>
      rw [missing]
      exact .inl rfl
  | inr named =>
      rw [named]
      exact .inr ((neighbor_keys lower formed _).mem_iff.mp (List.mem_map.mpr ⟨n, visited, rfl⟩))

theorem mem_ring_union_cons (ring : RollingFrecencyCritbitTrie) (rings : List RollingFrecencyCritbitTrie) (address : Bytes) :
    address ∈ ringUnion (ring :: rings) ↔ address ∈ ring.members ∨ address ∈ ringUnion rings := by
  rw [ring_union_members, ring_union_members, List.flatMap_cons, List.mem_append]

theorem promote_into_union {lowers : List RollingFrecencyCritbitTrie} (after : List RollingFrecencyCritbitTrie)
    (formed : ∀ ring ∈ lowers, Formed ring) (done : promoteInto seniority frameNumber upper lowers = .ok after) (wide : address ≠ []) :
    address ∈ ringUnion after ↔ address ∈ ringUnion (upper :: lowers) := by
  induction lowers generalizing upper after with
  | nil => rw [← Except.ok.inj done]
  | cons lower rest ih =>
      obtain ⟨lowerFormed, restFormed⟩ := List.forall_mem_cons.mp formed
      obtain ⟨moved, order, ran, -, -⟩ := promoted_total seniority upper lower
      obtain ⟨rings, finished⟩ := promote_into_total seniority frameNumber (moved.foldl (moveUp frameNumber) (upper, lower)).2 rest
      have isAfter := Except.ok.inj ((promote_into_step seniority frameNumber upper lower rest rings moved ran finished).symm.trans done)
      have later := ih rings restFormed finished
      have lowerMembers := (move_up_lower frameNumber moved upper lower lowerFormed).2 address
      have upperMembers := move_up_upper frameNumber moved upper lower address
      have origin : address ∈ moved.map PeerSeniorityItem.addr → address ∈ lower.members := by
        intro isMoved
        obtain ⟨item, member, same⟩ := List.mem_map.mp isMoved
        rw [← same] at wide ⊢
        exact (promoted_origin lowerFormed ran member).resolve_left wide
      rw [mem_ring_union_cons, lowerMembers] at later
      rw [← isAfter, mem_ring_union_cons, upperMembers, later, mem_ring_union_cons, mem_ring_union_cons]
      by_cases isMoved : address ∈ moved.map PeerSeniorityItem.addr
      · simp [isMoved, origin isMoved]
      · simp [isMoved]

def silenceLimit (frameNumber : UInt64) : Nat := if frameNumber ≥ PROOF_FRAME_COMBINE_CUTOFF then 100 else 1000

def Overdue (frameNumber : UInt64) (value : Value) : Prop := value.latestFrame.toNat + silenceLimit frameNumber < frameNumber.toNat

def EvictsRightly (frameNumber : UInt64) (rings after : List RollingFrecencyCritbitTrie) : Prop :=
  ∀ address ∈ ringUnion rings, address ∈ ringUnion after ↔ ∃ value, (address, value) ∈ ringEntries rings ∧ ¬ Overdue frameNumber value

-- In the first frames the subtraction wraps around, and only members with a latest frame close to the largest number stay.
def EvictionSound (frameNumber : UInt64) (rings : List RollingFrecencyCritbitTrie) : Prop :=
  silenceLimit frameNumber ≤ frameNumber.toNat ∨
    ∀ address ∈ ringUnion rings, ∃ value, (address, value) ∈ ringEntries rings ∧
      2 ^ 64 + frameNumber.toNat ≤ value.latestFrame.toNat + silenceLimit frameNumber

theorem inactive_iff {value : Value} :
    inactive frameNumber value = true ↔
      if silenceLimit frameNumber ≤ frameNumber.toNat then Overdue frameNumber value
      else value.latestFrame.toNat + silenceLimit frameNumber < 2 ^ 64 + frameNumber.toNat := by
  have small := frameNumber.toNat_lt
  have wrapped (limit : UInt64) (fits : limit.toNat ≤ 1000) : value.latestFrame < frameNumber - limit ↔
      if limit.toNat ≤ frameNumber.toNat then value.latestFrame.toNat + limit.toNat < frameNumber.toNat
      else value.latestFrame.toNat + limit.toNat < 2 ^ 64 + frameNumber.toNat := by
    rw [UInt64.lt_iff_toNat_lt, UInt64.toNat_sub]
    by_cases enough : limit.toNat ≤ frameNumber.toNat
    · rw [if_pos enough]
      omega
    · rw [if_neg enough]
      omega
  rw [inactive, Overdue, silenceLimit]
  by_cases late : frameNumber ≥ PROOF_FRAME_COMBINE_CUTOFF
  · simp only [if_pos late, decide_eq_true_eq]
    exact wrapped 100 (by decide)
  · simp only [if_neg late, decide_eq_true_eq]
    exact wrapped 1000 (by decide)

theorem evicted_union (frameNumber : UInt64) {rings : List RollingFrecencyCritbitTrie} (formed : ∀ ring ∈ rings, Formed ring) :
    address ∈ ringUnion (rings.map (evictInactive frameNumber)) ↔
      ∃ value, (address, value) ∈ ringEntries rings ∧ ¬ inactive frameNumber value = true := by
  have entries : ringEntries (rings.map (evictInactive frameNumber)) = (ringEntries rings).filter fun entry => !inactive frameNumber entry.2 := by
    rw [ringEntries, ringEntries, List.flatMap_map, List.filter_flatMap]
    exact List.flatMap_congr fun ring member => (evict_inactive_entries (formed ring member)).1
  rw [ringUnion, entries, List.mem_map]
  constructor
  · intro stays
    obtain ⟨⟨key, value⟩, kept, same⟩ := stays
    obtain ⟨stored, active⟩ := List.mem_filter.mp kept
    rw [← show key = address from same]
    exact ⟨value, stored, by simpa using active⟩
  · intro stays
    obtain ⟨value, stored, active⟩ := stays
    exact ⟨(address, value), List.mem_filter.mpr ⟨stored, by simpa using active⟩, rfl⟩

theorem evicted_rings (positive : 0 < frameNumber) {tries : List RollingFrecencyCritbitTrie} (formed : ∀ ring ∈ tries.tail, Formed ring) :
    ∃ after, processJoinsAndLeaves [] [] tries seniority frameNumber = .ok after ∧
      ∀ address, address ≠ [] → (address ∈ ringUnion after.tail ↔ address ∈ ringUnion (tries.tail.map (evictInactive frameNumber))) := by
  have staged : joinsLeavesAndEvictions [] [] tries frameNumber = .ok (evictRings frameNumber tries) := rfl
  have late : frameNumber > PROOF_FRAME_RING_RESET := positive
  have evicted : evictRings frameNumber tries = tries.take 1 ++ tries.tail.map (evictInactive frameNumber) := by
    rw [evictRings.eq_def, if_pos late]
    cases tries <;> rfl
  rw [processJoinsAndLeaves, staged, ok_bind, evicted]
  cases tries with
  | nil => exact ⟨[], rfl, fun address _ => Iff.rfl⟩
  | cons beacons rings =>
      cases rings with
      | nil => exact ⟨[beacons], rfl, fun address _ => Iff.rfl⟩
      | cons upper lowers =>
          obtain ⟨after, ran⟩ := promote_into_total seniority frameNumber (evictInactive frameNumber upper) (lowers.map (evictInactive frameNumber))
          refine ⟨beacons :: after, by
            simp only [List.tail_cons, List.map_cons, List.take_succ_cons, List.take_zero, List.singleton_append, ran, ok_bind]
            rfl, fun address wide => ?_⟩
          apply promote_into_union after _ ran wide
          intro ring inside
          obtain ⟨old, stored, same⟩ := List.mem_map.mp inside
          rw [← same]
          exact (evict_inactive_entries (formed old (List.mem_cons_of_mem _ stored))).2

-- Exactly when the subtraction does not wrap around, or everybody stays although it does.
theorem inactivity_eviction_iff (tries : List RollingFrecencyCritbitTrie) (seniority : PeerSeniority) (frameNumber : UInt64)
    (positive : 0 < frameNumber) (formed : ∀ ring ∈ tries.tail, Formed ring) :
    ∃ after, processJoinsAndLeaves [] [] tries seniority frameNumber = .ok after ∧
      (EvictsRightly frameNumber tries.tail after.tail ↔ EvictionSound frameNumber tries.tail) := by
  obtain ⟨after, ran, members⟩ := evicted_rings positive formed
  refine ⟨after, ran, ?_⟩
  have wide (address : Bytes) (member : address ∈ ringUnion tries.tail) : address ≠ [] := by
    obtain ⟨ring, inside, stored⟩ := mem_ring_union.mp member
    intro empty
    have length := member_length (formed ring inside) stored
    rw [empty] at length
    cases length
  have kept (address : Bytes) (member : address ∈ ringUnion tries.tail) : address ∈ ringUnion after.tail ↔
      ∃ value, (address, value) ∈ ringEntries tries.tail ∧ ¬ inactive frameNumber value = true := by
    rw [members address (wide address member), evicted_union frameNumber formed]
  rw [EvictsRightly, EvictionSound]
  simp only [inactive_iff] at kept
  by_cases enough : silenceLimit frameNumber ≤ frameNumber.toNat
  · simp only [if_pos enough] at kept
    exact iff_of_true kept (.inl enough)
  · simp only [if_neg enough, not_lt] at kept
    have timely (value : Value) : ¬ Overdue frameNumber value := by
      rw [Overdue]
      omega
    constructor
    · intro right
      refine .inr fun address member => ?_
      obtain ⟨⟨key, value⟩, stored, same⟩ := List.mem_map.mp member
      apply (kept address member).mp
      apply (right address member).mpr
      exact ⟨value, by rw [← show key = address from same]; exact stored, timely value⟩
    · intro sound address member
      have stays := (sound.resolve_left enough) address member
      refine ⟨fun inside => ?_, fun _ => (kept address member).mpr stays⟩
      obtain ⟨value, stored, -⟩ := stays
      exact ⟨value, stored, timely value⟩

theorem inactivity_eviction_sample :
    ∃ after, processJoinsAndLeaves [] [] (zero :: sampleRings) (AList.singleton sampleMember 5) 200 = .ok after ∧
      (EvictsRightly 200 sampleRings after.tail ↔ EvictionSound 200 sampleRings) :=
  inactivity_eviction_iff (zero :: sampleRings) (AList.singleton sampleMember 5) 200 (by decide) sample_rings_formed

theorem early_frame_evicts_active :
    processJoinsAndLeaves [] [] [zero, zero.add sampleMember 50] (AList.singleton sampleMember 5) 50 = .ok [zero, zero] ∧
      sampleMember ∈ ringUnion [zero.add sampleMember 50] ∧ ¬ EvictsRightly 50 [zero.add sampleMember 50] [zero] := by
  have member : sampleMember ∈ ringUnion [zero.add sampleMember 50] := by decide
  refine ⟨by decide +kernel, member, fun right => ?_⟩
  have stays := (right sampleMember member).mpr ⟨⟨sampleMember, 50, 50, 0⟩, by decide, by simp [Overdue]⟩
  revert stays
  decide

end Ceremony
