import CeremonyClient.Lib.Table
import CeremonyClient.Tries.MinHeap
import CeremonyClient.Token.Application

set_option autoImplicit false

namespace Ceremony

open GoSem

variable {rings : List RollingFrecencyCritbitTrie} {address : Bytes} {frameNumber : UInt64} {beacons : RollingFrecencyCritbitTrie}
  {after : List RollingFrecencyCritbitTrie} {t lower upper : RollingFrecencyCritbitTrie}

structure PeerSeniorityItem where
  seniority : UInt64
  addr : Bytes
deriving DecidableEq

def PeerSeniorityItem.priority (p : PeerSeniorityItem) : Go UInt64 := .ok p.seniority

-- Only the seniorities: reading a missing key gives the zero item, whose address is empty.
abbrev PeerSeniority := Table Bytes UInt64

def zeroItem : PeerSeniorityItem := ⟨0, []⟩

def PeerSeniority.item (seniority : PeerSeniority) (key : Bytes) : PeerSeniorityItem :=
  match seniority.lookup key with
  | some value => ⟨value, key⟩
  | none => zeroItem

def ringMembers (t : RollingFrecencyCritbitTrie) : List Value := t.findNearestAndApproximateNeighbors (List.replicate 32 0)

-- A prover joins the last ring, and a full last ring or the lone beacon trie opens a new one.
def joinRing (frameNumber : UInt64) (tries : List RollingFrecencyCritbitTrie) (request : PeerSeniorityItem) :
    Go (List RollingFrecencyCritbitTrie) := do
  let last ← indexFromEnd tries 1
  if (ringMembers last).length = 2048 ∨ tries.length = 1 then
    return tries ++ [RollingFrecencyCritbitTrie.zero.add request.addr frameNumber]
  else if last.contains request.addr then return tries
  else return tries.dropLast ++ [last.add request.addr frameNumber]

def removeFirst (address : Bytes) : List RollingFrecencyCritbitTrie → List RollingFrecencyCritbitTrie
  | [] => []
  | t :: tail => if t.contains address then t.remove address :: tail else t :: removeFirst address tail

def leaveRings (tries : List RollingFrecencyCritbitTrie) (request : PeerSeniorityItem) : Go (List RollingFrecencyCritbitTrie) :=
  match tries with
  | [] => crash
  | beacons :: rings => .ok (beacons :: removeFirst request.addr rings)

-- The subtraction is unsigned and wraps around in the first frames.
def inactive (frameNumber : UInt64) (n : Value) : Bool :=
  if frameNumber ≥ PROOF_FRAME_COMBINE_CUTOFF then n.latestFrame < frameNumber - 100 else n.latestFrame < frameNumber - 1000

def evictInactive (frameNumber : UInt64) (t : RollingFrecencyCritbitTrie) : RollingFrecencyCritbitTrie :=
  (ringMembers t).foldl (fun t n => if inactive frameNumber n then t.remove n.key else t) t

def evictRings (frameNumber : UInt64) (tries : List RollingFrecencyCritbitTrie) : List RollingFrecencyCritbitTrie :=
  if frameNumber > PROOF_FRAME_RING_RESET then
    match tries with
    | [] => []
    | beacons :: rings => beacons :: rings.map (evictInactive frameNumber)
  else tries

-- Read from the end of the heap's array. A member that is not in the seniority map appears as the zero item.
def promoted (seniority : PeerSeniority) (upper lower : RollingFrecencyCritbitTrie) : Go (List PeerSeniorityItem) := do
  let eligibilityOrder ← pushAll PeerSeniorityItem.priority ((ringMembers lower).map fun n => seniority.item n.key)
  return eligibilityOrder.all.reverse.take (2048 - (ringMembers upper).length)

def moveUp (frameNumber : UInt64) (pair : RollingFrecencyCritbitTrie × RollingFrecencyCritbitTrie) (item : PeerSeniorityItem) :
    RollingFrecencyCritbitTrie × RollingFrecencyCritbitTrie :=
  (pair.1.add item.addr frameNumber, pair.2.remove item.addr)

def promoteInto (seniority : PeerSeniority) (frameNumber : UInt64) :
    RollingFrecencyCritbitTrie → List RollingFrecencyCritbitTrie → Go (List RollingFrecencyCritbitTrie)
  | upper, [] => .ok [upper]
  | upper, lower :: rest => do
      let moved ← promoted seniority upper lower
      let pair := moved.foldl (moveUp frameNumber) (upper, lower)
      let rings ← promoteInto seniority frameNumber pair.2 rest
      return pair.1 :: rings

def joinsLeavesAndEvictions (joinReqs leaveReqs : List PeerSeniorityItem) (tries : List RollingFrecencyCritbitTrie)
    (frameNumber : UInt64) : Go (List RollingFrecencyCritbitTrie) := do
  let joined ← joinReqs.foldlM (joinRing frameNumber) tries
  let left ← leaveReqs.foldlM leaveRings joined
  return evictRings frameNumber left

def processJoinsAndLeaves (joinReqs leaveReqs : List PeerSeniorityItem) (tries : List RollingFrecencyCritbitTrie)
    (seniority : PeerSeniority) (frameNumber : UInt64) : Go (List RollingFrecencyCritbitTrie) := do
  match ← joinsLeavesAndEvictions joinReqs leaveReqs tries frameNumber with
  | beacons :: upper :: lowers =>
      let rings ← promoteInto seniority frameNumber upper lowers
      return beacons :: rings
  | tries => return tries

open RollingFrecencyCritbitTrie

-- Everything stored in the rings, in one list: rings that share no address have distinct keys.
def ringEntries (rings : List RollingFrecencyCritbitTrie) : List (Bytes × Value) := rings.flatMap fun ring => ring.trie.entries

def ringUnion (rings : List RollingFrecencyCritbitTrie) : List Bytes := (ringEntries rings).map Prod.fst

structure RingsFormed (rings : List RollingFrecencyCritbitTrie) : Prop where
  formed : ∀ ring ∈ rings, Formed ring
  distinct : (ringUnion rings).Nodup

def PairwiseDisjoint (rings : List RollingFrecencyCritbitTrie) : Prop :=
  rings.Pairwise fun first second => ∀ address ∈ first.members, address ∉ second.members

theorem ring_union_members : ringUnion rings = rings.flatMap members := by
  rw [ringUnion, ringEntries, List.map_flatMap]
  rfl

theorem mem_ring_union : address ∈ ringUnion rings ↔ ∃ ring ∈ rings, address ∈ ring.members := by
  rw [ring_union_members, List.mem_flatMap]

theorem ring_entries_append {left right : List RollingFrecencyCritbitTrie} :
    ringEntries (left ++ right) = ringEntries left ++ ringEntries right := List.flatMap_append

theorem ring_entries_cons {ring : RollingFrecencyCritbitTrie} : ringEntries (ring :: rings) = ring.trie.entries ++ ringEntries rings := List.flatMap_cons

theorem distinct_iff_disjoint (formed : ∀ ring ∈ rings, Formed ring) : (ringUnion rings).Nodup ↔ PairwiseDisjoint rings := by
  rw [ring_union_members, List.nodup_flatMap, and_iff_right fun ring member => members_nodup ring (formed ring member)]
  rfl

theorem rings_formed_cons (ring : RollingFrecencyCritbitTrie) (rings : List RollingFrecencyCritbitTrie) :
    RingsFormed (ring :: rings) ↔
      Formed ring ∧ RingsFormed rings ∧ ∀ address ∈ ring.members, address ∉ ringUnion rings := by
  constructor
  · intro whole
    have distinct := whole.distinct
    rw [ringUnion, ring_entries_cons, List.map_append, List.nodup_append] at distinct
    exact ⟨whole.formed ring List.mem_cons_self, ⟨fun other member => whole.formed other (List.mem_cons_of_mem _ member),
      distinct.2.1⟩, fun address here there => distinct.2.2 address here address there rfl⟩
  · rintro ⟨formed, rest, apart⟩
    refine ⟨?_, ?_⟩
    · intro other member
      rcases List.mem_cons.mp member with same | tail
      · exact same ▸ formed
      · exact rest.formed other tail
    · rw [ringUnion, ring_entries_cons, List.map_append, List.nodup_append]
      exact ⟨members_nodup ring formed, rest.distinct, fun address here other there same => apart address here (same ▸ there)⟩

def joinedEntry (frameNumber : UInt64) (address : Bytes) : Bytes × Value := (address, ⟨address, frameNumber, frameNumber, 0⟩)

theorem zero_add_entries (address : Bytes) (frameNumber : UInt64) (wide : address.length = 32) :
    (zero.add address frameNumber).trie.entries.Perm [joinedEntry frameNumber address] ∧ Formed (zero.add address frameNumber) :=
  add_absent zero zero_formed address frameNumber wide (by
    simp [members, zero, newTree, Tree.entries, CritBit.optionalEntries])

theorem rings_formed_join (front rings : List RollingFrecencyCritbitTrie) (ring : RollingFrecencyCritbitTrie)
    (base : List (Bytes × Value)) (entry : Bytes × Value) (formed : RingsFormed rings) (absent : entry.1 ∉ ringUnion rings)
    (split : ringEntries rings = ringEntries front ++ base) (included : ∀ other ∈ front, other ∈ rings) (ringFormed : Formed ring)
    (added : ring.trie.entries.Perm (entry :: base)) :
    RingsFormed (front ++ [ring]) ∧ (ringEntries (front ++ [ring])).Perm (entry :: ringEntries rings) := by
  have entries : (ringEntries (front ++ [ring])).Perm (entry :: ringEntries rings) := by
    rw [ring_entries_append, ring_entries_cons, split, show ringEntries [] = [] from rfl, List.append_nil]
    exact (List.Perm.append_left _ added).trans List.perm_middle
  refine ⟨⟨?_, (entries.map Prod.fst).nodup_iff.mpr ?_⟩, entries⟩
  · intro other member
    rcases List.mem_append.mp member with old | new
    · exact formed.formed other (included other old)
    · exact List.mem_singleton.mp new ▸ ringFormed
  · rw [List.map_cons, List.nodup_cons]
    exact ⟨absent, formed.distinct⟩

theorem join_ring_entries {request : PeerSeniorityItem} (formed : RingsFormed rings) (wide : request.addr.length = 32)
    (absent : request.addr ∉ ringUnion rings) :
    ∃ after, joinRing frameNumber (beacons :: rings) request = .ok (beacons :: after) ∧ RingsFormed after ∧
      (ringEntries after).Perm (joinedEntry frameNumber request.addr :: ringEntries rings) := by
  obtain ⟨fresh, freshFormed⟩ := zero_add_entries request.addr frameNumber wide
  have opened := rings_formed_join rings rings (zero.add request.addr frameNumber) [] (joinedEntry frameNumber request.addr)
    formed absent (List.append_nil _).symm (fun _ member => member) freshFormed fresh
  rcases List.eq_nil_or_concat rings with empty | ⟨init, last, shape⟩
  · subst empty
    exact ⟨_, by simp [joinRing, indexFromEnd, index, pure, Except.pure], opened⟩
  · rw [List.concat_eq_append] at shape
    have read : indexFromEnd (beacons :: rings) 1 = .ok last := by
      rw [shape]
      simp [indexFromEnd, index]
    by_cases full : (ringMembers last).length = 2048
    · exact ⟨_, by simp [joinRing, read, full, pure, Except.pure], opened⟩
    · have inRings : last ∈ rings := by simp [shape]
      have lastFormed := formed.formed last inRings
      have notInLast : request.addr ∉ last.members := fun member => absent (mem_ring_union.mpr ⟨last, inRings, member⟩)
      obtain ⟨added, addedFormed⟩ := add_absent last lastFormed request.addr frameNumber wide notInLast
      have missing := (contains_false_iff lastFormed).mpr notInLast
      refine ⟨init ++ [last.add request.addr frameNumber], ?_, ?_⟩
      · have several : (beacons :: rings).length ≠ 1 := by simp [shape]
        have front : (beacons :: rings).dropLast = beacons :: init := by
          rw [shape, ← List.cons_append, List.dropLast_concat]
        simp only [joinRing, read, ok_bind, full, several, or_self, if_false, missing, Bool.false_eq_true, front]
        rfl
      · refine rings_formed_join init rings _ last.trie.entries (joinedEntry frameNumber request.addr) formed absent ?_ ?_
          addedFormed added
        · rw [shape, ring_entries_append, ring_entries_cons, show ringEntries [] = [] from rfl, List.append_nil]
        · intro other member
          simp [shape, member]

variable {requests : List PeerSeniorityItem}

theorem join_rings_entries (formed : RingsFormed rings) (wide : ∀ request ∈ requests, request.addr.length = 32)
    (distinct : (requests.map PeerSeniorityItem.addr).Nodup) (absent : ∀ request ∈ requests, request.addr ∉ ringUnion rings) :
    ∃ after, requests.foldlM (joinRing frameNumber) (beacons :: rings) = .ok (beacons :: after) ∧ RingsFormed after ∧
      (ringEntries after).Perm (requests.map (fun request => joinedEntry frameNumber request.addr) ++ ringEntries rings) := by
  induction requests generalizing rings with
  | nil => exact ⟨rings, rfl, formed, List.Perm.refl _⟩
  | cons request tail ih =>
      rw [List.forall_mem_cons] at wide absent
      rw [List.map_cons, List.nodup_cons] at distinct
      obtain ⟨next, joined, nextFormed, entries⟩ := join_ring_entries formed wide.1 absent.1
      have still : ∀ other ∈ tail, other.addr ∉ ringUnion next := by
        intro other member present
        rcases List.mem_cons.mp ((entries.map Prod.fst).mem_iff.mp present) with same | old
        · exact distinct.1 (List.mem_map.mpr ⟨other, member, same⟩)
        · exact absent.2 other member old
      obtain ⟨after, ran, afterFormed, all⟩ := ih nextFormed wide.2 distinct.2 still
      refine ⟨after, ?_, afterFormed, ?_⟩
      · rw [List.foldlM_cons, joined, ok_bind, ran]
      · exact (all.trans (List.Perm.append_left _ entries)).trans List.perm_middle

theorem entries_filter_absent {entries : List (Bytes × Value)} (absent : address ∉ entries.map Prod.fst) :
    entries.filter (fun entry => entry.1 ≠ address) = entries := by
  refine List.filter_eq_self.mpr fun entry member => ?_
  simpa using fun same : entry.1 = address => absent (List.mem_map.mpr ⟨entry, member, same⟩)

theorem rings_formed_filter {keep : Bytes × Value → Bool} (formed : RingsFormed rings) (each : ∀ ring ∈ after, Formed ring)
    (entries : ringEntries after = (ringEntries rings).filter keep) : RingsFormed after := by
  refine ⟨each, ?_⟩
  rw [ringUnion, entries]
  exact formed.distinct.sublist (List.filter_sublist.map _)

theorem remove_first_entries (formed : RingsFormed rings) :
    ringEntries (removeFirst address rings) = (ringEntries rings).filter (fun entry => entry.1 ≠ address) ∧
      RingsFormed (removeFirst address rings) := by
  have both : ringEntries (removeFirst address rings) = (ringEntries rings).filter (fun entry => entry.1 ≠ address) ∧
      ∀ ring ∈ removeFirst address rings, Formed ring := by
    induction rings with
    | nil => exact ⟨rfl, formed.formed⟩
    | cons ring tail ih =>
        obtain ⟨ringFormed, tailFormed, apart⟩ := (rings_formed_cons ring tail).mp formed
        obtain ⟨removed, removedFormed⟩ := remove_entries ring ringFormed address
        rw [removeFirst]
        split
        · rename_i here
          have elsewhere := apart address ((contains_iff ring ringFormed address).mp here)
          rw [ring_entries_cons, ring_entries_cons, List.filter_append, removed, entries_filter_absent elsewhere]
          exact ⟨rfl, List.forall_mem_cons.mpr ⟨removedFormed, tailFormed.formed⟩⟩
        · rename_i notHere
          obtain ⟨rest, restFormed⟩ := ih tailFormed
          have missing := (contains_false_iff ringFormed).mp (by simpa using notHere)
          rw [ring_entries_cons, ring_entries_cons, List.filter_append, rest, entries_filter_absent missing]
          exact ⟨rfl, List.forall_mem_cons.mpr ⟨ringFormed, restFormed⟩⟩
  exact ⟨both.1, rings_formed_filter formed both.2 both.1⟩

theorem leave_rings_entries (formed : RingsFormed rings) :
    ∃ after, requests.foldlM leaveRings (beacons :: rings) = .ok (beacons :: after) ∧ RingsFormed after ∧
      ringEntries after = (ringEntries rings).filter fun entry => decide (entry.1 ∉ requests.map PeerSeniorityItem.addr) := by
  induction requests generalizing rings with
  | nil => exact ⟨rings, rfl, formed, by simp⟩
  | cons request tail ih =>
      obtain ⟨entries, nextFormed⟩ := remove_first_entries formed
      obtain ⟨after, ran, afterFormed, rest⟩ := ih nextFormed
      refine ⟨after, ?_, afterFormed, ?_⟩
      · rw [List.foldlM_cons, leaveRings, ok_bind, ran]
      · rw [rest, entries, List.filter_filter]
        refine List.filter_congr fun entry _ => ?_
        rw [List.map_cons, ← Bool.decide_and]
        exact decide_eq_decide.mpr (by rw [List.mem_cons, not_or, and_comm])

theorem evict_each_entries {nodes : List Value} (formed : Formed t) :
    (nodes.foldl (fun t n => if inactive frameNumber n then t.remove n.key else t) t).trie.entries =
        t.trie.entries.filter (fun entry => decide (∀ n ∈ nodes, inactive frameNumber n = true → n.key ≠ entry.1)) ∧
      Formed (nodes.foldl (fun t n => if inactive frameNumber n then t.remove n.key else t) t) := by
  induction nodes generalizing t with
  | nil => exact ⟨by simp, formed⟩
  | cons n tail ih =>
      rw [List.foldl_cons]
      cases idle : inactive frameNumber n with
      | false =>
          obtain ⟨rest, restFormed⟩ := ih formed
          rw [if_neg (by simp)]
          refine ⟨?_, restFormed⟩
          rw [rest]
          refine List.filter_congr fun entry _ => decide_eq_decide.mpr ?_
          rw [List.forall_mem_cons, idle]
          simp
      | true =>
          obtain ⟨removed, removedFormed⟩ := remove_entries t formed n.key
          obtain ⟨rest, restFormed⟩ := ih removedFormed
          rw [if_pos rfl]
          refine ⟨?_, restFormed⟩
          rw [rest, removed, List.filter_filter]
          refine List.filter_congr fun entry _ => ?_
          rw [← Bool.decide_and]
          refine decide_eq_decide.mpr ⟨fun both => List.forall_mem_cons.mpr ⟨fun _ same => both.2 same.symm, both.1⟩, fun all => ?_⟩
          exact ⟨(List.forall_mem_cons.mp all).2, fun same => (List.forall_mem_cons.mp all).1 idle same.symm⟩

theorem evict_inactive_entries (formed : Formed t) :
    (evictInactive frameNumber t).trie.entries = t.trie.entries.filter (fun entry => !inactive frameNumber entry.2) ∧
      Formed (evictInactive frameNumber t) := by
  obtain ⟨entries, evictedFormed⟩ := evict_each_entries formed
  refine ⟨entries.trans (List.filter_congr fun entry stored => ?_), evictedFormed⟩
  cases idle : inactive frameNumber entry.2 with
  | true =>
      refine decide_eq_false fun all => ?_
      have visited : entry.2 ∈ ringMembers t := (mem_neighbors formed).mpr (by rw [formed.named entry stored]; exact stored)
      exact all entry.2 visited idle (formed.named entry stored)
  | false =>
      refine decide_eq_true fun n visited isIdle same => ?_
      have found := (mem_neighbors formed).mp visited
      have sameEntry := List.inj_on_of_nodup_map (members_nodup t formed) found stored same
      rw [← sameEntry, isIdle] at idle
      cases idle

theorem evict_rings_entries (formed : RingsFormed rings) :
    ∃ after, evictRings frameNumber (beacons :: rings) = beacons :: after ∧ RingsFormed after ∧
      ringEntries after = (ringEntries rings).filter fun entry =>
        !(decide (frameNumber > PROOF_FRAME_RING_RESET) && inactive frameNumber entry.2) := by
  by_cases late : frameNumber > PROOF_FRAME_RING_RESET
  · have entries : ringEntries (rings.map (evictInactive frameNumber)) =
        (ringEntries rings).filter fun entry => !(decide (frameNumber > PROOF_FRAME_RING_RESET) && inactive frameNumber entry.2) := by
      rw [ringEntries, ringEntries, List.flatMap_map, List.filter_flatMap]
      refine List.flatMap_congr fun ring member => ?_
      rw [(evict_inactive_entries (formed.formed ring member)).1, decide_eq_true late]
      rfl
    refine ⟨rings.map (evictInactive frameNumber), by rw [evictRings, if_pos late], ?_, entries⟩
    refine rings_formed_filter formed (fun ring member => ?_) entries
    obtain ⟨old, stored, same⟩ := List.mem_map.mp member
    exact same ▸ (evict_inactive_entries (formed.formed old stored)).2
  · refine ⟨rings, by rw [evictRings, if_neg late], formed, (List.filter_eq_self.mpr fun entry _ => ?_).symm⟩
    rw [decide_eq_false late]
    rfl

theorem promoted_total (seniority : PeerSeniority) (upper lower : RollingFrecencyCritbitTrie) :
    ∃ moved order, promoted seniority upper lower = .ok moved ∧
      order.Perm ((ringMembers lower).map fun n => seniority.item n.key) ∧ moved.Sublist order := by
  obtain ⟨heap, pushed⟩ := push_all_total PeerSeniorityItem.priority (fun item => ⟨item.seniority, rfl⟩)
    ((ringMembers lower).map fun n => seniority.item n.key)
  refine ⟨_, heap.all.reverse, by rw [promoted, pushed, ok_bind]; rfl, ?_, List.take_sublist _ _⟩
  exact (List.reverse_perm _).trans (all_perm pushed)

theorem promote_into_step (seniority : PeerSeniority) (frameNumber : UInt64) (upper lower : RollingFrecencyCritbitTrie)
    (rest after : List RollingFrecencyCritbitTrie) (moved : List PeerSeniorityItem) (ran : promoted seniority upper lower = .ok moved)
    (later : promoteInto seniority frameNumber (moved.foldl (moveUp frameNumber) (upper, lower)).2 rest = .ok after) :
    promoteInto seniority frameNumber upper (lower :: rest) =
      .ok ((moved.foldl (moveUp frameNumber) (upper, lower)).1 :: after) := by
  simp only [promoteInto, ran, later, ok_bind]
  rfl

theorem promote_into_total (seniority : PeerSeniority) (frameNumber : UInt64) (upper : RollingFrecencyCritbitTrie)
    (lowers : List RollingFrecencyCritbitTrie) : ∃ after, promoteInto seniority frameNumber upper lowers = .ok after := by
  induction lowers generalizing upper with
  | nil => exact ⟨[upper], rfl⟩
  | cons lower rest ih =>
      obtain ⟨moved, order, ran, -, -⟩ := promoted_total seniority upper lower
      obtain ⟨after, later⟩ := ih (moved.foldl (moveUp frameNumber) (upper, lower)).2
      exact ⟨_, promote_into_step seniority frameNumber upper lower rest after moved ran later⟩

theorem item_cases (seniority : PeerSeniority) (key : Bytes) :
    seniority.item key = zeroItem ∨ (seniority.item key).addr = key := by
  rw [PeerSeniority.item]
  cases seniority.lookup key with
  | none => exact Or.inl rfl
  | some value => exact Or.inr rfl

variable {seniority : PeerSeniority} {moved : List PeerSeniorityItem}

theorem promoted_members (formed : Formed lower) {order : List PeerSeniorityItem}
    (ordered : order.Perm ((ringMembers lower).map fun n => seniority.item n.key)) (taken : moved.Sublist order) (known : zeroItem ∉ moved) :
    (moved.map PeerSeniorityItem.addr).Nodup ∧ ∀ item ∈ moved, item.addr ∈ lower.members := by
  have keys := neighbor_keys lower formed (List.replicate 32 0)
  have origin : ∀ item ∈ moved, ∃ n ∈ ringMembers lower, item.addr = n.key := by
    intro item member
    obtain ⟨n, visited, same⟩ := List.mem_map.mp (ordered.mem_iff.mp (taken.subset member))
    rcases item_cases seniority n.key with missing | named
    · exact absurd (missing ▸ same ▸ member) known
    · exact ⟨n, visited, by rw [← same, named]⟩
  refine ⟨?_, fun item member => ?_⟩
  · have kept : moved.filter (fun item => decide (item ≠ zeroItem)) = moved :=
      List.filter_eq_self.mpr fun item member => by simpa using fun same : item = zeroItem => known (same ▸ member)
    have shorter := (taken.filter fun item => decide (item ≠ zeroItem)).map PeerSeniorityItem.addr
    rw [kept] at shorter
    refine List.Nodup.sublist shorter (((ordered.filter _).map _).nodup_iff.mpr ?_)
    rw [List.filter_map, List.map_map]
    have named : ((ringMembers lower).filter ((fun item => decide (item ≠ zeroItem)) ∘ fun n => seniority.item n.key)).map
        (PeerSeniorityItem.addr ∘ fun n => seniority.item n.key) =
        ((ringMembers lower).filter ((fun item => decide (item ≠ zeroItem)) ∘ fun n => seniority.item n.key)).map Value.key := by
      refine List.map_congr_left fun n member => ?_
      have present : seniority.item n.key ≠ zeroItem := by simpa using (List.mem_filter.mp member).2
      exact (item_cases seniority n.key).resolve_left present
    rw [named]
    exact List.Nodup.sublist (List.filter_sublist.map _) (keys.nodup_iff.mpr (members_nodup lower formed))
  · obtain ⟨n, visited, same⟩ := origin item member
    exact keys.mem_iff.mp (List.mem_map.mpr ⟨n, visited, same.symm⟩)

theorem move_up_members (frameNumber : UInt64) (moved : List PeerSeniorityItem) (upper lower : RollingFrecencyCritbitTrie)
    (upperFormed : Formed upper) (lowerFormed : Formed lower) (apart : (upper.members ++ lower.members).Nodup)
    (distinct : (moved.map PeerSeniorityItem.addr).Nodup) (stored : ∀ item ∈ moved, item.addr ∈ lower.members) :
    Formed (moved.foldl (moveUp frameNumber) (upper, lower)).1 ∧ Formed (moved.foldl (moveUp frameNumber) (upper, lower)).2 ∧
      ((moved.foldl (moveUp frameNumber) (upper, lower)).1.members ++
        (moved.foldl (moveUp frameNumber) (upper, lower)).2.members).Perm (upper.members ++ lower.members) := by
  induction moved generalizing upper lower with
  | nil => exact ⟨upperFormed, lowerFormed, List.Perm.refl _⟩
  | cons item tail ih =>
      rw [List.forall_mem_cons] at stored
      rw [List.map_cons, List.nodup_cons] at distinct
      have notUpper : item.addr ∉ upper.members := fun here => (List.nodup_append.mp apart).2.2 _ here _ stored.1 rfl
      obtain ⟨added, addedFormed⟩ := add_absent upper upperFormed item.addr frameNumber
        (member_length lowerFormed stored.1) notUpper
      obtain ⟨removed, removedFormed⟩ := remove_entries lower lowerFormed item.addr
      have lowerSplit : (item.addr :: (lower.remove item.addr).members).Perm lower.members := by
        refine (List.perm_ext_iff_of_nodup ?_ (members_nodup lower lowerFormed)).mpr fun other => ?_
        · rw [List.nodup_cons, mem_remove lowerFormed]
          exact ⟨fun both => both.2 rfl, members_nodup _ removedFormed⟩
        · rw [List.mem_cons, mem_remove lowerFormed]
          by_cases same : other = item.addr
          · simp [same, stored.1]
          · simp [same]
      have step : ((upper.add item.addr frameNumber).members ++ (lower.remove item.addr).members).Perm
          (upper.members ++ lower.members) :=
        ((added.map Prod.fst).append_right _).trans (List.perm_middle.symm.trans (List.Perm.append_left _ lowerSplit))
      have still : ∀ other ∈ tail, other.addr ∈ (lower.remove item.addr).members := by
        intro other member
        refine (mem_remove lowerFormed).mpr ⟨stored.2 other member, fun same => distinct.1 ?_⟩
        exact List.mem_map.mpr ⟨other, member, same⟩
      obtain ⟨first, second, all⟩ := ih (upper.add item.addr frameNumber) (lower.remove item.addr) addedFormed removedFormed
        (step.nodup_iff.mpr apart) distinct.2 still
      exact ⟨first, second, all.trans step⟩

theorem mem_move_up {item : PeerSeniorityItem} (member : item ∈ moved) :
    item.addr ∈ (moved.foldl (moveUp frameNumber) (upper, lower)).1.members := by
  suffices keeps : ∀ (tail : List PeerSeniorityItem) (pair : RollingFrecencyCritbitTrie × RollingFrecencyCritbitTrie),
      item ∈ tail ∨ item.addr ∈ pair.1.members → item.addr ∈ (tail.foldl (moveUp frameNumber) pair).1.members from
    keeps moved (upper, lower) (Or.inl member)
  intro tail
  induction tail with
  | nil => exact fun pair reason => reason.resolve_left (by simp)
  | cons other rest ih =>
      intro pair reason
      refine ih _ ?_
      rcases reason with inList | inRing
      · rcases List.mem_cons.mp inList with same | later
        · exact Or.inr ((mem_add _ _ _ _).mpr (Or.inl (by rw [same])))
        · exact Or.inl later
      · exact Or.inr ((mem_add _ _ _ _).mpr (Or.inr inRing))

def PicksKnown (seniority : PeerSeniority) (frameNumber : UInt64) :
    RollingFrecencyCritbitTrie → List RollingFrecencyCritbitTrie → Prop
  | _, [] => True
  | upper, lower :: rest => ∃ moved, promoted seniority upper lower = .ok moved ∧ zeroItem ∉ moved ∧
      PicksKnown seniority frameNumber (moved.foldl (moveUp frameNumber) (upper, lower)).2 rest

theorem promote_into_known {lowers : List RollingFrecencyCritbitTrie} (formed : RingsFormed (upper :: lowers))
    (known : PicksKnown seniority frameNumber upper lowers) (done : promoteInto seniority frameNumber upper lowers = .ok after) :
    (∀ ring ∈ after, Formed ring) ∧ (ringUnion after).Perm (ringUnion (upper :: lowers)) := by
  induction lowers generalizing upper after with
  | nil =>
      cases done
      exact ⟨formed.formed, List.Perm.refl _⟩
  | cons lower rest ih =>
      obtain ⟨moved, ran, allKnown, later⟩ := known
      obtain ⟨moved', order, ran', ordered, taken⟩ := promoted_total seniority upper lower
      cases ran.symm.trans ran'
      obtain ⟨upperFormed, lowersFormed, upperApart⟩ := (rings_formed_cons _ _).mp formed
      obtain ⟨lowerFormed, restFormed, lowerApart⟩ := (rings_formed_cons _ _).mp lowersFormed
      obtain ⟨distinct, stored⟩ := promoted_members lowerFormed ordered taken allKnown
      have whole := formed.distinct
      rw [ring_union_members, List.flatMap_cons, List.flatMap_cons, ← List.append_assoc] at whole
      obtain ⟨firstFormed, secondFormed, together⟩ := move_up_members frameNumber moved upper lower upperFormed lowerFormed
        (List.nodup_append.mp whole).1 distinct stored
      have nextFormed : RingsFormed ((moved.foldl (moveUp frameNumber) (upper, lower)).2 :: rest) := by
        refine (rings_formed_cons _ _).mpr ⟨secondFormed, restFormed, fun address here there => ?_⟩
        have inside := together.mem_iff.mp (List.mem_append_right _ here)
        rw [ring_union_members] at there
        exact (List.nodup_append.mp whole).2.2 address inside address there rfl
      obtain ⟨rings, finished⟩ := promote_into_total seniority frameNumber (moved.foldl (moveUp frameNumber) (upper, lower)).2 rest
      cases (promote_into_step seniority frameNumber upper lower rest rings moved ran finished).symm.trans done
      obtain ⟨ringsFormed, members⟩ := ih nextFormed later finished
      refine ⟨List.forall_mem_cons.mpr ⟨firstFormed, ringsFormed⟩, ?_⟩
      rw [ring_union_members] at members ⊢
      rw [ring_union_members] at members ⊢
      rw [List.flatMap_cons, List.flatMap_cons, List.flatMap_cons, ← List.append_assoc]
      refine (List.Perm.append_left _ members).trans ?_
      rw [List.flatMap_cons, ← List.append_assoc]
      exact together.append_right _

theorem promote_into_unknown (seniority : PeerSeniority) (frameNumber : UInt64) (upper : RollingFrecencyCritbitTrie)
    (lowers after : List RollingFrecencyCritbitTrie) (unknown : ¬ PicksKnown seniority frameNumber upper lowers)
    (done : promoteInto seniority frameNumber upper lowers = .ok after) : [] ∈ ringUnion after := by
  induction lowers generalizing upper after with
  | nil => exact absurd trivial unknown
  | cons lower rest ih =>
      obtain ⟨moved, order, ran, -, -⟩ := promoted_total seniority upper lower
      obtain ⟨rings, finished⟩ := promote_into_total seniority frameNumber (moved.foldl (moveUp frameNumber) (upper, lower)).2 rest
      cases (promote_into_step seniority frameNumber upper lower rest rings moved ran finished).symm.trans done
      rw [mem_ring_union]
      by_cases picked : zeroItem ∈ moved
      · exact ⟨_, List.mem_cons_self, mem_move_up picked⟩
      · have stillUnknown : ¬ PicksKnown seniority frameNumber (moved.foldl (moveUp frameNumber) (upper, lower)).2 rest :=
          fun later => unknown ⟨moved, ran, picked, later⟩
        obtain ⟨ring, member, inside⟩ := mem_ring_union.mp (ih _ rings stillUnknown finished)
        exact ⟨ring, List.mem_cons_of_mem _ member, inside⟩

def AllPicksKnown (seniority : PeerSeniority) (frameNumber : UInt64) : List RollingFrecencyCritbitTrie → Prop
  | [] => True
  | upper :: lowers => PicksKnown seniority frameNumber upper lowers

def Retained (joinReqs leaveReqs : List PeerSeniorityItem) (rings : List RollingFrecencyCritbitTrie) (frameNumber : UInt64)
    (address : Bytes) : Prop :=
  address ∉ leaveReqs.map PeerSeniorityItem.addr ∧
    ∃ value, ((address, value) ∈ ringEntries rings ∨
        (address, value) ∈ joinReqs.map fun request => joinedEntry frameNumber request.addr) ∧
      ¬ (frameNumber > PROOF_FRAME_RING_RESET ∧ inactive frameNumber value = true)

theorem staged_rings {joinReqs leaveReqs : List PeerSeniorityItem} (formed : RingsFormed rings)
    (wide : ∀ request ∈ joinReqs, request.addr.length = 32) (distinct : (joinReqs.map PeerSeniorityItem.addr).Nodup)
    (absent : ∀ request ∈ joinReqs, request.addr ∉ ringUnion rings) :
    ∃ staged, joinsLeavesAndEvictions joinReqs leaveReqs (beacons :: rings) frameNumber = .ok (beacons :: staged) ∧
      RingsFormed staged ∧ ∀ address, address ∈ ringUnion staged ↔ Retained joinReqs leaveReqs rings frameNumber address := by
  obtain ⟨joined, ranJoins, joinedFormed, joinedEntries⟩ :=
    join_rings_entries formed wide distinct absent
  obtain ⟨left, ranLeaves, leftFormed, leftEntries⟩ := leave_rings_entries joinedFormed
  obtain ⟨staged, ranEvictions, stagedFormed, stagedEntries⟩ := evict_rings_entries leftFormed
  refine ⟨staged, ?_, stagedFormed, fun address => ?_⟩
  · rw [joinsLeavesAndEvictions, ranJoins, ok_bind, ranLeaves, ok_bind, ranEvictions]
    rfl
  · rw [ringUnion, stagedEntries, leftEntries, List.filter_filter, List.mem_map]
    simp only [List.mem_filter, joinedEntries.mem_iff, List.mem_append, Bool.and_eq_true, Bool.not_eq_true',
      Bool.and_eq_false_imp, decide_eq_true_eq, Prod.exists]
    constructor
    · rintro ⟨address', value, ⟨origin, active, stays⟩, same⟩
      cases same
      exact ⟨stays, value, origin.symm, fun both => by rw [active both.1] at both; cases both.2⟩
    · rintro ⟨stays, value, origin, active⟩
      refine ⟨address, value, ⟨origin.symm, fun late => ?_, stays⟩, rfl⟩
      exact Bool.not_eq_true _ ▸ fun idle => active ⟨late, idle⟩

theorem ring_bookkeeping_iff (joinReqs leaveReqs : List PeerSeniorityItem) (beacons : RollingFrecencyCritbitTrie)
    (rings : List RollingFrecencyCritbitTrie) (seniority : PeerSeniority) (frameNumber : UInt64)
    (formed : ∀ ring ∈ rings, Formed ring) (disjoint : PairwiseDisjoint rings)
    (wide : ∀ request ∈ joinReqs, request.addr.length = 32) (distinct : (joinReqs.map PeerSeniorityItem.addr).Nodup)
    (absent : ∀ request ∈ joinReqs, request.addr ∉ ringUnion rings) :
    ∃ staged after, joinsLeavesAndEvictions joinReqs leaveReqs (beacons :: rings) frameNumber = .ok (beacons :: staged) ∧
      processJoinsAndLeaves joinReqs leaveReqs (beacons :: rings) seniority frameNumber = .ok (beacons :: after) ∧
      ((PairwiseDisjoint after ∧
          ∀ address, address ∈ ringUnion after ↔ Retained joinReqs leaveReqs rings frameNumber address) ↔
        AllPicksKnown seniority frameNumber staged) := by
  have start : RingsFormed rings := ⟨formed, (distinct_iff_disjoint formed).mpr disjoint⟩
  obtain ⟨staged, ran, stagedFormed, members⟩ :=
    staged_rings start wide distinct absent
  have narrow : ¬ Retained joinReqs leaveReqs rings frameNumber [] := by
    rintro ⟨-, value, old | joining, -⟩
    · obtain ⟨ring, member, inside⟩ := mem_ring_union.mp (List.mem_map.mpr ⟨_, old, rfl⟩)
      exact absurd (member_length (formed ring member) inside) (by simp)
    · obtain ⟨request, member, same⟩ := List.mem_map.mp joining
      have size := wide request member
      rw [show request.addr = [] from congrArg Prod.fst same] at size
      cases size
  cases staged with
  | nil =>
      refine ⟨[], [], ran, by rw [processJoinsAndLeaves, ran]; rfl, fun _ => trivial, fun _ => ⟨List.Pairwise.nil, members⟩⟩
  | cons upper lowers =>
      obtain ⟨after, promotedAll⟩ := promote_into_total seniority frameNumber upper lowers
      refine ⟨upper :: lowers, after, ran, ?_, fun kept => ?_, fun known => ?_⟩
      · rw [processJoinsAndLeaves, ran, ok_bind]
        simp only [promotedAll, ok_bind]
        rfl
      · by_contra unknown
        have empty := promote_into_unknown seniority frameNumber upper lowers after unknown promotedAll
        exact narrow ((kept.2 []).mp empty)
      · obtain ⟨afterFormed, same⟩ := promote_into_known stagedFormed known promotedAll
        refine ⟨(distinct_iff_disjoint afterFormed).mp (same.nodup_iff.mpr stagedFormed.distinct), fun address => ?_⟩
        rw [same.mem_iff, members]

def sampleMember : Bytes := List.replicate 32 1

def sampleJoiner : PeerSeniorityItem := ⟨20, List.replicate 32 2⟩

def sampleRings : List RollingFrecencyCritbitTrie := [zero.add sampleMember 200, zero]

theorem sample_rings_formed : ∀ ring ∈ sampleRings, Formed ring := by
  intro ring member
  rcases List.mem_cons.mp member with first | second
  · exact first ▸ (zero_add_entries sampleMember 200 (by decide)).2
  · exact List.mem_singleton.mp second ▸ zero_formed

theorem sample_rings_disjoint : PairwiseDisjoint sampleRings := by
  refine List.Pairwise.cons (fun ring member address _ => ?_) (List.pairwise_singleton _ _)
  rw [List.mem_singleton.mp member]
  simp [members, zero, newTree, Tree.entries, CritBit.optionalEntries]

theorem ring_bookkeeping_one_join :
    ∃ staged after, joinsLeavesAndEvictions [sampleJoiner] [] (zero :: sampleRings) 200 = .ok (zero :: staged) ∧
      processJoinsAndLeaves [sampleJoiner] [] (zero :: sampleRings) (AList.singleton sampleMember 5) 200 = .ok (zero :: after) ∧
      ((PairwiseDisjoint after ∧ ∀ address, address ∈ ringUnion after ↔ Retained [sampleJoiner] [] sampleRings 200 address) ↔
        AllPicksKnown (AList.singleton sampleMember 5) 200 staged) :=
  ring_bookkeeping_iff [sampleJoiner] [] zero sampleRings (AList.singleton sampleMember 5) 200 sample_rings_formed
    sample_rings_disjoint (by decide) (by decide) (by decide +kernel)

theorem promotion_adds_empty_address :
    (∀ ring ∈ sampleRings, Formed ring) ∧ PairwiseDisjoint sampleRings ∧ sampleJoiner.addr ∉ ringUnion sampleRings ∧
      ∃ after, processJoinsAndLeaves [sampleJoiner] [] (zero :: sampleRings) (AList.singleton sampleMember 5) 200 =
          .ok (zero :: after) ∧
        after.map members = [[[], sampleMember], [sampleJoiner.addr]] ∧
        ¬ (∀ address, address ∈ ringUnion after ↔ Retained [sampleJoiner] [] sampleRings 200 address) := by
  have ran : returnsWith (processJoinsAndLeaves [sampleJoiner] [] (zero :: sampleRings) (AList.singleton sampleMember 5) 200)
      (fun tries => tries.head? == some zero && tries.tail.map members == [[[], sampleMember], [sampleJoiner.addr]]) = true := by
    decide +kernel
  obtain ⟨tries, done, check⟩ := (returns_with_iff _ _).mp ran
  rw [Bool.and_eq_true, beq_iff_eq, beq_iff_eq] at check
  obtain ⟨after, shape⟩ : ∃ after, tries = zero :: after := by
    rcases tries with _ | ⟨first, rest⟩
    · cases check.1
    · exact ⟨rest, by rw [Option.some.inj check.1]⟩
  subst shape
  have contents : after.map members = [[[], sampleMember], [sampleJoiner.addr]] := check.2
  refine ⟨sample_rings_formed, sample_rings_disjoint, by decide +kernel, after, done, contents, fun kept => ?_⟩
  have inside : [] ∈ ringUnion after := by
    rw [ring_union_members, List.flatMap_def, contents]
    simp
  obtain ⟨-, value, old | joining, -⟩ := (kept []).mp inside
  · obtain ⟨ring, member, stored⟩ := mem_ring_union.mp (List.mem_map.mpr ⟨_, old, rfl⟩)
    exact absurd (member_length (sample_rings_formed ring member) stored) (by simp)
  · simp [joinedEntry, sampleJoiner] at joining

end Ceremony
