import CeremonyClient.Tries.Critbit

set_option autoImplicit false

namespace Ceremony

open GoSem

variable {address : Bytes} {latestFrame : UInt64}

-- A nil Trie field is replaced by New() on first use, so the zero value is the empty trie.
structure RollingFrecencyCritbitTrie where
  trie : Tree
deriving DecidableEq

variable {t : RollingFrecencyCritbitTrie}

namespace RollingFrecencyCritbitTrie

def zero : RollingFrecencyCritbitTrie := ⟨newTree⟩

def contains (t : RollingFrecencyCritbitTrie) (address : Bytes) : Bool := (t.trie.get address).isSome

def get (t : RollingFrecencyCritbitTrie) (address : Bytes) : Value :=
  match t.trie.get address with
  | none => ⟨[], 0, 0, 0⟩
  | some value => value

def add (t : RollingFrecencyCritbitTrie) (address : Bytes) (latestFrame : UInt64) : RollingFrecencyCritbitTrie :=
  let v : Value := match t.trie.get address with
    | none => ⟨address, latestFrame, latestFrame, 0⟩
    | some value => value
  ⟨t.trie.insert address { v with latestFrame := latestFrame }⟩

def remove (t : RollingFrecencyCritbitTrie) (address : Bytes) : RollingFrecencyCritbitTrie := ⟨t.trie.delete address⟩

def absDiff (a b : UInt8) : UInt8 := if a ≥ b then a - b else b - a

-- The first byte position at which the distances to the target differ decides, and full agreement answers true.
def nearer (address a b : Bytes) : Bool :=
  let maxLen := max address.length (max a.length b.length)
  match (List.range maxLen).find? fun i =>
      absDiff (byteAt address i) (byteAt a i) != absDiff (byteAt address i) (byteAt b i) with
  | some i => absDiff (byteAt address i) (byteAt a i) < absDiff (byteAt address i) (byteAt b i)
  | none => true

def findNearestAndApproximateNeighbors (t : RollingFrecencyCritbitTrie) (address : Bytes) : List Value :=
  t.trie.walk.insertionSort fun a b => nearer address a.key b.key = true

def members (t : RollingFrecencyCritbitTrie) : List Bytes := t.trie.entries.map Prod.fst

structure Formed (t : RollingFrecencyCritbitTrie) : Prop where
  trie : TrieFormed 32 t.trie
  named : ∀ entry ∈ t.trie.entries, entry.2.key = entry.1

theorem zero_formed : Formed zero :=
  ⟨new_tree_formed, by intro entry stored; simp [zero, newTree, Tree.entries, CritBit.optionalEntries] at stored⟩

theorem members_nodup (t : RollingFrecencyCritbitTrie) (formed : Formed t) : t.members.Nodup :=
  tree_keys_nodup formed.trie

theorem member_length (formed : Formed t) (member : address ∈ t.members) : address.length = 32 := by
  cases stored : t.trie.root with
  | none => simp [members, Tree.entries, stored, CritBit.optionalEntries] at member
  | some root =>
      rw [members, Tree.entries, stored] at member
      exact (formed.trie root stored).2 address member

theorem contains_iff (t : RollingFrecencyCritbitTrie) (formed : Formed t) (address : Bytes) :
    t.contains address = true ↔ address ∈ t.members := by
  rw [contains, Option.isSome_iff_exists, members, List.mem_map]
  constructor
  · rintro ⟨value, found⟩
    exact ⟨(address, value), (tree_get_iff formed.trie).mp found, rfl⟩
  · rintro ⟨⟨key, value⟩, stored, same⟩
    cases same
    exact ⟨value, (tree_get_iff formed.trie).mpr stored⟩

theorem contains_false_iff (formed : Formed t) : t.contains address = false ↔ address ∉ t.members := by
  rw [← contains_iff t formed address, Bool.not_eq_true]

theorem get_absent (t : RollingFrecencyCritbitTrie) (formed : Formed t) (address : Bytes) (absent : address ∉ t.members) :
    t.trie.get address = none := by
  have missing := (contains_false_iff formed).mpr absent
  simpa [contains] using missing

theorem add_absent (t : RollingFrecencyCritbitTrie) (formed : Formed t) (address : Bytes) (latestFrame : UInt64)
    (wide : address.length = 32) (absent : address ∉ t.members) :
    (t.add address latestFrame).trie.entries.Perm ((address, ⟨address, latestFrame, latestFrame, 0⟩) :: t.trie.entries) ∧
      Formed (t.add address latestFrame) := by
  have inserted := insert_absent_entries 32 t.trie formed.trie address ⟨address, latestFrame, latestFrame, 0⟩ wide absent
  have read := get_absent t formed address absent
  simp only [add, read]
  refine ⟨inserted.1, inserted.2, ?_⟩
  intro entry stored
  rcases List.mem_cons.mp (inserted.1.mem_iff.mp stored) with same | old
  · rw [same]
  · exact formed.named entry old

theorem add_present (formed : Formed t) (present : address ∈ t.members) :
    (t.add address latestFrame).members = t.members ∧ Formed (t.add address latestFrame) := by
  have found := (contains_iff t formed address).mpr present
  obtain ⟨value, read⟩ := Option.isSome_iff_exists.mp found
  have stored := (tree_get_iff formed.trie).mp read
  have inserted := insert_present_entries formed.trie { value with latestFrame := latestFrame } present
  simp only [add, read, members]
  refine ⟨?_, inserted.2, ?_⟩
  · rw [inserted.1, List.map_map]
    apply List.map_congr_left
    intro entry member
    simp only [Function.comp_apply]
    split <;> rfl
  · intro entry member
    rw [inserted.1] at member
    obtain ⟨old, oldStored, same⟩ := List.mem_map.mp member
    rw [← same]
    split
    · rename_i sameKey
      rw [sameKey]
      exact formed.named (address, value) stored
    · exact formed.named old oldStored

theorem add_formed (t : RollingFrecencyCritbitTrie) (formed : Formed t) (wide : address.length = 32) :
    Formed (t.add address latestFrame) := by
  by_cases present : address ∈ t.members
  · exact (add_present formed present).2
  · exact (add_absent t formed address latestFrame wide present).2

theorem mem_add (t : RollingFrecencyCritbitTrie) (address : Bytes) (latestFrame : UInt64) (other : Bytes) :
    other ∈ (t.add address latestFrame).members ↔ other = address ∨ other ∈ t.members := insert_keys

theorem add_size (t : RollingFrecencyCritbitTrie) (address : Bytes) (latestFrame : UInt64) :
    (t.add address latestFrame).members.length ≤ t.members.length + 1 := by
  simp only [members, List.length_map]
  exact insert_size t.trie address _

theorem remove_size (t : RollingFrecencyCritbitTrie) (address : Bytes) : (t.remove address).members.length ≤ t.members.length := by
  simp only [members, List.length_map]
  exact delete_size

theorem remove_entries (t : RollingFrecencyCritbitTrie) (formed : Formed t) (address : Bytes) :
    (t.remove address).trie.entries = (t.trie.entries.filter fun e => e.1 ≠ address) ∧ Formed (t.remove address) := by
  have deleted := delete_tree_entries 32 t.trie formed.trie address
  refine ⟨deleted.1, deleted.2, ?_⟩
  intro entry stored
  rw [remove, deleted.1] at stored
  exact formed.named entry (List.mem_filter.mp stored).1

theorem mem_remove (formed : Formed t) {other : Bytes} : other ∈ (t.remove address).members ↔ other ∈ t.members ∧ other ≠ address := by
  rw [members, (remove_entries t formed address).1]
  simp only [members, List.mem_map, List.mem_filter, decide_eq_true_eq]
  constructor
  · rintro ⟨entry, ⟨stored, different⟩, same⟩
    exact ⟨⟨entry, stored, same⟩, same ▸ different⟩
  · rintro ⟨⟨entry, stored, same⟩, different⟩
    exact ⟨entry, ⟨stored, same ▸ different⟩, same⟩

theorem neighbors_perm : (t.findNearestAndApproximateNeighbors address).Perm t.trie.walk := List.perm_insertionSort _ _

theorem neighbors_length : (t.findNearestAndApproximateNeighbors address).length = t.members.length := by
  rw [neighbors_perm.length_eq, Tree.walk, members, List.length_map, List.length_map]
  rfl

theorem neighbor_keys (t : RollingFrecencyCritbitTrie) (formed : Formed t) (address : Bytes) :
    ((t.findNearestAndApproximateNeighbors address).map Value.key).Perm t.members := by
  refine (neighbors_perm.map Value.key).trans (List.Perm.of_eq ?_)
  rw [Tree.walk, List.map_map, members]
  exact List.map_congr_left fun entry stored => formed.named entry stored

theorem mem_neighbors (formed : Formed t) {value : Value} :
    value ∈ t.findNearestAndApproximateNeighbors address ↔ (value.key, value) ∈ t.trie.entries := by
  rw [neighbors_perm.mem_iff, Tree.walk, List.mem_map]
  constructor
  · rintro ⟨⟨key, stored⟩, member, same⟩
    cases same
    rwa [formed.named _ member]
  · intro member
    exact ⟨_, member, rfl⟩

end RollingFrecencyCritbitTrie

end Ceremony
