import CeremonyClient.Tries.RollingFrecency

set_option autoImplicit false

namespace Ceremony

open GoSem RollingFrecencyCritbitTrie

variable {t : RollingFrecencyCritbitTrie} {map : Bytes → Option (UInt64 × UInt64)}

inductive TrieCall where
  | add (address : Bytes) (latestFrame : UInt64)
  | remove (address : Bytes)

namespace TrieCall

def address : TrieCall → Bytes
  | .add address _ => address
  | .remove address => address

def on (t : RollingFrecencyCritbitTrie) : TrieCall → RollingFrecencyCritbitTrie
  | .add address latestFrame => t.add address latestFrame
  | .remove address => t.remove address

def mapped (map : Bytes → Option (UInt64 × UInt64)) : TrieCall → Bytes → Option (UInt64 × UInt64)
  | .add address latestFrame => Function.update map address (some (((map address).map Prod.fst).getD latestFrame, latestFrame))
  | .remove address => Function.update map address none

end TrieCall

def trieAfter (calls : List TrieCall) : RollingFrecencyCritbitTrie := calls.foldl TrieCall.on zero

def trieMapAfter (calls : List TrieCall) : Bytes → Option (UInt64 × UInt64) := calls.foldl TrieCall.mapped fun _ => none

def frameValue (address : Bytes) (frames : UInt64 × UInt64) : Value := ⟨address, frames.1, frames.2, 0⟩

structure TrieRepresents (t : RollingFrecencyCritbitTrie) (map : Bytes → Option (UInt64 × UInt64)) : Prop where
  formed : Formed t
  stored : ∀ address value, (address, value) ∈ t.trie.entries ↔ (map address).map (frameValue address) = some value

section

variable (represents : TrieRepresents t map)

include represents

theorem represented_get (address : Bytes) :
    t.trie.get address = (map address).map (frameValue address) := by
  apply Option.ext
  intro value
  rw [tree_get_iff represents.formed.trie, represents.stored]

theorem represented_member {address : Bytes} : address ∈ t.members ↔ map address ≠ none := by
  rw [← contains_iff t represents.formed, contains, represented_get represents, Option.isSome_map]
  cases map address <;> simp

theorem add_represents {address : Bytes} {latestFrame : UInt64} (wide : address.length = 32) :
    TrieRepresents (t.add address latestFrame) (TrieCall.mapped map (.add address latestFrame)) := by
  refine ⟨add_formed t represents.formed wide, fun other value => ?_⟩
  rw [TrieCall.mapped]
  cases found : map address with
  | none =>
      have absent : address ∉ t.members := by
        rw [represented_member represents, found]
        simp
      rw [(add_absent t represents.formed address latestFrame wide absent).1.mem_iff, List.mem_cons, represents.stored]
      by_cases same : other = address
      · rw [same, Function.update_self, found]
        simp [frameValue, eq_comm]
      · rw [Function.update_of_ne same]
        simp [same]
  | some frames =>
      have present : address ∈ t.members := by
        rw [represented_member represents, found]
        simp
      have read := represented_get represents address
      rw [found] at read
      have inserted := insert_present_entries represents.formed.trie
        { frameValue address frames with latestFrame := latestFrame } present
      have added : t.add address latestFrame = ⟨t.trie.insert address { frameValue address frames with latestFrame := latestFrame }⟩ := by
        rw [add, read]
        rfl
      rw [added, inserted.1, List.mem_map]
      by_cases same : other = address
      · rw [same, Function.update_self]
        constructor
        · intro stored
          obtain ⟨entry, inside, isEntry⟩ := stored
          by_cases here : entry.1 = address
          · rw [if_pos here] at isEntry
            rw [← (Prod.mk.inj isEntry).2]
            rfl
          · rw [if_neg here] at isEntry
            exact absurd (congrArg Prod.fst isEntry) here
        · intro isValue
          refine ⟨(address, frameValue address frames), (represents.stored _ _).mpr (by rw [found]; rfl), ?_⟩
          rw [if_pos rfl, ← Option.some.inj isValue]
          rfl
      · rw [Function.update_of_ne same, ← represents.stored]
        constructor
        · intro stored
          obtain ⟨entry, inside, isEntry⟩ := stored
          by_cases here : entry.1 = address
          · rw [if_pos here] at isEntry
            exact absurd ((congrArg Prod.fst isEntry).symm.trans here) same
          · rw [if_neg here] at isEntry
            rw [← isEntry]
            exact inside
        · intro inside
          exact ⟨(other, value), inside, if_neg same⟩

theorem remove_represents {address : Bytes} :
    TrieRepresents (t.remove address) (TrieCall.mapped map (.remove address)) := by
  obtain ⟨entries, formed⟩ := remove_entries t represents.formed address
  refine ⟨formed, fun other value => ?_⟩
  rw [entries, List.mem_filter, represents.stored, TrieCall.mapped]
  by_cases same : other = address
  · rw [same, Function.update_self]
    simp
  · rw [Function.update_of_ne same]
    simp [same]

end

theorem trie_after_represents {calls : List TrieCall} (wide : ∀ call ∈ calls, call.address.length = 32) :
    TrieRepresents (trieAfter calls) (trieMapAfter calls) := by
  induction calls using List.reverseRecOn with
  | nil =>
      refine ⟨zero_formed, fun address value => ?_⟩
      simp [trieAfter, trieMapAfter, zero, newTree, Tree.entries, CritBit.optionalEntries]
  | append_singleton calls call ih =>
      have before := ih fun earlier member => wide earlier (List.mem_append_left _ member)
      rw [trieAfter, trieMapAfter, List.foldl_append, List.foldl_append]
      cases call with
      | add address latestFrame => exact add_represents before (wide (.add address latestFrame) (by simp))
      | remove address => exact remove_represents before

theorem prover_trie_is_map (calls : List TrieCall) (wide : ∀ call ∈ calls, call.address.length = 32) :
    (∀ address, (trieAfter calls).contains address = (trieMapAfter calls address).isSome) ∧
      (∀ address, (trieAfter calls).get address = ((trieMapAfter calls address).map (frameValue address)).getD ⟨[], 0, 0, 0⟩) ∧
      ∀ target, ((trieAfter calls).findNearestAndApproximateNeighbors target).Nodup ∧
        ∀ value, value ∈ (trieAfter calls).findNearestAndApproximateNeighbors target ↔
          (trieMapAfter calls value.key).map (frameValue value.key) = some value := by
  have represents := trie_after_represents wide
  have read := represented_get represents
  refine ⟨fun address => ?_, fun address => ?_, fun target => ⟨?_, fun value => ?_⟩⟩
  · rw [contains, read, Option.isSome_map]
  · simp only [RollingFrecencyCritbitTrie.get, read]
    cases trieMapAfter calls address with
    | none => rfl
    | some frames => rfl
  · exact ((neighbor_keys _ represents.formed target).nodup_iff.mpr (members_nodup _ represents.formed)).of_map
  · rw [mem_neighbors represents.formed, represents.stored]

theorem prover_trie_is_map_two_frames :
    (trieAfter [.add (List.replicate 32 1) 5, .add (List.replicate 32 1) 9]).get (List.replicate 32 1) = ⟨List.replicate 32 1, 5, 9, 0⟩ ∧
      ∀ target, ((trieAfter [.add (List.replicate 32 1) 5, .add (List.replicate 32 1) 9]).findNearestAndApproximateNeighbors target).Nodup := by
  obtain ⟨-, gets, lists⟩ := prover_trie_is_map [.add (List.replicate 32 1) 5, .add (List.replicate 32 1) 9] (by decide)
  refine ⟨(gets (List.replicate 32 1)).trans ?_, fun target => (lists target).1⟩
  simp [trieMapAfter, TrieCall.mapped, frameValue]

end Ceremony
