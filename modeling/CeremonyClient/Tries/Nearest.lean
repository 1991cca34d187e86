import CeremonyClient.Lib.Go
import CeremonyClient.Tries.RollingFrecency
import Mathlib.Data.List.Lex

set_option autoImplicit false

namespace Ceremony

open GoSem

variable {t : RollingFrecencyCritbitTrie} {v w : Value}

section Sorting

variable {α : Type}

structure StrictWeakOn (less : α → α → Bool) (items : List α) : Prop where
  irreflexive : ∀ a ∈ items, less a a = false
  transitive : ∀ a ∈ items, ∀ b ∈ items, ∀ c ∈ items, less a b = true → less b c = true → less a c = true
  incomparable : ∀ a ∈ items, ∀ b ∈ items, ∀ c ∈ items, less a b = false → less b a = false → less b c = false → less c b = false →
    less a c = false ∧ less c a = false

-- The same for the pairs a sort compares, which are of different elements.
structure StrictWeakApart (less : α → α → Bool) (items : List α) : Prop where
  asymmetric : ∀ a ∈ items, ∀ b ∈ items, a ≠ b → less a b = true → less b a = false
  transitive : ∀ a ∈ items, ∀ b ∈ items, ∀ c ∈ items, a ≠ b → b ≠ c → a ≠ c → less a b = true → less b c = true → less a c = true
  incomparable : ∀ a ∈ items, ∀ b ∈ items, ∀ c ∈ items, a ≠ b → b ≠ c → a ≠ c → less a b = false → less b a = false → less b c = false →
    less c b = false → less a c = false ∧ less c a = false

-- sort.Slice: a permutation, sorted for a strict weak order; of distinct elements it compares no one with itself.
structure SortSlice (sort : (α → α → Bool) → List α → List α) : Prop where
  perm : ∀ less items, (sort less items).Perm items
  sorted : ∀ less items, StrictWeakOn less items → (sort less items).Pairwise fun a b => less b a = false
  apart : ∀ less other items, items.Nodup → (∀ a ∈ items, ∀ b ∈ items, a ≠ b → less a b = other a b) → sort less items = sort other items

theorem strict_weak_negative {less : α → α → Bool} {items : List α} (order : StrictWeakOn less items) {a b c : α} (isA : a ∈ items)
    (isB : b ∈ items) (isC : c ∈ items) (first : less c b = false) (second : less b a = false) : less c a = false := by
  rw [← Bool.not_eq_true]
  intro less'
  cases below : less b c with
  | true =>
      have short := order.transitive b isB c isC a isA below less'
      rw [second] at short
      cases short
  | false =>
      cases above : less a b with
      | true =>
          have short := order.transitive c isC a isA b isB less' above
          rw [first] at short
          cases short
      | false =>
          have tied := (order.incomparable c isC b isB a isA first below second above).1
          rw [less'] at tied
          cases tied

def insertionBy (less : α → α → Bool) (items : List α) : List α := items.insertionSort fun a b => less b a = false

theorem insert_sorted {less : α → α → Bool} {items : List α} (order : StrictWeakOn less items) {a : α} (isA : a ∈ items) {tail : List α}
    (inside : ∀ b ∈ tail, b ∈ items) (sorted : tail.Pairwise fun a b => less b a = false) :
    (tail.orderedInsert (fun a b => less b a = false) a).Pairwise fun a b => less b a = false := by
  induction tail with
  | nil => simp
  | cons b rest ih =>
      obtain ⟨isB, others⟩ := List.forall_mem_cons.mp inside
      obtain ⟨first, later⟩ := List.pairwise_cons.mp sorted
      rw [List.orderedInsert]
      split
      · next below =>
          refine List.pairwise_cons.mpr ⟨List.forall_mem_cons.mpr ⟨below, fun c isC => ?_⟩, sorted⟩
          exact strict_weak_negative order isA isB (others c isC) (first c isC) below
      · next above =>
          refine List.pairwise_cons.mpr ⟨fun c isC => ?_, ih others later⟩
          rcases List.mem_cons.mp ((List.perm_orderedInsert _ a rest).mem_iff.mp isC) with same | old
          · rw [same]
            rw [Bool.not_eq_false] at above
            cases back : less a b with
            | false => rfl
            | true =>
                have self := order.transitive a isA b isB a isA back above
                rw [order.irreflexive a isA] at self
                cases self
          · exact first c old

theorem insert_congr {less other : α → α → Bool} {a : α} {tail : List α} (same : ∀ b ∈ tail, less b a = other b a) :
    tail.orderedInsert (fun a b => less b a = false) a = tail.orderedInsert (fun a b => other b a = false) a := by
  induction tail with
  | nil => rfl
  | cons b rest ih =>
      obtain ⟨first, others⟩ := List.forall_mem_cons.mp same
      rw [List.orderedInsert, List.orderedInsert, ih others]
      simp only [first]

theorem insertion_by_sort_slice : SortSlice (insertionBy (α := α)) where
  perm := fun less items => List.perm_insertionSort _ items
  sorted := by
    intro less items order
    have partly (part : List α) (inside : ∀ b ∈ part, b ∈ items) :
        (part.insertionSort fun a b => less b a = false).Pairwise fun a b => less b a = false := by
      induction part with
      | nil => simp
      | cons a rest ih =>
          obtain ⟨isA, others⟩ := List.forall_mem_cons.mp inside
          rw [List.insertionSort_cons]
          exact insert_sorted order isA (fun b isB => others b ((List.perm_insertionSort _ rest).mem_iff.mp isB)) (ih others)
    exact partly items fun b isB => isB
  apart := by
    intro less other items nodup same
    have partly (part : List α) (inside : ∀ b ∈ part, b ∈ items) (distinct : part.Nodup) :
        part.insertionSort (fun a b => less b a = false) = part.insertionSort (fun a b => other b a = false) := by
      induction part with
      | nil => rfl
      | cons a rest ih =>
          obtain ⟨isA, others⟩ := List.forall_mem_cons.mp inside
          obtain ⟨fresh, distinct⟩ := List.nodup_cons.mp distinct
          rw [List.insertionSort_cons, List.insertionSort_cons, ih others distinct]
          refine insert_congr fun b isB => ?_
          have old := (List.perm_insertionSort _ rest).mem_iff.mp isB
          exact same b (others b old) a isA fun equal => fresh (equal ▸ old)
    exact partly items (fun b isB => isB) nodup

end Sorting

inductive TrieChange where
  | add (address : Bytes) (latestFrame : UInt64)
  | remove (address : Bytes)

namespace RollingFrecencyCritbitTrie

def change (t : RollingFrecencyCritbitTrie) : TrieChange → RollingFrecencyCritbitTrie
  | .add address latestFrame => t.add address latestFrame
  | .remove address => t.remove address

def afterChanges (changes : List TrieChange) : RollingFrecencyCritbitTrie := changes.foldl change zero

def WideAdds (changes : List TrieChange) : Prop := ∀ address latestFrame, .add address latestFrame ∈ changes → address.length = 32

theorem after_changes_formed {changes : List TrieChange} (wide : WideAdds changes) : Formed (afterChanges changes) := by
  induction changes using List.reverseRecOn with
  | nil => exact zero_formed
  | append_singleton changes last ih =>
      have before := ih fun address latestFrame member => wide address latestFrame (List.mem_append_left _ member)
      rw [afterChanges, List.foldl_append]
      cases last with
      | add address latestFrame => exact add_formed _ before (wide address latestFrame (by simp))
      | remove address => exact (remove_entries _ before address).2

def distances (target address : Bytes) : List Nat := (List.range 32).map fun i => (absDiff (byteAt target i) (byteAt address i)).toNat

theorem lex_at_difference {first second : Nat → Nat} {front : List Nat} (rest : List Nat) {i : Nat} (same : ∀ j ∈ front, first j = second j)
    (different : first i ≠ second i) : (front ++ i :: rest).map first < (front ++ i :: rest).map second ↔ first i < second i := by
  induction front with
  | nil => simp [List.cons_lt_cons_iff, different]
  | cons j front ih =>
      obtain ⟨here, later⟩ := List.forall_mem_cons.mp same
      rw [List.cons_append, List.map_cons, List.map_cons, List.cons_lt_cons_iff, ih later, here]
      simp

theorem nearer_iff {target a b : Bytes} (isTarget : target.length = 32) (isA : a.length = 32) (isB : b.length = 32) :
    nearer target a b = true ↔ ¬ distances target b < distances target a := by
  rw [nearer, isTarget, isA, isB, max_self, max_self]
  cases found : (List.range 32).find? fun i => absDiff (byteAt target i) (byteAt a i) != absDiff (byteAt target i) (byteAt b i) with
  | none =>
      have same : distances target b = distances target a := by
        refine List.map_congr_left fun i member => ?_
        have agreed := List.find?_eq_none.mp found i member
        rw [bne_iff_ne, not_not] at agreed
        rw [agreed]
      rw [same]
      simp
  | some i =>
      obtain ⟨differs, front, rest, isRange, before⟩ := List.find?_eq_some_iff_append.mp found
      have different : (absDiff (byteAt target i) (byteAt b i)).toNat ≠ (absDiff (byteAt target i) (byteAt a i)).toNat :=
        fun equal => bne_iff_ne.mp differs (UInt8.toNat_inj.mp equal.symm)
      rw [distances, distances, isRange, lex_at_difference rest ?_ different]
      · simp only [decide_eq_true_eq, UInt8.lt_iff_toNat_lt]
        omega
      · intro j member
        have agreed := before j member
        rw [Bool.not_eq_true', bne_eq_false_iff_eq] at agreed
        rw [agreed]

variable (sort : (Value → Value → Bool) → List Value → List Value)

def neighborsBy (t : RollingFrecencyCritbitTrie) (target : Bytes) : List Value := sort (fun a b => nearer target a.key b.key) t.trie.walk

-- FindNearest takes the first neighbor, and panics when there is none.
def findNearest (t : RollingFrecencyCritbitTrie) (target : Bytes) : Go Value := index (neighborsBy sort t target) 0

def NoMirror (t : RollingFrecencyCritbitTrie) (target : Bytes) : Prop :=
  ∀ a ∈ t.members, ∀ b ∈ t.members, distances target a = distances target b → a = b

structure NearestSelected (t : RollingFrecencyCritbitTrie) (target : Bytes) : Prop where
  order : StrictWeakApart (fun a b => nearer target a.key b.key) t.trie.walk
  nearest : ∃ v ∈ t.trie.walk, findNearest sort t target = .ok v ∧ ∀ w ∈ t.trie.walk, ¬ distances target w.key < distances target v.key
  independent : ∀ changes, WideAdds changes → (∀ address, address ∈ (afterChanges changes).members ↔ address ∈ t.members) →
    ∀ v v', findNearest sort t target = .ok v → findNearest sort (afterChanges changes) target = .ok v' → v'.key = v.key

theorem walk_member (formed : Formed t) (member : v ∈ t.trie.walk) : v.key ∈ t.members := by
  obtain ⟨entry, stored, same⟩ := List.mem_map.mp member
  rw [← same, formed.named entry stored]
  exact List.mem_map_of_mem stored

theorem member_walk (formed : Formed t) {address : Bytes} (member : address ∈ t.members) : ∃ v ∈ t.trie.walk, v.key = address := by
  obtain ⟨entry, stored, same⟩ := List.mem_map.mp member
  exact ⟨entry.2, List.mem_map_of_mem stored, (formed.named entry stored).trans same⟩

theorem walk_keys (formed : Formed t) : t.trie.walk.map Value.key = t.members := by
  rw [Tree.walk, List.map_map, members]
  exact List.map_congr_left fun entry stored => formed.named entry stored

theorem walk_same_key (formed : Formed t) (isV : v ∈ t.trie.walk) (isW : w ∈ t.trie.walk) (same : v.key = w.key) : v = w :=
  List.inj_on_of_nodup_map (walk_keys formed ▸ members_nodup t formed) isV isW same

section Selected

variable (t : RollingFrecencyCritbitTrie) (formed : Formed t) (target : Bytes) (isTarget : target.length = 32)
include formed isTarget

theorem walk_nearer_iff (isV : v ∈ t.trie.walk) (isW : w ∈ t.trie.walk) :
    nearer target v.key w.key = true ↔ ¬ distances target w.key < distances target v.key :=
  nearer_iff isTarget (member_length formed (walk_member formed isV)) (member_length formed (walk_member formed isW))

theorem order_no_mirror (order : StrictWeakApart (fun a b => nearer target a.key b.key) t.trie.walk) : NoMirror t target := by
  intro a isA b isB same
  obtain ⟨v, isV, vKey⟩ := member_walk formed isA
  obtain ⟨w, isW, wKey⟩ := member_walk formed isB
  by_contra different
  have apart : v ≠ w := fun equal => different (by rw [← vKey, ← wKey, equal])
  have forth := (walk_nearer_iff t formed target isTarget isV isW).mpr (by rw [vKey, wKey, same]; exact lt_irrefl _)
  have back := (walk_nearer_iff t formed target isTarget isW isV).mpr (by rw [vKey, wKey, same]; exact lt_irrefl _)
  rw [order.asymmetric v isV w isW apart forth] at back
  cases back

theorem nearer_strict (noMirror : NoMirror t target) (v w : Value) (isV : v ∈ t.trie.walk) (isW : w ∈ t.trie.walk) (apart : v ≠ w) :
    nearer target v.key w.key = decide (distances target v.key < distances target w.key) := by
  have different : distances target v.key ≠ distances target w.key := fun same =>
    apart (walk_same_key formed isV isW (noMirror _ (walk_member formed isV) _ (walk_member formed isW) same))
  rw [Bool.eq_iff_iff, walk_nearer_iff t formed target isTarget isV isW, decide_eq_true_eq, not_lt]
  exact ⟨fun atMost => lt_of_le_of_ne atMost different, le_of_lt⟩

theorem no_mirror_order (noMirror : NoMirror t target) : StrictWeakApart (fun a b => nearer target a.key b.key) t.trie.walk := by
  have strict := nearer_strict t formed target isTarget noMirror
  refine ⟨fun a isA b isB ab less => ?_, fun a isA b isB c isC ab bc ac less less' => ?_, fun a isA b isB c isC ab bc ac no no' => ?_⟩
  · rw [strict a b isA isB ab, decide_eq_true_eq] at less
    rw [strict b a isB isA ab.symm, decide_eq_false_iff_not]
    exact lt_asymm less
  · rw [strict a b isA isB ab, decide_eq_true_eq] at less
    rw [strict b c isB isC bc, decide_eq_true_eq] at less'
    rw [strict a c isA isC ac, decide_eq_true_eq]
    exact less.trans less'
  · rw [strict a b isA isB ab, decide_eq_false_iff_not, not_lt] at no
    rw [strict b a isB isA ab.symm, decide_eq_false_iff_not, not_lt] at no'
    have same := le_antisymm no' no
    exact absurd (walk_same_key formed isA isB (noMirror _ (walk_member formed isA) _ (walk_member formed isB) same)) ab

variable (contract : SortSlice sort)
include contract

theorem neighbors_sorted (noMirror : NoMirror t target) :
    (neighborsBy sort t target).Pairwise fun a b => ¬ distances target b.key < distances target a.key := by
  have nodup : t.trie.walk.Nodup := List.Nodup.of_map Value.key (walk_keys formed ▸ members_nodup t formed)
  have strict : StrictWeakOn (fun a b : Value => decide (distances target a.key < distances target b.key)) t.trie.walk := by
    refine ⟨fun a _ => by simp, fun a _ b _ c _ less less' => ?_, fun a _ b _ c _ no no' other other' => ?_⟩
    · rw [decide_eq_true_eq] at less less' ⊢
      exact less.trans less'
    · rw [decide_eq_false_iff_not, not_lt] at no no' other other' ⊢
      rw [decide_eq_false_iff_not, not_lt]
      exact ⟨other.trans no, no'.trans other'⟩
  rw [neighborsBy, contract.apart _ _ _ nodup fun a isA b isB apart => nearer_strict t formed target isTarget noMirror a b isA isB apart]
  exact (contract.sorted _ _ strict).imp fun {a b} answer => of_decide_eq_false answer

theorem nearest_minimal (noMirror : NoMirror t target) (found : findNearest sort t target = .ok v) :
    v ∈ t.trie.walk ∧ ∀ w ∈ t.trie.walk, ¬ distances target w.key < distances target v.key := by
  have sorted := neighbors_sorted sort t formed target isTarget contract noMirror
  have perm : (neighborsBy sort t target).Perm t.trie.walk := contract.perm _ _
  rw [findNearest, index_ok_iff] at found
  cases listed : neighborsBy sort t target with
  | nil =>
      rw [listed] at found
      cases found
  | cons first rest =>
      rw [listed] at found sorted perm
      cases found
      refine ⟨perm.mem_iff.mp List.mem_cons_self, fun w isW => ?_⟩
      rcases List.mem_cons.mp (perm.mem_iff.mpr isW) with same | later
      · rw [same]
        exact lt_irrefl _
      · exact (List.pairwise_cons.mp sorted).1 w later

omit formed isTarget in
theorem nearest_found (some : t.members ≠ []) : ∃ v, findNearest sort t target = .ok v := by
  have perm : (neighborsBy sort t target).Perm t.trie.walk := contract.perm _ _
  cases listed : neighborsBy sort t target with
  | nil =>
      rw [listed] at perm
      have isNil : t.trie.entries = [] := List.map_eq_nil_iff.mp (List.nil_perm.mp perm)
      exact absurd (by rw [members, isNil, List.map_nil]) some
  | cons first rest => exact ⟨first, by rw [findNearest, listed]; rfl⟩

end Selected

def mirrored : List TrieChange := [.add (0 :: List.replicate 31 0) 1, .add (2 :: List.replicate 31 0) 1]

end RollingFrecencyCritbitTrie

end Ceremony
