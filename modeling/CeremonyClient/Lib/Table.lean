import Mathlib.Data.FinEnum
import Mathlib.Data.List.AList
import Mathlib.Tactic

set_option autoImplicit false

namespace GoSem

-- A key space of an ordered key-value store.
abbrev Table (κ α : Type) := AList fun _ : κ => α

namespace Table

variable {κ α : Type} [DecidableEq κ]

-- The entries an iterator with an inclusive lower and an exclusive upper bound visits.
def range [LT κ] [DecidableLT κ] (table : Table κ α) (low high : κ) : List (κ × α) :=
  ((table.entries.filter fun entry => decide (¬ entry.1 < low ∧ entry.1 < high)).map fun entry => (entry.1, entry.2)).insertionSort
    fun left right => ¬ right.1 < left.1

section Ordered

variable [LT κ] [DecidableLT κ]

theorem mem_range (table : Table κ α) (low high key : κ) (value : α) :
    (key, value) ∈ range table low high ↔ table.lookup key = some value ∧ ¬ key < low ∧ key < high := by
  rw [range, List.mem_insertionSort, List.mem_map]
  constructor
  · intro visited
    obtain ⟨⟨entryKey, entryValue⟩, kept, same⟩ := visited
    cases same
    obtain ⟨inside, bounds⟩ := List.mem_filter.mp kept
    exact ⟨AList.mem_lookup_iff.mpr inside, of_decide_eq_true bounds⟩
  · intro found
    obtain ⟨stored, bounds⟩ := found
    exact ⟨⟨key, value⟩, List.mem_filter.mpr ⟨AList.mem_lookup_iff.mp stored, decide_eq_true bounds⟩, rfl⟩

omit [DecidableEq κ] in
theorem range_ordered {table : Table κ α} {low high : κ} (total : ∀ a b : κ, ¬ b < a ∨ ¬ a < b)
    (trans : ∀ a b c : κ, ¬ b < a → ¬ c < b → ¬ c < a) : (range table low high).Pairwise fun left right => ¬ right.1 < left.1 := by
  have isTotal : Std.Total fun left right : κ × α => ¬ right.1 < left.1 := ⟨fun left right => total left.1 right.1⟩
  have isTrans : IsTrans (κ × α) fun left right => ¬ right.1 < left.1 := ⟨fun a b c => trans a.1 b.1 c.1⟩
  exact List.pairwise_insertionSort _ _

omit [DecidableEq κ] in
theorem range_nodup (table : Table κ α) (low high : κ) : (range table low high).Nodup := by
  rw [range]
  apply (List.perm_insertionSort _ _).nodup_iff.mpr
  have distinct : table.entries.Nodup := List.NodupKeys.nodup table.nodupKeys
  apply List.Nodup.map _ (distinct.filter _)
  intro left right same
  obtain ⟨sameKey, sameValue⟩ := Prod.mk.inj same
  exact Sigma.ext sameKey (heq_of_eq sameValue)

end Ordered

theorem foldl_insert_last {β : Type} (key : β → κ) (value : β → α) (before : β → β → Prop) (items : List β) (ordered : items.Pairwise before)
    (table : Table κ α) (last : β) (inside : last ∈ items) (isLast : ∀ item ∈ items, key item = key last → before last item → item = last) :
    (items.foldl (fun table item => table.insert (key item) (value item)) table).lookup (key last) = some (value last) := by
  induction items using List.reverseRecOn with
  | nil => cases inside
  | append_singleton items item ih =>
      rw [List.foldl_append, List.foldl_cons, List.foldl_nil]
      obtain ⟨orderedFront, -, across⟩ := List.pairwise_append.mp ordered
      by_cases same : key item = key last
      · have isItem : item = last := by
          rcases List.mem_append.mp inside with earlier | isSingle
          · exact isLast item (by simp) same (across last earlier item (by simp))
          · exact (List.mem_singleton.mp isSingle).symm
        rw [isItem, AList.lookup_insert]
      · have earlier : last ∈ items := by
          rcases List.mem_append.mp inside with earlier | isSingle
          · exact earlier
          · rw [List.mem_singleton.mp isSingle] at same
            exact absurd rfl same
        rw [AList.lookup_insert_ne (Ne.symm same)]
        exact ih orderedFront earlier fun other member => isLast other (List.mem_append_left _ member)

theorem foldl_insert_other {β : Type} (key : β → κ) (value : β → α) (items : List β) (table : Table κ α) (other : κ)
    (apart : ∀ item ∈ items, key item ≠ other) :
    (items.foldl (fun table item => table.insert (key item) (value item)) table).lookup other = table.lookup other := by
  induction items generalizing table with
  | nil => rfl
  | cons item rest ih =>
      obtain ⟨first, later⟩ := List.forall_mem_cons.mp apart
      rw [List.foldl_cons, ih _ later, AList.lookup_insert_ne first.symm]

variable {table : Table κ α}

theorem foldl_insert_source {β : Type} {key : β → κ} {value : β → α} {items : List β} {other : κ} {found : α}
    (isFound : (items.foldl (fun table item => table.insert (key item) (value item)) table).lookup other = some found) :
    table.lookup other = some found ∨ ∃ item ∈ items, value item = found := by
  induction items generalizing table with
  | nil => exact .inl isFound
  | cons item rest ih =>
      cases ih isFound with
      | inl inTable =>
          by_cases same : other = key item
          · rw [same, AList.lookup_insert] at inTable
            exact .inr ⟨item, List.mem_cons_self, Option.some.inj inTable⟩
          · rw [AList.lookup_insert_ne same] at inTable
            exact .inl inTable
      | inr later =>
          obtain ⟨source, inside, isValue⟩ := later
          exact .inr ⟨source, List.mem_cons_of_mem _ inside, isValue⟩

def weigh (weight : α → Nat) (table : Table κ α) : Nat := (table.entries.map fun entry => weight entry.2).sum

theorem weigh_insert (weight : α → Nat) {key : κ} (value : α) (fresh : key ∉ table) :
    weigh weight (table.insert key value) = weight value + weigh weight table := by
  rw [weigh, AList.entries_insert_of_notMem fresh, List.map_cons, List.sum_cons, weigh]

theorem weigh_erase (weight : α → Nat) (table : Table κ α) (key : κ) (value : α) (found : table.lookup key = some value) :
    weigh weight table = weight value + weigh weight (table.erase key) := by
  have present : key ∈ table.keys := AList.mem_keys.mp (AList.lookup_isSome.mp (by rw [found]; rfl))
  obtain ⟨stored, front, back, absent, whole, rest⟩ := List.exists_of_kerase present
  have same : stored = value := by
    rw [AList.lookup, whole, List.dlookup_append, List.dlookup_eq_none.mpr absent] at found
    simpa using found
  change (table.entries.map _).sum = weight value + ((table.entries.kerase key).map _).sum
  rw [rest, whole, same]
  simp only [List.map_append, List.map_cons, List.sum_append, List.sum_cons]
  omega

inductive Change (κ α : Type) where
  | put (key : κ) (value : α)
  | erase (key : κ)

def change (table : Table κ α) : Change κ α → Table κ α
  | .put key value => table.insert key value
  | .erase key => table.erase key

def run (changes : List (Change κ α)) (table : Table κ α) : Table κ α := changes.foldl change table

def Change.written : Change κ α → Option (κ × α)
  | .put key value => some (key, value)
  | .erase _ => none

def Change.erased : Change κ α → Option κ
  | .put _ _ => none
  | .erase key => some key

def writes (changes : List (Change κ α)) : List (κ × α) := changes.filterMap Change.written

def erasures (changes : List (Change κ α)) : List κ := changes.filterMap Change.erased

theorem lookup_run_other (changes : List (Change κ α)) (table : Table κ α) (key : κ)
    (unwritten : key ∉ (writes changes).map Prod.fst) (kept : key ∉ erasures changes) :
    (run changes table).lookup key = table.lookup key := by
  induction changes generalizing table with
  | nil => rfl
  | cons first tail ih =>
      cases first with
      | put other value =>
          rw [writes, List.filterMap_cons, Change.written, List.map_cons, List.mem_cons, not_or] at unwritten
          exact (ih _ unwritten.2 kept).trans (AList.lookup_insert_ne unwritten.1)
      | erase other =>
          rw [erasures, List.filterMap_cons, Change.erased, List.mem_cons, not_or] at kept
          exact (ih _ unwritten kept.2).trans (AList.lookup_erase_ne kept.1)

theorem lookup_run_written {changes : List (Change κ α)} {key : κ} {value : α}
    (distinct : ((writes changes).map Prod.fst).Nodup) (kept : erasures changes = []) (written : (key, value) ∈ writes changes) :
    (run changes table).lookup key = some value := by
  induction changes generalizing table with
  | nil => cases written
  | cons first tail ih =>
      cases first with
      | put other stored =>
          rw [writes, List.filterMap_cons, Change.written, List.map_cons, List.nodup_cons] at distinct
          rcases List.mem_cons.mp written with same | later
          · obtain ⟨sameKey, sameValue⟩ := Prod.mk.inj same
            rw [← sameKey] at distinct
            change (run tail (table.insert other stored)).lookup key = some value
            rw [lookup_run_other tail _ key distinct.1 (by rw [show erasures tail = [] from kept]; simp), sameKey, sameValue, AList.lookup_insert]
          · exact ih distinct.2 kept later
      | erase other => cases kept

def weightAt (weight : α → Nat) (table : Table κ α) (key : κ) : Nat := ((table.lookup key).map weight).getD 0

theorem weight_at_congr (weight : α → Nat) {other : Table κ α} (table : Table κ α) {keys : List κ}
    (same : ∀ key ∈ keys, other.lookup key = table.lookup key) :
    (keys.map (weightAt weight other)).sum = (keys.map (weightAt weight table)).sum := by
  rw [List.map_congr_left fun key member => by rw [weightAt, same key member, ← weightAt]]

theorem weigh_run (weight : α → Nat) (changes : List (Change κ α)) (table : Table κ α)
    (distinctPut : ((writes changes).map Prod.fst).Nodup) (fresh : ∀ key ∈ (writes changes).map Prod.fst, key ∉ table)
    (distinctErased : (erasures changes).Nodup) (stored : ∀ key ∈ erasures changes, key ∈ table) :
    weigh weight (run changes table) + ((erasures changes).map (weightAt weight table)).sum =
      weigh weight table + ((writes changes).map fun entry => weight entry.2).sum := by
  induction changes generalizing table with
  | nil => rfl
  | cons first tail ih =>
      cases first with
      | put key value =>
          have unused : key ∉ (writes tail).map Prod.fst := (List.nodup_cons.mp distinctPut).1
          have absent : key ∉ table := fresh key List.mem_cons_self
          have apart : ∀ other ∈ erasures tail, other ≠ key := fun other member same => absent (same ▸ stored other member)
          have rest := ih (table.insert key value) (List.nodup_cons.mp distinctPut).2
            (fun other member present => by
              rcases (AList.mem_insert table).mp present with same | old
              · exact unused (same ▸ member)
              · exact fresh other (List.mem_cons_of_mem _ member) old)
            distinctErased (fun other member => (AList.mem_insert table).mpr (Or.inr (stored other member)))
          rw [weigh_insert weight value absent,
            weight_at_congr weight table fun other member => AList.lookup_insert_ne (apart other member)] at rest
          have total : ((writes (.put key value :: tail)).map fun entry => weight entry.2).sum =
              weight value + ((writes tail).map fun entry => weight entry.2).sum := rfl
          rw [total]
          change weigh weight (run tail (table.insert key value)) + ((erasures tail).map (weightAt weight table)).sum = _
          omega
      | erase key =>
          have unused : key ∉ erasures tail := (List.nodup_cons.mp distinctErased).1
          obtain ⟨value, found⟩ := Option.isSome_iff_exists.mp (AList.lookup_isSome.mpr (stored key List.mem_cons_self))
          have apart : ∀ other ∈ erasures tail, other ≠ key := fun other member same => unused (same ▸ member)
          have rest := ih (table.erase key) distinctPut
            (fun other member present => fresh other member (AList.mem_erase.mp present).2)
            (List.nodup_cons.mp distinctErased).2
            (fun other member => AList.mem_erase.mpr ⟨apart other member, stored other (List.mem_cons_of_mem _ member)⟩)
          rw [weight_at_congr weight table fun other member => AList.lookup_erase_ne (apart other member)] at rest
          have before := weigh_erase weight table key value found
          have atKey : weightAt weight table key = weight value := by rw [weightAt, found]; rfl
          have total : ((erasures (.erase key :: tail)).map (weightAt weight table)).sum =
              weight value + ((erasures tail).map (weightAt weight table)).sum := by rw [← atKey]; rfl
          rw [total]
          change weigh weight (run tail (table.erase key)) + _ = weigh weight table + ((writes tail).map _).sum
          omega

structure Listed (table : Table κ α) (order : List κ) : Prop where
  distinct : order.Nodup
  same : ∀ key, key ∈ order ↔ key ∈ table

omit [DecidableEq κ] in
theorem listed_empty : Listed (∅ : Table κ α) [] :=
  ⟨List.nodup_nil, fun key => by simp⟩

variable {order : List κ}

omit [DecidableEq κ] in
theorem Listed.length (listed : Listed table order) : order.length = table.keys.length := by
  apply List.Perm.length_eq
  rw [List.perm_ext_iff_of_nodup listed.distinct table.keys_nodup]
  intro key
  rw [listed.same, AList.mem_keys]

theorem Listed.add (listed : Listed table order) {key : κ} {value : α} (fresh : key ∉ table) :
    Listed (table.insert key value) (order ++ [key]) := by
  constructor
  · rw [List.nodup_append]
    refine ⟨listed.distinct, List.nodup_singleton key, fun first isFirst second isSecond same => ?_⟩
    rw [List.mem_singleton.mp isSecond] at same
    exact fresh ((listed.same key).mp (same ▸ isFirst))
  · intro other
    rw [List.mem_append, List.mem_singleton, AList.mem_insert, listed.same, or_comm]

theorem Listed.replace (listed : Listed table order) {key : κ} {value : α} (present : key ∈ table) :
    Listed (table.insert key value) order := by
  refine ⟨listed.distinct, fun other => ?_⟩
  rw [AList.mem_insert, listed.same]
  exact ⟨.inr, fun either => either.elim (fun same => same ▸ present) id⟩

theorem Listed.remove [BEq κ] [LawfulBEq κ] (listed : Listed table order) (key : κ) :
    Listed (table.erase key) (order.erase key) := by
  refine ⟨listed.distinct.erase key, fun other => ?_⟩
  rw [listed.distinct.mem_erase_iff, AList.mem_erase, listed.same]

theorem Listed.remove_first {first : κ} {rest : List κ} (listed : Listed table (first :: rest)) :
    Listed (table.erase first) rest := by
  have removed := listed.remove first
  rwa [List.erase_cons_head] at removed

end Table

end GoSem
