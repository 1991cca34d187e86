import CeremonyClient.Crypto.TreeHistory

set_option autoImplicit false

namespace Ceremony

open GoSem PrefixTrie

variable {node : VectorCommitmentNode} {d : Nat} {pre : List (Fin 64)} {sizes : Bytes → Option Int} {t : VectorCommitmentTree}
  {calls : List TreeCall} {key : Bytes} {value : Option Bytes} {hashTarget : Bytes} {size : Int} {fuel : Nat} {after : VectorCommitmentNode}
  {prims : TreePrimitives}

def leafSize (_ : Option Bytes) (_ : Bytes) (size : Option Int) : Int := size.getD 0

def LeafAt : VectorCommitmentNode → Nat → Prop
  | .nil, _ => False
  | .leaf _ _ _ _ _, n => n = 0
  | .branch _ children _ _ _ _, n => ∃ i m, LeafAt (children i) m ∧ n = m + 1

def MetadataRight (t : VectorCommitmentTree) (sizes : Bytes → Option Int) : Prop :=
  ∃ keys : Finset Bytes, (∀ k, k ∈ keys ↔ sizes k ≠ none) ∧ t.getMetadata.1 = keys.card ∧
    (if keys = ∅ then t.getMetadata.2 = 0 else IsGreatest {n | LeafAt t.root n} t.getMetadata.2) ∧
    t.getSize = .ok (some (∑ k ∈ keys, (sizes k).getD 0))

section Totals

def storedKeys : VectorCommitmentNode → Finset Bytes
  | .nil => ∅
  | .leaf key _ _ _ _ => {key}
  | .branch _ children _ _ _ _ => Finset.univ.biUnion fun i => storedKeys (children i)

theorem mem_stored_keys {ν : Type} (view : Option Bytes → Bytes → Option Int → ν) {k : Bytes} :
    k ∈ storedKeys node ↔ ∃ v, Stored (node.trie view) k v := by
  induction node with
  | nil => simp [storedKeys, VectorCommitmentNode.trie, Stored]
  | leaf key value hashTarget commitment size => simp [storedKeys, VectorCommitmentNode.trie, Stored]
  | branch pre children commitment size leafCount longestBranch ih =>
      simp only [storedKeys, Finset.mem_biUnion, Finset.mem_univ, true_and, ih, VectorCommitmentNode.trie, Stored]
      exact exists_comm

theorem stored_keys_disjoint {ν : Type} {view : Option Bytes → Bytes → Option Int → ν} {children : Fin 64 → VectorCommitmentNode}
    (formed : Formed keyDigit d (.branch pre fun i => (children i).trie view)) :
    Set.PairwiseDisjoint ↑(Finset.univ : Finset (Fin 64)) fun i => storedKeys (children i) := by
  intro i _ j _ different
  rw [Function.onFun, Finset.disjoint_left]
  intro k inFirst inSecond
  obtain ⟨v, first⟩ := (mem_stored_keys view).mp inFirst
  obtain ⟨w, second⟩ := (mem_stored_keys view).mp inSecond
  have left := reads_last keyDigit ((formed.2 i).2 k v first)
  have right := reads_last keyDigit ((formed.2 j).2 k w second)
  exact different (left.symm.trans right)

theorem leaves_card {ν : Type} {view : Option Bytes → Bytes → Option Int → ν} (formed : Formed keyDigit d (node.trie view)) :
    node.leaves = (storedKeys node).card := by
  induction node generalizing d with
  | nil => rfl
  | leaf key value hashTarget commitment size => rfl
  | branch pre children commitment size leafCount longestBranch ih =>
      rw [VectorCommitmentNode.leaves, storedKeys, Finset.card_biUnion (stored_keys_disjoint formed)]
      exact Finset.sum_congr rfl fun i _ => ih _ (formed.2 i).1

theorem total_sum (formed : Formed keyDigit d (node.trie leafSize)) (stored : ∀ k v, Stored (node.trie leafSize) k v → sizes k = some v) :
    node.total = ∑ k ∈ storedKeys node, (sizes k).getD 0 := by
  induction node generalizing d with
  | nil => rfl
  | leaf key value hashTarget commitment size =>
      rw [storedKeys, Finset.sum_singleton, stored key (leafSize value hashTarget size) ⟨rfl, rfl⟩]
      rfl
  | branch pre children commitment size leafCount longestBranch ih =>
      rw [VectorCommitmentNode.total, storedKeys, Finset.sum_biUnion (stored_keys_disjoint formed)]
      exact Finset.sum_congr rfl fun i _ => ih _ (formed.2 i).1 fun k v inside => stored k v ⟨i, inside⟩

theorem leaf_at_height (n : Nat) (isLeaf : LeafAt node n) : n ≤ node.height := by
  induction node generalizing n with
  | nil => cases isLeaf
  | leaf key value hashTarget commitment size => exact le_of_eq isLeaf
  | branch pre children commitment size leafCount longestBranch ih =>
      obtain ⟨i, m, below, isNext⟩ := isLeaf
      have bound := ih i m below
      have lower := VectorCommitmentNode.height_child pre children commitment size leafCount longestBranch i
      omega

theorem height_leaf_at {ν : Type} {view : Option Bytes → Bytes → Option Int → ν} (formed : Formed keyDigit d (node.trie view))
    (there : node ≠ .nil) : LeafAt node node.height := by
  induction node generalizing d with
  | nil => exact absurd rfl there
  | leaf key value hashTarget commitment size => rfl
  | branch pre children commitment size leafCount longestBranch ih =>
      obtain ⟨i, -, isSup⟩ := Finset.exists_mem_eq_sup Finset.univ ⟨0, Finset.mem_univ 0⟩ fun i => (children i).height
      rw [VectorCommitmentNode.height, isSup]
      by_cases empty : children i = .nil
      · -- All children are then of height zero, and one of them is a leaf.
        obtain ⟨⟨j, -, -, there, -⟩, each⟩ := formed
        have some_child : children j ≠ .nil := mt (trie_nil_iff view).mpr there
        have low : (children j).height ≤ (children i).height := isSup ▸ Finset.le_sup (f := fun l => (children l).height) (Finset.mem_univ j)
        have zero : (children j).height = (children i).height := by
          rw [empty] at low ⊢
          exact Nat.le_zero.mp low
        exact ⟨j, _, zero ▸ ih _ (each j).1 some_child, rfl⟩
      · exact ⟨i, _, ih _ (formed.2 i).1 empty, rfl⟩

theorem refresh_totals : node.refresh.leaves = node.leaves ∧ node.refresh.height = node.height ∧ node.refresh.total = node.total := by
  induction node with
  | nil => exact ⟨rfl, rfl, rfl⟩
  | leaf key value hashTarget commitment size => exact ⟨rfl, rfl, rfl⟩
  | branch pre children commitment size leafCount longestBranch ih =>
      simp only [VectorCommitmentNode.refresh, VectorCommitmentNode.leaves, VectorCommitmentNode.height, VectorCommitmentNode.total,
        (ih _).1, (ih _).2.1, (ih _).2.2, and_self]

theorem refresh_refresh : node.refresh.refresh = node.refresh := by
  induction node with
  | nil => rfl
  | leaf key value hashTarget commitment size => rfl
  | branch pre children commitment size leafCount longestBranch ih =>
      simp only [VectorCommitmentNode.refresh, ih, refresh_totals.1, refresh_totals.2.1, refresh_totals.2.2]

theorem refreshed_metadata (sized : t.root.Sized) (refreshed : t.root.refresh = t.root) (there : t.root ≠ .nil) :
    t.getMetadata = (t.root.leaves, t.root.height) ∧ t.getSize = .ok (some t.root.total) := by
  rw [VectorCommitmentTree.getMetadata, VectorCommitmentTree.getSize]
  cases isRoot : t.root with
  | nil => exact absurd isRoot there
  | leaf key value hashTarget commitment size =>
      rw [isRoot] at sized
      obtain ⟨s, isSize⟩ := sized
      rw [isSize]
      exact ⟨rfl, rfl⟩
  | branch pre children commitment size leafCount longestBranch =>
      rw [isRoot, VectorCommitmentNode.refresh] at refreshed
      injection refreshed with _ _ _ isSize isCount isLongest
      rw [← isSize, ← isCount, ← isLongest]
      exact ⟨rfl, rfl⟩

theorem refreshed_right (represents : Represents leafSize t sizes) (refreshed : t.root.refresh = t.root) (there : t.root ≠ .nil) :
    MetadataRight t sizes := by
  obtain ⟨isMetadata, isSize⟩ := refreshed_metadata represents.sized refreshed there
  have isKey : ∀ k, k ∈ storedKeys t.root ↔ sizes k ≠ none := by
    intro k
    rw [mem_stored_keys leafSize, Option.ne_none_iff_exists']
    exact exists_congr fun v => represents.stored k v
  obtain ⟨k, v, stored⟩ := formed_stored keyDigit represents.formed (mt (trie_nil_iff leafSize).mp there)
  have some_key : storedKeys t.root ≠ ∅ := Finset.ne_empty_of_mem ((mem_stored_keys leafSize).mpr ⟨v, stored⟩)
  refine ⟨storedKeys t.root, isKey, ?_, ?_, ?_⟩
  · rw [isMetadata]
    exact leaves_card represents.formed
  · rw [if_neg some_key, isMetadata]
    exact ⟨height_leaf_at represents.formed there, fun n => leaf_at_height n⟩
  · rw [isSize, total_sum represents.formed fun k v => (represents.stored k v).mp]

end Totals

def LeavesShared (sizes : Bytes → Option Int) (key : Bytes) : Prop :=
  ∃ n k, sizes k ≠ none ∧ keyDigit key n ≠ keyDigit k n ∧ ∀ other, sizes other ≠ none → ∀ m, m ≤ n → keyDigit other m = keyDigit k m

-- The second key came last, or only deletions since then that did not get past the prefix of the root.
inductive Stale : List TreeCall → Prop where
  | split (calls : List TreeCall) (key : Bytes) (value : Option Bytes) (hashTarget : Bytes) (size : Int) (other : Bytes)
      (only : ∀ k, mapAfter leafSize calls k ≠ none ↔ k = other) (different : other ≠ key) :
      Stale (calls ++ [.insert key value hashTarget size])
  | astray (calls : List TreeCall) (key : Bytes) (stale : Stale calls) (leaves : LeavesShared (mapAfter leafSize calls) key) :
      Stale (calls ++ [.delete key])

theorem stale_insert_iff :
    Stale (calls ++ [.insert key value hashTarget size]) ↔ ∃ other, (∀ k, mapAfter leafSize calls k ≠ none ↔ k = other) ∧ other ≠ key := by
  constructor
  · intro stale
    generalize isAll : calls ++ [TreeCall.insert key value hashTarget size] = all at stale
    cases stale with
    | split before key' value' hashTarget' size' other only different =>
        obtain ⟨isBefore, isCall⟩ := List.append_inj' isAll rfl
        cases isCall
        rw [← isBefore] at only
        exact ⟨other, only, different⟩
    | astray before key' stale leaves => cases (List.append_inj' isAll rfl).2
  · intro found
    obtain ⟨other, only, different⟩ := found
    exact .split calls key value hashTarget size other only different

theorem stale_delete_iff : Stale (calls ++ [.delete key]) ↔ Stale calls ∧ LeavesShared (mapAfter leafSize calls) key := by
  constructor
  · intro stale
    generalize isAll : calls ++ [TreeCall.delete key] = all at stale
    cases stale with
    | split before key' value' hashTarget' size' other only different => cases (List.append_inj' isAll rfl).2
    | astray before key' stale leaves =>
        obtain ⟨isBefore, isCall⟩ := List.append_inj' isAll rfl
        cases isCall
        rw [isBefore]
        exact ⟨stale, leaves⟩
  · exact fun both => .astray calls key both.1 both.2

theorem represents_present (represents : Represents leafSize t sizes) (k : Bytes) :
    sizes k ≠ none ↔ ∃ v, Stored (t.root.trie leafSize) k v := by
  rw [Option.ne_none_iff_exists']
  exact exists_congr fun v => (represents.stored k v).symm

theorem leaves_shared_iff (represents : Represents leafSize t sizes) {children : Fin 64 → Node Bytes Int (Fin 64)}
    (isRoot : t.root.trie leafSize = .branch pre children) : LeavesShared sizes key ↔ ¬ Reads keyDigit key 0 pre := by
  have formed := represents.formed
  have present := represents_present represents
  rw [isRoot] at formed
  simp only [isRoot] at present
  have readsPre : ∀ k, sizes k ≠ none → Reads keyDigit k 0 pre := by
    intro k there
    obtain ⟨v, stored⟩ := (present k).mp there
    exact (branch_reads keyDigit 0 pre formed k v stored).1
  have sameAt : ∀ k other, Reads keyDigit k 0 pre → Reads keyDigit other 0 pre → ∀ m, m < pre.length → keyDigit k m = keyDigit other m := by
    intro k other left right m inside
    rw [← Nat.zero_add m, reads_at keyDigit inside left, reads_at keyDigit inside right]
  constructor
  · intro leaves reads
    obtain ⟨n, k, there, differ, shared⟩ := leaves
    have short : n < pre.length := by
      obtain ⟨a, v, b, w, aStored, bStored, -, apart⟩ := branch_two_keys keyDigit formed
      by_contra long
      have left := shared a ((present a).mpr ⟨v, aStored⟩) (0 + pre.length) (by omega)
      have right := shared b ((present b).mpr ⟨w, bStored⟩) (0 + pre.length) (by omega)
      exact apart (left.trans right.symm)
    exact differ (sameAt key k reads (readsPre k there) n short)
  · intro astray
    cases found : VectorCommitmentNode.mismatch key (6 * 0) pre with
    | none => exact absurd ((mismatch_none_iff key 0 pre).mp found) astray
    | some i =>
        obtain ⟨front, x, back, isPre, length, -, differ⟩ := mismatch_some found
        have inside : i < pre.length := by
          rw [isPre, List.length_append, List.length_cons]
          omega
        obtain ⟨k, v, stored⟩ := formed_stored keyDigit formed (by simp)
        have there := (present k).mpr ⟨v, stored⟩
        have atPlace := reads_at keyDigit inside (readsPre k there)
        refine ⟨i, k, there, ?_, fun other otherThere m low => sameAt other k (readsPre other otherThere) (readsPre k there) m (by omega)⟩
        rw [Nat.zero_add] at differ atPlace
        rw [atPlace]
        simpa [isPre, ← length] using differ

def Raw (node : VectorCommitmentNode) : Prop := ∃ pre children commitment, node = .branch pre children commitment none 0 0

theorem raw_not_refreshed (raw : Raw node) : node.refresh ≠ node := by
  obtain ⟨pre, children, commitment, isRaw⟩ := raw
  rw [isRaw, VectorCommitmentNode.refresh]
  intro same
  injection same with _ _ _ isSize
  cases isSize

theorem insert_metadata (sized : node.Sized) (ran : node.insert fuel key value hashTarget (some size) (6 * 0) = .ok after) :
    (after.refresh = after ∧ ¬ ∃ k v, node.trie leafSize = .leaf k v ∧ k ≠ key) ∨
      (Raw after ∧ ∃ k v, node.trie leafSize = .leaf k v ∧ k ≠ key) := by
  cases node with
  | nil =>
      cases ran
      exact .inl ⟨rfl, by simp [VectorCommitmentNode.trie]⟩
  | leaf k v h c s =>
      rw [VectorCommitmentNode.insert] at ran
      by_cases same : k = key
      · rw [if_pos same] at ran
        cases ran
        refine .inl ⟨rfl, ?_⟩
        simp [VectorCommitmentNode.trie, same]
      · rw [if_neg same] at ran
        obtain ⟨shared, -, ran⟩ := (bind_ok_iff _ _ _).mp ran
        cases ran
        exact .inr ⟨⟨_, _, _, rfl⟩, k, leafSize v h s, rfl, same⟩
  | branch pre children c s leafCount longestBranch =>
      refine .inl ⟨?_, by simp [VectorCommitmentNode.trie]⟩
      cases insert_branch fuel key value hashTarget size pre children c s leafCount longestBranch 0 sized with
      | inl forked =>
          obtain ⟨front, x, back, -, -, -, isResult⟩ := forked
          rw [isResult] at ran
          cases ran
          exact refresh_refresh
      | inr descended =>
          rw [descended.2] at ran
          obtain ⟨child, inserted, ran⟩ := (bind_ok_iff _ _ _).mp ran
          have childSized := (insert_trie leafSize fuel key value hashTarget size _ child _ (sized _) inserted).2
          have nextSized : (VectorCommitmentNode.branch pre (Function.update children (keyDigit key (0 + pre.length)) child) none s
              leafCount longestBranch).Sized := sized_update children sized _ child childSized
          rw [recalc_sized nextSized] at ran
          cases ran
          exact refresh_refresh

theorem remove_metadata (sized : node.Sized) (ran : node.remove key (6 * 0) = .ok after) (before : node.refresh = node ∨ Raw node) :
    (after.refresh = after ∧ (node.refresh = node ∨ ∃ pre children, node.trie leafSize = .branch pre children ∧ Reads keyDigit key 0 pre)) ∨
      (Raw after ∧ Raw node ∧ ∃ pre children, node.trie leafSize = .branch pre children ∧ ¬ Reads keyDigit key 0 pre) := by
  cases node with
  | nil =>
      cases ran
      exact .inl ⟨rfl, .inl rfl⟩
  | leaf k v h c s =>
      rw [VectorCommitmentNode.remove] at ran
      by_cases same : k = key
      · rw [if_pos same] at ran
        cases ran
        exact .inl ⟨rfl, .inl rfl⟩
      · rw [if_neg same] at ran
        cases ran
        exact .inl ⟨rfl, .inl rfl⟩
  | branch pre children c s leafCount longestBranch =>
      cases remove_branch key pre children c s leafCount longestBranch 0 sized with
      | inl astray =>
          cases astray.2.symm.trans ran
          cases before with
          | inl refreshed => exact .inl ⟨refreshed, .inl refreshed⟩
          | inr raw => exact .inr ⟨raw, raw, pre, _, rfl, astray.1⟩
      | inr descended =>
          obtain ⟨reads, child, removed, isResult⟩ := descended
          cases isResult.symm.trans ran
          exact .inl ⟨refresh_refresh, .inr ⟨pre, _, rfl, reads⟩⟩

def TreeCall.Edits : TreeCall → Prop
  | .insert _ _ _ _ => True
  | .delete _ => True
  | _ => False

def MetadataKept (calls : List TreeCall) (t : VectorCommitmentTree) : Prop :=
  (¬ Stale calls ∧ t.root.refresh = t.root) ∨ (Stale calls ∧ Raw t.root)

theorem only_key_iff (represents : Represents leafSize t sizes) :
    (∃ other, (∀ k, sizes k ≠ none ↔ k = other) ∧ other ≠ key) ↔ ∃ k v, t.root.trie leafSize = .leaf k v ∧ k ≠ key := by
  have present := represents_present represents
  constructor
  · intro found
    obtain ⟨other, only, different⟩ := found
    obtain ⟨v, stored⟩ := (present other).mp ((only other).mpr rfl)
    refine ⟨other, v, ?_, different⟩
    apply canonical keyDigit 0 (.leaf other v) represents.formed trivial
    intro k w
    refine ⟨fun here => ?_, fun here => ?_⟩
    · have isOther := (only k).mp ((present k).mpr ⟨w, here⟩)
      rw [isOther] at here
      exact ⟨isOther, stored_unique keyDigit represents.formed here stored⟩
    · rw [here.1, here.2]
      exact stored
  · intro found
    obtain ⟨other, v, isLeaf, different⟩ := found
    refine ⟨other, fun k => ?_, different⟩
    rw [present, isLeaf]
    simp [Stored]

theorem step_metadata {call : TreeCall} {after : VectorCommitmentTree} (edits : call.Edits)
    (represents : Represents leafSize t (mapAfter leafSize calls)) (kept : MetadataKept calls t) (ran : call.on prims fuel t = .ok after) :
    MetadataKept (calls ++ [call]) after := by
  cases call with
  | insert key value hashTarget size =>
      obtain ⟨-, -, ran⟩ := (bind_ok_iff _ _ _).mp ran
      obtain ⟨root, inserted, ran⟩ := (bind_ok_iff _ _ _).mp ran
      cases ran
      rw [MetadataKept, stale_insert_iff, only_key_iff represents]
      exact (insert_metadata represents.sized inserted).imp And.symm And.symm
  | delete key =>
      obtain ⟨-, -, ran⟩ := (bind_ok_iff _ _ _).mp ran
      obtain ⟨root, removed, ran⟩ := (bind_ok_iff _ _ _).mp ran
      cases ran
      rw [MetadataKept, stale_delete_iff]
      cases remove_metadata represents.sized removed (kept.imp And.right And.right) with
      | inl refreshed =>
          refine .inl ⟨fun stale => ?_, refreshed.1⟩
          cases refreshed.2 with
          | inl whole => exact raw_not_refreshed (kept.resolve_left fun fine => fine.1 stale.1).2 whole
          | inr reached =>
              obtain ⟨pre, children, isRoot, reads⟩ := reached
              exact (leaves_shared_iff represents isRoot).mp stale.2 reads
      | inr raw =>
          obtain ⟨rawAfter, rawBefore, pre, children, isRoot, astray⟩ := raw
          refine .inr ⟨⟨?_, (leaves_shared_iff represents isRoot).mpr astray⟩, rawAfter⟩
          by_contra fresh
          exact raw_not_refreshed rawBefore (kept.resolve_right fun stale => fresh stale.1).2
  | commit recalculate => cases edits
  | prove key => cases edits
  | verify key proofs => cases edits

theorem run_metadata (edits : ∀ call ∈ calls, call.Edits) (ran : runTree prims fuel calls emptyTree = .ok t) : MetadataKept calls t := by
  induction calls using List.reverseRecOn generalizing t with
  | nil =>
      cases ran
      refine .inl ⟨fun stale => ?_, rfl⟩
      generalize isAll : ([] : List TreeCall) = all at stale
      cases stale <;> simp at isAll
  | append_singleton calls call ih =>
      obtain ⟨between, ranBefore, ranCall⟩ := run_tree_append.mp ran
      exact step_metadata (edits call (by simp)) (run_represents leafSize prims fuel calls between ranBefore).1
        (ih (fun call member => edits call (List.mem_append_left _ member)) ranBefore) ranCall

theorem metadata_right_iff (prims : TreePrimitives) (fuel length : Nat) (calls : List TreeCall) (positive : 0 < length)
    (edits : ∀ call ∈ calls, call.Edits) (keyed : ∀ call ∈ calls, call.Keyed (·.length = length)) (enough : 8 * length ≤ 6 * fuel) :
    ∃ t, runTree prims fuel calls emptyTree = .ok t ∧
      (MetadataRight t (mapAfter leafSize calls) ↔ (∃ k, mapAfter leafSize calls k ≠ none) ∧ ¬ Stale calls) := by
  obtain ⟨t, ran⟩ := run_returns_length positive keyed enough
  obtain ⟨represents, -⟩ := run_represents leafSize prims fuel calls t ran
  refine ⟨t, ran, fun right => ?_, fun condition => ?_⟩
  · obtain ⟨keys, isKey, -, -, isSize⟩ := right
    rw [VectorCommitmentTree.getSize] at isSize
    constructor
    · have there : t.root ≠ .nil := by
        intro empty
        rw [empty] at isSize
        cases isSize
      obtain ⟨k, v, stored⟩ := formed_stored keyDigit represents.formed (mt (trie_nil_iff leafSize).mp there)
      exact ⟨k, (represents_present represents k).mpr ⟨v, stored⟩⟩
    · intro stale
      obtain ⟨pre, children, commitment, isRaw⟩ := ((run_metadata edits ran).resolve_left fun fine => fine.1 stale).2
      rw [isRaw] at isSize
      cases isSize
  · obtain ⟨⟨k, there⟩, fresh⟩ := condition
    have refreshed := ((run_metadata edits ran).resolve_right fun stale => fresh stale.1).2
    apply refreshed_right represents refreshed
    intro empty
    obtain ⟨v, stored⟩ := (represents_present represents k).mp there
    rw [empty] at stored
    cases stored

theorem metadata_right_three :
    ∃ t, runTree plainPrimitives 2 [.insert [1] (some [5]) [] 1, .insert [2] (some [6]) [] 1, .insert [3] (some [7]) [] 1] emptyTree = .ok t ∧
      (MetadataRight t (mapAfter leafSize [.insert [1] (some [5]) [] 1, .insert [2] (some [6]) [] 1, .insert [3] (some [7]) [] 1]) ↔
        (∃ k, mapAfter leafSize [.insert [1] (some [5]) [] 1, .insert [2] (some [6]) [] 1, .insert [3] (some [7]) [] 1] k ≠ none) ∧
          ¬ Stale [.insert [1] (some [5]) [] 1, .insert [2] (some [6]) [] 1, .insert [3] (some [7]) [] 1]) :=
  metadata_right_iff plainPrimitives 2 1 _ (by decide) (by simp [TreeCall.Edits]) (by simp [TreeCall.Keyed]) (by decide)

theorem split_root_metadata_missing :
    ∃ t, runTree plainPrimitives 2 [.insert [1] (some [5]) [] 1, .insert [2] (some [6]) [] 1] emptyTree = .ok t ∧
      t.getMetadata = (0, 0) ∧ t.getSize = .ok none ∧
      ¬ MetadataRight t (mapAfter leafSize [.insert [1] (some [5]) [] 1, .insert [2] (some [6]) [] 1]) := by
  refine ⟨_, rfl, rfl, rfl, fun right => ?_⟩
  obtain ⟨keys, -, -, -, isSize⟩ := right
  cases isSize

end Ceremony
