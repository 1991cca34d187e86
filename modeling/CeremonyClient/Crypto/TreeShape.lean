import CeremonyClient.Crypto.ProofTree
import CeremonyClient.Lib.PrefixTrie

set_option autoImplicit false

namespace Ceremony

open GoSem PrefixTrie

variable {items : List (Fin 64)} {node : VectorCommitmentNode} {key : Bytes} {d fuel : Nat} {i j : Fin 64}
  {first second : VectorCommitmentNode}

def keyDigit (key : Bytes) (n : Nat) : Fin 64 := nibble key (6 * n)

namespace VectorCommitmentNode

def Sized : VectorCommitmentNode → Prop
  | .nil => True
  | .leaf _ _ _ _ size => ∃ s, size = some s
  | .branch _ children _ _ _ _ => ∀ i, Sized (children i)

def leaves : VectorCommitmentNode → Nat
  | .nil => 0
  | .leaf _ _ _ _ _ => 1
  | .branch _ children _ _ _ _ => ∑ i, leaves (children i)

def total : VectorCommitmentNode → Int
  | .nil => 0
  | .leaf _ _ _ _ size => size.getD 0
  | .branch _ children _ _ _ _ => ∑ i, total (children i)

def refresh : VectorCommitmentNode → VectorCommitmentNode
  | .nil => .nil
  | .leaf key value hashTarget commitment size => .leaf key value hashTarget commitment size
  | .branch pre children commitment _ _ _ =>
      .branch pre (fun i => refresh (children i)) commitment (some (∑ i, total (children i))) (∑ i, leaves (children i))
        ((Finset.univ.sup fun i => height (children i)) + 1)

end VectorCommitmentNode

theorem foldl_max {each : Fin 64 → Nat} {start : Nat} :
    items.foldl (fun deepest i => max deepest (each i)) start = max start (items.toFinset.sup each) := by
  induction items generalizing start with
  | nil => simp
  | cons i rest ih => rw [List.foldl_cons, ih, List.toFinset_cons, Finset.sup_insert, max_assoc]

theorem fold_sizes {each : Fin 64 → VectorCommitmentNode × Nat × Nat × Option Int} {sizes : Fin 64 → Int}
    (sized : ∀ i, (each i).2.2.2 = some (sizes i)) {start : Int} :
    (items.map each).foldlM (fun total child => do return total + (← deref child.2.2.2)) start =
      (.ok (start + (items.map sizes).sum) : Go Int) := by
  induction items generalizing start with
  | nil => rw [List.map_nil, List.map_nil, List.sum_nil, add_zero]; rfl
  | cons i rest ih =>
      rw [List.map_cons, List.foldlM_cons, sized i]
      change List.foldlM _ (start + sizes i) _ = _
      rw [ih, List.map_cons, List.sum_cons, add_assoc]

theorem recalc_sized (sized : node.Sized) : node.recalcMetadata = .ok (node.refresh, node.leaves, node.height, some node.total) := by
  induction node with
  | nil => rfl
  | leaf key value hashTarget commitment size =>
      obtain ⟨s, isSize⟩ := sized
      rw [isSize]
      rfl
  | branch pre children commitment size leafCount longestBranch ih =>
      have children_done := map_m_fin_range.mpr ⟨_, fun i => ih i (sized i), rfl⟩
      rw [VectorCommitmentNode.recalcMetadata, children_done, ok_bind]
      simp only []
      rw [fold_sizes (fun i => rfl), ok_bind, List.foldl_map, foldl_max]
      simp only [VectorCommitmentNode.refresh, VectorCommitmentNode.leaves, VectorCommitmentNode.height, VectorCommitmentNode.total,
        List.map_map, Function.comp_def, Fin.sum_univ_def, zero_add, List.toFinset_finRange]
      simp [pure, Except.pure]

section Shape

variable {ν : Type} (view : Option Bytes → Bytes → Option Int → ν)

def VectorCommitmentNode.trie : VectorCommitmentNode → Node Bytes ν (Fin 64)
  | .nil => .nil
  | .leaf key value hashTarget _ size => .leaf key (view value hashTarget size)
  | .branch pre children _ _ _ _ => .branch pre fun i => (children i).trie

theorem trie_nil_iff : node.trie view = .nil ↔ node = .nil := by
  cases node <;> simp [VectorCommitmentNode.trie]

theorem mismatch_none_iff (key : Bytes) (d : Nat) (pre : List (Fin 64)) :
    VectorCommitmentNode.mismatch key (6 * d) pre = none ↔ Reads keyDigit key d pre := by
  induction pre generalizing d with
  | nil => simp [VectorCommitmentNode.mismatch, Reads]
  | cons x rest ih =>
      have later := ih (d + 1)
      rw [Nat.mul_add, Nat.mul_one] at later
      by_cases same : nibble key (6 * d) = x
      · simp [VectorCommitmentNode.mismatch, Reads, keyDigit, same, later]
      · simp [VectorCommitmentNode.mismatch, Reads, keyDigit, same]

theorem mismatch_some {i : Nat} {pre : List (Fin 64)} (found : VectorCommitmentNode.mismatch key (6 * d) pre = some i) :
    ∃ front x back, pre = front ++ x :: back ∧ front.length = i ∧ Reads keyDigit key d front ∧ keyDigit key (d + i) ≠ x := by
  induction pre generalizing d i with
  | nil => cases found
  | cons x rest ih =>
      rw [VectorCommitmentNode.mismatch] at found
      by_cases same : nibble key (6 * d) = x
      · rw [if_neg (not_not.mpr same), show 6 * d + 6 = 6 * (d + 1) by omega, Option.map_eq_some_iff] at found
        obtain ⟨later, isLater, isNext⟩ := found
        obtain ⟨front, y, back, isRest, length, reads, astray⟩ := ih isLater
        refine ⟨x :: front, y, back, by rw [isRest]; rfl, by rw [List.length_cons, length, isNext], ⟨same, reads⟩, ?_⟩
        rwa [← isNext, show d + (later + 1) = d + 1 + later by omega]
      · rw [if_pos same] at found
        cases found
        exact ⟨[], x, rest, rfl, rfl, trivial, same⟩

theorem mismatch_astray (key : Bytes) (d i : Nat) (pre : List (Fin 64)) (found : VectorCommitmentNode.mismatch key (6 * d) pre = some i) :
    ¬ Reads keyDigit key d pre := by
  rw [← mismatch_none_iff, found]
  exact Option.some_ne_none i

theorem until_diverge_ok {k : Bytes} {shared : List (Fin 64)} {divergeDepth : Nat}
    (ran : getNibblesUntilDiverge fuel k key (6 * d) = .ok (shared, divergeDepth)) :
    ∃ n, divergeDepth = 6 * n ∧ shared = digits keyDigit k d n ∧ Diverge keyDigit k key d n := by
  induction fuel generalizing d shared with
  | zero => cases ran
  | succ fuel ih =>
      rw [getNibblesUntilDiverge] at ran
      by_cases apart : nibble k (6 * d) ≠ nibble key (6 * d)
      · rw [if_pos apart] at ran
        cases ran
        refine ⟨d, rfl, by simp [digits], le_rfl, apart, fun m low high => absurd low (by omega)⟩
      · rw [if_neg apart, show 6 * d + 6 = 6 * (d + 1) by omega, bind_ok_iff] at ran
        obtain ⟨⟨rest, depth⟩, isRest, result⟩ := ran
        cases result
        obtain ⟨n, isDepth, isDigits, diverge⟩ := ih isRest
        have above := diverge.from_depth
        refine ⟨n, isDepth, ?_, by omega, diverge.apart, fun m low high => ?_⟩
        · rw [isDigits, digits, digits, show n - d = n - (d + 1) + 1 by omega, List.range'_succ, List.map_cons]
          rfl
        · by_cases first : m = d
          · rw [first]
            exact not_not.mp apart
          · exact diverge.shared m (by omega) high

theorem until_diverge_returns (fuel : Nat) (k key : Bytes) (d n : Nat) (diverge : Diverge keyDigit k key d n) (enough : n < d + fuel) :
    ∃ shared, getNibblesUntilDiverge fuel k key (6 * d) = .ok (shared, 6 * n) := by
  induction fuel generalizing d with
  | zero =>
      have above := diverge.from_depth
      omega
  | succ fuel ih =>
      rw [getNibblesUntilDiverge]
      have above := diverge.from_depth
      by_cases here : d = n
      · have apart : nibble k (6 * n) ≠ nibble key (6 * n) := diverge.apart
        rw [here, if_pos apart]
        exact ⟨[], rfl⟩
      · have same : nibble k (6 * d) = nibble key (6 * d) := diverge.shared d le_rfl (by omega)
        obtain ⟨shared, isShared⟩ := ih (d + 1) ⟨by omega, diverge.apart, fun m low high => diverge.shared m (by omega) high⟩ (by omega)
        rw [if_neg (not_not.mpr same), show 6 * d + 6 = 6 * (d + 1) by omega, isShared]
        exact ⟨_, rfl⟩

theorem until_diverge_endless (fuel : Nat) (k key : Bytes) (d : Nat) (same : ∀ n, d ≤ n → keyDigit k n = keyDigit key n) :
    getNibblesUntilDiverge fuel k key (6 * d) = .error .outOfFuel := by
  induction fuel generalizing d with
  | zero => rfl
  | succ fuel ih =>
      have here : nibble k (6 * d) = nibble key (6 * d) := same d le_rfl
      rw [getNibblesUntilDiverge, if_neg (not_not.mpr here), show 6 * d + 6 = 6 * (d + 1) by omega,
        ih (d + 1) fun n low => same n (by omega)]
      rfl

theorem trie_update {children : Fin 64 → VectorCommitmentNode} {child : VectorCommitmentNode} :
    (fun j => (Function.update children i child j).trie view) = Function.update (fun j => (children j).trie view) i (child.trie view) :=
  Function.comp_update (fun node => VectorCommitmentNode.trie view node) children i child

theorem trie_refresh : node.refresh.trie view = node.trie view := by
  induction node with
  | nil => rfl
  | leaf key value hashTarget commitment size => rfl
  | branch pre children commitment size leafCount longestBranch ih =>
      rw [VectorCommitmentNode.refresh, VectorCommitmentNode.trie, VectorCommitmentNode.trie, funext ih]

omit view in
theorem refresh_sized (sized : node.Sized) : node.refresh.Sized := by
  induction node with
  | nil => trivial
  | leaf key value hashTarget commitment size => exact sized
  | branch pre children commitment size leafCount longestBranch ih => exact fun i => ih i (sized i)

omit view in
theorem sized_update (children : Fin 64 → VectorCommitmentNode) (sized : ∀ i, (children i).Sized) (i : Fin 64)
    (child : VectorCommitmentNode) (childSized : child.Sized) (j : Fin 64) : (Function.update children i child j).Sized := by
  by_cases same : j = i
  · rw [same, Function.update_self]
    exact childSized
  · rw [Function.update_of_ne same]
    exact sized j

omit view in
theorem sized_fork (firstSized : first.Sized) (secondSized : second.Sized) (l : Fin 64) :
    (Function.update (Function.update (fun _ => VectorCommitmentNode.nil) i first) j second l).Sized := by
  have nothing : ∀ l : Fin 64, ((fun _ => VectorCommitmentNode.nil) l : VectorCommitmentNode).Sized := fun _ => trivial
  exact sized_update _ (sized_update _ nothing i first firstSized) j second secondSized l

theorem trie_fork :
    (fun l => (Function.update (Function.update (fun _ => VectorCommitmentNode.nil) i first) j second l).trie view) =
      fork i (first.trie view) j (second.trie view) := by
  rw [trie_update, trie_update]
  rfl

omit view in
theorem insert_branch (fuel : Nat) (key : Bytes) (value : Option Bytes) (hashTarget : Bytes) (size : Int) (pre : List (Fin 64))
    (children : Fin 64 → VectorCommitmentNode) (c : Option Bytes) (s : Option Int) (leafCount longestBranch d : Nat)
    (sized : ∀ i, (children i).Sized) :
    (∃ front x back, pre = front ++ x :: back ∧ Reads keyDigit key d front ∧ keyDigit key (d + front.length) ≠ x ∧
      (VectorCommitmentNode.branch pre children c s leafCount longestBranch).insert fuel key value hashTarget (some size) (6 * d) =
        .ok (VectorCommitmentNode.branch front (Function.update (Function.update (fun _ => .nil) x
          (.branch back children c s leafCount longestBranch)) (keyDigit key (d + front.length)) (.leaf key value hashTarget none (some size)))
          none none 0 0).refresh) ∨
    (Reads keyDigit key d pre ∧
      (VectorCommitmentNode.branch pre children c s leafCount longestBranch).insert fuel key value hashTarget (some size) (6 * d) = (do
        let child ← (children (keyDigit key (d + pre.length))).insert fuel key value hashTarget (some size) (6 * (d + pre.length + 1))
        let (n, _) ← (VectorCommitmentNode.branch pre (Function.update children (keyDigit key (d + pre.length)) child) none s leafCount
          longestBranch).recalcMetadata
        return n)) := by
  rw [VectorCommitmentNode.insert]
  cases found : VectorCommitmentNode.mismatch key (6 * d) pre with
  | some i =>
      obtain ⟨front, x, back, isPre, length, reads, astray⟩ := mismatch_some found
      refine .inl ⟨front, x, back, isPre, reads, by rwa [length], ?_⟩
      have place : 6 * d + i * 6 = 6 * (d + front.length) := by omega
      have isExpected : index pre i = .ok x := by
        rw [index, isPre, ← length]
        simp
      have taken : pre.take i = front := by rw [isPre, ← length, List.take_left']; rfl
      have dropped : pre.drop (i + 1) = back := by rw [isPre, ← length]; simp
      simp only [isExpected, ok_bind, taken, dropped, place]
      rw [recalc_sized]
      · rfl
      · exact sized_fork sized ⟨size, rfl⟩
  | none =>
      refine .inr ⟨(mismatch_none_iff key d pre).mp found, ?_⟩
      have place : 6 * d + pre.length * 6 = 6 * (d + pre.length) := by omega
      have next : 6 * (d + pre.length) + 6 = 6 * (d + pre.length + 1) := by omega
      simp only [place, next, keyDigit]

theorem insert_trie (fuel : Nat) (key : Bytes) (value : Option Bytes) (hashTarget : Bytes) (size : Int) (node after : VectorCommitmentNode)
    (d : Nat) (sized : node.Sized) (ran : node.insert fuel key value hashTarget (some size) (6 * d) = .ok after) :
    Inserted keyDigit key (view value hashTarget (some size)) d (node.trie view) (after.trie view) ∧ after.Sized := by
  induction node generalizing after d with
  | nil =>
      cases ran
      exact ⟨.empty d, size, rfl⟩
  | leaf k v h c s =>
      rw [VectorCommitmentNode.insert] at ran
      by_cases same : k = key
      · rw [if_pos same] at ran
        cases ran
        rw [same]
        exact ⟨.update d _, size, rfl⟩
      · rw [if_neg same] at ran
        obtain ⟨⟨shared, divergeDepth⟩, isShared, ran⟩ := (bind_ok_iff _ _ _).mp ran
        obtain ⟨n, isDepth, isDigits, diverge⟩ := until_diverge_ok isShared
        cases ran
        refine ⟨?_, sized_fork sized ⟨size, rfl⟩⟩
        rw [VectorCommitmentNode.trie.eq_3, trie_fork, isDepth, isDigits]
        exact .split d n k _ same diverge
  | branch pre children c s leafCount longestBranch ih =>
      cases insert_branch fuel key value hashTarget size pre children c s leafCount longestBranch d sized with
      | inl forked =>
          obtain ⟨front, x, back, isPre, reads, astray, isResult⟩ := forked
          rw [isResult] at ran
          cases ran
          refine ⟨?_, refresh_sized (sized_fork sized ⟨size, rfl⟩)⟩
          rw [trie_refresh, VectorCommitmentNode.trie, VectorCommitmentNode.trie, trie_fork, isPre]
          exact .fork d front back x _ reads astray
      | inr descended =>
          obtain ⟨reads, isResult⟩ := descended
          rw [isResult] at ran
          obtain ⟨child, inserted, ran⟩ := (bind_ok_iff _ _ _).mp ran
          obtain ⟨childInserted, childSized⟩ := ih _ child _ (sized _) inserted
          have nextSized : (VectorCommitmentNode.branch pre (Function.update children (keyDigit key (d + pre.length)) child) none s
              leafCount longestBranch).Sized := sized_update children sized _ child childSized
          rw [recalc_sized nextSized] at ran
          cases ran
          refine ⟨?_, refresh_sized nextSized⟩
          rw [trie_refresh, VectorCommitmentNode.trie, VectorCommitmentNode.trie, trie_update]
          exact .descend d pre _ _ reads childInserted

theorem insert_returns {value : Option Bytes} {hashTarget : Bytes} {size : Int} (d : Nat) (sized : node.Sized)
    (formed : Formed keyDigit d (node.trie view)) (onPath : ∀ k v, Stored (node.trie view) k v → ∀ m, m < d → keyDigit k m = keyDigit key m)
    (apart : ∀ k v, Stored (node.trie view) k v → k ≠ key → ∃ n, n < fuel ∧ keyDigit k n ≠ keyDigit key n) :
    ∃ after, node.insert fuel key value hashTarget (some size) (6 * d) = .ok after := by
  induction node generalizing d with
  | nil => exact ⟨_, rfl⟩
  | leaf k v h c s =>
      rw [VectorCommitmentNode.insert]
      by_cases same : k = key
      · rw [if_pos same]
        exact ⟨_, rfl⟩
      · have stored : Stored (VectorCommitmentNode.trie view (.leaf k v h c s)) k (view v h s) := ⟨rfl, rfl⟩
        obtain ⟨n, inFuel, differ⟩ := apart k _ stored same
        have some_place : ∃ n, keyDigit k n ≠ keyDigit key n := ⟨n, differ⟩
        have first := Nat.find_spec some_place
        have low : d ≤ Nat.find some_place := by
          by_contra early
          exact first (onPath k _ stored _ (not_le.mp early))
        have high : Nat.find some_place ≤ n := Nat.find_min' some_place differ
        obtain ⟨shared, ran⟩ := until_diverge_returns fuel k key d _
          ⟨low, first, fun m _ before => not_not.mp (Nat.find_min some_place before)⟩ (by omega)
        rw [if_neg same, ran]
        exact ⟨_, rfl⟩
  | branch pre children c s leafCount longestBranch ih =>
      cases insert_branch fuel key value hashTarget size pre children c s leafCount longestBranch d sized with
      | inl forked =>
          obtain ⟨front, x, back, isPre, reads, astray, isResult⟩ := forked
          exact ⟨_, isResult⟩
      | inr descended =>
          obtain ⟨reads, isResult⟩ := descended
          obtain ⟨child, inserted⟩ := ih (keyDigit key (d + pre.length)) (d + pre.length + 1) (sized _) (formed.2 _).1
            (fun k v stored => child_path keyDigit d pre _ formed key reads k v stored (onPath k v ⟨_, stored⟩))
            (fun k v stored => apart k v ⟨_, stored⟩)
          have childSized := (insert_trie view fuel key value hashTarget size _ child _ (sized _) inserted).2
          have nextSized : (VectorCommitmentNode.branch pre (Function.update children (keyDigit key (d + pre.length)) child) none s
              leafCount longestBranch).Sized := sized_update children sized _ child childSized
          rw [isResult, inserted, ok_bind, recalc_sized nextSized]
          exact ⟨_, rfl⟩

theorem insert_endless (fuel : Nat) (key other : Bytes) (value : Option Bytes) (hashTarget : Bytes) (size : Int) (v : ν)
    (node : VectorCommitmentNode) (d : Nat) (sized : node.Sized) (formed : Formed keyDigit d (node.trie view))
    (stored : Stored (node.trie view) other v) (different : other ≠ key) (same : ∀ n, keyDigit other n = keyDigit key n) :
    node.insert fuel key value hashTarget (some size) (6 * d) = .error .outOfFuel := by
  induction node generalizing d with
  | nil => cases stored
  | leaf k w h c s =>
      obtain ⟨isKey, -⟩ := stored
      subst isKey
      rw [VectorCommitmentNode.insert, if_neg different, until_diverge_endless fuel other key d fun n _ => same n]
      rfl
  | branch pre children c s leafCount longestBranch ih =>
      obtain ⟨otherReads, below⟩ := branch_reads keyDigit d pre formed other v stored
      cases insert_branch fuel key value hashTarget size pre children c s leafCount longestBranch d sized with
      | inl forked =>
          obtain ⟨front, x, back, isPre, reads, astray, -⟩ := forked
          rw [isPre, reads_append] at otherReads
          exact absurd ((same _).symm.trans otherReads.2.1) astray
      | inr descended =>
          rw [same] at below
          rw [descended.2, ih _ _ (sized _) (formed.2 _).1 below]
          rfl

theorem get_iff (formed : Formed keyDigit d (node.trie fun value _ _ => value)) {value : Bytes} :
    node.get key (6 * d) = some value ↔ Stored (node.trie fun value _ _ => value) key (some value) := by
  induction node generalizing d with
  | nil => simp [VectorCommitmentNode.get, VectorCommitmentNode.trie, Stored]
  | leaf k v h c s =>
      rw [VectorCommitmentNode.get]
      by_cases same : k = key
      · rw [if_pos same, VectorCommitmentNode.trie, Stored, eq_comm (b := v)]
        simp [same]
      · simp [same, VectorCommitmentNode.trie, Stored, Ne.symm same]
  | branch pre children c s leafCount longestBranch ih =>
      rw [VectorCommitmentNode.get]
      cases found : VectorCommitmentNode.mismatch key (6 * d) pre with
      | some i =>
          simp only [reduceCtorEq, false_iff]
          exact fun stored => mismatch_astray key d i pre found (branch_reads keyDigit d pre formed key _ stored).1
      | none =>
          have place : 6 * d + pre.length * 6 = 6 * (d + pre.length) := by omega
          have next : 6 * (d + pre.length) + 6 = 6 * (d + pre.length + 1) := by omega
          simp only [place, next]
          refine (ih _ (formed.2 _).1).trans ⟨fun stored => ⟨_, stored⟩, fun stored => ?_⟩
          exact (branch_reads keyDigit d pre formed key _ stored).2

theorem is_nil_iff : node.isNil = true ↔ node = .nil := by
  cases node <;> simp [VectorCommitmentNode.isNil]

theorem collapse_trie (pre : List (Fin 64)) (children : Fin 64 → VectorCommitmentNode) (size : Option Int) (leafCount longestBranch : Nat) :
    Collapsed pre (fun i => (children i).trie view) ((VectorCommitmentNode.collapse pre children size leafCount longestBranch).trie view) := by
  have kept : ∀ i, i ∈ (List.finRange 64).filter (fun i => !(children i).isNil) ↔ children i ≠ .nil := by
    intro i
    rw [List.mem_filter, Bool.not_eq_true', ← Bool.not_eq_true, is_nil_iff]
    simp
  have distinct : ((List.finRange 64).filter fun i => !(children i).isNil).Nodup := (List.nodup_finRange 64).filter _
  rw [VectorCommitmentNode.collapse]
  generalize (List.finRange 64).filter (fun i => !(children i).isNil) = rest at kept distinct
  have absent : ∀ i, i ∉ rest → (children i).trie view = .nil := by
    intro i notKept
    rw [not_not.mp (mt (kept i).mpr notKept)]
    rfl
  cases rest with
  | nil => exact .none fun i => absent i (by simp)
  | cons i tail =>
      cases tail with
      | nil =>
          have nothing : ∀ j, j ≠ i → (children j).trie view = .nil := fun j different => absent j (by simpa using different)
          cases isChild : children i with
          | nil => exact absurd isChild ((kept i).mp (by simp))
          | leaf key value hashTarget commitment s =>
              simp only [isChild]
              exact .leaf i key (view value hashTarget s) (by simp [isChild, VectorCommitmentNode.trie]) nothing
          | branch other others commitment s leaves longest =>
              simp only [isChild]
              exact .merge i other (fun l => (others l).trie view) (by simp [isChild, VectorCommitmentNode.trie]) nothing
      | cons j tail =>
          have there : ∀ l, l ∈ i :: j :: tail → (children l).trie view ≠ .nil := by
            intro l isKept
            rw [Ne, trie_nil_iff]
            exact (kept l).mp isKept
          apply Collapsed.keep i j (by simp at distinct; exact distinct.1.1) (there i (by simp)) (there j (by simp))

theorem collapse_sized (pre : List (Fin 64)) (children : Fin 64 → VectorCommitmentNode) (size : Option Int) (leafCount longestBranch : Nat)
    (sized : ∀ i, (children i).Sized) : (VectorCommitmentNode.collapse pre children size leafCount longestBranch).Sized := by
  rw [VectorCommitmentNode.collapse]
  split
  · trivial
  · next lastChildIndex _ =>
      have childSized := sized lastChildIndex
      split
      · next same =>
          rw [same] at childSized
          exact childSized
      · exact childSized
  · exact sized

omit view in
theorem remove_sized (key : Bytes) (node : VectorCommitmentNode) (depth : Nat) (sized : node.Sized) :
    ∃ after, node.remove key depth = .ok after ∧ after.Sized := by
  induction node generalizing depth with
  | nil => exact ⟨.nil, rfl, trivial⟩
  | leaf k v h c s =>
      rw [VectorCommitmentNode.remove]
      by_cases same : k = key
      · rw [if_pos same]
        exact ⟨.nil, rfl, trivial⟩
      · rw [if_neg same]
        exact ⟨_, rfl, sized⟩
  | branch pre children c s leafCount longestBranch ih =>
      rw [VectorCommitmentNode.remove]
      cases VectorCommitmentNode.mismatch key depth pre with
      | some i => exact ⟨_, rfl, sized⟩
      | none =>
          obtain ⟨child, ran, childSized⟩ := ih (nibble key (depth + pre.length * 6)) (depth + pre.length * 6 + 6) (sized _)
          have nextSized := collapse_sized pre _ s leafCount longestBranch
            (sized_update children sized (nibble key (depth + pre.length * 6)) child childSized)
          exact ⟨_, by simp only [ran, ok_bind, recalc_sized nextSized]; rfl, refresh_sized nextSized⟩

omit view in
theorem remove_branch (key : Bytes) (pre : List (Fin 64)) (children : Fin 64 → VectorCommitmentNode) (c : Option Bytes) (s : Option Int)
    (leafCount longestBranch d : Nat) (sized : ∀ i, (children i).Sized) :
    (¬ Reads keyDigit key d pre ∧ (VectorCommitmentNode.branch pre children c s leafCount longestBranch).remove key (6 * d) =
      .ok (.branch pre children c s leafCount longestBranch)) ∨
    (Reads keyDigit key d pre ∧ ∃ child, (children (keyDigit key (d + pre.length))).remove key (6 * (d + pre.length + 1)) = .ok child ∧
      (VectorCommitmentNode.branch pre children c s leafCount longestBranch).remove key (6 * d) =
        .ok (VectorCommitmentNode.collapse pre (Function.update children (keyDigit key (d + pre.length)) child) s leafCount
          longestBranch).refresh) := by
  rw [VectorCommitmentNode.remove]
  cases found : VectorCommitmentNode.mismatch key (6 * d) pre with
  | some i => exact .inl ⟨mismatch_astray key d i pre found, rfl⟩
  | none =>
      have place : 6 * d + pre.length * 6 = 6 * (d + pre.length) := by omega
      have next : 6 * (d + pre.length) + 6 = 6 * (d + pre.length + 1) := by omega
      obtain ⟨child, ran, childSized⟩ := remove_sized key (children (keyDigit key (d + pre.length))) (6 * (d + pre.length + 1)) (sized _)
      have nextSized := collapse_sized pre _ s leafCount longestBranch (sized_update children sized (keyDigit key (d + pre.length)) child childSized)
      refine .inr ⟨(mismatch_none_iff key d pre).mp found, child, ran, ?_⟩
      simp only [place, next]
      rw [show nibble key (6 * (d + pre.length)) = keyDigit key (d + pre.length) from rfl, ran, ok_bind, recalc_sized nextSized]
      rfl

theorem remove_trie (after : VectorCommitmentNode) (d : Nat) (sized : node.Sized) (ran : node.remove key (6 * d) = .ok after) :
    Removed keyDigit key d (node.trie view) (after.trie view) := by
  induction node generalizing after d with
  | nil =>
      cases ran
      exact .empty d
  | leaf k v h c s =>
      rw [VectorCommitmentNode.remove] at ran
      by_cases same : k = key
      · rw [if_pos same] at ran
        cases ran
        rw [same]
        exact .gone d _
      · rw [if_neg same] at ran
        cases ran
        exact .other d k _ same
  | branch pre children c s leafCount longestBranch ih =>
      cases remove_branch key pre children c s leafCount longestBranch d sized with
      | inl astray =>
          cases astray.2.symm.trans ran
          exact .astray d pre _ astray.1
      | inr descended =>
          obtain ⟨reads, child, removed, isResult⟩ := descended
          cases isResult.symm.trans ran
          have collapsed := collapse_trie view pre (Function.update children (keyDigit key (d + pre.length)) child) s leafCount longestBranch
          rw [trie_update] at collapsed
          rw [trie_refresh]
          exact .descend d pre _ _ _ reads (ih _ child _ (sized _) removed) collapsed

end Shape

end Ceremony
