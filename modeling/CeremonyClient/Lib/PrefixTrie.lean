import Mathlib.Data.FinEnum
import Mathlib.Tactic

set_option autoImplicit false

namespace PrefixTrie

variable {κ ν ι : Type}

variable {key : κ} {d : Nat} {first second : List ι} {x : ι} {pre : List ι} {n : Nat} {k : κ} {v : ν} {i j : ι} {value : ν}

-- A trie over keys that are read digit by digit. A branch skips the digits that all its keys share.
inductive Node (κ ν ι : Type) where
  | nil
  | leaf (key : κ) (value : ν)
  | branch (pre : List ι) (children : ι → Node κ ν ι)

def Node.mapValues {μ : Type} (change : ν → μ) : Node κ ν ι → Node κ μ ι
  | .nil => .nil
  | .leaf key value => .leaf key (change value)
  | .branch pre children => .branch pre fun i => (children i).mapValues change

def Stored : Node κ ν ι → κ → ν → Prop
  | .nil, _, _ => False
  | .leaf key value, k, v => k = key ∧ v = value
  | .branch _ children, k, v => ∃ i, Stored (children i) k v

variable (digit : κ → Nat → ι)

def Reads (key : κ) : Nat → List ι → Prop
  | _, [] => True
  | d, first :: rest => digit key d = first ∧ Reads key (d + 1) rest

def digits (key : κ) (d n : Nat) : List ι := (List.range' d (n - d)).map (digit key)

-- The keys below a branch at depth d share its digits, and lead to at least two of its children.
def Formed : Nat → Node κ ν ι → Prop
  | _, .nil => True
  | _, .leaf _ _ => True
  | d, .branch pre children =>
      (∃ i j, i ≠ j ∧ children i ≠ .nil ∧ children j ≠ .nil) ∧
        ∀ i, Formed (d + pre.length + 1) (children i) ∧ ∀ k v, Stored (children i) k v → Reads digit k d (pre ++ [i])

structure Diverge (k key : κ) (d n : Nat) : Prop where
  from_depth : d ≤ n
  apart : digit k n ≠ digit key n
  shared : ∀ m, d ≤ m → m < n → digit k m = digit key m

theorem reads_append : Reads digit key d (first ++ second) ↔ Reads digit key d first ∧ Reads digit key (d + first.length) second := by
  induction first generalizing d with
  | nil => simp [Reads]
  | cons x rest ih => rw [List.cons_append, Reads, Reads, ih, and_assoc, List.length_cons, Nat.add_assoc, Nat.add_comm 1]

theorem reads_singleton : Reads digit key d [x] ↔ digit key d = x := by
  simp [Reads]

theorem reads_last (reads : Reads digit key d (pre ++ [x])) : digit key (d + pre.length) = x :=
  (reads_singleton digit).mp ((reads_append digit).mp reads).2

theorem reads_unique (length : first.length = second.length) (readsFirst : Reads digit key d first) (readsSecond : Reads digit key d second) :
    first = second := by
  induction first generalizing d second with
  | nil => exact (List.length_eq_zero_iff.mp length.symm).symm
  | cons x rest ih =>
      cases second with
      | nil => cases length
      | cons y others =>
          rw [← readsFirst.1, ← readsSecond.1, ih (by simpa using length) readsFirst.2 readsSecond.2]

theorem reads_at (inside : n < pre.length) (reads : Reads digit key d pre) : digit key (d + n) = pre[n] := by
  induction pre generalizing d n with
  | nil => cases inside
  | cons x rest ih =>
      cases n with
      | zero => exact reads.1
      | succ n =>
          rw [show d + (n + 1) = d + 1 + n by omega]
          exact ih (Nat.lt_of_succ_lt_succ inside) reads.2

theorem digits_length : (digits digit key d n).length = n - d := by
  rw [digits, List.length_map, List.length_range']

theorem reads_digits (k key : κ) (d n : Nat) (same : ∀ m, d ≤ m → m < n → digit k m = digit key m) :
    Reads digit key d (digits digit k d n) := by
  rw [digits]
  induction isLength : n - d generalizing d with
  | zero => trivial
  | succ length ih =>
      rw [List.range'_succ, List.map_cons]
      exact ⟨(same d le_rfl (by omega)).symm, ih (d + 1) (fun m low high => same m (by omega) high) (by omega)⟩

variable {node : Node κ ν ι}

theorem formed_stored (formed : Formed digit d node) (some_node : node ≠ .nil) : ∃ k v, Stored node k v := by
  induction node generalizing d with
  | nil => exact absurd rfl some_node
  | leaf key value => exact ⟨key, value, rfl, rfl⟩
  | branch pre children ih =>
      obtain ⟨⟨i, -, -, there, -⟩, each⟩ := formed
      obtain ⟨k, v, stored⟩ := ih _ (each i).1 there
      exact ⟨k, v, i, stored⟩

variable {children : ι → Node κ ν ι}

theorem branch_two_keys (formed : Formed digit d (.branch pre children)) :
    ∃ k v k' v', Stored (.branch pre children) k v ∧ Stored (.branch pre children) k' v' ∧ Reads digit k d pre ∧
      digit k (d + pre.length) ≠ digit k' (d + pre.length) := by
  obtain ⟨⟨i, j, different, iThere, jThere⟩, each⟩ := formed
  obtain ⟨k, v, stored⟩ := formed_stored digit (each i).1 iThere
  obtain ⟨k', v', stored'⟩ := formed_stored digit (each j).1 jThere
  have reads := (each i).2 k v stored
  have reads' := (each j).2 k' v' stored'
  refine ⟨k, v, k', v', ⟨i, stored⟩, ⟨j, stored'⟩, ((reads_append digit).mp reads).1, ?_⟩
  rw [reads_last digit reads, reads_last digit reads']
  exact different

theorem branch_reads (d : Nat) (pre : List ι) (formed : Formed digit d (.branch pre children)) (k : κ) (v : ν)
    (stored : Stored (.branch pre children) k v) : Reads digit k d pre ∧ Stored (children (digit k (d + pre.length))) k v := by
  obtain ⟨i, stored⟩ := stored
  have reads := (formed.2 i).2 k v stored
  rw [reads_last digit reads]
  exact ⟨((reads_append digit).mp reads).1, stored⟩

theorem child_path (d : Nat) (pre : List ι) (children : ι → Node κ ν ι) (formed : Formed digit d (.branch pre children))
    (key : κ) (reads : Reads digit key d pre) (k : κ) (v : ν) (stored : Stored (children (digit key (d + pre.length))) k v)
    (onPath : ∀ m, m < d → digit k m = digit key m) (m : Nat) (before : m < d + pre.length + 1) : digit k m = digit key m := by
  have path := (formed.2 _).2 k v stored
  by_cases early : m < d
  · exact onPath m early
  · by_cases last : m = d + pre.length
    · rw [last]
      exact reads_last digit path
    · have inside : m - d < pre.length := by omega
      have isPlace : m = d + (m - d) := by omega
      rw [isPlace, reads_at digit inside ((reads_append digit).mp path).1,
        reads_at digit inside reads]

theorem stored_unique (formed : Formed digit d node) {w : ν} (first : Stored node k v) (second : Stored node k w) : v = w := by
  induction node generalizing d with
  | nil => cases first
  | leaf key value => exact first.2.trans second.2.symm
  | branch pre children ih =>
      have left := (branch_reads digit d pre formed k v first).2
      have right := (branch_reads digit d pre formed k w second).2
      exact ih _ (formed.2 _).1 left right

theorem shared_not_longer {other : List ι} {others : ι → Node κ ν ι} (formed : Formed digit d (.branch pre children))
    (formedOther : Formed digit d (.branch other others))
    (same : ∀ k v, Stored (.branch pre children) k v ↔ Stored (.branch other others) k v) : other.length ≤ pre.length := by
  by_contra longer
  rw [not_le] at longer
  obtain ⟨k, v, k', v', stored, stored', -, apart⟩ := branch_two_keys digit formed
  have reads := (branch_reads digit d other formedOther k v ((same k v).mp stored)).1
  have reads' := (branch_reads digit d other formedOther k' v' ((same k' v').mp stored')).1
  rw [reads_at digit longer reads, reads_at digit longer reads'] at apart
  exact apart rfl

theorem canonical (d : Nat) {a : Node κ ν ι} (b : Node κ ν ι) (formedA : Formed digit d a) (formedB : Formed digit d b)
    (same : ∀ k v, Stored a k v ↔ Stored b k v) : a = b := by
  induction a generalizing d b with
  | nil =>
      by_contra different
      obtain ⟨k, v, stored⟩ := formed_stored digit formedB (Ne.symm different)
      exact (same k v).mpr stored
  | leaf key value =>
      have here := (same key value).mp ⟨rfl, rfl⟩
      cases b with
      | nil => cases here
      | leaf other otherValue => rw [here.1, here.2]
      | branch pre children =>
          obtain ⟨k, v, k', v', stored, stored', -, apart⟩ := branch_two_keys digit formedB
          have first := ((same k v).mpr stored).1
          have second := ((same k' v').mpr stored').1
          rw [first, second] at apart
          exact absurd rfl apart
  | branch pre children ih =>
      cases b with
      | nil =>
          obtain ⟨k, v, stored⟩ := formed_stored digit formedA (by simp)
          cases (same k v).mp stored
      | leaf other otherValue =>
          obtain ⟨k, v, k', v', stored, stored', -, apart⟩ := branch_two_keys digit formedA
          have first := ((same k v).mp stored).1
          have second := ((same k' v').mp stored').1
          rw [first, second] at apart
          exact absurd rfl apart
      | branch other others =>
          have length : pre.length = other.length :=
            le_antisymm (shared_not_longer digit formedB formedA fun k v => (same k v).symm)
              (shared_not_longer digit formedA formedB same)
          obtain ⟨k, v, stored⟩ := formed_stored digit formedA (by simp)
          have isPre : pre = other := reads_unique digit length (branch_reads digit d pre formedA k v stored).1
            (branch_reads digit d other formedB k v ((same k v).mp stored)).1
          subst isPre
          -- A key is stored below the child that its next digit names, in both branches.
          have sameChild : ∀ i, children i = others i := by
            intro i
            refine ih i (d + pre.length + 1) (others i) (formedA.2 i).1 (formedB.2 i).1 fun k v => ⟨fun inside => ?_, fun inside => ?_⟩
            · have place := reads_last digit ((formedA.2 i).2 k v inside)
              have there := (branch_reads digit d pre formedB k v ((same k v).mp ⟨i, inside⟩)).2
              rwa [place] at there
            · have place := reads_last digit ((formedB.2 i).2 k v inside)
              have there := (branch_reads digit d pre formedA k v ((same k v).mpr ⟨i, inside⟩)).2
              rwa [place] at there
          rw [funext sameChild]

variable {old new result : Node κ ν ι}

section Updates

variable [DecidableEq ι]

def fork (i : ι) (first : Node κ ν ι) (j : ι) (second : Node κ ν ι) : ι → Node κ ν ι :=
  Function.update (Function.update (fun _ => .nil) i first) j second

inductive Inserted (key : κ) (value : ν) : Nat → Node κ ν ι → Node κ ν ι → Prop where
  | empty (d : Nat) : Inserted key value d .nil (.leaf key value)
  | update (d : Nat) (old : ν) : Inserted key value d (.leaf key old) (.leaf key value)
  | split (d n : Nat) (k : κ) (old : ν) (different : k ≠ key) (diverge : Diverge digit k key d n) :
      Inserted key value d (.leaf k old)
        (.branch (digits digit k d n) (fork (digit k n) (.leaf k old) (digit key n) (.leaf key value)))
  | fork (d : Nat) (front back : List ι) (x : ι) (children : ι → Node κ ν ι) (reads : Reads digit key d front)
      (astray : digit key (d + front.length) ≠ x) :
      Inserted key value d (.branch (front ++ x :: back) children)
        (.branch front (fork x (.branch back children) (digit key (d + front.length)) (.leaf key value)))
  | descend (d : Nat) (pre : List ι) (children : ι → Node κ ν ι) (child : Node κ ν ι) (reads : Reads digit key d pre)
      (inserted : Inserted key value (d + pre.length + 1) (children (digit key (d + pre.length))) child) :
      Inserted key value d (.branch pre children) (.branch pre (Function.update children (digit key (d + pre.length)) child))

-- A branch that is left with fewer than two children gives way to what is left.
inductive Collapsed (pre : List ι) (children : ι → Node κ ν ι) : Node κ ν ι → Prop where
  | none (nothing : ∀ i, children i = .nil) : Collapsed pre children .nil
  | leaf (i : ι) (key : κ) (value : ν) (only : children i = .leaf key value) (nothing : ∀ j, j ≠ i → children j = .nil) :
      Collapsed pre children (.leaf key value)
  | merge (i : ι) (other : List ι) (others : ι → Node κ ν ι) (only : children i = .branch other others)
      (nothing : ∀ j, j ≠ i → children j = .nil) : Collapsed pre children (.branch (pre ++ i :: other) others)
  | keep (i j : ι) (different : i ≠ j) (first : children i ≠ .nil) (second : children j ≠ .nil) :
      Collapsed pre children (.branch pre children)

inductive Removed (key : κ) : Nat → Node κ ν ι → Node κ ν ι → Prop where
  | empty (d : Nat) : Removed key d .nil .nil
  | gone (d : Nat) (value : ν) : Removed key d (.leaf key value) .nil
  | other (d : Nat) (k : κ) (value : ν) (different : k ≠ key) : Removed key d (.leaf k value) (.leaf k value)
  | astray (d : Nat) (pre : List ι) (children : ι → Node κ ν ι) (astray : ¬ Reads digit key d pre) :
      Removed key d (.branch pre children) (.branch pre children)
  | descend (d : Nat) (pre : List ι) (children : ι → Node κ ν ι) (child result : Node κ ν ι) (reads : Reads digit key d pre)
      (removed : Removed key (d + pre.length + 1) (children (digit key (d + pre.length))) child)
      (collapsed : Collapsed pre (Function.update children (digit key (d + pre.length)) child) result) :
      Removed key d (.branch pre children) result

omit digit in
theorem fork_first (first second : Node κ ν ι) (different : i ≠ j) : fork i first j second i = first := by
  rw [fork, Function.update_of_ne different, Function.update_self]

omit digit in
theorem fork_second {first second : Node κ ν ι} : fork i first j second j = second := by
  rw [fork, Function.update_self]

omit digit in
theorem fork_other {l : ι} (first second : Node κ ν ι) (notFirst : l ≠ i) (notSecond : l ≠ j) : fork i first j second l = .nil := by
  rw [fork, Function.update_of_ne notSecond, Function.update_of_ne notFirst]

omit digit in
theorem fork_stored {first second : Node κ ν ι} (different : i ≠ j) :
    Stored (.branch pre (fork i first j second)) k v ↔ Stored first k v ∨ Stored second k v := by
  constructor
  · intro stored
    obtain ⟨l, stored⟩ := stored
    by_cases isSecond : l = j
    · rw [isSecond, fork_second] at stored
      exact .inr stored
    · by_cases isFirst : l = i
      · rw [isFirst, fork_first first second different] at stored
        exact .inl stored
      · rw [fork_other first second isFirst isSecond] at stored
        cases stored
  · intro stored
    cases stored with
    | inl stored => exact ⟨i, by rw [fork_first first second different]; exact stored⟩
    | inr stored => exact ⟨j, by rw [fork_second]; exact stored⟩

theorem fork_formed (d : Nat) (pre : List ι) (first second : Node κ ν ι) (different : i ≠ j) (firstThere : first ≠ .nil)
    (secondThere : second ≠ .nil) (firstFormed : Formed digit (d + pre.length + 1) first)
    (secondFormed : Formed digit (d + pre.length + 1) second) (firstReads : ∀ k v, Stored first k v → Reads digit k d (pre ++ [i]))
    (secondReads : ∀ k v, Stored second k v → Reads digit k d (pre ++ [j])) : Formed digit d (.branch pre (fork i first j second)) := by
  refine ⟨⟨i, j, different, ?_, ?_⟩, fun l => ?_⟩
  · rw [fork_first first second different]
    exact firstThere
  · rw [fork_second]
    exact secondThere
  · by_cases isSecond : l = j
    · rw [isSecond, fork_second]
      exact ⟨secondFormed, secondReads⟩
    · by_cases isFirst : l = i
      · rw [isFirst, fork_first first second different]
        exact ⟨firstFormed, firstReads⟩
      · rw [fork_other first second isFirst isSecond]
        exact ⟨trivial, fun k v stored => by cases stored⟩

omit [DecidableEq ι] in
theorem diverge_reads (diverge : Diverge digit k key d n) :
    Reads digit k d (digits digit k d n ++ [digit k n]) ∧ Reads digit key d (digits digit k d n ++ [digit key n]) := by
  have place : d + (digits digit k d n).length = n := by
    rw [digits_length]
    have := diverge.from_depth
    omega
  rw [reads_append, reads_append, reads_singleton, reads_singleton, place]
  exact ⟨⟨reads_digits digit k k d n fun _ _ _ => rfl, rfl⟩, reads_digits digit k key d n diverge.shared, rfl⟩

theorem inserted_there (inserted : Inserted digit key value d old new) : new ≠ .nil := by
  cases inserted <;> simp

theorem inserted_stored (inserted : Inserted digit key value d old new) (formed : Formed digit d old) :
    Stored new k v ↔ (k = key ∧ v = value) ∨ (k ≠ key ∧ Stored old k v) := by
  induction inserted with
  | empty d => simp [Stored]
  | update d old =>
      simp only [Stored]
      constructor
      · exact .inl
      · intro either
        cases either with
        | inl here => exact here
        | inr other => exact absurd other.2.1 other.1
  | split d n k' old different diverge =>
      rw [fork_stored diverge.apart]
      simp only [Stored]
      constructor
      · intro either
        cases either with
        | inl first => exact .inr ⟨first.1 ▸ different, first⟩
        | inr second => exact .inl second
      · intro either
        cases either with
        | inl here => exact .inr here
        | inr other => exact .inl other.2
  | fork d front back x children reads astray =>
      rw [fork_stored (Ne.symm astray)]
      constructor
      · intro either
        cases either with
        | inl first =>
            refine .inr ⟨fun same => ?_, first⟩
            obtain ⟨i, stored⟩ := first
            have path := ((reads_append digit).mp ((formed.2 i).2 k v stored)).1
            rw [reads_append] at path
            exact astray (same ▸ path.2.1)
        | inr second => exact .inl second
      · intro either
        cases either with
        | inl here => exact .inr here
        | inr other => exact .inl other.2
  | descend d pre children child reads inserted ih =>
      have inside := ih (formed.2 _).1
      -- The key is not below any other child.
      have elsewhere : ∀ i, i ≠ digit key (d + pre.length) → ∀ w, ¬ Stored (children i) key w := by
        intro i different w stored
        exact different (reads_last digit ((formed.2 i).2 key w stored)).symm
      constructor
      · intro stored
        obtain ⟨i, stored⟩ := stored
        by_cases here : i = digit key (d + pre.length)
        · rw [here, Function.update_self] at stored
          exact (inside.mp stored).imp_right fun other => ⟨other.1, _, other.2⟩
        · rw [Function.update_of_ne here] at stored
          exact .inr ⟨fun same => elsewhere i here v (same ▸ stored), i, stored⟩
      · intro either
        cases either with
        | inl here => exact ⟨digit key (d + pre.length), by rw [Function.update_self]; exact inside.mpr (.inl here)⟩
        | inr other =>
            obtain ⟨different, i, stored⟩ := other
            refine ⟨i, ?_⟩
            by_cases here : i = digit key (d + pre.length)
            · rw [here, Function.update_self]
              exact inside.mpr (.inr ⟨different, here ▸ stored⟩)
            · rw [Function.update_of_ne here]
              exact stored

theorem inserted_formed (inserted : Inserted digit key value d old new) (formed : Formed digit d old) : Formed digit d new := by
  induction inserted with
  | empty d => trivial
  | update d old => trivial
  | split d n k old different diverge =>
      obtain ⟨oldReads, newReads⟩ := diverge_reads digit diverge
      apply fork_formed digit d _ (.leaf k old) (.leaf key value) diverge.apart (by simp) (by simp) trivial trivial
      · exact fun k' v stored => stored.1 ▸ oldReads
      · exact fun k' v stored => stored.1 ▸ newReads
  | fork d front back x children reads astray =>
      -- What was below the branch shares the rest of its digits.
      have rest : ∀ k v, Stored (.branch back children) k v → Reads digit k d (front ++ [x]) ∧
          ∀ i, Stored (children i) k v → Reads digit k (d + front.length + 1) (back ++ [i]) := by
        intro k v stored
        obtain ⟨i, here⟩ := stored
        have path := (formed.2 i).2 k v here
        rw [List.append_assoc, List.cons_append, reads_append] at path
        refine ⟨(reads_append digit).mpr ⟨path.1, path.2.1, trivial⟩, fun j there => ?_⟩
        have other := (formed.2 j).2 k v there
        rw [List.append_assoc, List.cons_append, reads_append] at other
        exact other.2.2
      apply fork_formed digit d front (.branch back children) (.leaf key value) (Ne.symm astray) (by simp) (by simp) _ trivial
      · exact fun k v stored => (rest k v stored).1
      · intro k v stored
        rw [stored.1]
        exact (reads_append digit).mpr ⟨reads, rfl, trivial⟩
      · refine ⟨formed.1, fun i => ⟨?_, fun k v stored => (rest k v ⟨i, stored⟩).2 i stored⟩⟩
        have child := (formed.2 i).1
        rw [List.length_append, List.length_cons] at child
        rwa [show d + front.length + 1 + back.length + 1 = d + (front.length + (back.length + 1)) + 1 by omega]
  | descend d pre children child reads inserted ih =>
      obtain ⟨⟨i, j, different, iThere, jThere⟩, each⟩ := formed
      have there : ∀ l, children l ≠ .nil → Function.update children (digit key (d + pre.length)) child l ≠ .nil := by
        intro l isThere
        by_cases here : l = digit key (d + pre.length)
        · rw [here, Function.update_self]
          exact inserted_there digit inserted
        · rwa [Function.update_of_ne here]
      refine ⟨⟨i, j, different, there i iThere, there j jThere⟩, fun l => ?_⟩
      by_cases here : l = digit key (d + pre.length)
      · rw [here, Function.update_self]
        refine ⟨ih (each _).1, fun k v stored => ?_⟩
        cases (inserted_stored digit inserted (each _).1).mp stored with
        | inl same => rw [same.1]; exact (reads_append digit).mpr ⟨reads, rfl, trivial⟩
        | inr other => exact (each _).2 k v other.2
      · rw [Function.update_of_ne here]
        exact each l

omit digit [DecidableEq ι] in
theorem collapsed_stored (collapsed : Collapsed pre children result) : Stored result k v ↔ ∃ i, Stored (children i) k v := by
  have onlyAt : ∀ i, (∀ j, j ≠ i → children j = .nil) → ((∃ j, Stored (children j) k v) ↔ Stored (children i) k v) := by
    intro i nothing
    refine ⟨fun found => ?_, fun stored => ⟨i, stored⟩⟩
    obtain ⟨j, stored⟩ := found
    by_cases same : j = i
    · exact same ▸ stored
    · rw [nothing j same] at stored
      cases stored
  cases collapsed with
  | none nothing =>
      refine ⟨False.elim, fun found => ?_⟩
      obtain ⟨i, stored⟩ := found
      rw [nothing i] at stored
      exact stored
  | leaf i key value only nothing => rw [onlyAt i nothing, only]
  | merge i other others only nothing =>
      rw [onlyAt i nothing, only]
      rfl
  | keep i j different first second => rfl

omit [DecidableEq ι] in
theorem collapsed_formed (collapsed : Collapsed pre children result)
    (each : ∀ i, Formed digit (d + pre.length + 1) (children i) ∧ ∀ k v, Stored (children i) k v → Reads digit k d (pre ++ [i])) :
    Formed digit d result := by
  cases collapsed with
  | none nothing => trivial
  | leaf i key value only nothing => trivial
  | keep i j different first second => exact ⟨⟨i, j, different, first, second⟩, each⟩
  | merge i other others only nothing =>
      obtain ⟨formed, reads⟩ := each i
      rw [only] at formed reads
      refine ⟨formed.1, fun j => ⟨?_, fun k v stored => ?_⟩⟩
      · have child := (formed.2 j).1
        rw [List.length_append, List.length_cons]
        rwa [show d + (pre.length + (other.length + 1)) + 1 = d + pre.length + 1 + other.length + 1 by omega]
      · have first := reads k v ⟨j, stored⟩
        have second := (formed.2 j).2 k v stored
        rw [List.append_assoc, List.cons_append, ← List.singleton_append, ← List.append_assoc, reads_append]
        refine ⟨first, ?_⟩
        rwa [List.length_append, List.length_singleton, ← Nat.add_assoc]

theorem removed_stored (removed : Removed digit key d old new) (formed : Formed digit d old) :
    Stored new k v ↔ k ≠ key ∧ Stored old k v := by
  induction removed with
  | empty d => simp [Stored]
  | gone d value =>
      simp only [Stored, false_iff, not_and]
      exact fun different same => absurd same different
  | other d k' value different =>
      simp only [Stored]
      exact ⟨fun stored => ⟨stored.1 ▸ different, stored⟩, fun stored => stored.2⟩
  | astray d pre children astray =>
      refine ⟨fun stored => ⟨fun same => ?_, stored⟩, fun stored => stored.2⟩
      exact astray (same ▸ (branch_reads digit d pre formed k v stored).1)
  | descend d pre children child result reads removed collapsed ih =>
      rw [collapsed_stored collapsed]
      have inside := ih (formed.2 _).1
      constructor
      · intro found
        obtain ⟨i, stored⟩ := found
        by_cases here : i = digit key (d + pre.length)
        · rw [here, Function.update_self] at stored
          exact ⟨(inside.mp stored).1, _, (inside.mp stored).2⟩
        · rw [Function.update_of_ne here] at stored
          refine ⟨fun same => here ?_, i, stored⟩
          rw [← same]
          exact (reads_last digit ((formed.2 i).2 k v stored)).symm
      · intro found
        obtain ⟨different, i, stored⟩ := found
        refine ⟨i, ?_⟩
        by_cases here : i = digit key (d + pre.length)
        · rw [here, Function.update_self]
          exact inside.mpr ⟨different, here ▸ stored⟩
        · rw [Function.update_of_ne here]
          exact stored

theorem removed_formed (removed : Removed digit key d old new) (formed : Formed digit d old) : Formed digit d new := by
  induction removed with
  | empty d => trivial
  | gone d value => trivial
  | other d k value different => trivial
  | astray d pre children astray => exact formed
  | descend d pre children child result reads removed collapsed ih =>
      apply collapsed_formed digit collapsed
      intro i
      by_cases here : i = digit key (d + pre.length)
      · rw [here, Function.update_self]
        refine ⟨ih (formed.2 _).1, fun k v stored => ?_⟩
        exact (formed.2 _).2 k v ((removed_stored digit removed (formed.2 _).1).mp stored).2
      · rw [Function.update_of_ne here]
        exact formed.2 i

end Updates

end PrefixTrie
