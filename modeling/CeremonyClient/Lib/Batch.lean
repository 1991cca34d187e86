import CeremonyClient.Lib.Table

set_option autoImplicit false

namespace GoSem

namespace Table

section Batch

variable {κ α : Type} [DecidableEq κ] [LT κ] [DecidableLT κ]

-- Batches of changes that are committed in one go. Reads see the table from before the batch.
inductive BatchOp (κ α : Type) where
  | set (key : κ) (value : α)
  | delete (key : κ)
  | deleteRange (low high : κ)

def BatchOp.touches (op : BatchOp κ α) (other : κ) : Prop :=
  match op with
  | .set key _ => other = key
  | .delete key => other = key
  | .deleteRange low high => ¬ other < low ∧ other < high

instance (op : BatchOp κ α) (other : κ) : Decidable (op.touches other) :=
  match op with
  | .set key _ => inferInstanceAs (Decidable (other = key))
  | .delete key => inferInstanceAs (Decidable (other = key))
  | .deleteRange low high => inferInstanceAs (Decidable (¬ other < low ∧ other < high))

def BatchOp.left : BatchOp κ α → Option α
  | .set _ value => some value
  | .delete _ => none
  | .deleteRange _ _ => none

def apply (table : Table κ α) : BatchOp κ α → Table κ α
  | .set key value => table.insert key value
  | .delete key => table.erase key
  | .deleteRange low high => (table.keys.filter fun key => decide (¬ key < low ∧ key < high)).foldl (fun table key => table.erase key) table

def commit (ops : List (BatchOp κ α)) (table : Table κ α) : Table κ α := ops.foldl apply table

variable {table : Table κ α}

omit [LT κ] [DecidableLT κ] in
theorem lookup_erase_each {keys : List κ} {other : κ} :
    (keys.foldl (fun table key => table.erase key) table).lookup other = if other ∈ keys then none else table.lookup other := by
  induction keys generalizing table with
  | nil => simp
  | cons key tail ih =>
      rw [List.foldl_cons, ih]
      by_cases same : other = key
      · rw [same, AList.lookup_erase, ite_self, if_pos List.mem_cons_self]
      · simp [same, AList.lookup_erase_ne same]

omit [DecidableEq κ] [DecidableLT κ] in
@[simp] theorem touches_set (key other : κ) (value : α) : (BatchOp.set key value).touches other ↔ other = key := Iff.rfl

omit [DecidableEq κ] [DecidableLT κ] in
@[simp] theorem touches_delete {key other : κ} : (BatchOp.delete key : BatchOp κ α).touches other ↔ other = key := Iff.rfl

theorem lookup_apply {op : BatchOp κ α} {other : κ} :
    (apply table op).lookup other = if op.touches other then op.left else table.lookup other := by
  cases op with
  | set key value =>
      by_cases same : other = key
      · rw [same, apply, if_pos ((touches_set key key value).mpr rfl)]
        exact AList.lookup_insert table
      · rw [apply, if_neg ((touches_set key other value).not.mpr same), AList.lookup_insert_ne same]
  | delete key =>
      by_cases same : other = key
      · rw [same, apply, if_pos (touches_delete.mpr rfl)]
        exact AList.lookup_erase key table
      · rw [apply, if_neg (touches_delete.not.mpr same), AList.lookup_erase_ne same]
  | deleteRange low high =>
      have within : (BatchOp.deleteRange low high : BatchOp κ α).touches other ↔ ¬ other < low ∧ other < high := Iff.rfl
      rw [apply, lookup_erase_each]
      simp only [List.mem_filter, decide_eq_true_eq]
      by_cases inside : ¬ other < low ∧ other < high
      · rw [if_pos (within.mpr inside)]
        by_cases stored : other ∈ table.keys
        · rw [if_pos ⟨stored, inside⟩]
          rfl
        · rw [if_neg fun both => stored both.1]
          exact AList.lookup_eq_none.mpr stored
      · rw [if_neg fun both => inside both.2, if_neg fun touched => inside (within.mp touched)]

variable {ops : List (BatchOp κ α)}

theorem lookup_commit_other {key : κ} (untouched : ∀ op ∈ ops, ¬ op.touches key) :
    (commit ops table).lookup key = table.lookup key := by
  induction ops generalizing table with
  | nil => rfl
  | cons op tail ih =>
      obtain ⟨here, later⟩ := List.forall_mem_cons.mp untouched
      rw [commit, List.foldl_cons, ← commit, ih later, lookup_apply, if_neg here]

theorem commit_append {first second : List (BatchOp κ α)} :
    commit (first ++ second) table = commit second (commit first table) := List.foldl_append

theorem lookup_commit_last (front back : List (BatchOp κ α)) (op : BatchOp κ α) (table : Table κ α) {key : κ} (touched : op.touches key)
    (untouched : ∀ later ∈ back, ¬ later.touches key) : (commit (front ++ op :: back) table).lookup key = op.left := by
  rw [commit_append, commit, List.foldl_cons, ← commit, lookup_commit_other untouched, lookup_apply, if_pos touched]

theorem lookup_commit_agreed {key : κ} {left : Option α}
    (agreed : ∀ op ∈ ops, op.touches key → op.left = left) (touched : ∃ op ∈ ops, op.touches key) :
    (commit ops table).lookup key = left := by
  induction ops using List.reverseRecOn with
  | nil => simp at touched
  | append_singleton front op ih =>
      rw [commit_append, commit, List.foldl_cons, List.foldl_nil, lookup_apply]
      by_cases here : op.touches key
      · rw [if_pos here, agreed op (by simp) here]
      · rw [if_neg here]
        obtain ⟨earlier, isEarlier, touches⟩ := touched
        rcases List.mem_append.mp isEarlier with inFront | isOp
        · exact ih (fun other inside => agreed other (List.mem_append_left _ inside)) ⟨earlier, inFront, touches⟩
        · rw [List.mem_singleton.mp isOp] at touches
          exact absurd touches here

theorem stored_commit_sets (table : Table κ α) {key : κ} (sets : ∀ op ∈ ops, op.left ≠ none) :
    (commit ops table).lookup key ≠ none ↔ table.lookup key ≠ none ∨ ∃ op ∈ ops, op.touches key := by
  induction ops generalizing table with
  | nil => simp [commit]
  | cons op tail ih =>
      obtain ⟨here, later⟩ := List.forall_mem_cons.mp sets
      rw [commit, List.foldl_cons, ← commit, ih _ later, lookup_apply]
      by_cases touched : op.touches key
      · simp [touched, here]
      · simp [touched]

end Batch

section Scans

variable {κ α : Type} [DecidableEq κ] [LT κ] [DecidableLT κ]

theorem range_eq {table : Table κ α} {low high : κ} (total : ∀ a b : κ, ¬ b < a ∨ ¬ a < b)
    (trans : ∀ a b c : κ, ¬ b < a → ¬ c < b → ¬ c < a) (irrefl : ∀ a b : κ, a < b → ¬ b < a) {entries : List (κ × α)}
    (ordered : entries.Pairwise fun left right => left.1 < right.1)
    (members : ∀ key value, (key, value) ∈ entries ↔ table.lookup key = some value ∧ ¬ key < low ∧ key < high) :
    table.range low high = entries := by
  have distinct : entries.Nodup := by
    refine ordered.imp fun {left right} below same => ?_
    rw [same] at below
    exact irrefl _ _ below below
  have perm := (List.perm_ext_iff_of_nodup (range_nodup table low high) distinct).mpr fun entry => by
    rw [mem_range table low high entry.1 entry.2, members]
  refine List.Perm.eq_of_pairwise ?_ (range_ordered total trans) (ordered.imp fun {left right} below => irrefl _ _ below) perm
  intro left right isLeft isRight below above
  obtain ⟨i, iBound, isLeft⟩ := List.mem_iff_getElem.mp (perm.mem_iff.mp isLeft)
  obtain ⟨j, jBound, isRight⟩ := List.mem_iff_getElem.mp isRight
  rcases Nat.lt_trichotomy i j with before | same | after
  · exact absurd (List.pairwise_iff_getElem.mp ordered i j iBound jBound before) (by rw [isLeft, isRight]; exact above)
  · rw [← isLeft, ← isRight]
    simp only [same]
  · exact absurd (List.pairwise_iff_getElem.mp ordered j i jBound iBound after) (by rw [isLeft, isRight]; exact below)

end Scans

end Table

end GoSem
