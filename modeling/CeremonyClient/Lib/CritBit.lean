import Mathlib.Data.FinEnum
import Mathlib.Tactic

set_option autoImplicit false

namespace CritBit

-- Whole keys at the leaves, and at every inner node the critical position of its two sides.
inductive Node (κ ν ι : Type) where
  | external (key : κ) (value : ν)
  | internal (position : ι) (left right : Node κ ν ι)
deriving DecidableEq

variable {κ ν ι : Type}

def entries : Node κ ν ι → List (κ × ν)
  | .external key value => [(key, value)]
  | .internal _ left right => entries left ++ entries right

def keys (tree : Node κ ν ι) : List κ := (entries tree).map Prod.fst

def lookup (dir : κ → ι → Bool) (query : κ) : Node κ ν ι → κ × ν
  | .external key value => (key, value)
  | .internal position left right => if dir query position then lookup dir query right else lookup dir query left

def setValue (dir : κ → ι → Bool) (query : κ) (fresh : ν) : Node κ ν ι → Node κ ν ι
  | .external key _ => .external key fresh
  | .internal position left right =>
      if dir query position then .internal position left (setValue dir query fresh right)
      else .internal position (setValue dir query fresh left) right

-- Descend along the query until the stop test holds or a leaf is reached, and put the
-- grafted subtree there.
def place (dir : κ → ι → Bool) (stop : ι → Bool) (query : κ) (graft : Node κ ν ι → Node κ ν ι) :
    Node κ ν ι → Node κ ν ι
  | .external key value => graft (.external key value)
  | .internal position left right =>
      if stop position then graft (.internal position left right)
      else if dir query position then .internal position left (place dir stop query graft right)
      else .internal position (place dir stop query graft left) right

def fork (position : ι) (side : Bool) (leaf child : Node κ ν ι) : Node κ ν ι :=
  if side then .internal position leaf child else .internal position child leaf

def delete [DecidableEq κ] (dir : κ → ι → Bool) (query : κ) : Node κ ν ι → Option (Node κ ν ι)
  | .external key value => if query = key then none else some (.external key value)
  | .internal position left right =>
      if dir query position then
        match delete dir query right with
        | none => some left
        | some rest => some (.internal position left rest)
      else
        match delete dir query left with
        | none => some right
        | some rest => some (.internal position rest right)

def optionalEntries : Option (Node κ ν ι) → List (κ × ν)
  | none => []
  | some tree => entries tree

def AgreeBefore (dir : κ → ι → Bool) (rank : ι → Nat) (valid : ι → Prop) (position : ι) (a b : κ) : Prop :=
  ∀ earlier, valid earlier → rank earlier < rank position → dir a earlier = dir b earlier

def WellFormed (dir : κ → ι → Bool) (rank : ι → Nat) (valid : ι → Prop) : Node κ ν ι → Prop
  | .external _ _ => True
  | .internal position left right =>
      valid position ∧ (∀ key ∈ keys left, dir key position = false) ∧ (∀ key ∈ keys right, dir key position = true) ∧
        (∀ a ∈ keys left ++ keys right, ∀ b ∈ keys left ++ keys right, AgreeBefore dir rank valid position a b) ∧
        WellFormed dir rank valid left ∧ WellFormed dir rank valid right

@[simp] theorem keys_external {key : κ} {value : ν} : keys (.external key value : Node κ ν ι) = [key] := rfl

@[simp] theorem keys_internal {position : ι} {left right : Node κ ν ι} :
    keys (.internal position left right) = keys left ++ keys right := by
  simp [keys, entries]

theorem entry_key_mem (tree : Node κ ν ι) (key : κ) (value : ν) (stored : (key, value) ∈ entries tree) :
    key ∈ keys tree := List.mem_map.mpr ⟨(key, value), stored, rfl⟩

variable {tree : Node κ ν ι}

theorem lookup_stored {dir : κ → ι → Bool} {query : κ} : lookup dir query tree ∈ entries tree := by
  induction tree with
  | external key value => simp [lookup, entries]
  | internal position left right leftIH rightIH =>
      rw [lookup, entries]
      split
      · exact List.mem_append_right _ rightIH
      · exact List.mem_append_left _ leftIH

theorem lookup_key_mem (dir : κ → ι → Bool) (query : κ) (tree : Node κ ν ι) : (lookup dir query tree).1 ∈ keys tree :=
  entry_key_mem tree _ _ lookup_stored

section WellFormedTrees

variable (dir : κ → ι → Bool) (rank : ι → Nat) (valid : ι → Prop)

theorem lookup_present (formed : WellFormed dir rank valid tree) {key : κ} {value : ν} (stored : (key, value) ∈ entries tree) :
    lookup dir key tree = (key, value) := by
  induction tree with
  | external other old =>
      have same : (key, value) = (other, old) := by simpa [entries] using stored
      rw [lookup, same]
  | internal position left right leftIH rightIH =>
      obtain ⟨-, lowSide, highSide, -, formedLeft, formedRight⟩ := formed
      rcases List.mem_append.mp stored with here | here
      · rw [lookup, lowSide key (entry_key_mem left key value here)]
        exact leftIH formedLeft here
      · rw [lookup, highSide key (entry_key_mem right key value here), if_pos rfl]
        exact rightIH formedRight here

theorem keys_nodup (formed : WellFormed dir rank valid tree) : (keys tree).Nodup := by
  induction tree with
  | external key value => simp
  | internal position left right leftIH rightIH =>
      obtain ⟨-, lowSide, highSide, -, formedLeft, formedRight⟩ := formed
      rw [keys_internal, List.nodup_append]
      refine ⟨leftIH formedLeft, rightIH formedRight, ?_⟩
      intro a inLeft b inRight same
      have low := lowSide a inLeft
      rw [same, highSide b inRight] at low
      cases low

theorem set_value_entries [DecidableEq κ] (formed : WellFormed dir rank valid tree) {query : κ} {fresh : ν} (present : query ∈ keys tree) :
    entries (setValue dir query fresh tree) = (entries tree).map fun e => if e.1 = query then (e.1, fresh) else e := by
  induction tree with
  | external key value =>
      have same : query = key := by simpa using present
      simp [setValue, entries, same]
  | internal position left right leftIH rightIH =>
      obtain ⟨-, lowSide, highSide, -, formedLeft, formedRight⟩ := formed
      have untouched : ∀ side : Node κ ν ι, query ∉ keys side →
          (entries side).map (fun e => if e.1 = query then (e.1, fresh) else e) = entries side := by
        intro side absent
        refine (List.map_congr_left ?_).trans (List.map_id _)
        rintro ⟨key, value⟩ stored
        have different : key ≠ query := fun same => absent (same ▸ entry_key_mem side key value stored)
        simp [different]
      rw [keys_internal] at present
      rcases List.mem_append.mp present with here | here
      · have low := lowSide query here
        have absent : query ∉ keys right := fun there => by rw [highSide query there] at low; cases low
        simp [setValue, low, entries, leftIH formedLeft here, untouched right absent]
      · have high := highSide query here
        have absent : query ∉ keys left := fun there => by rw [lowSide query there] at high; cases high
        simp [setValue, high, entries, rightIH formedRight here, untouched left absent]

theorem set_value_keys (tree : Node κ ν ι) (query : κ) (fresh : ν) : keys (setValue dir query fresh tree) = keys tree := by
  induction tree with
  | external key value => rfl
  | internal position left right leftIH rightIH =>
      rw [setValue]
      split
      · rw [keys_internal, keys_internal, rightIH]
      · rw [keys_internal, keys_internal, leftIH]

theorem set_value_formed (formed : WellFormed dir rank valid tree) {query : κ} {fresh : ν} :
    WellFormed dir rank valid (setValue dir query fresh tree) := by
  induction tree with
  | external key value => trivial
  | internal position left right leftIH rightIH =>
      obtain ⟨validHere, lowSide, highSide, agree, formedLeft, formedRight⟩ := formed
      rw [setValue]
      split
      · refine ⟨validHere, lowSide, ?_, ?_, formedLeft, rightIH formedRight⟩
        · rw [set_value_keys]; exact highSide
        · rw [set_value_keys]; exact agree
      · refine ⟨validHere, ?_, highSide, ?_, leftIH formedLeft, formedRight⟩
        · rw [set_value_keys]; exact lowSide
        · rw [set_value_keys]; exact agree

theorem fork_entries {position : ι} {side : Bool} {query : κ} {value : ν} {child : Node κ ν ι} :
    (entries (fork position side (.external query value) child)).Perm ((query, value) :: entries child) := by
  cases side with
  | false => simp [fork, entries]
  | true => simp [fork, entries]

theorem place_entries (stop : ι → Bool) (position : ι) (side : Bool) (query : κ) (value : ν) (tree : Node κ ν ι) :
    (entries (place dir stop query (fork position side (.external query value)) tree)).Perm
      ((query, value) :: entries tree) := by
  induction tree with
  | external key old => exact fork_entries
  | internal here left right leftIH rightIH =>
      rw [place]
      split
      · exact fork_entries
      · split
        · exact (rightIH.append_left (entries left)).trans List.perm_middle
        · exact leftIH.append_right (entries right)

theorem place_keys (stop : ι → Bool) (position : ι) (side : Bool) (query : κ) (value : ν) (tree : Node κ ν ι) :
    (keys (place dir stop query (fork position side (.external query value)) tree)).Perm (query :: keys tree) := by
  simpa [keys] using (place_entries dir stop position side query value tree).map Prod.fst

theorem fork_formed (position : ι) (query nearest : κ) (value : ν) (child : Node κ ν ι) (validHere : valid position)
    (formed : WellFormed dir rank valid child) (differ : dir query position ≠ dir nearest position)
    (agree : AgreeBefore dir rank valid position query nearest)
    (sameSide : ∀ key ∈ keys child, dir key position = dir nearest position)
    (sameBefore : ∀ key ∈ keys child, AgreeBefore dir rank valid position key nearest) :
    WellFormed dir rank valid (fork position (dir nearest position) (.external query value) child) := by
  have nearAll : ∀ key ∈ query :: keys child, AgreeBefore dir rank valid position key nearest := by
    intro key member
    rcases List.mem_cons.mp member with same | inside
    · rw [same]; exact agree
    · exact sameBefore key inside
  have pairs : ∀ a ∈ query :: keys child, ∀ b ∈ query :: keys child, AgreeBefore dir rank valid position a b :=
    fun a inA b inB earlier validEarlier less =>
      (nearAll a inA earlier validEarlier less).trans (nearAll b inB earlier validEarlier less).symm
  cases side : dir nearest position with
  | false =>
      have other : dir query position = true := by simpa [side] using differ
      refine ⟨validHere, fun key inside => (sameSide key inside).trans side, by simpa using other, ?_, formed, trivial⟩
      intro a inA b inB
      exact pairs a (by simpa [or_comm] using inA) b (by simpa [or_comm] using inB)
  | true =>
      have other : dir query position = false := by simpa [side] using differ
      exact ⟨validHere, by simpa using other, fun key inside => (sameSide key inside).trans side, pairs, trivial, formed⟩

-- Every node the descent passes has a smaller rank than the new position, and every key below the place where it
-- stops agrees with the nearest leaf up to and including it.
theorem place_formed (stop : ι → Bool) (position : ι) (query : κ) (value : ν) (validHere : valid position)
    (stops : ∀ other, stop other = true ↔ rank position < rank other)
    (rankInjective : ∀ other, valid other → rank other = rank position → other = position)
    (tree : Node κ ν ι) (formed : WellFormed dir rank valid tree)
    (differ : dir query position ≠ dir (lookup dir query tree).1 position)
    (agree : AgreeBefore dir rank valid position query (lookup dir query tree).1) :
    WellFormed dir rank valid
      (place dir stop query (fork position (dir (lookup dir query tree).1 position) (.external query value)) tree) := by
  induction tree with
  | external key old =>
      apply fork_formed dir rank valid position query key value (.external key old) validHere trivial differ agree
      · intro other member
        rw [List.mem_singleton.mp member]
      · intro other member earlier _ _
        rw [List.mem_singleton.mp member]
  | internal here left right leftIH rightIH =>
      have whole := formed
      obtain ⟨validNode, lowSide, highSide, together, formedLeft, formedRight⟩ := formed
      have nearStored := lookup_key_mem dir query (.internal here left right)
      rw [keys_internal] at nearStored
      rw [place]
      split
      · rename_i stopped
        have less := (stops here).mp stopped
        refine fork_formed dir rank valid position query _ value _ validHere whole differ agree ?_ ?_
        · intro key member
          rw [keys_internal] at member
          exact together key member _ nearStored position validHere less
        · intro key member earlier validEarlier before
          rw [keys_internal] at member
          exact together key member _ nearStored earlier validEarlier (before.trans less)
      · rename_i goesOn
        have notAbove : ¬ rank position < rank here := fun less => goesOn ((stops here).mpr less)
        -- A node at the new position itself would already separate the query from its nearest leaf.
        have nearSide : dir (lookup dir query (.internal here left right)).1 here = dir query here := by
          rw [lookup]
          split
          · rename_i high
            rw [high]; exact highSide _ (lookup_key_mem dir query right)
          · rename_i low
            rw [Bool.not_eq_true] at low
            rw [low]; exact lowSide _ (lookup_key_mem dir query left)
        have below : rank here < rank position := by
          rcases Nat.lt_or_ge (rank here) (rank position) with less | atLeast
          · exact less
          · have same := rankInjective here validNode (by omega)
            refine absurd ?_ differ
            rw [← same]
            exact nearSide.symm
        have queryAgrees : ∀ key ∈ keys left ++ keys right, AgreeBefore dir rank valid here query key :=
          fun key member earlier validEarlier before =>
            (agree earlier validEarlier (before.trans below)).trans
              (together _ nearStored key member earlier validEarlier before)
        have pairs : ∀ a ∈ query :: (keys left ++ keys right), ∀ b ∈ query :: (keys left ++ keys right),
            AgreeBefore dir rank valid here a b := by
          intro a inA b inB earlier validEarlier before
          rcases List.mem_cons.mp inA with sameA | oldA
          · rcases List.mem_cons.mp inB with sameB | oldB
            · rw [sameA, sameB]
            · rw [sameA]; exact queryAgrees b oldB earlier validEarlier before
          · rcases List.mem_cons.mp inB with sameB | oldB
            · rw [sameB]; exact (queryAgrees a oldA earlier validEarlier before).symm
            · exact together a oldA b oldB earlier validEarlier before
        split
        · rename_i high
          have inner : lookup dir query (.internal here left right) = lookup dir query right := by rw [lookup, if_pos high]
          rw [inner] at differ agree ⊢
          have fresh := place_keys dir stop position (dir (lookup dir query right).1 position) query value right
          have within : ∀ key ∈ keys left ++ keys (place dir stop query
              (fork position (dir (lookup dir query right).1 position) (.external query value)) right),
              key ∈ query :: (keys left ++ keys right) := by
            intro key member
            rcases List.mem_append.mp member with inLeft | inRight
            · exact List.mem_cons_of_mem _ (List.mem_append_left _ inLeft)
            · rcases List.mem_cons.mp (fresh.mem_iff.mp inRight) with same | old
              · rw [same]; exact List.mem_cons_self
              · exact List.mem_cons_of_mem _ (List.mem_append_right _ old)
          refine ⟨validNode, lowSide, ?_, fun a inA b inB => pairs a (within a inA) b (within b inB),
            formedLeft, rightIH formedRight differ agree⟩
          intro key member
          rcases List.mem_cons.mp (fresh.mem_iff.mp member) with same | old
          · rw [same]; exact high
          · exact highSide key old
        · rename_i low
          have inner : lookup dir query (.internal here left right) = lookup dir query left := by rw [lookup, if_neg low]
          rw [inner] at differ agree ⊢
          have fresh := place_keys dir stop position (dir (lookup dir query left).1 position) query value left
          have within : ∀ key ∈ keys (place dir stop query
              (fork position (dir (lookup dir query left).1 position) (.external query value)) left) ++ keys right,
              key ∈ query :: (keys left ++ keys right) := by
            intro key member
            rcases List.mem_append.mp member with inLeft | inRight
            · rcases List.mem_cons.mp (fresh.mem_iff.mp inLeft) with same | old
              · rw [same]; exact List.mem_cons_self
              · exact List.mem_cons_of_mem _ (List.mem_append_left _ old)
            · exact List.mem_cons_of_mem _ (List.mem_append_right _ inRight)
          refine ⟨validNode, ?_, highSide, fun a inA b inB => pairs a (within a inA) b (within b inB),
            leftIH formedLeft differ agree, formedRight⟩
          intro key member
          rcases List.mem_cons.mp (fresh.mem_iff.mp member) with same | old
          · rw [same]; simpa using low
          · exact lowSide key old

theorem delete_sublist [DecidableEq κ] {query : κ} : List.Sublist (optionalEntries (delete dir query tree)) (entries tree) := by
  induction tree with
  | external key value =>
      by_cases same : query = key
      · rw [delete, if_pos same]
        exact List.nil_sublist _
      · rw [delete, if_neg same]
        exact List.Sublist.refl _
  | internal position left right leftIH rightIH =>
      rw [delete, entries]
      split
      · cases removed : delete dir query right with
        | none => exact List.sublist_append_left _ _
        | some rest =>
            rw [removed] at rightIH
            exact rightIH.append_left _
      · cases removed : delete dir query left with
        | none => exact List.sublist_append_right _ _
        | some rest =>
            rw [removed] at leftIH
            exact leftIH.append_right _

theorem delete_entries [DecidableEq κ] (query : κ) (tree : Node κ ν ι) (formed : WellFormed dir rank valid tree) :
    optionalEntries (delete dir query tree) = (entries tree).filter fun e => e.1 ≠ query := by
  induction tree with
  | external key value =>
      by_cases same : query = key
      · simp [delete, optionalEntries, entries, same]
      · simp [delete, optionalEntries, entries, same, Ne.symm same]
  | internal position left right leftIH rightIH =>
      obtain ⟨-, lowSide, highSide, -, formedLeft, formedRight⟩ := formed
      have untouched : ∀ side : Node κ ν ι, query ∉ keys side →
          (entries side).filter (fun e => e.1 ≠ query) = entries side := by
        intro side absent
        apply List.filter_eq_self.mpr
        rintro ⟨key, value⟩ stored
        have different : key ≠ query := fun same => absent (same ▸ entry_key_mem side key value stored)
        simpa using different
      rw [entries, List.filter_append, delete]
      cases side : dir query position with
      | true =>
          have absent : query ∉ keys left := fun there => by rw [lowSide query there] at side; cases side
          rw [untouched left absent, ← rightIH formedRight, if_pos rfl]
          cases delete dir query right <;> simp [optionalEntries, entries]
      | false =>
          have absent : query ∉ keys right := fun there => by rw [highSide query there] at side; cases side
          rw [untouched right absent, ← leftIH formedLeft, if_neg (by simp)]
          cases delete dir query left <;> simp [optionalEntries, entries]

theorem delete_keys_subset [DecidableEq κ] (query : κ) (tree rest : Node κ ν ι) (formed : WellFormed dir rank valid tree)
    (left : delete dir query tree = some rest) : keys rest ⊆ keys tree := by
  have kept := delete_entries dir rank valid query tree formed
  rw [left] at kept
  intro key member
  obtain ⟨e, stored, same⟩ := List.mem_map.mp member
  rw [optionalEntries] at kept
  rw [kept] at stored
  exact same ▸ entry_key_mem tree e.1 e.2 (List.mem_filter.mp stored).1

theorem delete_formed [DecidableEq κ] (query : κ) (tree rest : Node κ ν ι) (formed : WellFormed dir rank valid tree)
    (remains : delete dir query tree = some rest) : WellFormed dir rank valid rest := by
  induction tree generalizing rest with
  | external key value =>
      rw [delete] at remains
      split at remains
      · cases remains
      · rw [← Option.some.inj remains]; trivial
  | internal position left right leftIH rightIH =>
      obtain ⟨validHere, lowSide, highSide, together, formedLeft, formedRight⟩ := formed
      rw [delete] at remains
      split at remains
      · cases removed : delete dir query right with
        | none =>
            rw [removed] at remains
            rw [← Option.some.inj remains]; exact formedLeft
        | some child =>
            rw [removed] at remains
            rw [← Option.some.inj remains]
            have inside := delete_keys_subset dir rank valid query right child formedRight removed
            have kept : keys left ++ keys child ⊆ keys left ++ keys right :=
              List.append_subset.mpr ⟨List.subset_append_left _ _, fun key member => List.mem_append_right _ (inside member)⟩
            exact ⟨validHere, lowSide, fun key member => highSide key (inside member),
              fun a inA b inB => together a (kept inA) b (kept inB), formedLeft, rightIH child formedRight removed⟩
      · cases removed : delete dir query left with
        | none =>
            rw [removed] at remains
            rw [← Option.some.inj remains]; exact formedRight
        | some child =>
            rw [removed] at remains
            rw [← Option.some.inj remains]
            have inside := delete_keys_subset dir rank valid query left child formedLeft removed
            have kept : keys child ++ keys right ⊆ keys left ++ keys right :=
              List.append_subset.mpr ⟨fun key member => List.mem_append_left _ (inside member), List.subset_append_right _ _⟩
            exact ⟨validHere, fun key member => lowSide key (inside member), highSide,
              fun a inA b inB => together a (kept inA) b (kept inB), leftIH child formedLeft removed, formedRight⟩

end WellFormedTrees

end CritBit
