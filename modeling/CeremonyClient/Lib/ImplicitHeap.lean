import Mathlib.Order.Basic
import Mathlib.Tactic

set_option autoImplicit false

-- The binary tree whose node k has the parent (k - 1) / 2, with a greatest weight where nothing is stored.
namespace ImplicitHeap

variable {κ : Type}

def swapAt (weight : Nat → κ) (i j : Nat) (k : Nat) : κ := if k = i then weight j else if k = j then weight i else weight k

theorem swap_left (weight : Nat → κ) (i j : Nat) : swapAt weight i j i = weight j := if_pos rfl

theorem swap_right (weight : Nat → κ) (i j : Nat) : swapAt weight i j j = weight i := by
  rw [swapAt]
  split
  · rename_i same
    rw [same]
  · exact if_pos rfl

theorem swap_other {i j k : Nat} (weight : Nat → κ) (left : k ≠ i) (right : k ≠ j) : swapAt weight i j k = weight k := by
  rw [swapAt, if_neg left, if_neg right]

variable [LinearOrder κ] {weight : Nat → κ} {i child : Nat}

def Ordered (weight : Nat → κ) : Prop := ∀ k, 0 < k → weight ((k - 1) / 2) ≤ weight k

-- What lies below a position is no lighter than what lies above it.
def Bridged (weight : Nat → κ) (i : Nat) : Prop := ∀ k, 0 < k → 0 < i → (k - 1) / 2 = i → weight ((i - 1) / 2) ≤ weight k

-- Only the edge into the position may be out of order.
structure UpReady (weight : Nat → κ) (i : Nat) : Prop where
  others : ∀ k, 0 < k → k ≠ i → weight ((k - 1) / 2) ≤ weight k
  bridged : Bridged weight i

-- Only the edges out of the position may be out of order.
structure DownReady (weight : Nat → κ) (i : Nat) : Prop where
  others : ∀ k, 0 < k → (k - 1) / 2 ≠ i → weight ((k - 1) / 2) ≤ weight k
  bridged : Bridged weight i

theorem root_least (ordered : Ordered weight) (k : Nat) : weight 0 ≤ weight k := by
  induction k using Nat.strongRecOn with
  | ind k ih =>
      by_cases root : k = 0
      · rw [root]
      · exact le_trans (ih ((k - 1) / 2) (by omega)) (ordered k (by omega))

theorem up_stop (ready : UpReady weight i) (stops : i = 0 ∨ weight ((i - 1) / 2) ≤ weight i) : Ordered weight := by
  intro k positive
  by_cases here : k = i
  · rcases stops with root | inOrder
    · omega
    · rw [here]
      exact inOrder
  · exact ready.others k positive here

theorem up_move (ready : UpReady weight i) (positive : 0 < i) (lighter : weight i < weight ((i - 1) / 2)) :
    UpReady (swapAt weight i ((i - 1) / 2)) ((i - 1) / 2) := by
  have above : ∀ k, 0 < k → (k - 1) / 2 = (i - 1) / 2 → weight i ≤ weight k := by
    intro k isChild sibling
    by_cases here : k = i
    · rw [here]
    · have inOrder := ready.others k isChild here
      rw [sibling] at inOrder
      exact le_trans (le_of_lt lighter) inOrder
  refine ⟨fun k isChild notParent => ?_, fun k isChild inside below => ?_⟩
  · by_cases here : k = i
    · rw [here, swap_right, swap_left]
      exact le_of_lt lighter
    · rw [swap_other weight here notParent]
      by_cases under : (k - 1) / 2 = i
      · rw [under, swap_left]
        exact ready.bridged k isChild positive under
      · by_cases sibling : (k - 1) / 2 = (i - 1) / 2
        · rw [sibling, swap_right]
          exact above k isChild sibling
        · rw [swap_other weight under sibling]
          exact ready.others k isChild here
  · have grand := ready.others ((i - 1) / 2) inside (by omega)
    rw [swap_other weight (by omega) (by omega)]
    by_cases here : k = i
    · rw [here, swap_left]
      exact grand
    · rw [swap_other weight here (by omega)]
      have inOrder := ready.others k isChild here
      rw [below] at inOrder
      exact le_trans grand inOrder

theorem down_stop (ready : DownReady weight i) (left : weight i ≤ weight (2 * i + 1)) (right : weight i ≤ weight (2 * i + 2)) :
    Ordered weight := by
  intro k positive
  by_cases under : (k - 1) / 2 = i
  · rw [under]
    rcases (show k = 2 * i + 1 ∨ k = 2 * i + 2 by omega) with isLeft | isRight
    · rw [isLeft]
      exact left
    · rw [isRight]
      exact right
  · exact ready.others k positive under

theorem down_move (ready : DownReady weight i) (isChild : child = 2 * i + 1 ∨ child = 2 * i + 2) (lighter : weight child < weight i)
    (left : weight child ≤ weight (2 * i + 1)) (right : weight child ≤ weight (2 * i + 2)) :
    DownReady (swapAt weight i child) child := by
  have parent : (child - 1) / 2 = i := by omega
  refine ⟨fun k positive notUnder => ?_, fun k positive _ under => ?_⟩
  · by_cases here : k = i
    · rw [here, swap_left, swap_other weight (by omega) (by omega)]
      exact ready.bridged child (by omega) (by omega) parent
    · by_cases sibling : (k - 1) / 2 = i
      · rw [sibling, swap_left]
        by_cases same : k = child
        · rw [same, swap_right]
          exact le_of_lt lighter
        · rw [swap_other weight here same]
          rcases (show k = 2 * i + 1 ∨ k = 2 * i + 2 by omega) with isLeft | isRight
          · rw [isLeft]
            exact left
          · rw [isRight]
            exact right
      · rw [swap_other weight here (by omega), swap_other weight sibling notUnder]
        exact ready.others k positive sibling
  · rw [parent, swap_left, swap_other weight (by omega) (by omega)]
    have inOrder := ready.others k positive (by omega)
    rw [under] at inOrder
    exact inOrder

end ImplicitHeap
