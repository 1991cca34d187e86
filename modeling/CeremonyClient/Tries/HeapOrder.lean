import CeremonyClient.Lib.ImplicitHeap
import CeremonyClient.Tries.MinHeap

set_option autoImplicit false

namespace Ceremony

open GoSem
open ImplicitHeap

variable {α : Type}

def smallerOf (priority : α → Go UInt64) (items : List α) (candidate smallest : Nat) : Go Nat :=
  if candidate < items.length then do
    let item ← index items candidate
    let own ← priority item
    let best ← index items smallest
    let least ← priority best
    return if own < least then candidate else smallest
  else .ok smallest

def downheap (priority : α → Go UInt64) : Nat → List α → Nat → Go (List α)
  | 0, _, _ => .error .outOfFuel
  | fuel + 1, items, i => do
      let smallest ← smallerOf priority items (2 * i + 1) i
      let smallest ← smallerOf priority items (2 * i + 2) smallest
      if smallest = i then return items
      else
        let swapped ← swapItems items i smallest
        downheap priority fuel swapped smallest

-- The position grows in every round, so the length of the items is fuel enough.
def MinHeap.pop (priority : α → Go UInt64) (h : MinHeap α) : Go (Option α × MinHeap α) :=
  if h.items.length = 0 then .ok (none, h)
  else do
    let min ← index h.items 0
    let lastIdx := h.items.length - 1
    let last ← index h.items lastIdx
    let items := (h.items.set 0 last).take lastIdx
    if 0 < items.length then
      let items ← downheap priority items.length items 0
      return (some min, ⟨items⟩)
    else return (some min, ⟨items⟩)

inductive HeapCall (α : Type) where
  | push (item : α)
  | pop

def heapStep (priority : α → Go UInt64) (state : MinHeap α × List α) : HeapCall α → Go (MinHeap α × List α)
  | .push item => do
      let h ← state.1.push priority item
      return (h, state.2)
  | .pop => do
      let (item, h) ← state.1.pop priority
      return (h, state.2 ++ item.toList)

def runHeap (priority : α → Go UInt64) (calls : List (HeapCall α)) : Go (MinHeap α × List α) :=
  calls.foldlM (heapStep priority) (newMinHeap, [])

def pushedItems (calls : List (HeapCall α)) : List α :=
  calls.filterMap fun
    | .push item => some item
    | .pop => none

-- Positions behind the items weigh more than every priority.
def weightOf (measure : α → UInt64) (items : List α) (k : Nat) : Nat := (items[k]?).elim (2 ^ 64) fun item => (measure item).toNat

section Weights

variable {measure : α → UInt64} {items : List α} {i j k : Nat} {item : α}

theorem weight_stored (measure : α → UInt64) (here : items[k]? = some item) : weightOf measure items k = (measure item).toNat := by
  rw [weightOf, here, Option.elim_some]

theorem weight_behind (behind : items.length ≤ k) : weightOf measure items k = 2 ^ 64 := by
  rw [weightOf, List.getElem?_eq_none behind, Option.elim_none]

theorem weight_le : weightOf measure items k ≤ 2 ^ 64 := by
  rw [weightOf]
  cases items[k]? with
  | none => rw [Option.elim_none]
  | some item =>
      rw [Option.elim_some]
      exact Nat.le_of_lt (measure item).toNat_lt

theorem heap_ordered_iff : HeapOrdered measure items ↔ Ordered (weightOf measure items) := by
  constructor
  · intro ordered k positive
    by_cases inside : k < items.length
    · have here := List.getElem?_eq_getElem inside
      have up := List.getElem?_eq_getElem (show (k - 1) / 2 < items.length by omega)
      rw [weight_stored _ here, weight_stored _ up]
      exact UInt64.le_iff_toNat_le.mp (ordered k _ _ positive here up)
    · rw [weight_behind (Nat.not_lt.mp inside)]
      exact weight_le
  · intro ordered k item above positive here up
    have inOrder := ordered k positive
    rw [weight_stored _ here, weight_stored _ up] at inOrder
    exact UInt64.le_iff_toNat_le.mpr inOrder

theorem swap_items_weight {swapped : List α} (done : swapItems items i j = .ok swapped) :
    weightOf measure swapped = swapAt (weightOf measure items) i j := by
  obtain ⟨left, readLeft, rest⟩ := (bind_ok_iff _ _ _).mp done
  obtain ⟨right, readRight, result⟩ := (bind_ok_iff _ _ _).mp rest
  have isLeft := index_ok_iff.mp readLeft
  have isRight := index_ok_iff.mp readRight
  obtain ⟨insideLeft, -⟩ := List.getElem?_eq_some_iff.mp isLeft
  obtain ⟨insideRight, -⟩ := List.getElem?_eq_some_iff.mp isRight
  rw [← Except.ok.inj result]
  funext k
  by_cases atRight : k = j
  · rw [atRight, swap_right, weight_stored _ isLeft, weight_stored _ (List.getElem?_set_self (by rw [List.length_set]; exact insideRight))]
  · by_cases atLeft : k = i
    · rw [atLeft, swap_left, weight_stored _ isRight, weightOf, List.getElem?_set_ne (fun same => atRight (atLeft.trans same.symm)),
        List.getElem?_set_self insideLeft, Option.elim_some]
    · rw [swap_other _ atLeft atRight, weightOf, List.getElem?_set_ne (Ne.symm atRight), List.getElem?_set_ne (Ne.symm atLeft), weightOf]

theorem upheap_ordered {fuel : Nat} {result : List α} (enough : i ≤ fuel) (ready : UpReady (weightOf measure items) i)
    (done : upheap (fun item => .ok (measure item)) fuel items i = .ok result) : Ordered (weightOf measure result) := by
  induction fuel generalizing items i with
  | zero =>
      rw [← Except.ok.inj done]
      exact up_stop ready (Or.inl (Nat.le_zero.mp enough))
  | succ fuel ih =>
      rw [upheap] at done
      by_cases top : i = 0
      · rw [if_pos top] at done
        rw [← Except.ok.inj done]
        exact up_stop ready (Or.inl top)
      · rw [if_neg top] at done
        obtain ⟨own, readOwn, done⟩ := (bind_ok_iff _ _ _).mp done
        rw [ok_bind] at done
        obtain ⟨above, readAbove, done⟩ := (bind_ok_iff _ _ _).mp done
        rw [ok_bind] at done
        have isOwn := weight_stored measure (index_ok_iff.mp readOwn)
        have isAbove := weight_stored measure (index_ok_iff.mp readAbove)
        by_cases stays : measure own ≥ measure above
        · rw [if_pos stays] at done
          rw [← Except.ok.inj done]
          refine up_stop ready (Or.inr ?_)
          rw [isOwn, isAbove]
          exact UInt64.le_iff_toNat_le.mp stays
        · rw [if_neg stays] at done
          obtain ⟨swapped, swap, done⟩ := (bind_ok_iff _ _ _).mp done
          refine ih (by omega) ?_ done
          rw [swap_items_weight swap]
          refine up_move ready (by omega) ?_
          rw [isOwn, isAbove]
          exact UInt64.lt_iff_toNat_lt.mp (UInt64.not_le.mp stays)

theorem smaller_of_eq (inside : j < items.length) : smallerOf (fun item => .ok (measure item)) items k j =
    .ok (if weightOf measure items k < weightOf measure items j then k else j) := by
  have here := List.getElem?_eq_getElem inside
  rw [smallerOf]
  by_cases stored : k < items.length
  · have there := List.getElem?_eq_getElem stored
    simp only [if_pos stored, index, here, there, deref_some, ok_bind, weight_stored _ here, weight_stored _ there, UInt64.lt_iff_toNat_lt]
    rfl
  · have heavy := (weight_le : weightOf measure items j ≤ 2 ^ 64)
    rw [if_neg stored, if_neg]
    rw [weight_behind (Nat.not_lt.mp stored)]
    omega

theorem lighter_inside (lighter : weightOf measure items k < weightOf measure items j) : k < items.length := by
  by_contra outside
  rw [weight_behind (Nat.not_lt.mp outside)] at lighter
  have atMost : weightOf measure items j ≤ 2 ^ 64 := weight_le
  omega

theorem least_child (measure : α → UInt64) (inside : i < items.length) : ∃ first smallest,
    smallerOf (fun item => .ok (measure item)) items (2 * i + 1) i = .ok first ∧
    smallerOf (fun item => .ok (measure item)) items (2 * i + 2) first = .ok smallest ∧ smallest < items.length ∧
    (smallest = i ∨ (smallest = 2 * i + 1 ∨ smallest = 2 * i + 2) ∧ weightOf measure items smallest < weightOf measure items i) ∧
    weightOf measure items smallest ≤ weightOf measure items (2 * i + 1) ∧
    weightOf measure items smallest ≤ weightOf measure items (2 * i + 2) := by
  have isFirst : smallerOf (fun item => .ok (measure item)) items (2 * i + 1) i = _ := smaller_of_eq inside
  by_cases left : weightOf measure items (2 * i + 1) < weightOf measure items i
  · rw [if_pos left] at isFirst
    have isSmallest : smallerOf (fun item => .ok (measure item)) items (2 * i + 2) (2 * i + 1) = _ := smaller_of_eq (lighter_inside left)
    by_cases right : weightOf measure items (2 * i + 2) < weightOf measure items (2 * i + 1)
    · rw [if_pos right] at isSmallest
      exact ⟨_, _, isFirst, isSmallest, lighter_inside right, Or.inr ⟨Or.inr rfl, Nat.lt_trans right left⟩, Nat.le_of_lt right, Nat.le_refl _⟩
    · rw [if_neg right] at isSmallest
      exact ⟨_, _, isFirst, isSmallest, lighter_inside left, Or.inr ⟨Or.inl rfl, left⟩, Nat.le_refl _, Nat.not_lt.mp right⟩
  · rw [if_neg left] at isFirst
    have isSmallest : smallerOf (fun item => .ok (measure item)) items (2 * i + 2) i = _ := smaller_of_eq inside
    by_cases right : weightOf measure items (2 * i + 2) < weightOf measure items i
    · rw [if_pos right] at isSmallest
      exact ⟨_, _, isFirst, isSmallest, lighter_inside right, Or.inr ⟨Or.inr rfl, right⟩,
        Nat.le_trans (Nat.le_of_lt right) (Nat.not_lt.mp left), Nat.le_refl _⟩
    · rw [if_neg right] at isSmallest
      exact ⟨_, _, isFirst, isSmallest, inside, Or.inl rfl, Nat.not_lt.mp left, Nat.not_lt.mp right⟩

theorem downheap_ordered (measure : α → UInt64) {fuel : Nat} (inside : i < items.length) (enough : items.length ≤ fuel + i)
    (ready : DownReady (weightOf measure items) i) : ∃ result, downheap (fun item => .ok (measure item)) fuel items i = .ok result ∧
      Ordered (weightOf measure result) ∧ result.Perm items := by
  induction fuel generalizing items i with
  | zero => omega
  | succ fuel ih =>
      obtain ⟨first, smallest, isFirst, isSmallest, stored, place, left, right⟩ := least_child measure inside
      simp only [downheap, isFirst, isSmallest, ok_bind]
      by_cases stays : smallest = i
      · rw [if_pos stays]
        rw [stays] at left right
        exact ⟨items, rfl, down_stop ready left right, List.Perm.refl _⟩
      · rw [if_neg stays]
        obtain ⟨isChild, lighter⟩ := place.resolve_left stays
        obtain ⟨swapped, swap, sameLength⟩ := swap_items_total inside stored
        have moved := down_move ready isChild lighter left right
        rw [← swap_items_weight swap] at moved
        obtain ⟨result, ran, ordered, perm⟩ := ih (i := smallest) (by omega) (by omega) moved
        rw [swap, ok_bind]
        exact ⟨result, ran, ordered, perm.trans (swap_items_perm swap)⟩

-- The new last item has no children, so only its own edge can be out of order.
theorem appended_ready (ordered : Ordered (weightOf measure items)) (item : α) :
    UpReady (weightOf measure (items ++ [item])) items.length := by
  have behind : ∀ k, items.length < k → weightOf measure (items ++ [item]) k = 2 ^ 64 := by
    intro k past
    exact weight_behind (by rw [List.length_append, List.length_singleton]; omega)
  have kept : ∀ k, k < items.length → weightOf measure (items ++ [item]) k = weightOf measure items k := by
    intro k inside
    rw [weightOf, List.getElem?_append_left inside, weightOf]
  refine ⟨fun k positive notLast => ?_, fun k _ _ under => ?_⟩
  · by_cases inside : k < items.length
    · rw [kept k inside, kept _ (by omega)]
      exact ordered k positive
    · rw [behind k (by omega)]
      exact weight_le
  · rw [behind k (by omega)]
    exact weight_le

theorem replaced_ready (ordered : Ordered (weightOf measure items)) (item : α) :
    DownReady (weightOf measure ((items.set 0 item).take (items.length - 1))) 0 := by
  have kept : ∀ k, 0 < k → k < items.length - 1 →
      weightOf measure ((items.set 0 item).take (items.length - 1)) k = weightOf measure items k := by
    intro k positive inside
    rw [weightOf, List.getElem?_take_of_lt inside, List.getElem?_set_ne (by omega), weightOf]
  refine ⟨fun k positive notRoot => ?_, fun _ _ impossible => absurd impossible (Nat.lt_irrefl 0)⟩
  by_cases inside : k < items.length - 1
  · rw [kept k positive inside, kept _ (by omega) (by omega)]
    exact ordered k positive
  · have heavy : weightOf measure ((items.set 0 item).take (items.length - 1)) k = 2 ^ 64 :=
      weight_behind (by rw [List.length_take, List.length_set]; omega)
    rw [heavy]
    exact weight_le

end Weights

section Runs

variable (measure : α → UInt64) {h : MinHeap α}

theorem push_ordered (ordered : HeapOrdered measure h.items) (item : α) : ∃ next, h.push (fun item => .ok (measure item)) item = .ok next ∧
    HeapOrdered measure next.items ∧ next.items.Perm (h.items ++ [item]) := by
  have last : (h.items ++ [item]).length - 1 = h.items.length := by simp
  obtain ⟨lifted, rose⟩ := upheap_total (fun item => .ok (measure item)) (fun item => ⟨measure item, rfl⟩) h.items.length
    (h.items ++ [item]) h.items.length (by simp)
  refine ⟨⟨lifted⟩, ?_, ?_, upheap_perm rose⟩
  · rw [MinHeap.push]
    simp only [last, rose, ok_bind]
    rfl
  · exact heap_ordered_iff.mpr (upheap_ordered (Nat.le_refl _) (appended_ready (heap_ordered_iff.mp ordered) item) rose)

theorem root_lightest {items : List α} {first other : α} (ordered : HeapOrdered measure items) (root : items[0]? = some first)
    (member : other ∈ items) : measure first ≤ measure other := by
  obtain ⟨k, here⟩ := List.mem_iff_getElem?.mp member
  have least := root_least (heap_ordered_iff.mp ordered) k
  rw [weight_stored measure root, weight_stored measure here] at least
  exact UInt64.le_iff_toNat_le.mpr least

theorem last_to_front {first second : α} {rest : List α} : ∃ last front, (first :: second :: rest)[rest.length + 1]? = some last ∧
    ((first :: second :: rest).set 0 last).take (rest.length + 1) = last :: front ∧ (last :: front).Perm (second :: rest) := by
  refine ⟨(second :: rest).getLast (List.cons_ne_nil _ _), (second :: rest).dropLast, ?_, ?_, ?_⟩
  · rw [List.getElem?_cons_succ, ← List.getLast?_eq_some_getLast, List.getLast?_eq_getElem?]
    rfl
  · rw [List.set_cons_zero, List.take_succ_cons, List.dropLast_eq_take]
    rfl
  · have split := List.dropLast_append_getLast (List.cons_ne_nil second rest)
    have turned := List.perm_append_singleton ((second :: rest).getLast (List.cons_ne_nil _ _)) (second :: rest).dropLast
    rw [split] at turned
    exact turned.symm

theorem pop_ordered (ordered : HeapOrdered measure h.items) : ∃ popped next, h.pop (fun item => .ok (measure item)) = .ok (popped, next) ∧
    HeapOrdered measure next.items ∧ h.items.Perm (popped.toList ++ next.items) ∧ (popped = none ↔ h.items = []) ∧
    ∀ item, popped = some item → item ∈ h.items ∧ ∀ other ∈ h.items, measure item ≤ measure other := by
  obtain ⟨items⟩ := h
  have lightest : ∀ first rest, items = first :: rest → ∀ item, some first = some item →
      item ∈ items ∧ ∀ other ∈ items, measure item ≤ measure other := by
    intro first rest isItems item same
    rw [← Option.some.inj same]
    have root : items[0]? = some first := by rw [isItems, List.getElem?_cons_zero]
    exact ⟨List.mem_of_getElem? root, fun other member => root_lightest measure ordered root member⟩
  rcases items with _ | ⟨first, _ | ⟨second, rest⟩⟩
  · exact ⟨none, ⟨[]⟩, rfl, ordered, List.Perm.refl _, by simp, fun item impossible => by cases impossible⟩
  · refine ⟨some first, ⟨[]⟩, rfl, ?_, List.Perm.refl _, by simp, lightest first [] rfl⟩
    intro k item above _ here
    cases here
  · obtain ⟨last, front, isLast, isTaken, perm⟩ := last_to_front
    have ready := replaced_ready (heap_ordered_iff.mp ordered) last
    rw [show (first :: second :: rest).length - 1 = rest.length + 1 from rfl, isTaken] at ready
    obtain ⟨result, ran, inOrder, permResult⟩ := downheap_ordered measure (Nat.succ_pos _) (Nat.le_refl _) ready
    refine ⟨some first, ⟨result⟩, ?_, heap_ordered_iff.mpr inOrder, ?_, by simp, lightest first _ rfl⟩
    · rw [MinHeap.pop, if_neg (by simp)]
      simp only [List.length_cons, Nat.add_sub_cancel, index, List.getElem?_cons_zero, isLast, isTaken, deref_some, ok_bind,
        if_pos (Nat.succ_pos _)]
      rw [ran]
      rfl
    · exact ((permResult.trans perm).symm).cons first

theorem heap_step_ordered (state : MinHeap α × List α) (call : HeapCall α) (ordered : HeapOrdered measure state.1.items) :
    ∃ next, heapStep (fun item => .ok (measure item)) state call = .ok next ∧ HeapOrdered measure next.1.items ∧
      (next.1.items ++ next.2).Perm (state.1.items ++ state.2 ++ pushedItems [call]) := by
  cases call with
  | push item =>
      obtain ⟨next, pushed, inOrder, perm⟩ := push_ordered measure ordered item
      refine ⟨(next, state.2), by rw [heapStep, pushed]; rfl, inOrder, ?_⟩
      refine (perm.append_right state.2).trans ?_
      rw [List.append_assoc, List.append_assoc]
      exact List.perm_append_comm.append_left state.1.items
  | pop =>
      obtain ⟨popped, next, ran, inOrder, perm, -⟩ := pop_ordered measure ordered
      refine ⟨(next, state.2 ++ popped.toList), by rw [heapStep, ran]; rfl, inOrder, ?_⟩
      have shuffled : (next.items ++ (state.2 ++ popped.toList)).Perm (popped.toList ++ next.items ++ state.2) := by
        rw [List.append_assoc]
        refine (List.perm_append_comm.append_left next.items).trans ?_
        rw [← List.append_assoc, ← List.append_assoc]
        exact List.perm_append_comm.append_right state.2
      exact (shuffled.trans (perm.symm.append_right state.2)).trans (by rw [show pushedItems [HeapCall.pop] = ([] : List α) from rfl, List.append_nil])

theorem run_heap_ordered (calls : List (HeapCall α)) : ∃ state, runHeap (fun item => .ok (measure item)) calls = .ok state ∧
    HeapOrdered measure state.1.items ∧ (state.1.items ++ state.2).Perm (pushedItems calls) := by
  induction calls using List.reverseRecOn with
  | nil =>
      refine ⟨(newMinHeap, []), rfl, ?_, List.Perm.refl _⟩
      intro k item above _ here
      cases here
  | append_singleton front call ih =>
      obtain ⟨before, ran, ordered, perm⟩ := ih
      obtain ⟨next, stepped, inOrder, permStep⟩ := heap_step_ordered measure before call ordered
      refine ⟨next, ?_, inOrder, ?_⟩
      · rw [runHeap, List.foldlM_append, ← runHeap, ran, ok_bind, List.foldlM_cons, stepped]
        rfl
      · rw [pushedItems, List.filterMap_append]
        exact permStep.trans (perm.append_right _)

theorem min_heap_order (calls : List (HeapCall α)) :
    (∃ h popped, runHeap (fun item => .ok (measure item)) calls = .ok (h, popped) ∧ HeapOrdered measure h.items ∧
      (h.items ++ popped).Perm (pushedItems calls)) ∧
    ∀ front rest, calls = front ++ .pop :: rest → ∃ before earlier popped after,
      runHeap (fun item => .ok (measure item)) front = .ok (before, earlier) ∧
      before.pop (fun item => .ok (measure item)) = .ok (popped, after) ∧ (popped = none ↔ before.items = []) ∧
      ∀ item, popped = some item → item ∈ before.items ∧ ∀ other ∈ before.items, measure item ≤ measure other := by
  constructor
  · obtain ⟨⟨h, popped⟩, ran, ordered, perm⟩ := run_heap_ordered measure calls
    exact ⟨h, popped, ran, ordered, perm⟩
  · intro front rest _
    obtain ⟨⟨before, earlier⟩, ran, ordered, -⟩ := run_heap_ordered measure front
    obtain ⟨popped, after, answered, -, -, empty, lightest⟩ := pop_ordered measure ordered
    exact ⟨before, earlier, popped, after, ran, answered, empty, lightest⟩

end Runs

end Ceremony
