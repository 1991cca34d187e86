import CeremonyClient.Lib.Go

set_option autoImplicit false

namespace Ceremony

open GoSem

variable {i j fuel : Nat}

section MinHeap

variable {α : Type}

structure MinHeap (α : Type) where
  items : List α

def newMinHeap : MinHeap α := ⟨[]⟩

def swapItems (items : List α) (i j : Nat) : Go (List α) := do
  let left ← index items i
  let right ← index items j
  return (items.set i right).set j left

-- Every round moves to a smaller position, so a fuel of the starting position is enough. Priority may panic.
def upheap (priority : α → Go UInt64) : Nat → List α → Nat → Go (List α)
  | 0, items, _ => .ok items
  | fuel + 1, items, i =>
      if i = 0 then .ok items
      else do
        let parent := (i - 1) / 2
        let item ← index items i
        let own ← priority item
        let above ← index items parent
        let upper ← priority above
        if own ≥ upper then return items
        else
          let swapped ← swapItems items i parent
          upheap priority fuel swapped parent

def MinHeap.push (priority : α → Go UInt64) (h : MinHeap α) (item : α) : Go (MinHeap α) := do
  let items := h.items ++ [item]
  let items ← upheap priority (items.length - 1) items (items.length - 1)
  return ⟨items⟩

def MinHeap.all (h : MinHeap α) : List α := h.items

def pushAll (priority : α → Go UInt64) (items : List α) : Go (MinHeap α) :=
  items.foldlM (fun h item => h.push priority item) newMinHeap

theorem swap_items_perm {items swapped : List α} (done : swapItems items i j = .ok swapped) : swapped.Perm items := by
  obtain ⟨left, readLeft, rest⟩ := (bind_ok_iff _ _ _).mp done
  obtain ⟨right, readRight, result⟩ := (bind_ok_iff _ _ _).mp rest
  obtain ⟨boundLeft, valueLeft⟩ := List.getElem?_eq_some_iff.mp (index_ok_iff.mp readLeft)
  obtain ⟨boundRight, valueRight⟩ := List.getElem?_eq_some_iff.mp (index_ok_iff.mp readRight)
  rw [← Except.ok.inj result, ← valueLeft, ← valueRight]
  exact List.set_set_perm boundLeft boundRight

variable {priority : α → Go UInt64}

theorem upheap_perm {items result : List α} (done : upheap priority fuel items i = .ok result) :
    result.Perm items := by
  induction fuel generalizing items i with
  | zero =>
      rw [← Except.ok.inj done]
  | succ fuel ih =>
      rw [upheap] at done
      split at done
      · rw [← Except.ok.inj done]
      · obtain ⟨item, -, done⟩ := (bind_ok_iff _ _ _).mp done
        obtain ⟨own, -, done⟩ := (bind_ok_iff _ _ _).mp done
        obtain ⟨above, -, done⟩ := (bind_ok_iff _ _ _).mp done
        obtain ⟨upper, -, done⟩ := (bind_ok_iff _ _ _).mp done
        split at done
        · rw [← Except.ok.inj done]
        · obtain ⟨swapped, swap, done⟩ := (bind_ok_iff _ _ _).mp done
          exact (ih done).trans (swap_items_perm swap)

theorem push_perm {h next : MinHeap α} {item : α} (done : h.push priority item = .ok next) :
    next.items.Perm (h.items ++ [item]) := by
  obtain ⟨items, lifted, result⟩ := (bind_ok_iff _ _ _).mp done
  rw [← Except.ok.inj result]
  exact upheap_perm lifted

variable {items : List α}

theorem push_all_perm {start result : MinHeap α}
    (done : items.foldlM (fun h item => h.push priority item) start = .ok result) : result.items.Perm (start.items ++ items) := by
  induction items generalizing start with
  | nil =>
      rw [← Except.ok.inj done, List.append_nil]
  | cons item tail ih =>
      rw [List.foldlM_cons] at done
      obtain ⟨next, pushed, done⟩ := (bind_ok_iff _ _ _).mp done
      have step := (push_perm pushed).append_right tail
      simpa using (ih done).trans step

theorem all_perm {h : MinHeap α} (done : pushAll priority items = .ok h) :
    h.all.Perm items := by
  simpa [newMinHeap, MinHeap.all] using push_all_perm done

theorem swap_items_total (left : i < items.length) (right : j < items.length) :
    ∃ swapped, swapItems items i j = .ok swapped ∧ swapped.length = items.length := by
  refine ⟨(items.set i items[j]).set j items[i], ?_, by simp⟩
  simp [swapItems, index, left, right, pure, Except.pure]

theorem upheap_total (priority : α → Go UInt64) (total : ∀ item, ∃ value, priority item = .ok value) (fuel : Nat)
    (items : List α) (i : Nat) (inside : i < items.length) : ∃ result, upheap priority fuel items i = .ok result := by
  induction fuel generalizing items i with
  | zero => exact ⟨items, rfl⟩
  | succ fuel ih =>
      rw [upheap]
      split
      · exact ⟨items, rfl⟩
      · have parentInside : (i - 1) / 2 < items.length := by omega
        obtain ⟨own, isOwn⟩ := total items[i]
        obtain ⟨upper, isUpper⟩ := total items[(i - 1) / 2]
        simp only [index, List.getElem?_eq_getElem inside, List.getElem?_eq_getElem parentInside, deref_some, ok_bind, isOwn,
          isUpper]
        split
        · exact ⟨items, rfl⟩
        · obtain ⟨swapped, swap, sameLength⟩ := swap_items_total inside parentInside
          rw [swap, ok_bind]
          exact ih swapped _ (by omega)

theorem push_all_total (priority : α → Go UInt64) (total : ∀ item, ∃ value, priority item = .ok value) (items : List α) :
    ∃ h, pushAll priority items = .ok h := by
  suffices any : ∀ start : MinHeap α, ∃ h, items.foldlM (fun h item => h.push priority item) start = .ok h from any newMinHeap
  induction items with
  | nil => exact fun start => ⟨start, rfl⟩
  | cons item tail ih =>
      intro start
      obtain ⟨lifted, done⟩ := upheap_total priority total ((start.items ++ [item]).length - 1) (start.items ++ [item])
        ((start.items ++ [item]).length - 1) (by simp)
      obtain ⟨h, rest⟩ := ih ⟨lifted⟩
      refine ⟨h, ?_⟩
      rw [List.foldlM_cons, MinHeap.push, done, ok_bind, pure_bind]
      exact rest

-- Items that are no smaller than the ones above them are not moved by pushing them in their order.
def HeapOrdered (measure : α → UInt64) (items : List α) : Prop :=
  ∀ i item above, 0 < i → items[i]? = some item → items[(i - 1) / 2]? = some above → measure above ≤ measure item

variable {measure : α → UInt64}

theorem upheap_stays {item : α} (ordered : HeapOrdered measure items) (here : items[i]? = some item) :
    upheap (fun item => .ok (measure item)) fuel items i = .ok items := by
  cases fuel with
  | zero => rfl
  | succ fuel =>
      rw [upheap]
      by_cases top : i = 0
      · rw [if_pos top]
      · obtain ⟨inside, -⟩ := List.getElem?_eq_some_iff.mp here
        obtain ⟨upper, up⟩ : ∃ upper, items[(i - 1) / 2]? = some upper := ⟨_, List.getElem?_eq_getElem (by omega)⟩
        have above := ordered i item upper (by omega) here up
        rw [if_neg top]
        simp only [index, here, up, deref_some, ok_bind, ge_iff_le, if_pos above]
        rfl

theorem push_all_ordered (measure : α → UInt64) (items : List α) (ordered : HeapOrdered measure items) :
    pushAll (fun item => .ok (measure item)) items = .ok ⟨items⟩ := by
  induction items using List.reverseRecOn with
  | nil => rfl
  | append_singleton front item ih =>
      have frontOrdered : HeapOrdered measure front := by
        intro i own above positive here up
        obtain ⟨inside, -⟩ := List.getElem?_eq_some_iff.mp here
        apply ordered i own above positive
        · rw [List.getElem?_append_left inside, here]
        · rw [List.getElem?_append_left (by omega), up]
      have last : (front ++ [item])[(front ++ [item]).length - 1]? = some item := by simp
      rw [pushAll, List.foldlM_append, ← pushAll, ih frontOrdered, ok_bind, List.foldlM_cons, MinHeap.push,
        upheap_stays ordered last]
      rfl

theorem upheap_root {items result : List α} (enough : i ≤ fuel)
    (others : ∀ j item root, j ≠ i → items[j]? = some item → items[0]? = some root → measure root ≤ measure item)
    (done : upheap (fun item => .ok (measure item)) fuel items i = .ok result) {item root : α} (here : result[j]? = some item)
    (first : result[0]? = some root) : measure root ≤ measure item := by
  induction fuel generalizing items i with
  | zero =>
      cases done
      by_cases same : j = i
      · have top : j = 0 := by omega
        rw [top, first] at here
        exact UInt64.le_of_eq (congrArg measure (Option.some.inj here))
      · exact others j item root same here first
  | succ fuel ih =>
      rw [upheap] at done
      by_cases top : i = 0
      · rw [if_pos top] at done
        cases done
        by_cases same : j = i
        · rw [same, top, first] at here
          exact UInt64.le_of_eq (congrArg measure (Option.some.inj here))
        · exact others j item root same here first
      · rw [if_neg top] at done
        obtain ⟨own, readOwn, done⟩ := (bind_ok_iff _ _ _).mp done
        rw [ok_bind] at done
        obtain ⟨above, readAbove, done⟩ := (bind_ok_iff _ _ _).mp done
        rw [ok_bind] at done
        have isOwn := index_ok_iff.mp readOwn
        have isAbove := index_ok_iff.mp readAbove
        obtain ⟨ownInside, -⟩ := List.getElem?_eq_some_iff.mp isOwn
        by_cases stays : measure own ≥ measure above
        · rw [if_pos stays] at done
          cases done
          by_cases same : j = i
          · rw [same, isOwn] at here
            rw [← Option.some.inj here]
            exact UInt64.le_trans (others _ above root (by omega) isAbove first) stays
          · exact others j item root same here first
        · rw [if_neg stays] at done
          have below : measure own ≤ measure above := UInt64.le_of_lt (UInt64.not_le.mp stays)
          simp only [swapItems, readOwn, readAbove, ok_bind, pure, Except.pure] at done
          refine ih (by omega) ?_ done
          intro k other top' notParent isOther isTop
          rw [List.getElem?_set_ne (Ne.symm notParent)] at isOther
          by_cases root0 : (i - 1) / 2 = 0
          · rw [root0, List.getElem?_set_self (by rw [List.length_set]; omega)] at isTop
            rw [← Option.some.inj isTop]
            rw [root0] at isAbove
            by_cases same : k = i
            · rw [same, List.getElem?_set_self ownInside] at isOther
              rw [← Option.some.inj isOther]
              exact below
            · rw [List.getElem?_set_ne (Ne.symm same)] at isOther
              exact UInt64.le_trans below (others k other above same isOther isAbove)
          · rw [List.getElem?_set_ne root0, List.getElem?_set_ne top] at isTop
            by_cases same : k = i
            · rw [same, List.getElem?_set_self ownInside] at isOther
              rw [← Option.some.inj isOther]
              exact others _ above top' (by omega) isAbove isTop
            · rw [List.getElem?_set_ne (Ne.symm same)] at isOther
              exact others k other top' same isOther isTop

theorem push_all_root {h : MinHeap α}
    (done : pushAll (fun item => .ok (measure item)) items = .ok h) {item root : α} (here : h.items[j]? = some item)
    (first : h.items[0]? = some root) : measure root ≤ measure item := by
  induction items using List.reverseRecOn generalizing h j item root with
  | nil =>
      cases done
      cases here
  | append_singleton front last ih =>
      rw [pushAll, List.foldlM_append, ← pushAll] at done
      obtain ⟨start, ran, done⟩ := (bind_ok_iff _ _ _).mp done
      rw [List.foldlM_cons] at done
      obtain ⟨next, pushed, done⟩ := (bind_ok_iff _ _ _).mp done
      cases done
      obtain ⟨lifted, rose, result⟩ := (bind_ok_iff _ _ _).mp pushed
      cases result
      refine upheap_root (Nat.le_refl _) ?_ rose here first
      intro k other top notLast isOther isTop
      have inside : k < start.items.length := by
        obtain ⟨bound, -⟩ := List.getElem?_eq_some_iff.mp isOther
        rw [List.length_append, List.length_singleton] at bound notLast
        omega
      rw [List.getElem?_append_left inside] at isOther
      rw [List.getElem?_append_left (by omega)] at isTop
      exact ih ran isOther isTop

end MinHeap

end Ceremony
