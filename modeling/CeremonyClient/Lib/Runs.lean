import Mathlib.Data.FinEnum
import Mathlib.Tactic

set_option autoImplicit false

namespace GoSem

variable {σ ι : Type} (step : ι → σ → σ)

variable {state : σ}

-- An action that is not enabled leaves the state as it is, so every list of actions is an interleaving.
def runActions (actions : List ι) (state : σ) : σ := actions.foldl (fun state action => step action state) state

@[simp] theorem run_nil : runActions step [] state = state := rfl

@[simp] theorem run_cons {action : ι} {actions : List ι} :
    runActions step (action :: actions) state = runActions step actions (step action state) := rfl

theorem run_append {first second : List ι} :
    runActions step (first ++ second) state = runActions step second (runActions step first state) :=
  List.foldl_append

theorem run_invariant (holds : σ → Prop) (kept : ∀ action state, holds state → holds (step action state)) (actions : List ι)
    (state : σ) (start : holds state) : holds (runActions step actions state) := by
  induction actions generalizing state with
  | nil => exact start
  | cons action tail ih => exact ih (step action state) (kept action state start)

theorem run_holds_iff (inv holds : σ → Prop) (good : ι → σ → Prop) (kept : ∀ action state, inv state → inv (step action state))
    (exact_step : ∀ action state, inv state → holds state → (holds (step action state) ↔ good action state)) (actions : List ι)
    (state : σ) (start : inv state) (begun : holds state) :
    (∀ front rest, actions = front ++ rest → holds (runActions step front state)) ↔
      ∀ front action rest, actions = front ++ action :: rest → good action (runActions step front state) := by
  constructor
  · intro throughout front action rest isSplit
    have reached := run_invariant step inv kept front state start
    have before := throughout front (action :: rest) isSplit
    have after := throughout (front ++ [action]) rest (by rw [isSplit, List.append_assoc]; rfl)
    rw [run_append] at after
    exact (exact_step action _ reached before).mp after
  · intro allGood front
    induction front using List.reverseRecOn with
    | nil => exact fun _ _ => begun
    | append_singleton front action ih =>
        intro rest isSplit
        rw [List.append_assoc, List.singleton_append] at isSplit
        have before := ih (action :: rest) isSplit
        have reached := run_invariant step inv kept front state start
        rw [run_append]
        exact (exact_step action _ reached before).mpr (allGood front action rest isSplit)

theorem orbit_trapped {α : Type} [DecidableEq α] (turn : α → α) (start : α) (trap : Finset α)
    (held : ∀ n ≤ trap.card, turn^[n] start ∈ trap) (n : Nat) : turn^[n] start ∈ trap := by
  obtain ⟨i, early, j, late, different, same⟩ := Finset.exists_ne_map_eq_of_card_lt_of_maps_to
    (f := fun k => turn^[k] start) (s := Finset.range (trap.card + 1)) (t := trap)
    (by rw [Finset.card_range]; omega) fun k inside => held k (by have := Finset.mem_range.mp inside; omega)
  rw [Finset.mem_range] at early late
  have back : ∀ a b, a < b → b ≤ trap.card → turn^[a] start = turn^[b] start → turn^[n] start ∈ trap := by
    intro a b before inside isSame
    induction n using Nat.strongRecOn with
    | ind n ih =>
        by_cases short : n ≤ trap.card
        · exact held n short
        · have earlier : turn^[n] start = turn^[n - b + a] start := by
            conv => lhs; rw [show n = n - b + b by omega]
            rw [Function.iterate_add_apply, Function.iterate_add_apply, isSame]
          rw [earlier]
          exact ih (n - b + a) (by omega)
  rcases Nat.lt_or_gt_of_ne different with first | second
  · exact back i j first (by omega) same
  · exact back j i second (by omega) same.symm

end GoSem
