import CeremonyClient.Lib.Go

set_option autoImplicit false

namespace GoSem

variable {σ τ α β : Type}

variable {value : α} {state : σ} {run : Go α} {change : σ → σ} {after : σ} {view : σ → τ}

-- A failing call keeps the changes it made before it failed, so the state is threaded outside the result.
abbrev StateGo (σ α : Type) := ExceptT Fault (StateM σ) α

def StateGo.on (run : StateGo σ α) (state : σ) : Go α × σ := StateT.run run.run state

def call (run : Go α) : StateGo σ α := ExceptT.mk (pure run)

def modifyState (change : σ → σ) : StateGo σ Unit := fun state => (.ok (), change state)

def readState : StateGo σ σ := fun state => (.ok state, state)

@[simp] theorem on_pure : StateGo.on (pure value) state = (.ok value, state) := rfl

@[simp] theorem on_call : StateGo.on (call run) state = (run, state) := rfl

@[simp] theorem on_modify_state : StateGo.on (modifyState change) state = (.ok (), change state) := rfl

@[simp] theorem on_read_state : StateGo.on readState state = (.ok state, state) := rfl

variable {first : StateGo σ α} {next : α → StateGo σ β}

theorem on_bind :
    StateGo.on (first >>= next) state = match first.on state with
      | (.ok value, after) => (next value).on after
      | (.error fault, after) => (.error fault, after) := by
  simp only [StateGo.on, bind, ExceptT.bind, ExceptT.run, ExceptT.mk, StateT.bind, StateT.run]
  rcases first state with ⟨fault | value, after⟩ <;> rfl

theorem on_bind_ok {result : β} :
    StateGo.on (first >>= next) state = (.ok result, after) ↔
      ∃ value between, first.on state = (.ok value, between) ∧ (next value).on between = (.ok result, after) := by
  rw [on_bind]
  rcases first.on state with ⟨fault | value, between⟩ <;> simp

theorem on_call_bind_result : (StateGo.on (call run >>= next) state).1 = run >>= fun value => ((next value).on state).1 := by
  rw [on_bind, on_call]
  cases run <;> rfl

theorem on_call_ok : StateGo.on (call run) state = (.ok value, after) ↔ run = .ok value ∧ after = state := by
  simp [Prod.ext_iff, eq_comm]

theorem on_read_state_ok {value : σ} : StateGo.on readState state = (.ok value, after) ↔ value = state ∧ after = state := by
  simp [Prod.ext_iff, eq_comm]

theorem on_modify_state_ok {value : Unit} : StateGo.on (modifyState change) state = (.ok value, after) ↔ after = change state := by
  simp [Prod.ext_iff, eq_comm]

-- A computation that leaves a part of the state alone, whether it fails or not.
def Keeps (view : σ → τ) (run : StateGo σ α) : Prop := ∀ state, view (run.on state).2 = view state

theorem Keeps.done {view : σ → τ} {run : StateGo σ α} {state after : σ} {result : Go α} (keeps : Keeps view run)
    (ran : run.on state = (result, after)) : view after = view state := by
  have same := keeps state
  rwa [ran] at same

theorem keeps_pure : Keeps view (pure value) := fun _ => rfl

theorem keeps_call : Keeps view (call run) := fun _ => rfl

theorem keeps_read : Keeps view readState := fun _ => rfl

theorem keeps_modify (same : ∀ state, view (change state) = view state) : Keeps view (modifyState change) := same

theorem keeps_bind (view : σ → τ) (first : StateGo σ α) (next : α → StateGo σ β) (begun : Keeps view first)
    (later : ∀ value, Keeps view (next value)) : Keeps view (first >>= next) := by
  intro state
  have before := begun state
  rw [on_bind]
  rcases ran : first.on state with ⟨fault | value, between⟩
  · rw [ran] at before
    exact before
  · rw [ran] at before
    exact (later value between).trans before

theorem keeps_for_each {ι : Type} (view : σ → τ) (body : ι → StateGo σ PUnit) (items : List ι)
    (each : ∀ item, Keeps view (body item)) : Keeps view (items.forM body) := by
  induction items with
  | nil => exact keeps_pure
  | cons item tail ih => exact keeps_bind view _ _ (each item) fun _ => ih

theorem keeps_map {ι : Type} {body : ι → StateGo σ α} {items : List ι} (each : ∀ item, Keeps view (body item)) :
    Keeps view (items.mapM body) := by
  induction items with
  | nil => exact keeps_pure
  | cons item tail ih =>
      rw [List.mapM_cons]
      exact keeps_bind view _ _ (each item) fun _ => keeps_bind view _ _ ih fun _ => keeps_pure

theorem on_for_each_ran {ι : Type} {body : ι → StateGo σ PUnit} {items : List ι} {value : PUnit}
    (done : StateGo.on (items.forM body) state = (.ok value, after)) :
    ∀ item ∈ items, ∃ before between result, (body item).on before = (.ok result, between) := by
  induction items generalizing state with
  | nil => simp
  | cons item tail ih =>
      rw [List.forM, on_bind_ok] at done
      obtain ⟨result, between, first, rest⟩ := done
      exact List.forall_mem_cons.mpr ⟨⟨state, between, result, first⟩, ih rest⟩

theorem on_for_each_view {ι : Type} (view : σ → τ) (effect : τ → ι → τ) {body : ι → StateGo σ PUnit} {items : List ι}
    (each : ∀ item state after value, (body item).on state = (.ok value, after) → view after = effect (view state) item) {value : PUnit}
    (done : StateGo.on (items.forM body) state = (.ok value, after)) : view after = items.foldl effect (view state) := by
  induction items generalizing state with
  | nil =>
      rw [List.forM, on_pure, Prod.mk.injEq] at done
      rw [← done.2, List.foldl_nil]
  | cons item tail ih =>
      rw [List.forM, on_bind_ok] at done
      obtain ⟨_, between, first, rest⟩ := done
      rw [ih rest, each item state between _ first, List.foldl_cons]

end GoSem
