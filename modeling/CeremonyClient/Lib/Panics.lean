import CeremonyClient.Lib.State

set_option autoImplicit false

namespace GoSem

variable {σ α β : Type}

variable {value : α} {cause : GoError} {run : Go α} {items : List α} {body : α → Go PUnit} {state : σ}

def panics : Go α → Bool
  | .error .panic => true
  | _ => false

-- A call that does not panic: it returns, fails with an error, or keeps running.
def Calm (run : Go α) : Prop := panics run = false

instance (run : Go α) : Decidable (Calm run) := inferInstanceAs (Decidable (_ = false))

@[simp] theorem calm_ok : Calm (.ok value : Go α) := rfl

@[simp] theorem calm_pure : Calm (pure value : Go α) := calm_ok

@[simp] theorem calm_raise : Calm (raise cause : Go α) := rfl

@[simp] theorem not_calm_crash : ¬ Calm (crash : Go α) := Bool.noConfusion

theorem calm_bind_iff {first : Go α} {next : α → Go β} :
    Calm (first >>= next) ↔ Calm first ∧ ∀ value, first = .ok value → Calm (next value) := by
  cases first with
  | error fault => cases fault <;> simp [Calm, panics]
  | ok value => simp

@[simp] theorem calm_map_iff {change : α → β} : Calm (change <$> run) ↔ Calm run := by
  cases run with
  | ok value => exact iff_of_true calm_ok calm_ok
  | error fault => cases fault <;> exact Iff.rfl

@[simp] theorem calm_fail_if {condition : Prop} [Decidable condition] : Calm (failIf condition cause) := by
  by_cases holds : condition <;> simp [failIf, holds]

@[simp] theorem calm_deref_iff {pointer : Option α} : Calm (deref pointer) ↔ pointer.isSome := by
  cases pointer <;> simp

@[simp] theorem calm_index_iff {position : Nat} : Calm (index items position) ↔ position < items.length := by
  simp [index]

@[simp] theorem calm_map_err_iff {change : GoError → GoError} : Calm (mapErr change run) ↔ Calm run := by
  cases run with
  | ok value => simp [mapErr]
  | error fault => cases fault <;> simp [mapErr, Calm, raise, panics]

@[simp] theorem calm_wrap_err_iff (text : String) (run : Go α) : Calm (wrapErr text run) ↔ Calm run := calm_map_err_iff

@[simp] theorem calm_replace_err_iff : Calm (replaceErr cause run) ↔ Calm run :=
  calm_map_err_iff

@[simp] theorem calm_attempt_iff : Calm (attempt run) ↔ Calm run := by
  cases run with
  | ok value => simp [attempt]
  | error fault => cases fault <;> simp [attempt, Calm, panics]

@[simp] theorem calm_be_uint64_iff {bytes : Bytes} : Calm (beUint64 bytes) ↔ 8 ≤ bytes.length := by
  by_cases short : bytes.length < 8
  · simp [beUint64, short]
  · simp [beUint64, short, Nat.le_of_not_lt short]

theorem calm_for_each : (∀ item ∈ items, Calm (body item)) → Calm (items.forM body) := by
  intro each
  induction items with
  | nil => exact calm_ok
  | cons item tail ih =>
      obtain ⟨head, rest⟩ := List.forall_mem_cons.mp each
      exact calm_bind_iff.mpr ⟨head, fun _ _ => ih rest⟩

theorem for_each_ok_iff {value : PUnit} : items.forM body = .ok value ↔ ∀ item ∈ items, body item = .ok () := by
  induction items with
  | nil => simp [List.forM, pure, Except.pure]
  | cons item tail ih =>
      rw [List.forM, bind_ok_iff, List.forall_mem_cons]
      constructor
      · rintro ⟨_, head, rest⟩
        exact ⟨head, ih.mp rest⟩
      · rintro ⟨head, rest⟩
        exact ⟨(), head, ih.mpr rest⟩

theorem calm_fold (body : β → α → Go β) (items : List α) (start : β)
    (each : ∀ item ∈ items, ∀ value, Calm (body value item)) : Calm (items.foldlM body start) := by
  induction items generalizing start with
  | nil => exact calm_ok
  | cons item tail ih =>
      obtain ⟨head, rest⟩ := List.forall_mem_cons.mp each
      rw [List.foldlM_cons, calm_bind_iff]
      exact ⟨head start, fun value _ => ih value rest⟩

theorem calm_map_m (items : List α) (body : α → Go β) (each : ∀ item ∈ items, Calm (body item)) : Calm (items.mapM body) := by
  induction items with
  | nil => exact calm_ok
  | cons item tail ih =>
      obtain ⟨head, rest⟩ := List.forall_mem_cons.mp each
      rw [List.mapM_cons, calm_bind_iff]
      refine ⟨head, fun _ _ => calm_bind_iff.mpr ⟨ih rest, fun _ _ => calm_pure⟩⟩

-- A computation over shared state that does not panic when it starts there.
def CalmOn (run : StateGo σ α) (state : σ) : Prop := Calm (run.on state).1

instance (run : StateGo σ α) (state : σ) : Decidable (CalmOn run state) := inferInstanceAs (Decidable (Calm _))

@[simp] theorem calm_on_pure (value : α) (state : σ) : CalmOn (pure value) state := calm_ok

@[simp] theorem calm_on_call_iff : CalmOn (call run) state ↔ Calm run := Iff.rfl

@[simp] theorem calm_on_modify {change : σ → σ} : CalmOn (modifyState change) state := calm_ok

@[simp] theorem calm_on_read : CalmOn readState state := calm_ok

theorem calm_on_bind_iff {first : StateGo σ α} {next : α → StateGo σ β} :
    CalmOn (first >>= next) state ↔
      CalmOn first state ∧ ∀ value after, first.on state = (.ok value, after) → CalmOn (next value) after := by
  rw [CalmOn, on_bind, CalmOn]
  rcases ran : first.on state with ⟨fault | value, after⟩
  · cases fault <;> simp [Calm, panics]
  · simp [CalmOn]

def logged (run : StateGo σ Unit) : StateGo σ Unit := fun state =>
  match run.on state with
  | (.error (.err _), after) => (.ok (), after)
  | result => result

theorem on_logged_state {run : StateGo σ Unit} : (StateGo.on (logged run) state).2 = (run.on state).2 := by
  have ran : StateGo.on (logged run) state = match run.on state with
    | (.error (.err _), after) => (.ok (), after)
    | result => result := rfl
  rw [ran]
  rcases run.on state with ⟨(cause | _ | _) | value, after⟩ <;> rfl

@[simp] theorem calm_on_logged_iff {run : StateGo σ Unit} : CalmOn (logged run) state ↔ CalmOn run state := by
  have ran : StateGo.on (logged run) state = match run.on state with
    | (.error (.err _), after) => (.ok (), after)
    | result => result := rfl
  rw [CalmOn, CalmOn, ran]
  rcases run.on state with ⟨(cause | _ | _) | value, after⟩ <;> simp [Calm, panics]

end GoSem
