import CeremonyClient.Lib.State

set_option autoImplicit false

namespace GoSem

variable {κ α β : Type}

variable {key : κ} {held : List κ} {cause : GoError} {value : α}

abbrev LockM (κ α : Type) := StateGo (List κ) α

def requireFree [DecidableEq κ] (cause : GoError) (key : κ) : LockM κ Unit := fun held =>
  if key ∈ held then (raise cause, held) else (.ok (), held)

def acquire (key : κ) : LockM κ Unit := fun held => (.ok (), key :: held)

def replacing (cause : GoError) (run : LockM κ α) : LockM κ α := fun held =>
  (replaceErr cause (run.on held).1, (run.on held).2)

@[simp] theorem on_acquire : StateGo.on (acquire key) held = (.ok (), key :: held) := rfl

@[simp] theorem on_require_free [DecidableEq κ] :
    StateGo.on (requireFree cause key) held = if key ∈ held then (raise cause, held) else (.ok (), held) := rfl

variable {run : LockM κ α}

@[simp] theorem on_replacing : StateGo.on (replacing cause run) held = (replaceErr cause (run.on held).1, (run.on held).2) := rfl

theorem on_require_free_ok [DecidableEq κ] {after : List κ} {value : Unit} :
    StateGo.on (requireFree cause key) held = (.ok value, after) ↔ key ∉ held ∧ after = held := by
  rw [on_require_free]
  by_cases touched : key ∈ held <;> simp [touched, raise, eq_comm]

theorem on_acquire_all {keys : List κ} : StateGo.on (keys.forM acquire) held = (.ok ⟨⟩, keys.reverse ++ held) := by
  induction keys generalizing held with
  | nil => rfl
  | cons key tail ih =>
      rw [List.forM, on_bind, on_acquire]
      simpa using ih

theorem require_free_nil_result [DecidableEq κ] {next : Unit → LockM κ α} :
    (StateGo.on (requireFree cause key >>= next) []).1 = ((next ()).on []).1 := by
  rw [on_bind, on_require_free, if_neg List.not_mem_nil]

theorem acquire_pure_result : (StateGo.on (acquire key >>= fun _ => pure value) held).1 = .ok value := rfl

-- Touched keys are only added, and a call that succeeds also does so with fewer keys touched before.
structure Tame (run : LockM κ α) : Prop where
  grows : ∀ held, held ⊆ (run.on held).2
  shrinks : ∀ held fewer after value, fewer ⊆ held → run.on held = (.ok value, after) →
    ∃ less, run.on fewer = (.ok value, less) ∧ less ⊆ after

theorem tame_call {run : Go α} : Tame (call run : LockM κ α) where
  grows held := List.Subset.refl held
  shrinks held fewer after value subset done := by
    obtain ⟨ran, same⟩ := on_call_ok.mp done
    exact ⟨fewer, on_call_ok.mpr ⟨ran, rfl⟩, same ▸ subset⟩

theorem tame_pure : Tame (pure value : LockM κ α) := tame_call

theorem tame_require_free [DecidableEq κ] : Tame (requireFree cause key) where
  grows held := by
    rw [on_require_free]
    split <;> exact List.Subset.refl held
  shrinks held fewer after value subset done := by
    obtain ⟨free, same⟩ := on_require_free_ok.mp done
    exact ⟨fewer, on_require_free_ok.mpr ⟨fun touched => free (subset touched), rfl⟩,
      same ▸ subset⟩

theorem tame_acquire (key : κ) : Tame (acquire key) where
  grows held := List.subset_cons_self key held
  shrinks held fewer after value subset done := by
    rw [on_acquire, Prod.mk.injEq] at done
    exact ⟨key :: fewer, rfl, done.2 ▸ List.cons_subset_cons key subset⟩

theorem tame_bind {first : LockM κ α} {next : α → LockM κ β} (tameFirst : Tame first) (tameNext : ∀ value, Tame (next value)) :
    Tame (first >>= next) where
  grows held := by
    have start := tameFirst.grows held
    rw [on_bind]
    rcases ran : first.on held with ⟨fault | value, between⟩
    · rwa [ran] at start
    · rw [ran] at start
      exact List.Subset.trans start ((tameNext value).grows between)
  shrinks held fewer after result subset done := by
    obtain ⟨value, between, begun, rest⟩ := on_bind_ok.mp done
    obtain ⟨fewerBetween, begunFewer, subsetBetween⟩ := tameFirst.shrinks held fewer between value subset begun
    obtain ⟨less, restFewer, subsetAfter⟩ := (tameNext value).shrinks between fewerBetween after result subsetBetween rest
    exact ⟨less, on_bind_ok.mpr ⟨value, fewerBetween, begunFewer, restFewer⟩, subsetAfter⟩

theorem tame_for_each {items : List β} {body : β → LockM κ PUnit} (tame : ∀ item, Tame (body item)) : Tame (items.forM body) := by
  induction items with
  | nil => exact tame_pure
  | cons item tail ih =>
      rw [List.forM]
      exact tame_bind (tame item) fun _ => ih

theorem tame_replacing (tame : Tame run) : Tame (replacing cause run) where
  grows held := tame.grows held
  shrinks held fewer after value subset done := by
    rw [on_replacing, Prod.mk.injEq, replace_err_ok_iff] at done
    obtain ⟨less, ran, subsetAfter⟩ := tame.shrinks held fewer after value subset (Prod.ext done.1 done.2)
    refine ⟨less, ?_, subsetAfter⟩
    rw [on_replacing, ran, Prod.mk.injEq, replace_err_ok_iff]
    exact ⟨rfl, rfl⟩

end GoSem
