import CeremonyClient.Lib.Locks
import CeremonyClient.Lib.Panics
import CeremonyClient.Lib.Passes

set_option autoImplicit false

namespace GoSem

variable {α β : Type}

variable {run : Go α} {cause : GoError} {change : GoError → GoError}

def Returns : Go α → Prop
  | .ok _ => True
  | .error (.err _) => True
  | .error _ => False

theorem returns_bind_iff (first : Go α) (next : α → Go β) :
    Returns (first >>= next) ↔ Returns first ∧ ∀ value, first = .ok value → Returns (next value) := by
  rcases first with (cause | _ | _) | value <;> simp [Returns]

@[simp] theorem returns_map_err_iff : Returns (mapErr change run) ↔ Returns run := by
  rcases run with (cause | _ | _) | value <;> exact Iff.rfl

@[simp] theorem returns_replace_err_iff : Returns (replaceErr cause run) ↔ Returns run :=
  returns_map_err_iff

@[simp] theorem returns_attempt_iff : Returns (attempt run) ↔ Returns run := by
  rcases run with (cause | _ | _) | value <;> exact Iff.rfl

end GoSem
