import CeremonyClient.Lib.Returns
import CeremonyClient.Tries.ProofLeaf

set_option autoImplicit false

namespace Ceremony

open GoSem

variable {bytes : Bytes}

-- The number of siblings that the second element asks for. A modulo of zero wraps around and asks for 64.
def siblingsOf (output : List Bytes) : Nat := len64 ((UInt32.ofNat (setBytes ((output.getD 1 []).take 4))).toUInt64 - 1)

def ElementsSized (expected : (numSiblings : Nat) → Nat) (output : List Bytes) : Prop :=
  3 ≤ output.length → 4 ≤ (output.getD 1 []).length ∧ 8 ≤ (output.getD 2 []).length ∧
    (3 < output.length → output.length = expected (siblingsOf output) → 4 ≤ (output.getD (3 + siblingsOf output) []).length)

instance (expected : Nat → Nat) (output : List Bytes) : Decidable (ElementsSized expected output) :=
  inferInstanceAs (Decidable (_ → _ ∧ _ ∧ (_ → _ → _)))

theorem index_get {α : Type} {items : List α} {position : Nat} (fallback : α) (inside : position < items.length) :
    index items position = .ok (items.getD position fallback) := by
  rw [index, List.getD_eq_getElem?_getD, List.getElem?_eq_getElem inside]
  rfl

theorem be_uint32_long (long : 4 ≤ bytes.length) : beUint32 bytes = .ok (UInt32.ofNat (setBytes (bytes.take 4))) :=
  if_neg (by omega)

theorem be_uint32_short (short : ¬ 4 ≤ bytes.length) : beUint32 bytes = crash := if_pos (by omega)

theorem be_uint64_long (long : 8 ≤ bytes.length) : ∃ value, beUint64 bytes = .ok value := ⟨_, if_neg (by omega)⟩

theorem be_uint64_short (short : ¬ 8 ≤ bytes.length) : beUint64 bytes = crash := if_pos (by omega)

theorem returns_wrapped {α β : Type} {text : String} {run : Except GoError α} {next : α → β} :
    Returns (do return next (← wrapErr text (returned run)) : Go β) := by
  cases run with
  | ok value => trivial
  | error cause => trivial

theorem unpack_returns_iff (prim : Primitives) (previousRoot : Bytes) (output : List Bytes) (expected : Nat → Nat) (leafOf : Nat → Go Bytes)
    (enough : ∀ n, 5 + n ≤ expected n) (leaves : ∀ n, output.length = expected n → ∃ leaf, leafOf n = .ok leaf) :
    Returns (unpackAndVerify prim previousRoot output expected leafOf) ↔ ElementsSized expected output := by
  rw [unpackAndVerify, ElementsSized]
  by_cases short : output.length < 3
  · rw [failIf, if_pos short]
    exact iff_of_true trivial fun long => absurd short (by omega)
  · rw [failIf, if_neg short, ok_bind, index_get [] (by omega), ok_bind, index_get [] (by omega), ok_bind]
    have three : 3 ≤ output.length := by omega
    by_cases four : 4 ≤ (output.getD 1 []).length
    · rw [be_uint32_long four, ok_bind, index_get [] (by omega), ok_bind]
      by_cases eight : 8 ≤ (output.getD 2 []).length
      · obtain ⟨frameNumber, isFrame⟩ := be_uint64_long eight
        rw [isFrame, ok_bind]
        by_cases more : output.length > 3
        · rw [if_pos more]
          change Returns ((failIf (output.length ≠ expected (siblingsOf output)) _) >>= _) ↔ _
          by_cases counted : output.length = expected (siblingsOf output)
          · have long := enough (siblingsOf output)
            obtain ⟨leaf, isLeaf⟩ := leaves _ counted
            rw [failIf, if_neg (not_not.mpr counted), ok_bind]
            change Returns ((slice output 3 (3 + siblingsOf output)) >>= _) ↔ _
            rw [slice, if_pos ⟨by omega, by omega⟩, ok_bind]
            change Returns ((index output (3 + siblingsOf output) >>= beUint32) >>= _) ↔ _
            rw [index_get [] (by omega), ok_bind]
            by_cases path : 4 ≤ (output.getD (3 + siblingsOf output) []).length
            · rw [be_uint32_long path, ok_bind]
              change Returns (leafOf (siblingsOf output) >>= _) ↔ _
              rw [isLeaf, ok_bind]
              exact iff_of_true returns_wrapped fun _ => ⟨four, eight, fun _ _ => path⟩
            · rw [be_uint32_short path]
              exact iff_of_false id fun sized => path ((sized three).2.2 more counted)
          · rw [failIf, if_pos counted]
            exact iff_of_true trivial fun _ => ⟨four, eight, fun _ isCount => absurd isCount counted⟩
        · rw [if_neg more]
          exact iff_of_true trivial fun _ => ⟨four, eight, fun longer => absurd longer more⟩
      · rw [be_uint64_short eight]
        exact iff_of_false id fun sized => eight (sized three).2.1
    · rw [be_uint32_short four]
      exact iff_of_false id fun sized => four (sized three).1

theorem proof_unpacking_total_iff (prim : Primitives) (previousRoot : Bytes) (output : List Bytes) :
    (Returns (unpackAndVerifyOutput prim previousRoot output) ↔ ElementsSized (fun n => 5 + n) output) ∧
      (Returns (unpackAndVerifyMultiOutput prim previousRoot output) ↔ ElementsSized (fun n => 5 + (n + (n - 1))) output) := by
  constructor
  · apply unpack_returns_iff
    · intro n
      omega
    · intro n counted
      have inside : output.length - 1 < output.length := by omega
      exact ⟨_, by rw [indexFromEnd, if_pos (by omega)]; exact index_get [] inside⟩
  · apply unpack_returns_iff
    · intro n
      omega
    · intro n counted
      exact ⟨_, index_get [] (by omega)⟩

theorem short_modulo_panics :
    unpackAndVerifyOutput samplePrimitives [] [[], [], []] = crash ∧ unpackAndVerifyMultiOutput samplePrimitives [] [[], [], []] = crash :=
  ⟨rfl, rfl⟩

end Ceremony
