import CeremonyClient.Verenc.Rdkgith
import Mathlib.Data.List.Sort

set_option autoImplicit false

namespace Ceremony

variable {N lengthRequired : Nat} {output : List Nat}

namespace Verenc

open GoSem

-- What the while loop keeps: distinct party indices, never more than required.
def Collected (N lengthRequired : Nat) (output : List Nat) : Prop :=
  output.Nodup ∧ (∀ idx ∈ output, idx < N) ∧ output.length ≤ lengthRequired

theorem push_indices_collected (positive : 0 < N) {ints : List Nat} (short : output.length < lengthRequired)
    (collected : Collected N lengthRequired output) : Collected N lengthRequired (pushIndices N lengthRequired ints output) := by
  induction ints generalizing output with
  | nil => exact collected
  | cons next rest ih =>
      have pushed : Collected N lengthRequired (if output.contains (next % N) then output else output ++ [next % N]) := by
        obtain ⟨distinct, inside, -⟩ := collected
        by_cases known : output.contains (next % N)
        · rw [if_pos known]
          exact ⟨distinct, inside, short.le⟩
        · rw [if_neg known]
          refine ⟨?_, ?_, ?_⟩
          · rw [← List.concat_eq_append]
            exact distinct.concat (fun member => known (List.contains_iff_mem.mpr member))
          · intro idx isIdx
            rcases List.mem_append.mp isIdx with old | new
            · exact inside idx old
            · rw [List.mem_singleton.mp new]
              exact Nat.mod_lt _ positive
          · rw [List.length_append, List.length_singleton]
            exact short
      rw [pushIndices]
      generalize (if output.contains (next % N) then output else output ++ [next % N]) = grown at pushed ⊢
      split
      · exact pushed
      · next unfilled => exact ih (lt_of_le_of_ne pushed.2.2 unfilled) pushed

variable {F G : Type} (curve : Curve F G)

theorem expand_loop_collected (positive : 0 < lengthRequired → 0 < N) {fuel : Nat} {c : Bytes} {result : List Nat}
    (collected : Collected N lengthRequired output) (expanded : expandLoop curve N lengthRequired fuel c output = .ok result) :
    Collected N lengthRequired result ∧ result.length = lengthRequired := by
  induction fuel generalizing c output with
  | zero =>
      rw [expandLoop] at expanded
      split at expanded
      · cases expanded
      · next filled =>
          cases expanded
          exact ⟨collected, Nat.le_antisymm collected.2.2 (Nat.le_of_not_lt filled)⟩
  | succ fuel ih =>
      rw [expandLoop] at expanded
      split at expanded
      · next short =>
          exact ih (push_indices_collected (positive (Nat.zero_lt_of_lt short)) short collected) expanded
      · next filled =>
          cases expanded
          exact ⟨collected, Nat.le_antisymm collected.2.2 (Nat.le_of_not_lt filled)⟩

def openIndices (N : Nat) (hideIndices : List Nat) : List Nat := (List.range N).filter fun i => !hideIndices.contains i

structure Expanded (vparams : RDkgithParams) (hideIndices : List Nat) : Prop where
  listed : (List.range vparams.N).filter (fun i => hideIndices.contains i) = hideIndices
  hidden : hideIndices.length = vparams.N - vparams.t
  opened : (openIndices vparams.N hideIndices).length = vparams.t

theorem expand_challenge_expanded (vparams : RDkgithParams) (fuel : Nat) {challenge : Bytes} (hideIndices : List Nat)
    (expanded : expandChallenge curve vparams fuel challenge = .ok hideIndices) : Expanded vparams hideIndices := by
  rw [expandChallenge] at expanded
  by_cases few : vparams.N < vparams.t
  · rw [if_pos few] at expanded
    cases expanded
  · rw [if_neg few] at expanded
    obtain ⟨output, looped, same⟩ := (bind_ok_iff _ _ _).mp expanded
    obtain ⟨⟨distinct, inside, -⟩, filled⟩ := expand_loop_collected curve (by omega)
      ⟨List.nodup_nil, by simp, Nat.zero_le _⟩ looped
    have sorted : hideIndices = output.insertionSort (· ≤ ·) := (Except.ok.inj same).symm
    have perm : hideIndices.Perm output := sorted ▸ List.perm_insertionSort _ _
    have listed : (List.range vparams.N).filter (fun i => hideIndices.contains i) = hideIndices := by
      have member (i : Nat) : i ∈ (List.range vparams.N).filter (fun i => hideIndices.contains i) ↔ i ∈ hideIndices := by
        rw [List.mem_filter, List.contains_iff_mem, List.mem_range]
        exact ⟨fun both => both.2, fun isHidden => ⟨inside i (perm.mem_iff.mp isHidden), isHidden⟩⟩
      have same : ((List.range vparams.N).filter (fun i => hideIndices.contains i)).Perm hideIndices :=
        (List.perm_ext_iff_of_nodup (List.nodup_range.filter _) (perm.nodup_iff.mpr distinct)).mpr member
      refine same.eq_of_pairwise' (List.pairwise_le_range.filter _) ?_
      rw [sorted]
      exact List.sortedLE_insertionSort.pairwise
    have hidden : hideIndices.length = vparams.N - vparams.t := perm.length_eq.trans filled
    refine ⟨listed, hidden, ?_⟩
    have whole := List.length_eq_length_filter_add (fun i => hideIndices.contains i) (l := List.range vparams.N)
    rw [List.length_range, listed, hidden] at whole
    rw [openIndices]
    omega

section Proved

variable [Field F] [AddCommGroup G] [Module F G]

def provedProof (ve : RDkgith G) (stm : G) (wit : F) (draws : ProverDraws F) (hideIndices : List Nat) : RDkgithProof F G where
  challenge := proverChallenge curve ve stm wit draws
  polycom := proverPolycom curve ve draws wit
  ctexts := hideIndices.map fun i => (proverCiphertext curve ve draws wit i, i)
  sharesRands := (openIndices ve.vparams.N hideIndices).map fun i => (proverShare ve.vparams.t draws wit i, draws.rand i, i)

theorem prove_ok (ve : RDkgith G) (fuel : Nat) (stm : G) (wit : F) (draws : ProverDraws F) (hideIndices : List Nat)
    (expanded : expandChallenge curve ve.vparams fuel (proverChallenge curve ve stm wit draws) = .ok hideIndices) :
    prove curve ve fuel stm wit draws = .ok (provedProof curve ve stm wit draws hideIndices) := by
  have listed := (expand_challenge_expanded curve ve.vparams fuel hideIndices expanded).listed
  rw [prove, expanded, ok_bind, listed]
  rfl

end Proved

end Verenc

end Ceremony
