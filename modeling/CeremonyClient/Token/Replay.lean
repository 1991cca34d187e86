import CeremonyClient.Token.Selection

set_option autoImplicit false

namespace Ceremony

open GoSem

variable {a : TokenApplication} {currentFrameNumber : UInt64} {lockMap after : List Bytes} {slot out : Slot} {t : MintCoinRequest}
  {frame : ClockFrame} {processed : ProcessedMint} {fuel : Nat} {parallelismMap : Int → UInt64} {slots : List Slot}

def Slot.Alive (slot : Slot) : Prop :=
  slot.set = true ∧ slot.fails = false ∧ (slot.success ≠ none ∨ slot.mint ≠ none)

theorem handle_slot_shrinks {fewer : List Bytes} (subset : fewer ⊆ lockMap) (selected : slot.Selected) (alive : out.Alive)
    (done : handleSlot a currentFrameNumber true lockMap slot = .ok (out, after)) :
    ∃ less, handleSlot a currentFrameNumber false fewer slot = .ok (out, less) ∧ less ⊆ after := by
  rcases handle_slot_cases done with
    ⟨same, rfl, neither⟩ | ⟨handler, success, isSet, found, ran, same⟩ | ⟨handler, cause, isSet, found, ran, -, same⟩
  · refine ⟨fewer, ?_, subset⟩
    rcases neither with notSet | noHandler
    · simp [handleSlot, notSet, same]
    · cases isSet : slot.set <;> simp [handleSlot, isSet, noHandler, same]
  · obtain ⟨less, again, smaller⟩ :=
      (handler_tame found).shrinks lockMap fewer after success subset ran
    exact ⟨less, by simp [handleSlot, isSet, found, again, same], smaller⟩
  · rcases alive with ⟨-, -, succeeded | minting⟩
    · rw [same] at succeeded
      exact absurd selected.pending succeeded
    · rw [same] at minting
      exact absurd (handler_not_mint found) minting

theorem pre_process_chain_not_pre2 {altAddrBytes : Bytes} {unpack : Bytes → List Bytes → Go Unpacked}
    {check : ClockFrame → PriorMint → UInt32 → Go (Option Bool)} {keptCommitment : PriorMint → Bytes}
    (done : preProcessChain a currentFrameNumber t frame altAddrBytes unpack check keptCommitment = .ok processed) :
    processed.isPre2 = false := by
  simp only [preProcessChain, bind_ok_iff] at done
  obtain ⟨prfs, -, prior, -, done⟩ := done
  cases prior with
  | none =>
      cases done
      rfl
  | some prior =>
      simp only [bind_ok_iff] at done
      obtain ⟨result, -, done⟩ := done
      cases result with
      | error cause =>
          cases done
          rfl
      | ok unpacked =>
          simp only [bind_ok_iff] at done
          obtain ⟨_, -, checked, -, done⟩ := done
          cases checked with
          | none =>
              cases done
              rfl
          | some wesoVerified =>
              cases done
              rfl

theorem pre_process_mint_ok (done : preProcessMint a fuel currentFrameNumber t frame = .ok processed) :
    ∃ key address, signerKey t.signature = .ok key ∧ peerAddress a.prim key = .ok address ∧
      (processed.validForReward = true → processed.isPre2 = false) := by
  simp only [preProcessMint, bind_ok_iff, replace_err_ok_iff] at done
  obtain ⟨_, -, key, isKey, peerId, isPeer, _, -, address, hashed, beacon, -, done⟩ := done
  refine ⟨key, address, isKey, by simp [peerAddress, isPeer, hashed], fun valid => ?_⟩
  cases beacon with
  | true =>
      cases done
      cases valid
  | false =>
      simp only [Bool.false_eq_true, if_false] at done
      split at done
      · exact pre_process_chain_not_pre2 done
      · split at done
        · exact pre_process_chain_not_pre2 done
        · cases done

theorem handle_mint_not_refused {key address : Bytes} {cause : GoError} (isKey : signerKey t.signature = .ok key)
    (hashed : peerAddress a.prim key = .ok address) (notPre2 : processed.isPre2 = false) (many : t.proofs.length ≥ 3)
    (late : currentFrameNumber > PROOF_FRAME_CUTOFF) : handleMint a currentFrameNumber t processed parallelismMap ≠ raise cause := by
  have some : t.proofs.length > 0 := by omega
  simp only [handleMint, isKey, ok_bind, hashed, replaceErr, mapErr, notPre2, Bool.false_eq_true, if_false, some, late,
    and_self, if_true, sliceFrom]
  split
  · simp only [ok_bind]
    split
    · simp [raise, pure, Except.pure]
    · split
      · simp only [fillBytes]
        split
        · simp [raise, pure, Except.pure]
        · simp [raise, crash]
      · simp [raise, pure, Except.pure]
  · simp [raise, crash]

theorem rewarded_succeeds (ready : slot.Ready a fuel currentFrameNumber frame) (rewarded : slot.rewarded currentFrameNumber)
    (done : mintSlot a currentFrameNumber parallelismMap slot = .ok out) : out.success ≠ none := by
  obtain ⟨isSet, notFailed, t, processed, isMint, isProcessed, many, late, valid⟩ := rewarded
  obtain ⟨same, isSame, ran⟩ := ready.ready t isMint isSet notFailed
  rw [isProcessed] at isSame
  cases isSame
  obtain ⟨key, address, isKey, hashed, notPre2⟩ := pre_process_mint_ok ran
  rcases mint_slot_cases done with
    ⟨-, notSet | failed | notMint⟩ | ⟨t', processed', -, -, isMint', isProcessed', ⟨success, -, shape⟩ | ⟨cause, refused, -⟩⟩
  · rw [isSet] at notSet; cases notSet
  · rw [notFailed] at failed; cases failed
  · rw [isMint] at notMint; cases notMint
  · rw [shape]; simp
  · rw [isMint] at isMint'
    rw [isProcessed] at isProcessed'
    cases isMint'
    cases isProcessed'
    exact absurd refused (handle_mint_not_refused isKey
      hashed (notPre2 valid) many late)

theorem alive_before_mint (ready : slot.Ready a fuel currentFrameNumber frame)
    (done : mintSlot a currentFrameNumber parallelismMap slot = .ok out) (succeeded : out.success ≠ none) : slot.Alive := by
  rcases mint_slot_cases done with
    ⟨same, -⟩ | ⟨t, processed, isSet, notFailed, isMint, -⟩
  · rw [same] at succeeded
    exact ⟨(ready.succeeded succeeded).1, (ready.succeeded succeeded).2, Or.inl succeeded⟩
  · exact ⟨isSet, notFailed, Or.inr (by rw [isMint]; simp)⟩

theorem alive_before_tally (a : TokenApplication) (currentFrameNumber : UInt64) (parallelismMap after : Int → UInt64)
    (slot out : Slot) (done : tallySlot a currentFrameNumber parallelismMap slot = .ok (out, after)) (alive : out.Alive) :
    slot.Alive := by
  rcases tally_slot_cases done with
    ⟨same, -⟩ | ⟨t, ring, parallelism, -, -, -, same, -⟩ | ⟨-, same, -⟩
  · exact same ▸ alive
  · exact same ▸ alive
  · rw [same] at alive
    cases alive.2.1

theorem unrewarded_keeps_tally {after : Int → UInt64} (done : tallySlot a currentFrameNumber parallelismMap slot = .ok (out, after))
    (unrewarded : ¬ out.rewarded currentFrameNumber) : parallelismMap = after := by
  rcases tally_slot_cases done with
    ⟨-, same, -⟩ | ⟨t, ring, parallelism, rewarded, -, -, same, -⟩ | ⟨-, -, same⟩
  · exact same.symm
  · exact absurd (same ▸ rewarded) unrewarded
  · exact same.symm

theorem alive_before_pre_process (done : preProcessSlot a fuel currentFrameNumber frame slot = .ok out) (alive : out.Alive) :
    slot.Alive := by
  rcases pre_process_slot_cases done with
    ⟨same, -⟩ | ⟨t, processed, -, -, -, same⟩ | ⟨t, -, -, same⟩
  · exact same ▸ alive
  · rw [same] at alive
    exact alive
  · rw [same] at alive
    cases alive.2.1

theorem chosen_before_handle {skipFailures : Bool} (selected : slot.Selected)
    (done : handleSlot a currentFrameNumber skipFailures lockMap slot = .ok (out, after)) (alive : out.Alive) :
    slot.set = true ∧ slot.fails = false := by
  have isSet : slot.set = true := by
    rcases handle_slot_cases done with
      ⟨same, -⟩ | ⟨handler, success, isSet, -⟩ | ⟨handler, cause, isSet, -⟩
    · exact same ▸ alive.1
    · exact isSet
    · exact isSet
  exact ⟨isSet, selected.exclusive isSet⟩

def succeededMask (slots : List Slot) : List Bool := slots.map fun slot => slot.success.isSome

theorem succeeded_mask_marks : List.Forall₂ (fun bit slot => bit = slot.success.isSome) (succeededMask slots) slots := by
  induction slots with
  | nil => exact List.Forall₂.nil
  | cons slot tail ih => exact List.Forall₂.cons rfl ih

theorem replay_passes {requests : List TokenRequest} (run : Passes a fuel currentFrameNumber frame requests true slots) :
    runPasses a fuel currentFrameNumber frame (select (succeededMask slots) requests) false =
      .ok (select (succeededMask slots) slots) := by
  have withReady := fun slot member => run.tallied_all slot member
  have mintSteps := forall₂_attach ((map_m_iff _ _ _).mp run.mint) withReady
  have talliedMarks : List.Forall₂ (fun bit slot => (bit = true → slot.Alive) ∧ (bit = false → ¬ slot.rewarded currentFrameNumber))
      (succeededMask slots) run.tallied := by
    refine forall₂_pull (fun slot out bit step mark => ⟨fun kept => ?_, fun dropped rewarded => ?_⟩) mintSteps
      succeeded_mask_marks
    · refine alive_before_mint step.2 step.1 ?_
      rw [kept] at mark
      exact Option.isSome_iff_ne_none.mp mark.symm
    · have succeeded := rewarded_succeeds step.2 rewarded step.1
      rw [dropped] at mark
      exact succeeded (Option.not_isSome_iff_eq_none.mp (by simp [← mark]))
  have processedMarks : List.Forall₂ (fun bit slot => bit = true → slot.Alive) (succeededMask slots) run.processed :=
    forall₂_pull (fun slot out bit step mark kept => step (mark.1 kept))
      (map_accum_related (fun slot out => out.Alive → slot.Alive)
        (fun map slot out after => alive_before_tally a currentFrameNumber map after slot out) run.tally)
      talliedMarks
  have handledMarks : List.Forall₂ (fun bit slot => bit = true → slot.Alive) (succeededMask slots) run.handled :=
    forall₂_pull (fun slot out bit step mark kept => alive_before_pre_process step (mark kept))
      ((map_m_iff _ _ _).mp run.preProcess) processedMarks
  have selectedMarks : List.Forall₂ (fun bit slot => bit = true → slot.set = true ∧ slot.fails = false)
      (succeededMask slots) run.selected := by
    refine forall₂_pull (fun slot out bit step mark kept => step.1 step.2 (mark kept))
      (forall₂_attach (map_accum_related (fun slot out => slot.Selected → out.Alive → slot.set = true ∧ slot.fails = false)
        (fun lockMap slot out after step selected => chosen_before_handle selected step) run.handle) run.selected_all)
      handledMarks
  rw [run_passes_ok_iff]
  obtain ⟨seen, selectAgain, -⟩ := map_accum_select (selectSlot a currentFrameNumber) (selectSlot a currentFrameNumber)
    (fun fewer seen => fewer ⊆ seen) (fun _ => True) (fun bit slot => bit = true → slot.set = true ∧ slot.fails = false)
    (fun seen fewer slot out after subset _ chosen step =>
      select_slot_shrinks subset (chosen rfl) step)
    (fun seen fewer slot out after subset _ step =>
      List.Subset.trans subset (select_slot_grows a currentFrameNumber seen after slot out step))
    (succeededMask slots) [] run.seen [] run.validated run.selected (List.Subset.refl _) (fun _ _ => trivial) run.select selectedMarks
  obtain ⟨lockMap, handleAgain, -⟩ := map_accum_select (handleSlot a currentFrameNumber true) (handleSlot a currentFrameNumber false)
    (fun fewer lockMap => fewer ⊆ lockMap) Slot.Selected (fun bit slot => bit = true → slot.Alive)
    (fun lockMap fewer slot out after subset selected alive step =>
      handle_slot_shrinks subset selected (alive rfl) step)
    (fun lockMap fewer slot out after subset _ step =>
      List.Subset.trans subset (handle_slot_grows step))
    (succeededMask slots) [] run.lockMap [] run.selected run.handled (List.Subset.refl _) run.selected_all run.handle handledMarks
  obtain ⟨_, tallyAgain, rfl⟩ := map_accum_select (tallySlot a currentFrameNumber) (tallySlot a currentFrameNumber)
    (fun shadow map => shadow = map) (fun _ => True)
    (fun bit slot => (bit = true → slot.Alive) ∧ (bit = false → ¬ slot.rewarded currentFrameNumber))
    (fun map shadow slot out after same _ _ step => ⟨after, same ▸ step, rfl⟩)
    (fun map shadow slot out after same dropped step => same.trans
      (unrewarded_keeps_tally step (dropped.2 rfl)))
    (succeededMask slots) (fun _ => 0) run.parallelismMap (fun _ => 0) run.processed run.tallied rfl (fun _ _ => trivial) run.tally
    talliedMarks
  refine ⟨⟨_, _, seen, _, lockMap, _, _, _, ?_, selectAgain, handleAgain, map_m_select run.preProcess, tallyAgain,
    map_m_select run.mint⟩⟩
  rw [← select_map]
  exact map_m_select run.validate

theorem selected_receipts : (select (succeededMask slots) slots).filterMap Slot.receipt = slots.filterMap Slot.receipt := by
  rw [succeededMask, select_filter, List.filterMap_filter]
  refine List.filterMap_congr fun slot _ => ?_
  cases done : slot.success <;> simp [Slot.receipt, done]

theorem receipt_requests : (slots.filterMap Slot.receipt).map Prod.fst = select (succeededMask slots) (slots.map Slot.transition) := by
  rw [select_map, succeededMask, select_filter, List.map_filterMap, ← List.filterMap_eq_map, List.filterMap_filter]
  refine List.filterMap_congr fun slot _ => ?_
  cases done : slot.success <;> simp [Slot.receipt, done]

theorem selected_not_failed (succeeded : ∀ slot ∈ slots, slot.success ≠ none → slot.set = true ∧ slot.fails = false) :
    (select (succeededMask slots) slots).filter Slot.fails = [] := by
  rw [succeededMask, select_filter, List.filter_filter, List.filter_eq_nil_iff]
  intro slot member both
  rw [Bool.and_eq_true] at both
  have notFailed := (succeeded slot member (Option.isSome_iff_ne_none.mp both.2)).2
  rw [both.1] at notFailed
  cases notFailed

theorem apply_transitions_replay (a : TokenApplication) (fuel : Nat) (currentFrameNumber : UInt64)
    (transitions : List TokenRequest) (applied : Applied)
    (done : applyTransitions a fuel currentFrameNumber transitions true = .ok applied) :
    ∃ replayed, applyTransitions a fuel currentFrameNumber applied.finalized false = .ok replayed ∧
      replayed.finalized = applied.finalized ∧ replayed.outputs = applied.outputs ∧ replayed.failed = [] := by
  obtain ⟨filter, frame, requests, slots, isFilter, isFrame, -, ⟨run⟩, receipts, -, -⟩ :=
    apply_transitions_ok done
  have finalized : applied.finalized = select (succeededMask slots) requests := by
    rw [Applied.finalized, receipts, receipt_requests, run.transitions]
  have again := replay_passes run
  have clean := selected_not_failed run.succeeded_all
  refine ⟨⟨slots.filterMap Slot.receipt, []⟩, ?_, ?_, ?_, rfl⟩
  · simp only [applyTransitions, orderRequests, isFilter, isFrame, returned, replaceErr, mapErr, ok_bind, finalized, again, clean,
      failIf, selected_receipts, Bool.false_eq_true, if_false, List.map_nil, ne_eq, not_true_eq_false, false_and]
    rfl
  · rw [Applied.finalized, Applied.finalized, receipts]
  · rw [Applied.outputs, Applied.outputs, receipts]

theorem apply_transitions_replay_double_spend :
    ∃ applied, applyTransitions sampleApplication 8 5
        [sampleTransfer (List.replicate 32 3), sampleTransfer (List.replicate 32 4)] true = .ok applied ∧
      applied.finalized = [sampleTransfer (List.replicate 32 3)] ∧ applied.failed = [sampleTransfer (List.replicate 32 4)] ∧
      ∃ replayed, applyTransitions sampleApplication 8 5 applied.finalized false = .ok replayed ∧
        replayed.finalized = applied.finalized ∧ replayed.outputs = applied.outputs ∧ replayed.failed = [] := by
  have ran : returnsWith (applyTransitions sampleApplication 8 5
      [sampleTransfer (List.replicate 32 3), sampleTransfer (List.replicate 32 4)] true)
      (fun applied => applied.finalized == [sampleTransfer (List.replicate 32 3)] &&
        applied.failed == [sampleTransfer (List.replicate 32 4)]) = true := by decide +kernel
  obtain ⟨applied, done, check⟩ := (returns_with_iff _ _).mp ran
  rw [Bool.and_eq_true, beq_iff_eq, beq_iff_eq] at check
  exact ⟨applied, done, check.1, check.2, apply_transitions_replay sampleApplication 8 5 _ applied done⟩

end Ceremony
