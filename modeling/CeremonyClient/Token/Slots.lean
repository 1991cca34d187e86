import CeremonyClient.Token.Transitions

set_option autoImplicit false

namespace Ceremony

open GoSem

variable {a : TokenApplication} {slot out : Slot} {currentFrameNumber : UInt64} {after : List Bytes} {skipFailures : Bool}
  {lockMap : List Bytes} {fuel : Nat} {frame : ClockFrame} {parallelismMap : Int → UInt64} {handler : LockM Bytes (List TokenOutput)}

theorem validate_mint_slot_cases (done : validateMintSlot a slot = .ok out) :
    out = slot ∧ (∀ t, slot.mint = some t → MintCoinRequest.validate a.prim (some t) = .ok ()) ∨
      (∃ t, slot.mint = some t) ∧ out = { slot with fails := true } := by
  rw [validateMintSlot] at done
  cases isMint : slot.mint with
  | none =>
      simp only [isMint, Except.ok.injEq] at done
      exact Or.inl ⟨done.symm, by simp⟩
  | some t =>
      simp only [isMint] at done
      obtain ⟨result, tried, rest⟩ := (bind_ok_iff _ _ _).mp done
      rcases (attempt_ok_iff _ _).mp tried with ⟨value, ran, same⟩ | ⟨cause, -, same⟩
      · subst same
        refine Or.inl ⟨(Except.ok.inj rest).symm, ?_⟩
        intro other isOther
        rw [← Option.some.inj isOther]
        exact ran
      · subst same
        exact Or.inr ⟨⟨t, rfl⟩, (Except.ok.inj rest).symm⟩

theorem select_slot_cases {seen : List Bytes} (done : selectSlot a currentFrameNumber seen slot = .ok (out, after)) :
    (out = slot ∧ after = seen ∧ (slot.fails = true ∨ ∃ t, slot.mint = some t ∧ t.proofs.length ≠ 1 ∧
        ¬ (t.proofs.length ≥ 3 ∧ currentFrameNumber > PROOF_FRAME_CUTOFF))) ∨
      (slot.fails = false ∧ slot.mint = none ∧ out = { slot with set := true } ∧ after = seen) ∨
      (∃ t chosen, slot.fails = false ∧ slot.mint = some t ∧ out = { slot with set := chosen, fails := !chosen } ∧
        ((t.proofs.length = 1 ∧ selectPre2 a seen t = .ok (chosen, after)) ∨
         (t.proofs.length ≥ 3 ∧ currentFrameNumber > PROOF_FRAME_CUTOFF ∧
           selectChain a currentFrameNumber seen t = .ok (chosen, after)))) := by
  rw [selectSlot] at done
  cases failed : slot.fails with
  | true =>
      simp only [failed, if_true, Except.ok.injEq, Prod.mk.injEq] at done
      exact Or.inl ⟨done.1.symm, done.2.symm, Or.inl rfl⟩
  | false =>
      simp only [failed, Bool.false_eq_true, if_false] at done
      cases isMint : slot.mint with
      | none =>
          simp only [isMint, Except.ok.injEq, Prod.mk.injEq] at done
          exact Or.inr (Or.inl ⟨rfl, rfl, done.1.symm, done.2.symm⟩)
      | some t =>
          simp only [isMint] at done
          split at done
          · rename_i single
            obtain ⟨⟨chosen, next⟩, ran, rest⟩ := (bind_ok_iff _ _ _).mp done
            cases rest
            exact Or.inr (Or.inr ⟨t, chosen, rfl, rfl, rfl, Or.inl ⟨single, ran⟩⟩)
          · rename_i notSingle
            split at done
            · rename_i chain
              obtain ⟨⟨chosen, next⟩, ran, rest⟩ := (bind_ok_iff _ _ _).mp done
              cases rest
              exact Or.inr (Or.inr ⟨t, chosen, rfl, rfl, rfl, Or.inr ⟨chain.1, chain.2, ran⟩⟩)
            · rename_i neither
              simp only [Except.ok.injEq, Prod.mk.injEq] at done
              exact Or.inl ⟨done.1.symm, done.2.symm, Or.inr ⟨t, rfl, notSingle, neither⟩⟩

theorem handle_slot_cases (done : handleSlot a currentFrameNumber skipFailures lockMap slot = .ok (out, after)) :
    (out = slot ∧ after = lockMap ∧
        (slot.set = false ∨ handlerOf a currentFrameNumber slot.transition.request = none)) ∨
      (∃ handler success, slot.set = true ∧ handlerOf a currentFrameNumber slot.transition.request = some handler ∧
        handler.on lockMap = (.ok success, after) ∧ out = { slot with success := some success }) ∨
      (∃ handler cause, slot.set = true ∧ handlerOf a currentFrameNumber slot.transition.request = some handler ∧
        handler.on lockMap = (raise cause, after) ∧ skipFailures = true ∧
        out = { slot with fails := !isAnnounce slot.transition.request }) := by
  rw [handleSlot] at done
  cases isSet : slot.set with
  | false =>
      simp only [isSet, Bool.false_eq_true, if_false, Except.ok.injEq, Prod.mk.injEq] at done
      exact Or.inl ⟨done.1.symm, done.2.symm, Or.inl rfl⟩
  | true =>
      simp only [isSet, if_true] at done
      cases found : handlerOf a currentFrameNumber slot.transition.request with
      | none =>
          simp only [found, Except.ok.injEq, Prod.mk.injEq] at done
          exact Or.inl ⟨done.1.symm, done.2.symm, Or.inr rfl⟩
      | some handler =>
          simp only [found] at done
          rcases ran : handler.on lockMap with ⟨(cause | _ | _) | success, next⟩
          · simp only [ran] at done
            cases skipFailures with
            | true =>
                simp only [if_true, Except.ok.injEq, Prod.mk.injEq] at done
                exact Or.inr (Or.inr ⟨handler, cause, rfl, rfl, done.2 ▸ ran, rfl, done.1.symm⟩)
            | false => simp [raise] at done
          · simp [ran] at done
          · simp [ran] at done
          · simp only [ran, Except.ok.injEq, Prod.mk.injEq] at done
            exact Or.inr (Or.inl ⟨handler, success, rfl, rfl, done.2 ▸ ran, done.1.symm⟩)

theorem pre_process_slot_cases (done : preProcessSlot a fuel currentFrameNumber frame slot = .ok out) :
    (out = slot ∧ (slot.set = false ∨ slot.mint = none)) ∨
      (∃ t processed, slot.set = true ∧ slot.mint = some t ∧ preProcessMint a fuel currentFrameNumber t frame = .ok processed ∧
        out = { slot with processed := some processed }) ∨
      (∃ t, slot.set = true ∧ slot.mint = some t ∧ out = { slot with fails := true }) := by
  rw [preProcessSlot] at done
  split at done
  · rename_i t isSet isMint
    obtain ⟨result, tried, rest⟩ := (bind_ok_iff _ _ _).mp done
    rcases (attempt_ok_iff _ _).mp tried with ⟨processed, ran, same⟩ | ⟨cause, -, same⟩
    · subst same
      exact Or.inr (Or.inl ⟨t, processed, isSet, isMint, ran, (Except.ok.inj rest).symm⟩)
    · subst same
      exact Or.inr (Or.inr ⟨t, isSet, isMint, (Except.ok.inj rest).symm⟩)
  · rename_i otherwise
    refine Or.inl ⟨(Except.ok.inj done).symm, ?_⟩
    cases isSet : slot.set with
    | false => exact Or.inl rfl
    | true =>
        cases isMint : slot.mint with
        | none => exact Or.inr rfl
        | some t => exact absurd isMint (otherwise t isSet)

def Slot.rewarded (currentFrameNumber : UInt64) (slot : Slot) : Prop :=
  slot.set = true ∧ slot.fails = false ∧ ∃ t processed, slot.mint = some t ∧ slot.processed = some processed ∧
    t.proofs.length ≥ 3 ∧ currentFrameNumber > PROOF_FRAME_CUTOFF ∧ processed.validForReward = true

theorem tally_slot_cases {after : Int → UInt64} (done : tallySlot a currentFrameNumber parallelismMap slot = .ok (out, after)) :
    (out = slot ∧ after = parallelismMap ∧ ¬ slot.rewarded currentFrameNumber) ∨
      (∃ t ring parallelism, slot.rewarded currentFrameNumber ∧ slot.mint = some t ∧
        ringAndParallelism a.prim t (ringOf a) () = .ok (some (ring, parallelism), ()) ∧ out = slot ∧
        after = Function.update parallelismMap ring (parallelismMap ring + parallelism.toUInt64)) ∨
      (slot.rewarded currentFrameNumber ∧ out = { slot with fails := true } ∧ after = parallelismMap) := by
  rw [tallySlot] at done
  split at done
  · rename_i t alive isMint
    simp only [Bool.and_eq_true, Bool.not_eq_true'] at alive
    split at done
    · rename_i single
      simp only [Except.ok.injEq, Prod.mk.injEq] at done
      refine Or.inl ⟨done.1.symm, done.2.symm, ?_⟩
      rintro ⟨-, -, other, -, isOther, -, many, -⟩
      rw [isMint] at isOther
      cases isOther
      omega
    · split at done
      · rename_i chain
        obtain ⟨processed, isProcessed, done⟩ := (bind_ok_iff _ _ _).mp done
        rw [deref_ok_iff] at isProcessed
        cases valid : processed.validForReward with
        | true =>
            simp only [valid, if_true] at done
            have rewarded : slot.rewarded currentFrameNumber :=
              ⟨alive.1, alive.2, t, processed, isMint, isProcessed, chain.1, chain.2, valid⟩
            obtain ⟨⟨found, state⟩, ran, done⟩ := (bind_ok_iff _ _ _).mp done
            cases found with
            | none =>
                simp only [pure, Except.pure, Except.ok.injEq, Prod.mk.injEq] at done
                exact Or.inr (Or.inr ⟨rewarded, done.1.symm, done.2.symm⟩)
            | some pair =>
                obtain ⟨ring, parallelism⟩ := pair
                simp only [pure, Except.pure, Except.ok.injEq, Prod.mk.injEq] at done
                exact Or.inr (Or.inl ⟨t, ring, parallelism, rewarded, isMint, ran, done.1.symm, done.2.symm⟩)
        | false =>
            simp only [valid, Bool.false_eq_true, if_false, pure, Except.pure, Except.ok.injEq, Prod.mk.injEq] at done
            refine Or.inl ⟨done.1.symm, done.2.symm, ?_⟩
            rintro ⟨-, -, -, other, -, isOther, -, -, otherValid⟩
            rw [isProcessed] at isOther
            cases isOther
            rw [valid] at otherValid
            cases otherValid
      · rename_i notChain
        simp only [Except.ok.injEq, Prod.mk.injEq] at done
        refine Or.inl ⟨done.1.symm, done.2.symm, ?_⟩
        rintro ⟨-, -, other, -, isOther, -, many, late, -⟩
        rw [isMint] at isOther
        cases isOther
        exact notChain ⟨many, late⟩
  · rename_i otherwise
    simp only [Except.ok.injEq, Prod.mk.injEq] at done
    refine Or.inl ⟨done.1.symm, done.2.symm, ?_⟩
    rintro ⟨isSet, notFailed, t, -, isMint, -⟩
    exact otherwise t (by simp [isSet, notFailed]) isMint

theorem mint_slot_cases (done : mintSlot a currentFrameNumber parallelismMap slot = .ok out) :
    (out = slot ∧ (slot.set = false ∨ slot.fails = true ∨ slot.mint = none)) ∨
      (∃ t processed, slot.set = true ∧ slot.fails = false ∧ slot.mint = some t ∧ slot.processed = some processed ∧
        ((∃ success, handleMint a currentFrameNumber t processed parallelismMap = .ok success ∧
            out = { slot with success := some success }) ∨
         (∃ cause, handleMint a currentFrameNumber t processed parallelismMap = raise cause ∧
            out = { slot with fails := true }))) := by
  rw [mintSlot] at done
  split at done
  · rename_i t alive isMint
    simp only [Bool.and_eq_true, Bool.not_eq_true'] at alive
    obtain ⟨processed, isProcessed, done⟩ := (bind_ok_iff _ _ _).mp done
    rw [deref_ok_iff] at isProcessed
    obtain ⟨result, tried, rest⟩ := (bind_ok_iff _ _ _).mp done
    refine Or.inr ⟨t, processed, alive.1, alive.2, isMint, isProcessed, ?_⟩
    rcases (attempt_ok_iff _ _).mp tried with ⟨success, ran, same⟩ | ⟨cause, ran, same⟩
    · subst same
      exact Or.inl ⟨success, ran, (Except.ok.inj rest).symm⟩
    · subst same
      exact Or.inr ⟨cause, ran, (Except.ok.inj rest).symm⟩
  · rename_i otherwise
    refine Or.inl ⟨(Except.ok.inj done).symm, ?_⟩
    cases isSet : slot.set with
    | false => exact Or.inl rfl
    | true =>
        cases failed : slot.fails with
        | true => exact Or.inr (Or.inl rfl)
        | false =>
            cases isMint : slot.mint with
            | none => exact Or.inr (Or.inr rfl)
            | some t => exact absurd isMint (otherwise t (by simp [isSet, failed]))

theorem validate_mint_slot_valid (a : TokenApplication) (slot : Slot) (t : MintCoinRequest) (isMint : slot.mint = some t)
    (valid : MintCoinRequest.validate a.prim (some t) = .ok ()) : validateMintSlot a slot = .ok slot := by
  simp only [validateMintSlot, isMint, valid, attempt, ok_bind]
  rfl

theorem handle_slot_mint (a : TokenApplication) (currentFrameNumber : UInt64) (skipFailures : Bool) (lockMap : List Bytes)
    (slot : Slot) (t : MintCoinRequest) (request : slot.transition.request = some (.mint t)) :
    handleSlot a currentFrameNumber skipFailures lockMap slot = .ok (slot, lockMap) := by
  simp only [handleSlot, request, handlerOf, ite_self]

theorem pre_process_slot_ran (frame : ClockFrame) (slot : Slot) (t : MintCoinRequest) {processed : ProcessedMint} (isSet : slot.set = true)
    (isMint : slot.mint = some t) (ran : preProcessMint a fuel currentFrameNumber t frame = .ok processed) :
    preProcessSlot a fuel currentFrameNumber frame slot = .ok { slot with processed := some processed } := by
  simp only [preProcessSlot, isSet, isMint, ran, attempt, ok_bind]
  rfl

theorem tally_slot_counted (currentFrameNumber : UInt64) (parallelismMap : Int → UInt64) (slot : Slot) (t : MintCoinRequest) (ring : Int)
    (parallelism : UInt32) (rewarded : slot.rewarded currentFrameNumber) (isMint : slot.mint = some t)
    (found : ringAndParallelism a.prim t (ringOf a) () = .ok (some (ring, parallelism), ())) :
    tallySlot a currentFrameNumber parallelismMap slot =
      .ok (slot, Function.update parallelismMap ring (parallelismMap ring + parallelism.toUInt64)) := by
  obtain ⟨isSet, notFailed, other, processed, isOther, isProcessed, many, late, valid⟩ := rewarded
  rw [isMint] at isOther
  cases isOther
  have notSingle : t.proofs.length ≠ 1 := by omega
  have chain : t.proofs.length ≥ 3 ∧ currentFrameNumber > PROOF_FRAME_CUTOFF := ⟨many, late⟩
  simp only [tallySlot, isSet, notFailed, Bool.not_false, Bool.and_self, isMint, if_neg notSingle, if_pos chain, isProcessed,
    deref_some, ok_bind, valid, if_true, found]
  rfl

theorem mint_slot_ran (currentFrameNumber : UInt64) (parallelismMap : Int → UInt64) (slot : Slot) (t : MintCoinRequest)
    (processed : ProcessedMint) {success : List TokenOutput} (isSet : slot.set = true) (notFailed : slot.fails = false)
    (isMint : slot.mint = some t) (isProcessed : slot.processed = some processed)
    (ran : handleMint a currentFrameNumber t processed parallelismMap = .ok success) :
    mintSlot a currentFrameNumber parallelismMap slot = .ok { slot with success := some success } := by
  simp only [mintSlot, isSet, notFailed, Bool.not_false, Bool.and_self, isMint, isProcessed, deref_some, ok_bind, ran, attempt]
  rfl

structure Passes (a : TokenApplication) (fuel : Nat) (currentFrameNumber : UInt64) (frame : ClockFrame)
    (requests : List TokenRequest) (skipFailures : Bool) (slots : List Slot) where
  validated : List Slot
  selected : List Slot
  seen : List Bytes
  handled : List Slot
  lockMap : List Bytes
  processed : List Slot
  tallied : List Slot
  parallelismMap : Int → UInt64
  validate : (requests.map newSlot).mapM (validateMintSlot a) = .ok validated
  select : mapAccumM (selectSlot a currentFrameNumber) [] validated = .ok (selected, seen)
  handle : mapAccumM (handleSlot a currentFrameNumber skipFailures) [] selected = .ok (handled, lockMap)
  preProcess : handled.mapM (preProcessSlot a fuel currentFrameNumber frame) = .ok processed
  tally : mapAccumM (tallySlot a currentFrameNumber) (fun _ => 0) processed = .ok (tallied, parallelismMap)
  mint : tallied.mapM (mintSlot a currentFrameNumber parallelismMap) = .ok slots

theorem run_passes_ok_iff {requests : List TokenRequest} {slots : List Slot} :
    runPasses a fuel currentFrameNumber frame requests skipFailures = .ok slots ↔
      Nonempty (Passes a fuel currentFrameNumber frame requests skipFailures slots) := by
  simp only [runPasses, bind_ok_iff]
  constructor
  · rintro ⟨validated, validate, ⟨selected, seen⟩, select, ⟨handled, lockMap⟩, handle, processed, preProcess,
      ⟨tallied, parallelismMap⟩, tally, mint⟩
    exact ⟨⟨validated, selected, seen, handled, lockMap, processed, tallied, parallelismMap, validate, select, handle,
      preProcess, tally, mint⟩⟩
  · rintro ⟨run⟩
    exact ⟨run.validated, run.validate, (run.selected, run.seen), run.select, (run.handled, run.lockMap), run.handle,
      run.processed, run.preProcess, (run.tallied, run.parallelismMap), run.tally, run.mint⟩

structure Slot.Selected (slot : Slot) : Prop where
  pending : slot.success = none
  exclusive : slot.set = true → slot.fails = false

structure Slot.Handled (slot : Slot) : Prop where
  minting : slot.mint ≠ none → slot.success = none
  succeeded : slot.success ≠ none → slot.set = true ∧ slot.fails = false

structure Slot.Ready (a : TokenApplication) (fuel : Nat) (currentFrameNumber : UInt64) (frame : ClockFrame) (slot : Slot) : Prop
    extends slot.Handled where
  ready : ∀ t, slot.mint = some t → slot.set = true → slot.fails = false →
    ∃ processed, slot.processed = some processed ∧ preProcessMint a fuel currentFrameNumber t frame = .ok processed

theorem validated_unset (slot out : Slot) (done : validateMintSlot a slot = .ok out) (fresh : slot.success = none ∧ slot.set = false) :
    out.success = none ∧ out.set = false := by
  rcases validate_mint_slot_cases done with ⟨same, -⟩ | ⟨-, same⟩
  · rw [same]; exact fresh
  · rw [same]; exact fresh

theorem selected_step (a : TokenApplication) (currentFrameNumber : UInt64) (seen after : List Bytes) (slot out : Slot)
    (done : selectSlot a currentFrameNumber seen slot = .ok (out, after))
    (fresh : slot.success = none ∧ slot.set = false) : out.Selected := by
  rcases select_slot_cases done with
    ⟨same, -⟩ | ⟨notFailed, -, same, -⟩ | ⟨t, chosen, -, -, same, -⟩
  · rw [same]
    exact ⟨fresh.1, fun isSet => by rw [fresh.2] at isSet; cases isSet⟩
  · rw [same]
    exact ⟨fresh.1, fun _ => notFailed⟩
  · rw [same]
    exact ⟨fresh.1, fun isChosen => by simpa using isChosen⟩

theorem handler_not_mint (found : handlerOf a currentFrameNumber slot.transition.request = some handler) : slot.mint = none := by
  rw [Slot.mint]
  split
  · rename_i t isMint
    rw [isMint] at found
    cases found
  · rfl

theorem mint_request {t : MintCoinRequest} (isMint : slot.mint = some t) : slot.transition.request = some (.mint t) := by
  unfold Slot.mint at isMint
  split at isMint
  · rename_i isRequest
    cases isMint
    exact isRequest
  · cases isMint

theorem handler_tame {request : Option Request} (found : handlerOf a currentFrameNumber request = some handler) : Tame handler := by
  rcases request with _ | (t | t | t | t | t | t | t | t | t) <;> cases found
  · exact handle_transfer_tame
  · exact handle_split_tame
  · exact handle_merge_tame
  · exact handle_announce_tame
  · exact handle_join_tame
  · exact handle_change_tame
  · exact handle_change_tame
  · exact handle_change_tame

theorem handle_slot_grows (done : handleSlot a currentFrameNumber skipFailures lockMap slot = .ok (out, after)) : lockMap ⊆ after := by
  rcases handle_slot_cases done with
    ⟨-, same, -⟩ | ⟨handler, success, -, found, ran, -⟩ | ⟨handler, cause, -, found, ran, -⟩
  · rw [same]; exact List.Subset.refl _
  · have grows := (handler_tame found).grows lockMap
    rwa [ran] at grows
  · have grows := (handler_tame found).grows lockMap
    rwa [ran] at grows

theorem handled_step (a : TokenApplication) (currentFrameNumber : UInt64) (skipFailures : Bool) (lockMap after : List Bytes)
    (slot out : Slot) (done : handleSlot a currentFrameNumber skipFailures lockMap slot = .ok (out, after))
    (selected : slot.Selected) : out.Handled := by
  rcases handle_slot_cases done with
    ⟨same, -⟩ | ⟨handler, success, isSet, found, -, same⟩ | ⟨handler, cause, -, found, -, -, same⟩
  · rw [same]
    exact ⟨fun _ => selected.pending, fun some => absurd selected.pending some⟩
  · rw [same]
    exact ⟨fun isMint => absurd (handler_not_mint found) isMint,
      fun _ => ⟨isSet, selected.exclusive isSet⟩⟩
  · rw [same]
    exact ⟨fun _ => selected.pending, fun some => absurd selected.pending some⟩

theorem ready_step (slot out : Slot) (done : preProcessSlot a fuel currentFrameNumber frame slot = .ok out) (handled : slot.Handled) :
    out.Ready a fuel currentFrameNumber frame := by
  rcases pre_process_slot_cases done with
    ⟨same, neither⟩ | ⟨t, processed, isSet, isMint, ran, same⟩ | ⟨t, isSet, isMint, same⟩
  · rw [same]
    refine ⟨handled, fun t isMint isSet _ => ?_⟩
    rcases neither with notSet | notMint
    · rw [notSet] at isSet; cases isSet
    · rw [notMint] at isMint; cases isMint
  · rw [same]
    refine ⟨⟨handled.minting, handled.succeeded⟩, fun other isOther _ _ => ⟨processed, rfl, ?_⟩⟩
    have sameMint : slot.mint = some other := isOther
    rw [isMint] at sameMint
    cases sameMint
    exact ran
  · rw [same]
    have pending := handled.minting (by rw [isMint]; simp)
    exact ⟨⟨fun _ => pending, fun some => absurd pending some⟩, fun _ _ _ notFailed => by cases notFailed⟩

theorem tallied_step (a : TokenApplication) (fuel : Nat) (currentFrameNumber : UInt64) (frame : ClockFrame)
    (parallelismMap after : Int → UInt64) (slot out : Slot)
    (done : tallySlot a currentFrameNumber parallelismMap slot = .ok (out, after))
    (ready : slot.Ready a fuel currentFrameNumber frame) : out.Ready a fuel currentFrameNumber frame := by
  rcases tally_slot_cases done with
    ⟨same, -⟩ | ⟨t, ring, parallelism, -, -, -, same, -⟩ | ⟨⟨-, -, t, -, isMint, -⟩, same, -⟩
  · rw [same]; exact ready
  · rw [same]; exact ready
  · rw [same]
    have pending := ready.minting (by rw [isMint]; simp)
    exact ⟨⟨fun _ => pending, fun some => absurd pending some⟩, fun _ _ _ notFailed => by cases notFailed⟩

theorem minted_step (slot out : Slot) (done : mintSlot a currentFrameNumber parallelismMap slot = .ok out) (handled : slot.Handled) :
    out.success ≠ none → out.set = true ∧ out.fails = false := by
  rcases mint_slot_cases done with
    ⟨same, -⟩ | ⟨t, processed, isSet, notFailed, isMint, -, ⟨success, -, same⟩ | ⟨cause, -, same⟩⟩
  · rw [same]; exact handled.succeeded
  · rw [same]; exact fun _ => ⟨isSet, notFailed⟩
  · rw [same]
    exact fun some => absurd (handled.minting (by rw [isMint]; simp)) some

section Runs

variable {a : TokenApplication} {fuel : Nat} {currentFrameNumber : UInt64} {frame : ClockFrame}
  {requests : List TokenRequest} {skipFailures : Bool} {slots : List Slot}

section

variable (run : Passes a fuel currentFrameNumber frame requests skipFailures slots)

include run

theorem Passes.validated_fresh :
    ∀ slot ∈ run.validated, slot.success = none ∧ slot.set = false := by
  refine forall₂_transfer validated_unset ((map_m_iff _ _ _).mp run.validate) ?_
  intro slot member
  obtain ⟨request, -, same⟩ := List.mem_map.mp member
  rw [← same]
  exact ⟨rfl, rfl⟩

theorem Passes.selected_all :
    ∀ slot ∈ run.selected, slot.Selected :=
  map_accum_transfer (fun seen slot out after => selected_step a currentFrameNumber seen after slot out) run.select run.validated_fresh

theorem Passes.handled_all :
    ∀ slot ∈ run.handled, slot.Handled :=
  map_accum_transfer (fun lockMap slot out after => handled_step a currentFrameNumber skipFailures lockMap after slot out)
    run.handle run.selected_all

theorem Passes.processed_all :
    ∀ slot ∈ run.processed, slot.Ready a fuel currentFrameNumber frame :=
  forall₂_transfer ready_step ((map_m_iff _ _ _).mp run.preProcess) run.handled_all

theorem Passes.tallied_all :
    ∀ slot ∈ run.tallied, slot.Ready a fuel currentFrameNumber frame :=
  map_accum_transfer
    (fun parallelismMap slot out after => tallied_step a fuel currentFrameNumber frame parallelismMap after slot out)
    run.tally run.processed_all

theorem Passes.succeeded_all :
    ∀ slot ∈ slots, slot.success ≠ none → slot.set = true ∧ slot.fails = false :=
  forall₂_transfer minted_step ((map_m_iff _ _ _).mp run.mint)
    fun slot member => (run.tallied_all slot member).toHandled

theorem Passes.transitions :
    slots.map Slot.transition = requests := by
  have validated : run.validated.map Slot.transition = (requests.map newSlot).map Slot.transition :=
    forall₂_map_eq (((map_m_iff _ _ _).mp run.validate).imp fun slot out step => by
      rcases validate_mint_slot_cases step with ⟨same, -⟩ | ⟨-, same⟩ <;> rw [same])
  have selected : run.selected.map Slot.transition = run.validated.map Slot.transition :=
    forall₂_map_eq (map_accum_related _ (fun seen slot out after step => by
      rcases select_slot_cases step with
        ⟨same, -⟩ | ⟨-, -, same, -⟩ | ⟨t, chosen, -, -, same, -⟩ <;> rw [same]) run.select)
  have handled : run.handled.map Slot.transition = run.selected.map Slot.transition :=
    forall₂_map_eq (map_accum_related _ (fun lockMap slot out after step => by
      rcases handle_slot_cases step with
        ⟨same, -⟩ | ⟨handler, success, -, -, -, same⟩ | ⟨handler, cause, -, -, -, -, same⟩ <;> rw [same]) run.handle)
  have processed : run.processed.map Slot.transition = run.handled.map Slot.transition :=
    forall₂_map_eq (((map_m_iff _ _ _).mp run.preProcess).imp fun slot out step => by
      rcases pre_process_slot_cases step with
        ⟨same, -⟩ | ⟨t, processed, -, -, -, same⟩ | ⟨t, -, -, same⟩ <;> rw [same])
  have tallied : run.tallied.map Slot.transition = run.processed.map Slot.transition :=
    forall₂_map_eq (map_accum_related _ (fun parallelismMap slot out after step => by
      rcases tally_slot_cases step with
        ⟨same, -⟩ | ⟨t, ring, parallelism, -, -, -, same, -⟩ | ⟨-, same, -⟩ <;> rw [same]) run.tally)
  have minted : slots.map Slot.transition = run.tallied.map Slot.transition :=
    forall₂_map_eq (((map_m_iff _ _ _).mp run.mint).imp fun slot out step => by
      rcases mint_slot_cases step with
        ⟨same, -⟩ | ⟨t, processed, -, -, -, -, ⟨success, -, same⟩ | ⟨cause, -, same⟩⟩ <;> rw [same])
  rw [minted, tallied, processed, handled, selected, validated, List.map_map]
  exact List.map_id _

end

end Runs

theorem apply_transitions_ok {transitions : List TokenRequest} {applied : Applied}
    (done : applyTransitions a fuel currentFrameNumber transitions skipFailures = .ok applied) :
    ∃ filter frame requests slots, getBloomFilter a.prim TOKEN_ADDRESS 256 3 = .ok filter ∧
      a.clockStore.getDataClockFrame filter (currentFrameNumber - 1) false = .ok frame ∧
      orderRequests transitions skipFailures = .ok requests ∧
      Nonempty (Passes a fuel currentFrameNumber frame requests skipFailures slots) ∧
      applied.receipts = slots.filterMap Slot.receipt ∧ applied.failed = (slots.filter Slot.fails).map Slot.transition ∧
      (skipFailures = false → applied.failed = []) := by
  simp only [applyTransitions, bind_ok_iff, replace_err_ok_iff, returned_ok_iff, fail_if_ok_iff, run_passes_ok_iff] at done
  obtain ⟨filter, isFilter, frame, isFrame, requests, ordered, slots, run, _, noFailure, result⟩ := done
  cases result
  refine ⟨filter, frame, requests, slots, isFilter, isFrame, ordered, run, rfl, rfl, fun strict => ?_⟩
  by_contra failed
  exact noFailure ⟨failed, strict⟩

end Ceremony
