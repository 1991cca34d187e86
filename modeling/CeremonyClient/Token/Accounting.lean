import CeremonyClient.Token.Slots

set_option autoImplicit false

namespace Ceremony

open GoSem

variable {slot : Slot} {a : TokenApplication} {currentFrameNumber : UInt64} {out : Slot} {parallelismMap : Int → UInt64}
  {after : List Bytes} {transition : TokenRequest} {skipFailures : Bool} {lockMap : List Bytes} {slots : List Slot}

def locksAfter (a : TokenApplication) (currentFrameNumber : UInt64) (lockMap : List Bytes) (transition : TokenRequest) : List Bytes :=
  match handlerOf a currentFrameNumber transition.request with
  | none => lockMap
  | some handler => (handler.on lockMap).2

def UnselectedMint (a : TokenApplication) (currentFrameNumber : UInt64) (t : MintCoinRequest) : Prop :=
  MintCoinRequest.validate a.prim (some t) = .ok () ∧ t.proofs.length ≠ 1 ∧
    ¬ (t.proofs.length ≥ 3 ∧ currentFrameNumber > PROOF_FRAME_CUTOFF)

-- No request at all, a mint of two proofs, or an announcement that is refused while failures are skipped.
def Lost (a : TokenApplication) (currentFrameNumber : UInt64) (lockMap : List Bytes) (transition : TokenRequest) : Prop :=
  match transition.request with
  | none => True
  | some (.mint t) => UnselectedMint a currentFrameNumber t
  | some (.announce t) => ∃ cause, ((handleAnnounce a currentFrameNumber t).on lockMap).1 = raise cause
  | _ => False

def NoneLost (a : TokenApplication) (currentFrameNumber : UInt64) : List Bytes → List TokenRequest → Prop
  | _, [] => True
  | lockMap, transition :: tail =>
      ¬ Lost a currentFrameNumber lockMap transition ∧
        NoneLost a currentFrameNumber (locksAfter a currentFrameNumber lockMap transition) tail

def Accounted (transitions : List TokenRequest) (skipFailures : Bool) (applied : Applied) : Prop :=
  if skipFailures then (applied.finalized ++ applied.failed).Perm transitions else applied.finalized = transitions

def Slot.Stuck (slot : Slot) : Prop := slot.success = none ∧ slot.fails = false ∧ (slot.mint = none ∨ slot.set = false)

theorem set_mint_not_stuck {t : MintCoinRequest} (isSet : slot.set = true) (isMint : slot.mint = some t) : ¬ slot.Stuck := by
  rintro ⟨-, -, notMint | notSet⟩
  · rw [isMint] at notMint
    cases notMint
  · rw [isSet] at notSet
    cases notSet

theorem stuck_pre_process {fuel : Nat} {frame : ClockFrame} (done : preProcessSlot a fuel currentFrameNumber frame slot = .ok out) :
    out.Stuck ↔ slot.Stuck := by
  rcases pre_process_slot_cases done with
    ⟨same, -⟩ | ⟨t, processed, -, -, -, same⟩ | ⟨t, isSet, isMint, same⟩
  · rw [same]
  · rw [same]
    exact Iff.rfl
  · rw [same]
    exact iff_of_false (fun stuck => by cases stuck.2.1) (set_mint_not_stuck isSet isMint)

theorem stuck_tally {after : Int → UInt64} (done : tallySlot a currentFrameNumber parallelismMap slot = .ok (out, after)) :
    out.Stuck ↔ slot.Stuck := by
  rcases tally_slot_cases done with
    ⟨same, -⟩ | ⟨t, ring, parallelism, -, -, -, same, -⟩ | ⟨⟨isSet, -, t, -, isMint, -⟩, same, -⟩
  · rw [same]
  · rw [same]
  · rw [same]
    exact iff_of_false (fun stuck => by cases stuck.2.1) (set_mint_not_stuck isSet isMint)

theorem stuck_mint (done : mintSlot a currentFrameNumber parallelismMap slot = .ok out) :
    (out.success = none ∧ out.fails = false) ↔ slot.Stuck := by
  rcases mint_slot_cases done with
    ⟨same, neither⟩ | ⟨t, processed, isSet, notFailed, isMint, -, ⟨success, -, same⟩ | ⟨cause, -, same⟩⟩
  · rw [same]
    refine ⟨fun open_ => ⟨open_.1, open_.2, ?_⟩, fun stuck => ⟨stuck.1, stuck.2.1⟩⟩
    rcases neither with notSet | failed | notMint
    · exact Or.inr notSet
    · rw [open_.2] at failed
      cases failed
    · exact Or.inl notMint
  · rw [same]
    exact iff_of_false (fun both => by cases both.1) (set_mint_not_stuck isSet isMint)
  · rw [same]
    exact iff_of_false (fun both => by cases both.2) (set_mint_not_stuck isSet isMint)

structure SelectedFor (a : TokenApplication) (currentFrameNumber : UInt64) (transition : TokenRequest) (slot : Slot) : Prop where
  same : slot.transition = transition
  pending : slot.success = none
  other : slot.mint = none → slot.set = true ∧ slot.fails = false
  mint : ∀ t, slot.mint = some t → (slot.fails = false ∧ slot.set = false ↔ UnselectedMint a currentFrameNumber t)

theorem selected_for {seen : List Bytes} {validated : Slot} (first : validateMintSlot a (newSlot transition) = .ok validated)
    (second : selectSlot a currentFrameNumber seen validated = .ok (slot, after)) : SelectedFor a currentFrameNumber transition slot := by
  have isMint : (newSlot transition).mint = validated.mint := by
    rcases validate_mint_slot_cases first with ⟨same, -⟩ | ⟨-, same⟩
    · rw [same]
    · rw [same]; rfl
  rcases select_slot_cases second with
    ⟨shape, -, kind⟩ | ⟨notFailed, notMint, shape, -⟩ | ⟨t, chosen, notFailed, mint, shape, kind⟩
  · rcases validate_mint_slot_cases first with ⟨same, valid⟩ | ⟨⟨t, mint⟩, same⟩
    · subst same
      subst shape
      rcases kind with failed | ⟨t, mint, notSingle, notChain⟩
      · cases failed
      · refine ⟨rfl, rfl, fun absent => ?_, fun other isOther => ⟨fun _ => ?_, fun _ => ⟨rfl, rfl⟩⟩⟩
        · rw [mint] at absent
          cases absent
        · rw [mint] at isOther
          cases isOther
          exact ⟨valid t mint, notSingle, notChain⟩
    · subst same
      subst shape
      refine ⟨rfl, rfl, fun absent => ?_, fun other isOther => ⟨fun both => ?_, fun unselected => ?_⟩⟩
      · rw [← isMint, mint] at absent
        cases absent
      · cases both.1
      · exfalso
        rw [← isMint] at isOther
        have invalid := first
        simp only [validateMintSlot, isOther, unselected.1, attempt, ok_bind] at invalid
        cases invalid
  · rcases validate_mint_slot_cases first with ⟨same, -⟩ | ⟨⟨t, mint⟩, same⟩
    · subst same
      subst shape
      exact ⟨rfl, rfl, fun _ => ⟨rfl, rfl⟩, fun t isOther => by rw [show (newSlot transition).mint = some t from isOther] at notMint; cases notMint⟩
    · rw [← isMint, mint] at notMint
      cases notMint
  · rcases validate_mint_slot_cases first with ⟨same, valid⟩ | ⟨-, same⟩
    · subst same
      subst shape
      refine ⟨rfl, rfl, fun absent => ?_, fun other isOther => ⟨fun both => ?_, fun unselected => ?_⟩⟩
      · rw [show (newSlot transition).mint = none from absent] at mint
        cases mint
      · simp only [Bool.not_eq_false'] at both
        rw [both.1] at both
        cases both.2
      · have sameMint : (newSlot transition).mint = some other := isOther
        rw [mint] at sameMint
        cases sameMint
        rcases kind with ⟨single, -⟩ | ⟨many, late, -⟩
        · exact absurd single unselected.2.1
        · exact absurd ⟨many, late⟩ unselected.2.2
    · rw [same] at notFailed
      cases notFailed

theorem stuck_handle (selected : SelectedFor a currentFrameNumber transition slot)
    (done : handleSlot a currentFrameNumber skipFailures lockMap slot = .ok (out, after)) :
    (out.Stuck ↔ Lost a currentFrameNumber lockMap transition) ∧ after = locksAfter a currentFrameNumber lockMap transition := by
  have same := selected.same
  subst same
  rcases handle_slot_cases done with
    ⟨shape, unchanged, neither⟩ | ⟨handler, success, isSet, found, ran, shape⟩ | ⟨handler, cause, isSet, found, ran, -, shape⟩
  · rw [shape, unchanged]
    cases request : slot.transition.request with
    | none =>
        have notMint : slot.mint = none := by simp [Slot.mint, request]
        have open_ := selected.other notMint
        simp [Lost, locksAfter, handlerOf, request, Slot.Stuck, selected.pending, open_.2, notMint]
    | some kind =>
        have noHandler : slot.mint = none → handlerOf a currentFrameNumber slot.transition.request = none := by
          intro notMint
          rcases neither with notSet | absent
          · rw [(selected.other notMint).1] at notSet
            cases notSet
          · exact absent
        cases kind with
        | mint t =>
            have isMint : slot.mint = some t := by simp [Slot.mint, request]
            have unselected := selected.mint t isMint
            simp [Lost, locksAfter, handlerOf, request, Slot.Stuck, selected.pending, isMint, ← unselected]
        | _ =>
            have absent := noHandler (by simp [Slot.mint, request])
            rw [request] at absent
            cases absent
  · have notStuck : ¬ out.Stuck := by
      rw [shape]
      exact fun stuck => by cases stuck.1
    have notLost : ¬ Lost a currentFrameNumber lockMap slot.transition := by
      unfold Lost
      split
      · rename_i request
        rw [request] at found
        cases found
      · rename_i t request
        rw [request] at found
        cases found
      · rename_i t request
        rw [request] at found
        cases found
        rw [ran]
        rintro ⟨cause, refused⟩
        cases refused
      · exact id
    exact ⟨iff_of_false notStuck notLost, by simp [locksAfter, found, ran]⟩
  · have notMint := handler_not_mint found
    have stuck : out.Stuck ↔ isAnnounce slot.transition.request = true := by
      rw [shape]
      exact ⟨fun stuck => by simpa using stuck.2.1, fun announced => ⟨selected.pending, by simp [announced], Or.inl notMint⟩⟩
    have lost : Lost a currentFrameNumber lockMap slot.transition ↔ isAnnounce slot.transition.request = true := by
      cases request : slot.transition.request with
      | none =>
          rw [request] at found
          cases found
      | some kind =>
          cases kind with
          | mint t =>
              rw [request] at found
              cases found
          | announce t =>
              rw [request] at found
              cases found
              simp [Lost, request, isAnnounce, ran]
          | _ => simp [Lost, request, isAnnounce]
    exact ⟨stuck.trans lost.symm, by simp [locksAfter, found, ran]⟩

theorem none_stuck_iff {transitions : List TokenRequest} {selected handled : List Slot}
    (each : List.Forall₂ (SelectedFor a currentFrameNumber) transitions selected)
    (done : mapAccumM (handleSlot a currentFrameNumber skipFailures) lockMap selected = .ok (handled, after)) :
    (∀ slot ∈ handled, ¬ slot.Stuck) ↔ NoneLost a currentFrameNumber lockMap transitions := by
  induction each generalizing lockMap handled with
  | nil =>
      cases done
      simp [NoneLost]
  | cons first rest ih =>
      obtain ⟨out, between, outs, begun, ran, shape⟩ := map_accum_cons.mp done
      obtain ⟨stuck, locks⟩ := stuck_handle first begun
      rw [shape, List.forall_mem_cons, NoneLost, stuck, ← locks, ih ran]

theorem Passes.none_open_iff {a : TokenApplication} {fuel : Nat} {currentFrameNumber : UInt64} {frame : ClockFrame}
    {requests : List TokenRequest} {skipFailures : Bool} {slots : List Slot}
    (run : Passes a fuel currentFrameNumber frame requests skipFailures slots) :
    (∀ slot ∈ slots, ¬ (slot.success = none ∧ slot.fails = false)) ↔ NoneLost a currentFrameNumber [] requests := by
  have validated : List.Forall₂ (fun transition slot => validateMintSlot a (newSlot transition) = .ok slot) requests run.validated :=
    List.forall₂_map_left_iff.mp ((map_m_iff _ _ _).mp run.validate)
  have selected : List.Forall₂ (fun slot out => ∃ seen after, selectSlot a currentFrameNumber seen slot = .ok (out, after))
      run.validated run.selected :=
    map_accum_related _ (fun seen slot out after step => ⟨seen, after, step⟩) run.select
  have each := forall₂_trans (fun transition validated slot first ⟨seen, after, second⟩ =>
    selected_for first second) validated selected
  have minted := forall₂_all_iff (fun slot out step => not_congr (stuck_mint step))
    ((map_m_iff _ _ _).mp run.mint)
  have tallied := forall₂_all_iff (fun slot out step => not_congr step)
    (map_accum_related (fun slot out => out.Stuck ↔ slot.Stuck)
      (fun map slot out after => stuck_tally) run.tally)
  have processed := forall₂_all_iff (fun slot out step => not_congr (stuck_pre_process step))
    ((map_m_iff _ _ _).mp run.preProcess)
  rw [minted, tallied, processed]
  exact none_stuck_iff each run.handle

theorem slots_split (succeeded : ∀ slot ∈ slots, slot.success ≠ none → slot.set = true ∧ slot.fails = false) :
    slots.Perm (slots.filter (fun slot => slot.success.isSome) ++ slots.filter Slot.fails ++
      slots.filter fun slot => slot.success.isNone && !slot.fails) := by
  induction slots with
  | nil => exact List.Perm.refl _
  | cons slot tail ih =>
      rw [List.forall_mem_cons] at succeeded
      have rest := ih succeeded.2
      cases done : slot.success with
      | some outputs =>
          have notFailed := (succeeded.1 (by simp [done])).2
          simpa [done, notFailed] using rest
      | none =>
          cases failed : slot.fails with
          | true =>
              rw [List.append_assoc] at rest
              simpa [done, failed] using (rest.cons slot).trans List.perm_middle.symm
          | false =>
              simp only [done, failed, List.filter_cons, Option.isSome_none, Option.isNone_none, Bool.not_false, Bool.and_self,
                Bool.false_eq_true, if_false, if_true]
              exact (rest.cons slot).trans List.perm_middle.symm

theorem receipts_finalized :
    (slots.filterMap Slot.receipt).map Prod.fst = (slots.filter fun slot => slot.success.isSome).map Slot.transition := by
  rw [List.map_filterMap, ← List.filterMap_eq_map, List.filterMap_filter]
  refine List.filterMap_congr fun slot _ => ?_
  cases done : slot.success <;> simp [Slot.receipt, done]

theorem open_slots_empty_iff :
    (slots.filter fun slot => slot.success.isNone && !slot.fails) = [] ↔
      ∀ slot ∈ slots, ¬ (slot.success = none ∧ slot.fails = false) := by
  simp [List.filter_eq_nil_iff]

theorem request_accounting_iff (a : TokenApplication) (fuel : Nat) (currentFrameNumber : UInt64) (transitions : List TokenRequest)
    (skipFailures : Bool) (applied : Applied)
    (done : applyTransitions a fuel currentFrameNumber transitions skipFailures = .ok applied) :
    Accounted transitions skipFailures applied ↔
      ∃ ordered, orderRequests transitions skipFailures = .ok ordered ∧ NoneLost a currentFrameNumber [] ordered := by
  obtain ⟨filter, frame, requests, slots, -, -, ordered, ⟨run⟩, receipts, failed, strict⟩ :=
    apply_transitions_ok done
  have finalized : applied.finalized = (slots.filter fun slot => slot.success.isSome).map Slot.transition := by
    rw [Applied.finalized, receipts, receipts_finalized]
  have split := (slots_split run.succeeded_all).map Slot.transition
  rw [run.transitions, List.map_append, List.map_append, ← finalized, ← failed] at split
  have noneOpen := open_slots_empty_iff.trans run.none_open_iff
  have right : (∃ ordered, orderRequests transitions skipFailures = .ok ordered ∧ NoneLost a currentFrameNumber [] ordered) ↔
      (slots.filter fun slot => slot.success.isNone && !slot.fails) = [] := by
    rw [ordered, noneOpen]
    simp
  rw [right, Accounted]
  cases skipFailures with
  | true =>
      have order : requests.Perm transitions := by
        obtain ⟨mints, pushed, same⟩ := (bind_ok_iff _ _ _).mp ordered
        rw [← Except.ok.inj same]
        exact all_perm pushed
      rw [if_pos rfl]
      constructor
      · intro accounted
        have lengths := (split.symm.trans (order.trans accounted.symm)).length_eq
        rw [List.length_append] at lengths
        rw [List.length_map] at lengths
        exact List.length_eq_zero_iff.mp (by omega)
      · intro empty
        rw [empty, List.map_nil, List.append_nil] at split
        exact split.symm.trans order
  | false =>
      have order : requests = transitions := (Except.ok.inj ordered).symm
      have noFailed := strict rfl
      rw [if_neg (by simp)]
      rw [noFailed, List.append_nil, order] at split
      constructor
      · intro same
        have lengths := split.length_eq
        rw [List.length_append, same] at lengths
        rw [List.length_map] at lengths
        exact List.length_eq_zero_iff.mp (by omega)
      · intro empty
        have all : ∀ slot ∈ slots, slot.success.isSome = true := by
          intro slot member
          have open_ := open_slots_empty_iff.mp empty slot member
          have clean : slot.fails = false := by
            rw [noFailed, eq_comm, List.map_eq_nil_iff, List.filter_eq_nil_iff] at failed
            simpa using failed slot member
          cases pending : slot.success with
          | none => exact absurd ⟨pending, clean⟩ open_
          | some outputs => rfl
        rw [finalized, List.filter_eq_self.mpr all, run.transitions, order]

theorem request_accounting_double_spend :
    ∃ applied, applyTransitions sampleApplication 8 5
        [sampleTransfer (List.replicate 32 3), sampleTransfer (List.replicate 32 4)] true = .ok applied ∧
      Accounted [sampleTransfer (List.replicate 32 3), sampleTransfer (List.replicate 32 4)] true applied ∧
      ∃ ordered, orderRequests [sampleTransfer (List.replicate 32 3), sampleTransfer (List.replicate 32 4)] true = .ok ordered ∧
        NoneLost sampleApplication 5 [] ordered := by
  have ran : returnsWith (applyTransitions sampleApplication 8 5
      [sampleTransfer (List.replicate 32 3), sampleTransfer (List.replicate 32 4)] true)
      (fun applied => applied.finalized ++ applied.failed ==
        [sampleTransfer (List.replicate 32 3), sampleTransfer (List.replicate 32 4)]) = true := by decide +kernel
  obtain ⟨applied, done, check⟩ := (returns_with_iff _ _).mp ran
  rw [beq_iff_eq] at check
  have accounted : Accounted [sampleTransfer (List.replicate 32 3), sampleTransfer (List.replicate 32 4)] true applied := by
    rw [Accounted, if_pos rfl, check]
  exact ⟨applied, done, accounted, (request_accounting_iff sampleApplication 8 5 _ true applied done).mp accounted⟩

-- A validly signed mint of two proofs is in neither list, although nothing refused it.
def sampleTwoProofMint : TokenRequest :=
  let proofs := [List.replicate 32 2, List.replicate 4 0]
  ⟨some (.mint ⟨proofs, none, sampleSignature (ascii ['m', 'i', 'n', 't'] ++ proofs.flatten)⟩), 1⟩

theorem two_proof_mint_unaccounted :
    applyTransitions sampleApplication 8 5 [sampleTwoProofMint] true = .ok ⟨[], []⟩ ∧
      ¬ Accounted [sampleTwoProofMint] true ⟨[], []⟩ ∧
      applyTransitions sampleApplication 8 5 [sampleTwoProofMint] false = .ok ⟨[], []⟩ ∧
      ¬ Accounted [sampleTwoProofMint] false ⟨[], []⟩ := by
  refine ⟨by decide +kernel, fun accounted => ?_, by decide +kernel, fun accounted => ?_⟩
  · exact absurd (List.Perm.length_eq accounted) (by simp [Applied.finalized])
  · exact absurd accounted (by simp [Accounted, Applied.finalized])

end Ceremony
