import CeremonyClient.Crypto.FrameProver
import CeremonyClient.Lib.Panics
import CeremonyClient.Lib.Passes
import CeremonyClient.Store.Clock

set_option autoImplicit false

namespace Ceremony

open GoSem

variable {text : String} {commitment : Bytes}

-- The error that Set returns for a record, and what Abort leaves: a pebble batch drops the changes, the in-memory
-- transaction keeps them.
structure Transaction where
  setErr : Bytes → Bytes → Option GoError
  abort : Txn → Txn

def Transaction.set (t : Transaction) (text : String) (key value : Bytes) : StateGo Txn Unit :=
  match t.setErr key value with
  | some cause => call (raise (cause.wrap text))
  | none => modifyState fun txn => txn ++ [.set key value]

def Transaction.Takes (t : Transaction) (ops : Txn) : Prop := ∀ key value, .set key value ∈ ops → t.setErr key value = none

namespace PebbleClockStore

section Staging

variable (c : StoreCodec) (t : Transaction)

-- The writes of internalPutAggregateProof one by one, so that those before an error stay recorded.
def recordInclusion (filter commitment : Bytes) (inc : InclusionCommitment × Nat) : StateGo Txn Unit := do
  let segments ← call (segmentsOf c "get aggregate proof" inc.1)
  segments.forM fun segment => t.set "put aggregate proof" (segmentKey c filter segment) segment
  t.set "put aggregate proof" (dataProofInclusionKey filter commitment (UInt64.ofNat inc.2)) (encodeInclusion c inc.1 segments)

def recordAggregateProof (aggregateProof : InclusionAggregateProof) (commitment : Bytes) : StateGo Txn Unit := do
  aggregateProof.inclusionCommitments.zipIdx.forM (recordInclusion c t aggregateProof.filter commitment)
  t.set "put aggregate proof" (dataProofMetadataKey aggregateProof.filter commitment) (aggregateMetadata aggregateProof)

-- if err != nil { if err = txn.Abort(); err != nil { return err } }: an error is replaced by that of Abort, which is nil.
def aborted : Go Unit × Txn → Go Unit × Txn
  | (.error (.err _), after) => (.ok (), t.abort after)
  | result => result

def aborting (run : StateGo Txn Unit) : StateGo Txn Unit := fun txn => aborted t (run.on txn)

-- The number of proofs is taken from the input, and the proofs are taken from the list.
def saveAggregateProofs (frame : ClockFrame) : StateGo Txn Unit := do
  let commits ← call (frameCommits frame)
  commits.zipIdx.forM fun commit => do
    let aggregateProof ← call (index frame.aggregateProofs commit.2)
    aborting t (recordAggregateProof c t aggregateProof commit.1)

def stageDataClockFrame (selector : Bytes) (frame : ClockFrame) : StateGo Txn Unit := do
  saveAggregateProofs c t frame
  let data ← call (wrapErr "stage data clock frame" (wrapErr "invalid data" (returned (c.marshalFrame { frame with aggregateProofs := [] }))))
  t.set "stage data clock frame" (clockDataParentIndexKey frame.filter frame.frameNumber selector) data

end Staging

def Stores (c : StoreCodec) (t : Transaction) (aggregateProof : InclusionAggregateProof) (commitment : Bytes) : Prop :=
  ∃ ops, internalPutAggregateProof c aggregateProof commitment = .ok ops ∧ t.Takes ops

section Recording

variable (c : StoreCodec) (t : Transaction)

def RecordsOr (run : StateGo Txn Unit) (puts : Go Txn) : Prop :=
  ∀ txn, (∃ ops, puts = .ok ops ∧ t.Takes ops ∧ run.on txn = (.ok (), txn ++ ops)) ∨
    ((∀ ops, puts = .ok ops → ¬ t.Takes ops) ∧ ∃ cause after, run.on txn = (raise cause, after))

theorem takes_append {first second : Txn} : t.Takes (first ++ second) ↔ t.Takes first ∧ t.Takes second := by
  simp only [Transaction.Takes, List.mem_append]
  constructor
  · exact fun both => ⟨fun key value member => both key value (.inl member), fun key value member => both key value (.inr member)⟩
  · rintro ⟨inFirst, inSecond⟩ key value (member | member)
    · exact inFirst key value member
    · exact inSecond key value member

theorem set_records {key value : Bytes} : RecordsOr t (t.set text key value) (.ok [.set key value]) := by
  intro txn
  cases failed : t.setErr key value with
  | none =>
      left
      refine ⟨_, rfl, ?_, by simp only [Transaction.set, failed, on_modify_state]⟩
      intro other value' member
      cases List.mem_singleton.mp member
      exact failed
  | some cause =>
      right
      refine ⟨?_, cause.wrap text, txn, by simp only [Transaction.set, failed, on_call]⟩
      rintro ops isOps takes
      cases isOps
      have none_failed := takes key value (List.mem_singleton_self _)
      rw [failed] at none_failed
      cases none_failed

def appendTxn (first second : Go Txn) : Go Txn := do
  let front ← first
  let back ← second
  return front ++ back

theorem records_then (first second : StateGo Txn Unit) (front back : Go Txn) (firstRecords : RecordsOr t first front)
    (secondRecords : RecordsOr t second back) : RecordsOr t (first >>= fun _ => second) (appendTxn front back) := by
  intro txn
  rcases firstRecords txn with ⟨frontOps, isFront, takesFront, ranFirst⟩ | ⟨refused, cause, after, ranFirst⟩
  · rcases secondRecords (txn ++ frontOps) with ⟨backOps, isBack, takesBack, ranSecond⟩ | ⟨refused, cause, after, ranSecond⟩
    · left
      refine ⟨frontOps ++ backOps, by rw [isFront, isBack]; rfl, (takes_append t).mpr ⟨takesFront, takesBack⟩, ?_⟩
      rw [on_bind, ranFirst]
      simp only [ranSecond, List.append_assoc]
    · right
      refine ⟨?_, cause, after, by rw [on_bind, ranFirst]; exact ranSecond⟩
      intro ops isOps takes
      simp only [appendTxn, isFront, ok_bind, bind_ok_iff] at isOps
      obtain ⟨backOps, isBack, isOps⟩ := isOps
      cases isOps
      exact refused backOps isBack ((takes_append t).mp takes).2
  · right
    refine ⟨?_, cause, after, by rw [on_bind, ranFirst]; rfl⟩
    intro ops isOps takes
    simp only [appendTxn, bind_ok_iff] at isOps
    obtain ⟨frontOps, isFront, backOps, isBack, isOps⟩ := isOps
    cases isOps
    exact refused frontOps isFront ((takes_append t).mp takes).1

theorem set_each_records {α : Type} {key value : α → Bytes} (items : List α) :
    RecordsOr t (items.forM fun item => t.set text (key item) (value item)) (.ok (items.map fun item => .set (key item) (value item))) := by
  induction items with
  | nil => exact fun txn => .inl ⟨[], rfl, fun _ _ member => absurd member List.not_mem_nil, by rw [List.append_nil]; rfl⟩
  | cons item tail ih => exact records_then t _ _ _ _ (set_records t) ih

theorem segments_of_cases {inc : InclusionCommitment} :
    (∃ segments, segmentsOf c text inc = .ok segments) ∨ ∃ cause, segmentsOf c text inc = raise cause := by
  rw [segmentsOf]
  by_cases isOutput : inc.typeUrl = intrinsicExecutionOutputType
  · rw [if_pos isOutput]
    cases c.unmarshalOutput inc.data with
    | ok output => exact .inl ⟨_, rfl⟩
    | error cause => exact .inr ⟨_, rfl⟩
  · rw [if_neg isOutput]
    exact .inl ⟨_, rfl⟩

theorem inclusions_record {filter : Bytes} (i : Nat) {incs : List InclusionCommitment} :
    RecordsOr t ((incs.zipIdx i).forM (recordInclusion c t filter commitment)) (putInclusions c filter commitment i incs) := by
  induction incs generalizing i with
  | nil => exact fun txn => .inl ⟨[], rfl, fun _ _ member => absurd member List.not_mem_nil, by rw [List.append_nil]; rfl⟩
  | cons inc rest ih =>
      rcases segments_of_cases c with ⟨segments, isSegments⟩ | ⟨cause, failed⟩
      · have first : RecordsOr t (recordInclusion c t filter commitment (inc, i))
            (.ok ((segments.map fun segment => .set (segmentKey c filter segment) segment) ++
              [.set (dataProofInclusionKey filter commitment (UInt64.ofNat i)) (encodeInclusion c inc segments)])) := by
          have ran : recordInclusion c t filter commitment (inc, i) = (segments.forM fun segment =>
              t.set "put aggregate proof" (segmentKey c filter segment) segment) >>= fun _ =>
              t.set "put aggregate proof" (dataProofInclusionKey filter commitment (UInt64.ofNat i)) (encodeInclusion c inc segments) := by
            rw [recordInclusion, isSegments]
            rfl
          rw [ran]
          exact records_then t _ _ _ _ (set_each_records t segments) (set_records t)
        have both := records_then t _ _ _ _ first (ih (i + 1))
        have same : putInclusions c filter commitment i (inc :: rest) = appendTxn
            (.ok ((segments.map fun segment => .set (segmentKey c filter segment) segment) ++
              [.set (dataProofInclusionKey filter commitment (UInt64.ofNat i)) (encodeInclusion c inc segments)]))
            (putInclusions c filter commitment (i + 1) rest) := by
          rw [putInclusions, isSegments]
          simp only [appendTxn, ok_bind, List.append_assoc, List.singleton_append]
        rw [same]
        exact both
      · intro txn
        right
        refine ⟨?_, cause, txn, ?_⟩
        · intro ops isOps
          rw [putInclusions, failed] at isOps
          cases isOps
        · rw [List.zipIdx_cons, List.forM, on_bind, recordInclusion, failed]
          rfl

theorem aggregate_proof_records {aggregateProof : InclusionAggregateProof} :
    RecordsOr t (recordAggregateProof c t aggregateProof commitment) (internalPutAggregateProof c aggregateProof commitment) := by
  have same : internalPutAggregateProof c aggregateProof commitment = appendTxn
      (putInclusions c aggregateProof.filter commitment 0 aggregateProof.inclusionCommitments)
      (.ok [.set (dataProofMetadataKey aggregateProof.filter commitment) (aggregateMetadata aggregateProof)]) := by
    simp only [internalPutAggregateProof, appendTxn, ok_bind]
  rw [same]
  exact records_then t _ _ _ _ (inclusions_record c t 0) (set_records t)

end Recording

section Saving

variable (c : StoreCodec) (t : Transaction)

theorem aborting_continues (aggregateProof : InclusionAggregateProof) (commitment : Bytes) (txn : Txn) :
    ∃ after, StateGo.on (aborting t (recordAggregateProof c t aggregateProof commitment)) txn = (.ok (), after) := by
  have ran : StateGo.on (aborting t (recordAggregateProof c t aggregateProof commitment)) txn =
      aborted t ((recordAggregateProof c t aggregateProof commitment).on txn) := rfl
  rw [ran]
  rcases aggregate_proof_records c t txn with ⟨ops, -, -, recorded⟩ | ⟨-, cause, after, failed⟩
  · rw [recorded]
    exact ⟨_, rfl⟩
  · rw [failed]
    exact ⟨_, rfl⟩

def saveAt (frame : ClockFrame) (commit : Bytes × Nat) : StateGo Txn Unit := do
  let aggregateProof ← call (index frame.aggregateProofs commit.2)
  aborting t (recordAggregateProof c t aggregateProof commit.1)

theorem save_at_covered (frame : ClockFrame) (commit : Bytes) (i : Nat) (covered : i < frame.aggregateProofs.length) (txn : Txn) :
    ∃ after, (saveAt c t frame (commit, i)).on txn = (.ok (), after) := by
  obtain ⟨after, continues⟩ := aborting_continues c t frame.aggregateProofs[i] commit txn
  have found : index frame.aggregateProofs i = .ok frame.aggregateProofs[i] := index_ok_iff.mpr (List.getElem?_eq_getElem covered)
  refine ⟨after, ?_⟩
  rw [saveAt, on_bind, on_call, found]
  exact continues

theorem save_covered (frame : ClockFrame) (commits : List Bytes) (i : Nat) (covered : i + commits.length ≤ frame.aggregateProofs.length)
    (txn : Txn) : ∃ after, StateGo.on ((commits.zipIdx i).forM (saveAt c t frame)) txn = (.ok (), after) := by
  induction commits generalizing i txn with
  | nil => exact ⟨txn, rfl⟩
  | cons commit rest ih =>
      rw [List.length_cons] at covered
      obtain ⟨between, first⟩ := save_at_covered c t frame commit i (by omega) txn
      obtain ⟨after, later⟩ := ih (i + 1) (by omega) between
      refine ⟨after, ?_⟩
      rw [List.zipIdx_cons, List.forM, on_bind, first]
      exact later

theorem save_short (frame : ClockFrame) (commits : List Bytes) (i : Nat) (reached : i ≤ frame.aggregateProofs.length)
    (short : frame.aggregateProofs.length < i + commits.length) (txn : Txn) :
    (StateGo.on ((commits.zipIdx i).forM (saveAt c t frame)) txn).1 = crash := by
  induction commits generalizing i txn with
  | nil =>
      rw [List.length_nil] at short
      omega
  | cons commit rest ih =>
      rw [List.length_cons] at short
      rw [List.zipIdx_cons, List.forM, on_bind]
      by_cases covered : i < frame.aggregateProofs.length
      · obtain ⟨between, first⟩ := save_at_covered c t frame commit i covered txn
        rw [first]
        exact ih (i + 1) (by omega) (by omega) between
      · have missing : index frame.aggregateProofs i = crash := by
          rw [index, List.getElem?_eq_none (not_lt.mp covered)]
          rfl
        rw [saveAt, on_bind, on_call, missing]
        rfl

theorem frame_commits_total {frame : ClockFrame} (wide : 516 ≤ frame.input.length) : ∃ commits, frameCommits frame = .ok commits := by
  rw [frameCommits, sliceFrom, if_pos wide, ok_bind]
  apply map_m_total
  intro i member
  have below := List.mem_range.mp member
  rw [List.length_drop] at below
  refine ⟨_, (slice_ok_iff _ _ _ _).mpr ⟨⟨by omega, ?_⟩, rfl⟩⟩
  have whole := Nat.div_mul_le_self (frame.input.length - 516) 74
  have next : (i + 1) * 74 ≤ (frame.input.length - 516) / 74 * 74 := Nat.mul_le_mul_right 74 below
  omega

end Saving

section Staged

variable (c : StoreCodec) (t : Transaction) (selector : Bytes) (frame : ClockFrame)

def Writes (data : Bytes) : Prop :=
  c.marshalFrame { frame with aggregateProofs := [] } = .ok data ∧
    t.setErr (clockDataParentIndexKey frame.filter frame.frameNumber selector) data = none

theorem stage_cases {commits : List Bytes} (isCommits : frameCommits frame = .ok commits) {txn : Txn} :
    (frame.aggregateProofs.length < commits.length ∧ ((stageDataClockFrame c t selector frame).on txn).1 = crash) ∨
      (commits.length ≤ frame.aggregateProofs.length ∧ ∃ saved,
        ((∃ data, Writes c t selector frame data ∧ (stageDataClockFrame c t selector frame).on txn =
            (.ok (), saved ++ [.set (clockDataParentIndexKey frame.filter frame.frameNumber selector) data])) ∨
          ((∀ data, ¬ Writes c t selector frame data) ∧ ∃ cause, (stageDataClockFrame c t selector frame).on txn = (raise cause, saved)))) := by
  have saves : (saveAggregateProofs c t frame).on txn = StateGo.on (commits.zipIdx.forM (saveAt c t frame)) txn := by
    rw [saveAggregateProofs, on_bind, on_call, isCommits]
    rfl
  rcases Nat.lt_or_ge frame.aggregateProofs.length commits.length with short | covered
  · left
    refine ⟨short, ?_⟩
    have panicked := save_short c t frame commits 0 (Nat.zero_le _) (by omega) txn
    rw [stageDataClockFrame, on_bind, saves]
    rcases ran : StateGo.on (commits.zipIdx.forM (saveAt c t frame)) txn with ⟨outcome, after⟩
    rw [ran] at panicked
    cases panicked
    rfl
  · right
    obtain ⟨saved, isSaved⟩ := save_covered c t frame commits 0 (by omega) txn
    refine ⟨covered, saved, ?_⟩
    rw [stageDataClockFrame, on_bind, saves, isSaved]
    cases marshaled : c.marshalFrame { frame with aggregateProofs := [] } with
    | error cause =>
        right
        refine ⟨fun data writes => ?_, _, rfl⟩
        rw [Writes, marshaled] at writes
        cases writes.1
    | ok data =>
        cases failed : t.setErr (clockDataParentIndexKey frame.filter frame.frameNumber selector) data with
        | none =>
            left
            refine ⟨data, ⟨marshaled, failed⟩, ?_⟩
            simp only [on_bind, on_call, returned, wrapErr, mapErr, Transaction.set, failed, on_modify_state]
        | some cause =>
            right
            refine ⟨fun other writes => ?_, cause.wrap "stage data clock frame", ?_⟩
            · rw [Writes, marshaled] at writes
              cases writes.1
              rw [failed] at writes
              cases writes.2
            · simp only [on_bind, on_call, returned, wrapErr, mapErr, Transaction.set, failed]

def UnusedCommit (db : Kvdb) (filter commit : Bytes) : Prop :=
  db.lookup (dataProofMetadataKey filter commit) = none ∧ ∀ seqNo, db.lookup (dataProofInclusionKey filter commit seqNo) = none

variable (commits : List Bytes) (txn : Txn) (db : Kvdb)

def FreshCommits : Prop := commits.Nodup ∧ ∀ commit ∈ commits, UnusedCommit (Table.commit txn db) frame.filter commit

def AllStored : Prop :=
  ∀ (i : Nat) (commit : Bytes) (aggregateProof : InclusionAggregateProof), commits[i]? = some commit → frame.aggregateProofs[i]? = some aggregateProof → Stores c t aggregateProof commit

def ProofsReadBack : Prop :=
  AllStored c t frame commits → ((stageDataClockFrame c t selector frame).on txn).1 = .ok () → FreshCommits frame commits txn db →
    ∀ (i : Nat) (commit : Bytes) (aggregateProof : InclusionAggregateProof), commits[i]? = some commit → frame.aggregateProofs[i]? = some aggregateProof →
      internalGetAggregateProof c (Table.commit ((stageDataClockFrame c t selector frame).on txn).2 db) frame.filter frame.frameNumber commit =
        .ok aggregateProof

structure StagedFaithfully : Prop where
  calm : Calm ((stageDataClockFrame c t selector frame).on txn).1
  refused : ¬ AllStored c t frame commits → ∃ cause, ((stageDataClockFrame c t selector frame).on txn).1 = raise cause
  readBack : ((stageDataClockFrame c t selector frame).on txn).1 = .ok () → FreshCommits frame commits txn db →
    getStagedDataClockFrame c (Table.commit ((stageDataClockFrame c t selector frame).on txn).2 db) frame.filter frame.frameNumber selector
      false = .ok frame

-- If the frame itself is written, every proof can be stored and there are no further proofs.
structure Stageable : Prop where
  covered : commits.length ≤ frame.aggregateProofs.length
  stored : (∃ data, Writes c t selector frame data) → AllStored c t frame commits
  counted : (∃ data, Writes c t selector frame data) → FreshCommits frame commits txn db → frame.aggregateProofs.length ≤ commits.length

theorem staged_read (isCommits : frameCommits frame = .ok commits) {saved : Txn} {data : Bytes}
    (inverts : c.unmarshalFrame data = .ok { frame with aggregateProofs := [] }) (covered : commits.length ≤ frame.aggregateProofs.length)
    (reads : ∀ (i : Nat) (commit : Bytes) (aggregateProof : InclusionAggregateProof), commits[i]? = some commit → frame.aggregateProofs[i]? = some aggregateProof →
      internalGetAggregateProof c (Table.commit (saved ++ [.set (clockDataParentIndexKey frame.filter frame.frameNumber selector) data]) db)
        frame.filter frame.frameNumber commit = .ok aggregateProof) :
    getStagedDataClockFrame c (Table.commit (saved ++ [.set (clockDataParentIndexKey frame.filter frame.frameNumber selector) data]) db)
      frame.filter frame.frameNumber selector false = .ok { frame with aggregateProofs := frame.aggregateProofs.take commits.length } := by
  have found := Table.lookup_commit_last saved [] (.set (clockDataParentIndexKey frame.filter frame.frameNumber selector) data) db
    ((Table.touches_set _ _ data).mpr rfl) (fun later member => absurd member List.not_mem_nil)
  generalize Table.commit (saved ++ [.set (clockDataParentIndexKey frame.filter frame.frameNumber selector) data]) db = after at found reads ⊢
  have proofs : (commits.mapM fun commit => internalGetAggregateProof c after frame.filter frame.frameNumber commit) =
      .ok (frame.aggregateProofs.take commits.length) := by
    rw [map_m_iff, List.forall₂_iff_get]
    refine ⟨by rw [List.length_take, Nat.min_eq_left covered], fun i inside taken => ?_⟩
    apply reads i
    · exact List.getElem?_eq_getElem inside
    · rw [List.get_eq_getElem, List.getElem_take]
      exact List.getElem?_eq_getElem _
  have sameCommits : frameCommits { frame with aggregateProofs := [] } = .ok commits := isCommits
  simp only [getStagedDataClockFrame, found, Table.BatchOp.left, inverts, returned, wrapErr, mapErr, ok_bind, Bool.false_eq_true, if_false,
    fillAggregateProofs, and_false, sameCommits, proofs, List.nil_append]
  rfl

theorem faithful_iff_stageable (isCommits : frameCommits frame = .ok commits) (inverts : ∀ f data, c.marshalFrame f = .ok data → c.unmarshalFrame data = .ok f)
    (readsBack : ProofsReadBack c t selector frame commits txn db) :
    StagedFaithfully c t selector frame commits txn db ↔ Stageable c t selector frame commits txn db := by
  rcases stage_cases c t selector frame isCommits with ⟨short, panicked⟩ | ⟨covered, saved, ⟨data, writes, ran⟩ | ⟨unwritten, cause, ran⟩⟩
  · refine iff_of_false (fun faithful => ?_) fun stageable => absurd stageable.covered (by omega)
    have calm := faithful.calm
    rw [panicked] at calm
    exact not_calm_crash calm
  · rw [ProofsReadBack, ran] at readsBack
    have read (stored : AllStored c t frame commits) (fresh : FreshCommits frame commits txn db) :=
      staged_read c selector frame commits db isCommits (inverts _ data writes.1) covered (readsBack stored rfl fresh)
    constructor
    · rintro ⟨-, refused, readBack⟩
      rw [ran] at refused readBack
      have stored : AllStored c t frame commits := by
        by_contra unstored
        obtain ⟨cause, impossible⟩ := refused unstored
        cases impossible
      refine ⟨covered, fun _ => stored, fun _ fresh => ?_⟩
      have same := (read stored fresh).symm.trans (readBack rfl fresh)
      have lengths := congrArg (fun f : ClockFrame => f.aggregateProofs.length) (Except.ok.inj same)
      simp only [List.length_take] at lengths
      omega
    · rintro ⟨-, stored, counted⟩
      have allStored := stored ⟨data, writes⟩
      refine ⟨by rw [ran]; exact calm_ok, fun unstored => absurd allStored unstored, fun _ fresh => ?_⟩
      rw [ran, read allStored fresh, List.take_of_length_le (counted ⟨data, writes⟩ fresh)]
  · have nothing : ¬ ∃ data, Writes c t selector frame data := fun written => unwritten written.choose written.choose_spec
    refine iff_of_true ⟨by rw [ran]; exact calm_raise, fun _ => ⟨cause, by rw [ran]⟩, fun done => ?_⟩
      ⟨covered, fun written => absurd written nothing, fun written => absurd written nothing⟩
    rw [ran] at done
    cases done

omit commits in
theorem staged_faithfully_iff (prim : Primitives) (accepted : verifyDataClockFrame prim frame = .ok ())
    (inverts : ∀ f data, c.marshalFrame f = .ok data → c.unmarshalFrame data = .ok f) :
    ∃ commits, frameCommits frame = .ok commits ∧ (ProofsReadBack c t selector frame commits txn db →
      (StagedFaithfully c t selector frame commits txn db ↔ Stageable c t selector frame commits txn db)) := by
  obtain ⟨key, signature, h, checked⟩ := verify_data_clock_frame_ok_iff.mp accepted
  obtain ⟨commits, isCommits⟩ := frame_commits_total checked.inputSize
  exact ⟨commits, isCommits, faithful_iff_stageable c t selector frame commits txn db isCommits inverts⟩

end Staged

def committedFrame (aggregateProofs : List InclusionAggregateProof) : ClockFrame :=
  sealed ⟨List.replicate 32 9, 8, 1, 10000, [], List.replicate 516 5 ++ List.replicate 74 6, [], aggregateProofs, none, []⟩

theorem committed_frame_accepted {aggregateProofs : List InclusionAggregateProof} :
    verifyDataClockFrame sealerPrimitives (committedFrame aggregateProofs) = .ok () :=
  sealed_accepted (by rw [List.length_append, List.length_replicate]; omega)

def committedCodec : StoreCodec where
  sha3Sum256 := sampleDigest
  marshalOutput := fun _ => .error (errorsNew "proto")
  unmarshalOutput := fun _ => .error (errorsNew "proto")
  marshalFrame := fun frame => if frame = committedFrame [] then .ok [1] else .error (errorsNew "proto")
  unmarshalFrame := fun _ => .ok (committedFrame [])
  gobEncode := fun _ => .error (errorsNew "gob")
  gobDecode := fun _ => newTree

theorem committed_codec_inverts (frame : ClockFrame) (data : Bytes) (marshaled : committedCodec.marshalFrame frame = .ok data) :
    committedCodec.unmarshalFrame data = .ok frame := by
  by_cases isFrame : frame = committedFrame []
  · rw [isFrame]
    rfl
  · rw [show committedCodec.marshalFrame frame = .error (errorsNew "proto") from if_neg isFrame] at marshaled
    cases marshaled

def openTransaction : Transaction := ⟨fun _ _ => none, fun txn => txn⟩

def bareProof : InclusionAggregateProof := ⟨List.replicate 32 9, 8, [], [1]⟩

theorem staged_faithfully_bare : StagedFaithfully committedCodec openTransaction [7] (committedFrame [bareProof]) [List.replicate 74 6] [] ∅ := by
  obtain ⟨commits, isCommits, exactly⟩ := staged_faithfully_iff committedCodec openTransaction [7] (committedFrame [bareProof]) [] ∅
    sealerPrimitives committed_frame_accepted committed_codec_inverts
  have one : frameCommits (committedFrame [bareProof]) = .ok [List.replicate 74 6] := by decide +kernel
  rw [one] at isCommits
  cases isCommits
  have only (i : Nat) (commit : Bytes) (aggregateProof : InclusionAggregateProof) (isCommit : [List.replicate 74 6][i]? = some commit)
      (isProof : [bareProof][i]? = some aggregateProof) : commit = List.replicate 74 6 ∧ aggregateProof = bareProof :=
    ⟨List.mem_singleton.mp (List.mem_of_getElem? isCommit), List.mem_singleton.mp (List.mem_of_getElem? isProof)⟩
  refine (exactly ?_).mpr ⟨le_rfl, fun _ => ?_, fun _ _ => le_rfl⟩
  · intro _ _ _ i commit aggregateProof isCommit isProof
    obtain ⟨sameCommit, sameProof⟩ := only i commit aggregateProof isCommit isProof
    rw [sameCommit, sameProof]
    decide +kernel
  · intro i commit aggregateProof isCommit isProof
    obtain ⟨sameCommit, sameProof⟩ := only i commit aggregateProof isCommit isProof
    rw [sameCommit, sameProof]
    exact ⟨_, rfl, fun _ _ _ => rfl⟩

def brokenProof : InclusionAggregateProof := ⟨List.replicate 32 9, 8, [⟨List.replicate 32 9, 8, 0, intrinsicExecutionOutputType, [], []⟩], []⟩

theorem staging_not_faithful :
    (verifyDataClockFrame sealerPrimitives (committedFrame []) = .ok () ∧
      ((stageDataClockFrame committedCodec openTransaction [7] (committedFrame [])).on []).1 = crash) ∧
    (verifyDataClockFrame sealerPrimitives (committedFrame [brokenProof]) = .ok () ∧
      ¬ Stores committedCodec openTransaction brokenProof (List.replicate 74 6) ∧
      ((stageDataClockFrame committedCodec openTransaction [7] (committedFrame [brokenProof])).on []).1 = .ok ()) ∧
    (verifyDataClockFrame sealerPrimitives (committedFrame [bareProof, bareProof]) = .ok () ∧
      ((stageDataClockFrame committedCodec openTransaction [7] (committedFrame [bareProof, bareProof])).on []).1 = .ok () ∧
      getStagedDataClockFrame committedCodec
        (Table.commit ((stageDataClockFrame committedCodec openTransaction [7] (committedFrame [bareProof, bareProof])).on []).2 ∅)
        (List.replicate 32 9) 8 [7] false = .ok (committedFrame [bareProof])) := by
  refine ⟨⟨committed_frame_accepted, by decide +kernel⟩, ⟨committed_frame_accepted, ?_, by decide +kernel⟩,
    committed_frame_accepted, by decide +kernel, by decide +kernel⟩
  rintro ⟨ops, stored, -⟩
  cases stored

end PebbleClockStore

end Ceremony
