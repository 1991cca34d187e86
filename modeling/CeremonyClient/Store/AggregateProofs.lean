import CeremonyClient.Lib.KeyOrder
import CeremonyClient.Store.Inclusions

set_option autoImplicit false

namespace Ceremony

open GoSem

variable {i : Nat} {txn : Txn} {db : Kvdb} {record : Bytes × Bytes} {segment : Bytes} {inc : InclusionCommitment} {j : Nat}
  {entry : Bytes × Bytes} {frameNumber : UInt64}

structure AggregatePut where
  aggregateProof : InclusionAggregateProof
  commitment : Bytes

namespace AggregatePut

variable (c : StoreCodec) (put : AggregatePut)

def filter : Bytes := put.aggregateProof.filter

def inclusions : List InclusionCommitment := put.aggregateProof.inclusionCommitments

def inclusionKey (i : Nat) : Bytes := dataProofInclusionKey put.filter put.commitment (UInt64.ofNat i)

def inclusionRecords (inc : InclusionCommitment) (i : Nat) : List (Bytes × Bytes) :=
  (inclusionSegments c inc).map (fun segment => (segmentKey c put.filter segment, segment)) ++
    [(put.inclusionKey i, encodeInclusion c inc (inclusionSegments c inc))]

def metadataRecord : Bytes × Bytes := (dataProofMetadataKey put.filter put.commitment, aggregateMetadata put.aggregateProof)

def records : List (Bytes × Bytes) :=
  (put.inclusions.zipIdx.flatMap fun inc => put.inclusionRecords c inc.1 inc.2) ++ [put.metadataRecord]

def Accepted : Prop := ∀ inc ∈ put.inclusions, ∃ segments, segmentsOf c "get aggregate proof" inc = .ok segments

end AggregatePut

variable {puts : List AggregatePut} {put' : AggregatePut} {before after : List AggregatePut} {last : AggregatePut}

section Puts

variable (c : StoreCodec)

variable {put : AggregatePut}

theorem put_inclusions_ops {incs : List InclusionCommitment}
    (ran : putInclusions c put.filter put.commitment i incs = .ok txn) :
    txn = ((incs.zipIdx i).flatMap fun inc => put.inclusionRecords c inc.1 inc.2).map (fun record => .set record.1 record.2) ∧
      ∀ inc ∈ incs, ∃ segments, segmentsOf c "get aggregate proof" inc = .ok segments := by
  induction incs generalizing i txn with
  | nil =>
      cases ran
      exact ⟨rfl, by simp⟩
  | cons inc rest ih =>
      obtain ⟨segments, isSegments, ran⟩ := (bind_ok_iff _ _ _).mp ran
      obtain ⟨later, ranLater, isTxn⟩ := (bind_ok_iff _ _ _).mp ran
      cases isTxn
      obtain ⟨isLater, accepted⟩ := ih ranLater
      refine ⟨?_, List.forall_mem_cons.mpr ⟨⟨segments, isSegments⟩, accepted⟩⟩
      rw [isLater, List.zipIdx_cons, List.flatMap_cons, AggregatePut.inclusionRecords, ← segments_of_ok c isSegments]
      simp [Function.comp_def, AggregatePut.inclusionKey]

theorem put_ops (ran : internalPutAggregateProof c put.aggregateProof put.commitment = .ok txn) :
    txn = (put.records c).map (fun record => .set record.1 record.2) ∧ put.Accepted c := by
  obtain ⟨inclusions, isInclusions, isTxn⟩ := (bind_ok_iff _ _ _).mp ran
  cases isTxn
  obtain ⟨isOps, accepted⟩ := put_inclusions_ops c isInclusions
  refine ⟨?_, accepted⟩
  rw [isOps, AggregatePut.records, List.map_append]
  rfl

def runPuts (db : Kvdb) : List (List AggregatePut) → Go Kvdb
  | [] => .ok db
  | puts :: rest => do
      let txn ← puts.mapM fun put => internalPutAggregateProof c put.aggregateProof put.commitment
      runPuts (Table.commit txn.flatten db) rest

def storeRecords (db : Kvdb) (records : List (Bytes × Bytes)) : Kvdb := Table.commit (records.map fun record => .set record.1 record.2) db

theorem store_records_append {first second : List (Bytes × Bytes)} :
    storeRecords db (first ++ second) = storeRecords (storeRecords db first) second := by
  rw [storeRecords, List.map_append, Table.commit_append]
  rfl

theorem transaction_records {txns : List Txn}
    (ran : puts.mapM (fun put => internalPutAggregateProof c put.aggregateProof put.commitment) = .ok txns) :
    txns.flatten = (puts.flatMap (AggregatePut.records c)).map (fun record => .set record.1 record.2) ∧ ∀ put ∈ puts, put.Accepted c := by
  rw [map_m_iff] at ran
  induction ran with
  | nil => exact ⟨rfl, by simp⟩
  | cons first _ ih =>
      obtain ⟨isOps, accepted⟩ := put_ops c first
      refine ⟨?_, List.forall_mem_cons.mpr ⟨accepted, ih.2⟩⟩
      rw [List.flatten_cons, List.flatMap_cons, List.map_append, ih.1, isOps]

theorem run_puts_records (db final : Kvdb) (history : List (List AggregatePut)) (ran : runPuts c db history = .ok final) :
    final = storeRecords db (history.flatten.flatMap (AggregatePut.records c)) ∧ ∀ put ∈ history.flatten, put.Accepted c := by
  induction history generalizing db with
  | nil =>
      cases ran
      exact ⟨rfl, by simp⟩
  | cons puts rest ih =>
      obtain ⟨txns, isTxns, ran⟩ := (bind_ok_iff _ _ _).mp ran
      obtain ⟨isOps, accepted⟩ := transaction_records c isTxns
      obtain ⟨isFinal, acceptedRest⟩ := ih _ ran
      rw [List.flatten_cons, List.flatMap_append, store_records_append]
      refine ⟨?_, List.forall_mem_append.mpr ⟨accepted, acceptedRest⟩⟩
      rw [isFinal, isOps]
      rfl

theorem stored_records_iff {records : List (Bytes × Bytes)} (db : Kvdb) (key : Bytes) :
    (storeRecords db records).lookup key ≠ none ↔ db.lookup key ≠ none ∨ ∃ record ∈ records, record.1 = key := by
  rw [storeRecords, Table.stored_commit_sets]
  · simp [eq_comm]
  · intro op isOp
    obtain ⟨record, -, isSet⟩ := List.mem_map.mp isOp
    rw [← isSet]
    exact Option.some_ne_none _

theorem lookup_stored (records : List (Bytes × Bytes)) (db : Kvdb) (key value : Bytes) (written : ∃ record ∈ records, record.1 = key)
    (agreed : ∀ record ∈ records, record.1 = key → record.2 = value) : (storeRecords db records).lookup key = some value := by
  obtain ⟨record, isRecord, isKey⟩ := written
  refine Table.lookup_commit_agreed (fun op isOp touched => ?_) ⟨.set record.1 record.2, ?_, isKey.symm⟩
  · obtain ⟨other, isOther, same⟩ := List.mem_map.mp isOp
    rw [← same] at touched ⊢
    exact congrArg some (agreed other isOther touched.symm)
  · exact List.mem_map.mpr ⟨record, isRecord, rfl⟩

theorem mem_records_iff : record ∈ put.records c ↔
    (∃ inc ∈ put.inclusions, ∃ segment ∈ inclusionSegments c inc, record = (segmentKey c put.filter segment, segment)) ∨
      (∃ i inc, put.inclusions[i]? = some inc ∧ record = (put.inclusionKey i, encodeInclusion c inc (inclusionSegments c inc))) ∨
      record = put.metadataRecord := by
  rw [AggregatePut.records, List.mem_append, List.mem_singleton, ← or_assoc]
  apply or_congr_left
  simp only [List.mem_flatMap, AggregatePut.inclusionRecords, List.mem_append, List.mem_map, List.mem_singleton, Prod.exists,
    List.mem_zipIdx_iff_getElem?]
  constructor
  · rintro ⟨inc, i, isInc, ⟨segment, isSegment, same⟩ | same⟩
    · exact .inl ⟨inc, List.mem_of_getElem? isInc, segment, isSegment, same.symm⟩
    · exact .inr ⟨i, inc, isInc, same⟩
  · rintro (⟨inc, isInc, segment, isSegment, same⟩ | ⟨i, inc, isInc, same⟩)
    · obtain ⟨i, isInc⟩ := List.mem_iff_getElem?.mp isInc
      exact ⟨inc, i, isInc, .inl ⟨segment, isSegment, same.symm⟩⟩
    · exact ⟨inc, i, isInc, .inr same⟩

theorem inclusion_key_ne_segment : put.inclusionKey i ≠ segmentKey c put'.filter segment := by
  simp [AggregatePut.inclusionKey, dataProofInclusionKey, segmentKey, dataProofSegmentKey, appendUint64]

theorem metadata_key_ne_segment : put.metadataRecord.1 ≠ segmentKey c put'.filter segment := by
  simp [AggregatePut.metadataRecord, dataProofMetadataKey, segmentKey, dataProofSegmentKey]

theorem metadata_key_ne_inclusion : put.metadataRecord.1 ≠ put'.inclusionKey i := by
  simp [AggregatePut.inclusionKey, dataProofInclusionKey, AggregatePut.metadataRecord, dataProofMetadataKey, appendUint64]

def CollisionFree (puts : List AggregatePut) : Prop :=
  ∀ put ∈ puts, ∀ inc ∈ put.inclusions, ∀ segment ∈ inclusionSegments c inc,
    ∀ put' ∈ puts, ∀ inc' ∈ put'.inclusions, ∀ segment' ∈ inclusionSegments c inc',
      c.sha3Sum256 segment = c.sha3Sum256 segment' → segment = segment'

theorem segment_key_inj {filter filter' segment' : Bytes} (same : segmentKey c filter segment = segmentKey c filter' segment') :
    c.sha3Sum256 segment = c.sha3Sum256 segment' := by
  simp only [segmentKey, dataProofSegmentKey, List.append_assoc] at same
  exact digest_ext (List.append_inj (List.append_cancel_left same) (by rw [(c.sha3Sum256 segment).size, (c.sha3Sum256 segment').size])).1

theorem segment_record_agrees (collisionFree : CollisionFree c puts) (isPut : put ∈ puts) (isPut' : put' ∈ puts)
    (isInc : inc ∈ put.inclusions) (isSegment : segment ∈ inclusionSegments c inc) (isRecord : record ∈ put'.records c)
    (same : record.1 = segmentKey c put.filter segment) : record.2 = segment := by
  rcases (mem_records_iff c).mp isRecord with ⟨inc', isInc', segment', isSegment', isRecord⟩ | ⟨i, inc', -, isRecord⟩ | isRecord
  · rw [isRecord] at same ⊢
    exact collisionFree put' isPut' inc' isInc' segment' isSegment' put isPut inc isInc segment isSegment (segment_key_inj c same)
  · rw [isRecord] at same
    exact absurd same (inclusion_key_ne_segment c)
  · rw [isRecord] at same
    exact absurd same (metadata_key_ne_segment c)

theorem segment_found (collisionFree : CollisionFree c puts) (isPut : put ∈ puts) (isInc : inc ∈ put.inclusions)
    (isSegment : segment ∈ inclusionSegments c inc) :
    (storeRecords ∅ (puts.flatMap (AggregatePut.records c))).lookup (segmentKey c put.filter segment) = some segment := by
  apply lookup_stored
  · refine ⟨(segmentKey c put.filter segment, segment), List.mem_flatMap.mpr ⟨put, isPut, ?_⟩, rfl⟩
    exact (mem_records_iff c).mpr (.inl ⟨inc, isInc, segment, isSegment, rfl⟩)
  · intro record isRecord same
    obtain ⟨put', isPut', isRecord⟩ := List.mem_flatMap.mp isRecord
    exact segment_record_agrees c collisionFree isPut isPut' isInc isSegment isRecord same

def Undisturbed (last : AggregatePut) (after : List AggregatePut) : Prop :=
  ∀ later ∈ after, ∀ record ∈ later.records c, ∀ own ∈ last.records c, record.1 = own.1 → record.2 = own.2

theorem inclusion_key_eq {filter commitment : Bytes} {seqNo : UInt64} :
    dataProofInclusionKey filter commitment seqNo = ([0x04, 0x01] ++ commitment) ++ (beBytes 8 seqNo.toNat ++ filter) := by
  simp only [dataProofInclusionKey, appendUint64, List.append_assoc]

theorem own_inclusion_key_inj (small : i < 2 ^ 64) (small' : j < 2 ^ 64)
    (same : put.inclusionKey i = put.inclusionKey j) : i = j := by
  rw [AggregatePut.inclusionKey, AggregatePut.inclusionKey, inclusion_key_eq, inclusion_key_eq] at same
  have numbers := uint64_be_bytes_injective (List.append_cancel_right (List.append_cancel_left same))
  have values := congrArg UInt64.toNat numbers
  rwa [UInt64.toNat_ofNat', UInt64.toNat_ofNat', Nat.mod_eq_of_lt small, Nat.mod_eq_of_lt small'] at values

theorem own_records_agree (collisionFree : CollisionFree c puts) (isPut : put ∈ puts)
    (sized : put.inclusions.length < 2 ^ 63) {own : Bytes × Bytes} (isRecord : record ∈ put.records c) (isOwn : own ∈ put.records c)
    (same : record.1 = own.1) : record.2 = own.2 := by
  rcases (mem_records_iff c).mp isOwn with ⟨inc, isInc, segment, isSegment, isOwn⟩ | ⟨i, inc, isInc, isOwn⟩ | isOwn
  · rw [isOwn] at same ⊢
    exact segment_record_agrees c collisionFree isPut isPut isInc isSegment isRecord same
  · rcases (mem_records_iff c).mp isRecord with ⟨inc', -, segment', -, isRecord⟩ | ⟨j, inc', isInc', isRecord⟩ | isRecord
    · rw [isOwn, isRecord] at same
      exact absurd same.symm (inclusion_key_ne_segment c)
    · rw [isOwn, isRecord] at same ⊢
      obtain ⟨short, -⟩ := List.getElem?_eq_some_iff.mp isInc
      obtain ⟨short', -⟩ := List.getElem?_eq_some_iff.mp isInc'
      rw [own_inclusion_key_inj (by omega) (by omega) same, isInc] at isInc'
      rw [Option.some.inj isInc']
    · rw [isOwn, isRecord] at same
      exact absurd same metadata_key_ne_inclusion
  · rcases (mem_records_iff c).mp isRecord with ⟨inc', -, segment', -, isRecord⟩ | ⟨j, inc', -, isRecord⟩ | isRecord
    · rw [isOwn, isRecord] at same
      exact absurd same.symm (metadata_key_ne_segment c)
    · rw [isOwn, isRecord] at same
      exact absurd same.symm metadata_key_ne_inclusion
    · rw [isOwn, isRecord]

theorem own_found (collisionFree : CollisionFree c (before ++ last :: after)) (sized : last.inclusions.length < 2 ^ 63)
    (undisturbed : Undisturbed c last after) (own : Bytes × Bytes) (isOwn : own ∈ last.records c) :
    (storeRecords ∅ ((before ++ last :: after).flatMap (AggregatePut.records c))).lookup own.1 = some own.2 := by
  rw [List.flatMap_append, store_records_append]
  apply lookup_stored
  · exact ⟨own, List.mem_flatMap.mpr ⟨last, List.mem_cons_self, isOwn⟩, rfl⟩
  · intro record isRecord same
    obtain ⟨put, isPut, isRecord⟩ := List.mem_flatMap.mp isRecord
    rcases List.mem_cons.mp isPut with isLast | isLater
    · rw [isLast] at isRecord
      exact own_records_agree c collisionFree (by simp) sized isRecord isOwn same
    · exact undisturbed put isLater record isRecord own isOwn same

-- The keys that the reader's scan comes across, and the condition that they are all of this put.
def InPutScan (last : AggregatePut) (key : Bytes) : Prop :=
  ¬ key < dataProofInclusionKey last.filter last.commitment 0 ∧
    key < dataProofInclusionKey last.filter last.commitment (UInt64.ofNat last.inclusions.length + 1)

def NoStray (last : AggregatePut) (puts : List AggregatePut) : Prop :=
  ∀ put ∈ puts, ∀ i < put.inclusions.length, InPutScan last (put.inclusionKey i) → ∃ j < last.inclusions.length, put.inclusionKey i = last.inclusionKey j

theorem inclusion_key_lt (filter commitment : Bytes) (seqNo seqNo' : UInt64) (less : seqNo < seqNo') :
    dataProofInclusionKey filter commitment seqNo < dataProofInclusionKey filter commitment seqNo' := by
  rw [inclusion_key_eq, inclusion_key_eq, append_lt_append_iff rfl]
  refine .inr ⟨rfl, (append_lt_append_iff (by rw [be_bytes_length, be_bytes_length])).mpr (.inl ?_)⟩
  exact uint64_bytes_lt_iff.mpr less

theorem own_keys_ordered (less : i < j) (small : j < 2 ^ 64) : last.inclusionKey i < last.inclusionKey j := by
  apply inclusion_key_lt
  rw [UInt64.lt_iff_toNat_lt, UInt64.toNat_ofNat', UInt64.toNat_ofNat', Nat.mod_eq_of_lt (by omega), Nat.mod_eq_of_lt small]
  exact less

theorem own_keys_in_scan (sized : last.inclusions.length < 2 ^ 63) (short : i < last.inclusions.length) :
    InPutScan last (last.inclusionKey i) := by
  constructor
  · rw [AggregatePut.inclusionKey]
    rcases Nat.eq_zero_or_pos i with isZero | positive
    · rw [isZero]
      exact List.lt_irrefl _
    · refine List.lt_asymm (inclusion_key_lt _ _ _ _ ?_)
      rw [UInt64.lt_iff_toNat_lt, UInt64.toNat_ofNat', Nat.mod_eq_of_lt (by omega)]
      exact positive
  · apply inclusion_key_lt
    rw [UInt64.lt_iff_toNat_lt, UInt64.toNat_add, UInt64.toNat_ofNat', UInt64.toNat_ofNat', Nat.mod_eq_of_lt (by omega)]
    simp only [UInt64.reduceToNat]
    omega

def ownEntries (last : AggregatePut) : List (Bytes × Bytes) :=
  last.inclusions.zipIdx.map fun inc => (last.inclusionKey inc.2, encodeInclusion c inc.1 (inclusionSegments c inc.1))

theorem mem_own_entries_iff : entry ∈ ownEntries c last ↔
    ∃ i inc, last.inclusions[i]? = some inc ∧ entry = (last.inclusionKey i, encodeInclusion c inc (inclusionSegments c inc)) := by
  simp only [ownEntries, List.mem_map, Prod.exists, List.mem_zipIdx_iff_getElem?]
  constructor
  · rintro ⟨inc, i, isInc, same⟩
    exact ⟨i, inc, isInc, same.symm⟩
  · rintro ⟨i, inc, isInc, same⟩
    exact ⟨inc, i, isInc, same.symm⟩

theorem own_entry_is_record (isEntry : entry ∈ ownEntries c last) : entry ∈ last.records c :=
  (mem_records_iff c).mpr (.inr (.inl ((mem_own_entries_iff c).mp isEntry)))

theorem own_entries_ordered (sized : last.inclusions.length < 2 ^ 63) :
    (ownEntries c last).Pairwise fun left right => left.1 < right.1 := by
  rw [List.pairwise_iff_getElem]
  intro i j short short' less
  simp only [ownEntries, List.getElem_map, List.getElem_zipIdx, Nat.zero_add]
  refine own_keys_ordered less ?_
  simp only [ownEntries, List.length_map, List.length_zipIdx] at short'
  omega

theorem scanned_key_is_inclusion {key : Bytes} (inScan : InPutScan last key)
    (stored : (storeRecords ∅ (puts.flatMap (AggregatePut.records c))).lookup key ≠ none) :
    ∃ put ∈ puts, ∃ i < put.inclusions.length, key = put.inclusionKey i := by
  rw [InPutScan, inclusion_key_eq, inclusion_key_eq, between_append_iff] at inScan
  obtain ⟨rest, isKey, -⟩ := inScan
  rcases (stored_records_iff _ _).mp stored with inEmpty | ⟨record, isRecord, same⟩
  · exact absurd rfl inEmpty
  · obtain ⟨put, isPut, isRecord⟩ := List.mem_flatMap.mp isRecord
    rw [isKey] at same
    rcases (mem_records_iff c).mp isRecord with ⟨inc, -, segment, -, isRecord⟩ | ⟨i, inc, isInc, isRecord⟩ | isRecord
    · rw [isRecord] at same
      simp [segmentKey, dataProofSegmentKey] at same
    · rw [isRecord] at same
      obtain ⟨short, -⟩ := List.getElem?_eq_some_iff.mp isInc
      exact ⟨put, isPut, i, short, by rw [isKey, ← same]⟩
    · rw [isRecord] at same
      simp [AggregatePut.metadataRecord, dataProofMetadataKey] at same

theorem scan_eq_own (sized : last.inclusions.length < 2 ^ 63)
    (found : ∀ own ∈ last.records c, (storeRecords ∅ (puts.flatMap (AggregatePut.records c))).lookup own.1 = some own.2)
    (noStray : NoStray last puts) :
    (storeRecords ∅ (puts.flatMap (AggregatePut.records c))).range (dataProofInclusionKey last.filter last.commitment 0)
      (dataProofInclusionKey last.filter last.commitment (UInt64.ofNat last.inclusions.length + 1)) = ownEntries c last := by
  refine Table.range_eq (fun left right => ?_) (fun a b c below above => ?_) (fun a b below => ?_) (own_entries_ordered c sized)
    fun key value => ?_
  · exact List.le_total left right
  · exact List.le_trans below above
  · exact List.lt_asymm below
  constructor
  · intro isEntry
    obtain ⟨i, inc, isInc, same⟩ := (mem_own_entries_iff c).mp isEntry
    obtain ⟨short, -⟩ := List.getElem?_eq_some_iff.mp isInc
    have isKey : key = last.inclusionKey i := congrArg Prod.fst same
    refine ⟨found (key, value) (own_entry_is_record c isEntry), ?_⟩
    rw [isKey]
    exact own_keys_in_scan sized short
  · rintro ⟨stored, inScan⟩
    obtain ⟨put, isPut, i, short, isKey⟩ := scanned_key_is_inclusion c inScan (by rw [stored]; simp)
    rw [isKey] at inScan
    obtain ⟨j, short', same⟩ := noStray put isPut i short inScan
    have own := (mem_own_entries_iff c).mpr ⟨j, _, List.getElem?_eq_getElem short', rfl⟩
    have isFound := found _ (own_entry_is_record c own)
    rw [isKey, same, isFound] at stored
    rw [isKey, same, ← Option.some.inj stored]
    exact own

theorem decode_inclusions_iff {filter : Bytes} {position : UInt32} {entries : List (Bytes × Bytes)} {inclusions : List InclusionCommitment} : decodeInclusions c db filter frameNumber position entries = .ok inclusions ↔
      inclusions.length = entries.length ∧ ∀ (i : Nat) entry inc, entries[i]? = some entry → inclusions[i]? = some inc →
        decodeInclusion c db filter frameNumber (position + UInt32.ofNat i) entry.2 = .ok inc := by
  induction entries generalizing position inclusions with
  | nil => simp [decodeInclusions, eq_comm]
  | cons entry rest ih =>
      have start : position + UInt32.ofNat 0 = position := UInt32.add_zero position
      have next (i : Nat) : position + UInt32.ofNat (i + 1) = position + 1 + UInt32.ofNat i := by
        rw [UInt32.ofNat_add, UInt32.add_comm (UInt32.ofNat i), ← UInt32.add_assoc]
        rfl
      simp only [decodeInclusions, bind_ok_iff, pure, Except.pure, Except.ok.injEq]
      cases inclusions with
      | nil => simp
      | cons first later =>
          simp only [List.cons.injEq, List.length_cons]
          constructor
          · rintro ⟨read, isRead, others, isOthers, sameRead, sameOthers⟩
            rw [sameOthers] at isOthers
            obtain ⟨sameLength, each⟩ := ih.mp isOthers
            refine ⟨by rw [sameLength], fun i entry' inc isEntry isInc => ?_⟩
            cases i with
            | zero =>
                cases isEntry
                cases isInc
                rw [start, isRead, sameRead]
            | succ i =>
                rw [next]
                exact each i entry' inc isEntry isInc
          · rintro ⟨sameLength, each⟩
            have isFirst := each 0 entry first rfl rfl
            rw [start] at isFirst
            refine ⟨first, isFirst, later, ih.mpr ⟨Nat.succ.inj sameLength, fun i entry' inc isEntry isInc => ?_⟩, rfl, rfl⟩
            rw [← next]
            exact each (i + 1) entry' inc isEntry isInc

theorem get_of_metadata (frameNumber : UInt64) (found : db.lookup last.metadataRecord.1 = some last.metadataRecord.2) :
    internalGetAggregateProof c db last.filter frameNumber last.commitment =
      decodeInclusions c db last.filter frameNumber 0 (db.range (dataProofInclusionKey last.filter last.commitment 0)
        (dataProofInclusionKey last.filter last.commitment (UInt64.ofNat last.inclusions.length + 1))) >>= fun inclusions =>
      .ok ⟨last.filter, frameNumber, inclusions, last.aggregateProof.proof⟩ := by
  have width := be_bytes_length 8 (UInt64.ofNat last.inclusions.length).toNat
  have isMetadata : last.metadataRecord.2 = beBytes 8 (UInt64.ofNat last.inclusions.length).toNat ++ last.aggregateProof.proof := rfl
  have proof : sliceFrom last.metadataRecord.2 8 = .ok last.aggregateProof.proof := by
    rw [slice_from_ok_iff, isMetadata, List.length_append, width, List.drop_left' width]
    exact ⟨by omega, rfl⟩
  have limit : (slice last.metadataRecord.2 0 8 >>= beUint64) = .ok (UInt64.ofNat last.inclusions.length) := by
    rw [isMetadata, show slice _ 0 8 = slice _ 0 (0 + 8) from rfl, slice_width _ 0 8 (by rw [List.length_append, width]; omega), ok_bind,
      List.drop_zero, List.take_left' width]
    exact (congrArg beUint64 (List.append_nil _)).symm.trans (be_uint64_append _ [])
  rw [internalGetAggregateProof, show dataProofMetadataKey last.filter last.commitment = last.metadataRecord.1 from rfl, found]
  dsimp only
  rw [proof, ok_bind, limit, ok_bind]
  rfl

-- The aggregate proof has the frame number of the query, and its inclusion commitments are read back from their records.
def StoredForm (last : AggregatePut) (frameNumber : UInt64) : Prop :=
  last.aggregateProof.frameNumber = frameNumber ∧
    ∀ i inc, last.inclusions[i]? = some inc → ReadsBack c last.filter frameNumber (UInt32.ofNat i) inc

theorem no_stray_of_length (sized : last.inclusions.length < 2 ^ 63)
    (found : ∀ own ∈ last.records c, (storeRecords ∅ (puts.flatMap (AggregatePut.records c))).lookup own.1 = some own.2)
    (sameLength : last.inclusions.length = ((storeRecords ∅ (puts.flatMap (AggregatePut.records c))).range
      (dataProofInclusionKey last.filter last.commitment 0)
      (dataProofInclusionKey last.filter last.commitment (UInt64.ofNat last.inclusions.length + 1))).length) : NoStray last puts := by
  intro put isPut i short inScan
  have distinct : (ownEntries c last).Nodup := (own_entries_ordered c sized).imp fun {left right} below same => by
    rw [same] at below
    exact List.lt_irrefl _ below
  have included : ∀ entry ∈ ownEntries c last, entry ∈ (storeRecords ∅ (puts.flatMap (AggregatePut.records c))).range
      (dataProofInclusionKey last.filter last.commitment 0)
      (dataProofInclusionKey last.filter last.commitment (UInt64.ofNat last.inclusions.length + 1)) := by
    intro entry isEntry
    obtain ⟨j, inc, isInc, same⟩ := (mem_own_entries_iff c).mp isEntry
    obtain ⟨short', -⟩ := List.getElem?_eq_some_iff.mp isInc
    refine (Table.mem_range _ _ _ entry.1 entry.2).mpr ⟨found entry (own_entry_is_record c isEntry), ?_⟩
    rw [same]
    exact own_keys_in_scan sized short'
  have perm := (distinct.subperm included).perm_of_length_le (by simp [ownEntries, ← sameLength])
  obtain ⟨value, stored⟩ := Option.ne_none_iff_exists'.mp ((stored_records_iff ∅ (put.inclusionKey i)).mpr
    (.inr ⟨_, List.mem_flatMap.mpr ⟨put, isPut, (mem_records_iff c).mpr (.inr (.inl ⟨i, _, List.getElem?_eq_getElem short, rfl⟩))⟩, rfl⟩))
  have scanned := perm.mem_iff.mpr ((Table.mem_range _ _ _ _ _).mpr ⟨stored, inScan⟩)
  obtain ⟨j, inc, isInc, same⟩ := (mem_own_entries_iff c).mp scanned
  obtain ⟨short', -⟩ := List.getElem?_eq_some_iff.mp isInc
  exact ⟨j, short', congrArg Prod.fst same⟩

theorem get_last_iff (inverts : UnmarshalInverts c) (collisionFree : CollisionFree c puts) (accepted : ∀ put ∈ puts, put.Accepted c)
    (isLast : last ∈ puts) (sized : last.inclusions.length < 2 ^ 63) (texts : ∀ inc ∈ last.inclusions, ByteText inc.typeUrl)
    (found : ∀ own ∈ last.records c, (storeRecords ∅ (puts.flatMap (AggregatePut.records c))).lookup own.1 = some own.2) :
    internalGetAggregateProof c (storeRecords ∅ (puts.flatMap (AggregatePut.records c))) last.filter frameNumber last.commitment =
      .ok last.aggregateProof ↔ StoredForm c last frameNumber ∧ NoStray last puts := by
  have metadata := found last.metadataRecord ((mem_records_iff c).mpr (.inr (.inr rfl)))
  have reads (i : Nat) (inc : InclusionCommitment) (isInc : last.inclusions[i]? = some inc) :
      decodeInclusion c (storeRecords ∅ (puts.flatMap (AggregatePut.records c))) last.filter frameNumber (0 + UInt32.ofNat i)
        (encodeInclusion c inc (inclusionSegments c inc)) = .ok inc ↔ ReadsBack c last.filter frameNumber (UInt32.ofNat i) inc := by
    have member := List.mem_of_getElem? isInc
    obtain ⟨segments, isSegments⟩ := accepted last isLast inc member
    rw [UInt32.zero_add, ← segments_of_ok c isSegments]
    refine read_back_iff c inverts isSegments (fun segment isSegment => ?_) (texts inc member)
    rw [segments_of_ok c isSegments] at isSegment
    exact segment_found c collisionFree isLast member isSegment
  have entry_at (i : Nat) (inc : InclusionCommitment) (isInc : last.inclusions[i]? = some inc) :
      (ownEntries c last)[i]? = some (last.inclusionKey i, encodeInclusion c inc (inclusionSegments c inc)) := by
    simp [ownEntries, List.getElem?_zipIdx, isInc]
  rw [get_of_metadata c frameNumber metadata, bind_ok_iff]
  constructor
  · rintro ⟨inclusions, isRead, same⟩
    have same := Except.ok.inj same
    have isInclusions : inclusions = last.inclusions := congrArg InclusionAggregateProof.inclusionCommitments same
    rw [isInclusions] at isRead
    have noStray := no_stray_of_length c sized found (decode_inclusions_length c _ _ _ isRead)
    rw [scan_eq_own c sized found noStray, decode_inclusions_iff] at isRead
    refine ⟨⟨(congrArg InclusionAggregateProof.frameNumber same).symm, fun i inc isInc => ?_⟩, noStray⟩
    exact (reads i inc isInc).mp (isRead.2 i _ inc (entry_at i inc isInc) isInc)
  · rintro ⟨⟨sameNumber, back⟩, noStray⟩
    refine ⟨last.inclusions, ?_, ?_⟩
    · rw [scan_eq_own c sized found noStray, decode_inclusions_iff]
      refine ⟨by simp [ownEntries], fun i entry inc isEntry isInc => ?_⟩
      rw [entry_at i inc isInc] at isEntry
      rw [← Option.some.inj isEntry]
      exact (reads i inc isInc).mpr (back i inc isInc)
    · rw [← sameNumber]
      rfl

def AggregatePut.SameKey (put other : AggregatePut) : Prop := put.filter = other.filter ∧ put.commitment = other.commitment

theorem undisturbed_of_one_length (collisionFree : CollisionFree c (before ++ last :: after))
    (isLast : ∀ later ∈ after, ¬ later.SameKey last) (oneLength : ∀ later ∈ after, later.commitment.length = last.commitment.length) :
    Undisturbed c last after := by
  intro later isLater record isRecord own isOwn same
  have width := oneLength later isLater
  rcases (mem_records_iff c).mp isOwn with ⟨inc, isInc, segment, isSegment, isOwn⟩ | ⟨i, inc, isInc, isOwn⟩ | isOwn
  · rw [isOwn] at same ⊢
    exact segment_record_agrees c collisionFree (by simp) (by simp [isLater]) isInc isSegment isRecord same
  · rcases (mem_records_iff c).mp isRecord with ⟨inc', -, segment', -, isRecord⟩ | ⟨j, inc', -, isRecord⟩ | isRecord
    · rw [isOwn, isRecord] at same
      exact absurd same.symm (inclusion_key_ne_segment c)
    · rw [isOwn, isRecord] at same
      simp only [AggregatePut.inclusionKey, dataProofInclusionKey, appendUint64, List.append_assoc] at same
      obtain ⟨commitments, rest⟩ := List.append_inj (List.append_cancel_left same) width
      obtain ⟨-, filters⟩ := List.append_inj rest (by rw [be_bytes_length, be_bytes_length])
      exact absurd ⟨filters, commitments⟩ (isLast later isLater)
    · rw [isOwn, isRecord] at same
      exact absurd same metadata_key_ne_inclusion
  · rcases (mem_records_iff c).mp isRecord with ⟨inc', -, segment', -, isRecord⟩ | ⟨j, inc', -, isRecord⟩ | isRecord
    · rw [isOwn, isRecord] at same
      exact absurd same.symm (metadata_key_ne_segment c)
    · rw [isOwn, isRecord] at same
      exact absurd same.symm metadata_key_ne_inclusion
    · rw [isOwn, isRecord] at same
      simp only [AggregatePut.metadataRecord, dataProofMetadataKey, List.append_assoc] at same
      obtain ⟨commitments, filters⟩ := List.append_inj (List.append_cancel_left same) width
      exact absurd ⟨filters, commitments⟩ (isLast later isLater)

theorem aggregate_proof_last_write_iff (inverts : UnmarshalInverts c) (history : List (List AggregatePut)) (final : Kvdb)
    (ran : runPuts c ∅ history = .ok final) (before after : List AggregatePut) (last : AggregatePut)
    (isSplit : history.flatten = before ++ last :: after) (isLast : ∀ later ∈ after, ¬ later.SameKey last)
    (collisionFree : CollisionFree c history.flatten) (sized : last.inclusions.length < 2 ^ 63)
    (texts : ∀ inc ∈ last.inclusions, ByteText inc.typeUrl) (frameNumber : UInt64) :
    (Undisturbed c last after →
      (internalGetAggregateProof c final last.filter frameNumber last.commitment = .ok last.aggregateProof ↔
        StoredForm c last frameNumber ∧ NoStray last history.flatten)) ∧
      ((∀ later ∈ after, later.commitment.length = last.commitment.length) → Undisturbed c last after) := by
  obtain ⟨isFinal, accepted⟩ := run_puts_records c ∅ final history ran
  rw [isSplit] at isFinal accepted collisionFree ⊢
  constructor
  · intro undisturbed
    rw [isFinal]
    exact get_last_iff c inverts collisionFree accepted (by simp) sized texts
      (own_found c collisionFree sized undisturbed)
  · exact undisturbed_of_one_length c collisionFree isLast

end Puts

def firstByteCodec : StoreCodec where
  sha3Sum256 := fun data => ⟨List.replicate 32 (data.headD 0), rfl⟩
  marshalOutput := fun _ => .error (errorsNew "proto")
  unmarshalOutput := fun _ => .error (errorsNew "proto")
  marshalFrame := fun _ => .error (errorsNew "proto")
  unmarshalFrame := fun _ => .error (errorsNew "proto")
  gobEncode := fun _ => .error (errorsNew "gob")
  gobDecode := fun _ => newTree

def numberedPut (filter : Bytes) (numbers : List UInt8) : AggregatePut where
  aggregateProof := ⟨filter, 5, numbers.zipIdx.map fun number => ⟨filter, 5, UInt32.ofNat number.2, "a", [number.1], [number.1, 0]⟩, [9]⟩
  commitment := [1]

theorem aggregate_proof_empty_then_one :
    ∃ final, runPuts firstByteCodec ∅ [[numberedPut [7] []], [numberedPut [7] [3]]] = .ok final ∧
      internalGetAggregateProof firstByteCodec final [7] 5 [1] = .ok (numberedPut [7] [3]).aggregateProof := by
  have inverts : UnmarshalInverts firstByteCodec := fun o data encoded => by cases encoded
  have only (put : AggregatePut) (isPut : put ∈ [numberedPut [7] [], numberedPut [7] [3]]) (inc : InclusionCommitment) (isInc : inc ∈ put.inclusions) :
      put = numberedPut [7] [3] ∧ inc = ⟨[7], 5, 0, "a", [3], [3, 0]⟩ := by
    rcases List.mem_cons.mp isPut with isEmpty | isOne
    · rw [isEmpty] at isInc
      cases isInc
    · rw [List.mem_singleton.mp isOne] at isInc ⊢
      exact ⟨rfl, List.mem_singleton.mp isInc⟩
  refine ⟨_, rfl, ?_⟩
  refine ((aggregate_proof_last_write_iff firstByteCodec inverts [[numberedPut [7] []], [numberedPut [7] [3]]] _ rfl [numberedPut [7] []] []
    (numberedPut [7] [3]) rfl (by simp) ?_ (by decide) ?_ 5).1 (fun later isLater => by cases isLater)).mpr ⟨⟨rfl, fun i inc isInc => ?_⟩, ?_⟩
  · intro put isPut inc isInc segment isSegment put' isPut' inc' isInc' segment' isSegment' _
    obtain ⟨-, isInc⟩ := only put isPut inc isInc
    obtain ⟨-, isInc'⟩ := only put' isPut' inc' isInc'
    rw [isInc] at isSegment
    rw [isInc'] at isSegment'
    rw [List.mem_singleton.mp isSegment, List.mem_singleton.mp isSegment']
  · intro inc isInc
    rw [(only _ (by simp) inc isInc).2]
    intro char isChar
    rw [List.mem_singleton.mp isChar]
    decide
  · obtain ⟨short, -⟩ := List.getElem?_eq_some_iff.mp isInc
    have isFirst : i = 0 := by
      have : (numberedPut [7] [3]).inclusions.length = 1 := rfl
      omega
    rw [isFirst] at isInc ⊢
    cases isInc
    exact ⟨rfl, rfl, rfl, by unfold PackedFits; decide, fun isOutput => absurd isOutput (by decide)⟩
  · intro put isPut i short _
    have isOne := (only put isPut _ (List.getElem_mem short)).1
    rw [isOne] at short ⊢
    exact ⟨i, short, rfl⟩

theorem aggregate_proof_returns_strays :
    (∃ final, runPuts firstByteCodec ∅ [[numberedPut [7] [3, 4]], [numberedPut [7] [3]]] = .ok final ∧
      ∃ found, internalGetAggregateProof firstByteCodec final [7] 5 [1] = .ok found ∧ found ≠ (numberedPut [7] [3]).aggregateProof) ∧
    ∃ final, runPuts firstByteCodec ∅ [[numberedPut [7] [3]], [numberedPut [8] [3]]] = .ok final ∧
      ∃ found, internalGetAggregateProof firstByteCodec final [7] 5 [1] = .ok found ∧ found ≠ (numberedPut [7] [3]).aggregateProof := by
  have strays (history : List (List AggregatePut))
      (checked : returnsWith (runPuts firstByteCodec ∅ history) (fun final => returnsWith (internalGetAggregateProof firstByteCodec final [7] 5 [1])
        fun found => decide (found ≠ (numberedPut [7] [3]).aggregateProof)) = true) :
      ∃ final, runPuts firstByteCodec ∅ history = .ok final ∧
        ∃ found, internalGetAggregateProof firstByteCodec final [7] 5 [1] = .ok found ∧ found ≠ (numberedPut [7] [3]).aggregateProof := by
    obtain ⟨final, ran, read⟩ := (returns_with_iff _ _).mp checked
    obtain ⟨found, isFound, differs⟩ := (returns_with_iff _ _).mp read
    exact ⟨final, ran, found, isFound, of_decide_eq_true differs⟩
  exact ⟨strays _ (by decide +kernel), strays _ (by decide +kernel)⟩

end Ceremony
