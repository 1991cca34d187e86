import CeremonyClient.Store.Clock

set_option autoImplicit false

namespace Ceremony

open GoSem

variable {db : Kvdb} {filter : Bytes} {frameNumber : UInt64} {proverTries : List RollingFrecencyCritbitTrie} {txn : Txn} {final seen : Kvdb}
  {ring : UInt16} {trie : RollingFrecencyCritbitTrie}

namespace PebbleClockStore

variable (c : StoreCodec)

theorem read_prover_tries_iff {fuel : Nat} {i : UInt16} :
    readProverTries c db filter frameNumber fuel i = .ok proverTries ↔
      proverTries.length < fuel ∧
        (∀ j trie, proverTries[j]? = some trie →
          ∃ data, db.lookup (clockProverTrieKey filter (i + UInt16.ofNat j) frameNumber) = some data ∧ trie = .deserialize c data) ∧
        db.lookup (clockProverTrieKey filter (i + UInt16.ofNat proverTries.length) frameNumber) = none := by
  induction fuel generalizing i proverTries with
  | zero => simp [readProverTries]
  | succ fuel ih =>
      have next (j : Nat) : i + UInt16.ofNat (j + 1) = i + 1 + UInt16.ofNat j := by
        rw [UInt16.ofNat_add, UInt16.add_comm (UInt16.ofNat j), ← UInt16.add_assoc]
        rfl
      have start : i + UInt16.ofNat 0 = i := UInt16.add_zero i
      rw [readProverTries]
      cases found : db.lookup (clockProverTrieKey filter i frameNumber) with
      | none =>
          cases proverTries with
          | nil => rw [List.length_nil, start, found]; simp
          | cons first rest =>
              refine iff_of_false (by simp) fun all => ?_
              obtain ⟨data, stored, -⟩ := all.2.1 0 first rfl
              rw [start, found] at stored
              cases stored
      | some data =>
          simp only [bind_ok_iff, pure, Except.pure, Except.ok.injEq]
          cases proverTries with
          | nil => rw [List.length_nil, start, found]; simp
          | cons first rest =>
              simp only [List.cons.injEq]
              constructor
              · rintro ⟨later, read, isFirst, isRest⟩
                rw [isRest] at read
                obtain ⟨short, stored, missing⟩ := ih.mp read
                refine ⟨Nat.succ_lt_succ short, fun j trie isTrie => ?_, by rw [List.length_cons, next]; exact missing⟩
                cases j with
                | zero =>
                    refine ⟨data, by rw [start]; exact found, ?_⟩
                    exact (Option.some.inj isTrie).symm.trans isFirst.symm
                | succ j =>
                    rw [next]
                    exact stored j trie isTrie
              · rintro ⟨short, stored, missing⟩
                refine ⟨rest, ih.mpr ⟨Nat.lt_of_succ_lt_succ short, fun j trie isTrie => ?_, ?_⟩, ?_, rfl⟩
                · rw [← next]
                  exact stored (j + 1) trie isTrie
                · rw [← next]
                  exact missing
                · obtain ⟨first', isData, decoded⟩ := stored 0 first rfl
                  rw [start, found] at isData
                  rw [decoded, Option.some.inj isData]

theorem put_prover_tries_ops {i : Nat} (ran : putProverTries c filter frameNumber i proverTries = .ok txn) :
    ∃ datas, List.Forall₂ (fun trie data => trie.serialize c = .ok data) proverTries datas ∧
      txn = (datas.zipIdx i).map fun entry => .set (clockProverTrieKey filter (UInt16.ofNat entry.2) frameNumber) entry.1 := by
  induction proverTries generalizing i txn with
  | nil =>
      cases ran
      exact ⟨[], .nil, rfl⟩
  | cons first rest ih =>
      simp only [putProverTries, bind_ok_iff, wrap_err_ok_iff] at ran
      obtain ⟨data, encoded, later, ranLater, isTxn⟩ := ran
      obtain ⟨datas, encodedLater, isLater⟩ := ih ranLater
      refine ⟨data :: datas, .cons encoded encodedLater, ?_⟩
      cases isTxn
      rw [isLater, List.zipIdx_cons, List.map_cons]

variable {call : DataCommit}

theorem commit_ops_cases (ran : commitDataClockFrame c db call = .ok txn) :
    ∃ sets, putProverTries c call.filter call.frameNumber 0 call.proverTries = .ok sets ∧ (∀ op ∈ sets, op ∈ txn) ∧
      ∀ op ∈ txn, op ∈ sets ∨ ∃ kind rest value, kind ≠ 0x03 ∧ op = .set (0x00 :: kind :: rest) value := by
  simp only [commitDataClockFrame, bind_ok_iff] at ran
  obtain ⟨sets, ranSets, isTxn⟩ := ran
  cases isTxn
  refine ⟨sets, ranSets, fun op isSet => by simp [isSet], fun op inside => ?_⟩
  rcases List.mem_append.mp inside with front | latest
  · rcases List.mem_append.mp front with front | earliest
    · rcases List.mem_cons.mp front with isFrame | isSet
      · exact .inr ⟨0x01, _, _, by decide, isFrame⟩
      · exact .inl isSet
    · split at earliest
      · cases earliest
      · exact .inr ⟨0x11, _, _, by decide, List.mem_singleton.mp earliest⟩
  · split at latest
    · cases latest
    · exact .inr ⟨0x21, _, _, by decide, List.mem_singleton.mp latest⟩

theorem commit_trie_ops (ran : commitDataClockFrame c db call = .ok txn) :
    (∀ op ∈ txn, op.left ≠ none) ∧
      ∃ datas, List.Forall₂ (fun trie data => trie.serialize c = .ok data) call.proverTries datas ∧
        (∀ j data, datas[j]? = some data →
          .set (clockProverTrieKey call.filter (UInt16.ofNat j) call.frameNumber) data ∈ txn) ∧
        ∀ op ∈ txn, ∀ filter ring frameNumber, op.touches (clockProverTrieKey filter ring frameNumber) →
          filter = call.filter ∧ frameNumber = call.frameNumber ∧
            ∃ j data, datas[j]? = some data ∧ ring = UInt16.ofNat j ∧ op.left = some data := by
  obtain ⟨sets, ranSets, included, cases_mem⟩ := commit_ops_cases c ran
  obtain ⟨datas, encoded, isSets⟩ := put_prover_tries_ops c ranSets
  have in_sets (op : Table.BatchOp Bytes Bytes) : op ∈ sets ↔ ∃ j data, datas[j]? = some data ∧
      op = .set (clockProverTrieKey call.filter (UInt16.ofNat j) call.frameNumber) data := by
    rw [isSets, List.mem_map]
    constructor
    · rintro ⟨⟨data, j⟩, isEntry, isOp⟩
      exact ⟨j, data, by simpa using List.mem_zipIdx_iff_getElem?.mp isEntry, isOp.symm⟩
    · rintro ⟨j, data, isData, isOp⟩
      exact ⟨(data, j), List.mem_zipIdx_iff_getElem?.mpr isData, isOp.symm⟩
  refine ⟨fun op inside => ?_, datas, encoded, fun j data isData => ?_, fun op inside filter ring frameNumber touched => ?_⟩
  · rcases cases_mem op inside with isSet | ⟨kind, rest, value, -, isOp⟩
    · obtain ⟨j, data, -, isOp⟩ := (in_sets op).mp isSet
      rw [isOp]
      simp [Table.BatchOp.left]
    · rw [isOp]
      simp [Table.BatchOp.left]
  · exact included _ ((in_sets _).mpr ⟨j, data, isData, rfl⟩)
  · rcases cases_mem op inside with isSet | ⟨kind, rest, value, isKind, isOp⟩
    · obtain ⟨j, data, isData, isOp⟩ := (in_sets op).mp isSet
      rw [isOp, Table.touches_set, prover_trie_key_inj] at touched
      exact ⟨touched.1, touched.2.2, j, data, isData, touched.2.1, by rw [isOp]; rfl⟩
    · rw [isOp, Table.touches_set] at touched
      simp only [clockProverTrieKey, appendUint64, appendUint16, List.cons_append, List.nil_append, List.cons.injEq] at touched
      exact absurd touched.2.1.symm isKind

def runCommits (db : Kvdb) : List (List DataCommit) → Go Kvdb
  | [] => .ok db
  | calls :: rest => do
      let txn ← calls.mapM (commitDataClockFrame c db)
      runCommits (Table.commit txn.flatten db) rest

-- The value that gob decoding gives for an encoding is the encoded one; an encoding is never empty.
def GobInverts : Prop := ∀ tree data, c.gobEncode tree = .ok data → data ≠ [] ∧ c.gobDecode data = tree

def LoadsFrame (db : Kvdb) (filter : Bytes) (frameNumber : UInt64) (frame : ClockFrame) : Prop :=
  ∃ found genesisFramePreIndex, findDataClockFrame c db filter frameNumber = .ok (found, genesisFramePreIndex) ∧
    fillAggregateProofs c db found genesisFramePreIndex = .ok frame

def DataCommit.SameFrame (call other : DataCommit) : Prop := call.filter = other.filter ∧ call.frameNumber = other.frameNumber

-- The database after some commits, whatever database the earliest index was looked up in.
inductive Written : List DataCommit → Kvdb → Kvdb → Prop where
  | done (db : Kvdb) : Written [] db db
  | step (call : DataCommit) (rest : List DataCommit) (db seen final : Kvdb) (txn : Txn) (ran : commitDataClockFrame c seen call = .ok txn)
      (later : Written rest (Table.commit txn db) final) : Written (call :: rest) db final

theorem written_append_iff {front back : List DataCommit} :
    Written c (front ++ back) db final ↔ ∃ middle, Written c front db middle ∧ Written c back middle final := by
  induction front generalizing db with
  | nil =>
      refine ⟨fun written => ⟨db, .done db, written⟩, fun both => ?_⟩
      obtain ⟨middle, none, written⟩ := both
      cases none
      exact written
  | cons call rest ih =>
      constructor
      · intro written
        cases written with
        | step _ _ _ seen _ txn ran later =>
            obtain ⟨middle, first, second⟩ := ih.mp later
            exact ⟨middle, .step call rest db seen middle txn ran first, second⟩
      · rintro ⟨middle, first, second⟩
        cases first with
        | step _ _ _ seen _ txn ran later => exact .step call (rest ++ back) db seen final txn ran (ih.mpr ⟨middle, later, second⟩)

variable {calls : List DataCommit}

theorem written_transaction {txns : List Txn} (ran : calls.mapM (commitDataClockFrame c seen) = .ok txns) :
    Written c calls db (Table.commit txns.flatten db) := by
  induction calls generalizing db txns with
  | nil =>
      cases ran
      exact .done db
  | cons call rest ih =>
      simp only [List.mapM_cons, bind_ok_iff] at ran
      obtain ⟨txn, ranFirst, later, ranLater, isTxns⟩ := ran
      cases isTxns
      rw [List.flatten_cons, Table.commit_append]
      exact .step call rest db seen _ txn ranFirst (ih ranLater)

theorem run_commits_written (db final : Kvdb) (history : List (List DataCommit)) (ran : runCommits c db history = .ok final) :
    Written c history.flatten db final := by
  induction history generalizing db with
  | nil =>
      cases ran
      exact .done _
  | cons calls rest ih =>
      simp only [runCommits, bind_ok_iff] at ran
      obtain ⟨txns, ranFirst, ranRest⟩ := ran
      rw [List.flatten_cons, written_append_iff]
      exact ⟨_, written_transaction c ranFirst, ih _ ranRest⟩

theorem commit_stores_iff (db : Kvdb) (ran : commitDataClockFrame c seen call = .ok txn) :
    (Table.commit txn db).lookup (clockProverTrieKey filter ring frameNumber) ≠ none ↔
      db.lookup (clockProverTrieKey filter ring frameNumber) ≠ none ∨
        (filter = call.filter ∧ frameNumber = call.frameNumber) ∧ ring.toNat < call.proverTries.length := by
  obtain ⟨sets, datas, encoded, writes, touches⟩ := commit_trie_ops c ran
  rw [Table.stored_commit_sets db sets]
  apply or_congr_right
  constructor
  · rintro ⟨op, inside, touched⟩
    obtain ⟨isFilter, isNumber, j, data, isData, isRing, -⟩ := touches op inside filter ring frameNumber touched
    obtain ⟨short, -⟩ := List.getElem?_eq_some_iff.mp isData
    refine ⟨⟨isFilter, isNumber⟩, ?_⟩
    rw [encoded.length_eq, isRing, UInt16.toNat_ofNat']
    exact Nat.lt_of_le_of_lt (Nat.mod_le _ _) short
  · rintro ⟨⟨isFilter, isNumber⟩, short⟩
    rw [encoded.length_eq] at short
    have isData := List.getElem?_eq_getElem short
    refine ⟨_, writes ring.toNat _ isData, ?_⟩
    rw [Table.touches_set, prover_trie_key_inj, UInt16.ofNat_toNat]
    exact ⟨isFilter, rfl, isNumber⟩

theorem written_stores_iff (db final : Kvdb) (written : Written c calls db final) (filter : Bytes) (ring : UInt16)
    (frameNumber : UInt64) :
    final.lookup (clockProverTrieKey filter ring frameNumber) ≠ none ↔
      db.lookup (clockProverTrieKey filter ring frameNumber) ≠ none ∨
        ∃ call ∈ calls, (filter = call.filter ∧ frameNumber = call.frameNumber) ∧ ring.toNat < call.proverTries.length := by
  induction written with
  | done db => simp
  | step call rest db seen final txn ran later ih =>
      rw [ih, commit_stores_iff c db ran]
      simp only [List.mem_cons, exists_eq_or_imp, or_assoc]

theorem written_other_frames (written : Written c calls db final) {last : DataCommit}
    (others : ∀ call ∈ calls, ¬ call.SameFrame last) :
    final.lookup (clockProverTrieKey last.filter ring last.frameNumber) = db.lookup (clockProverTrieKey last.filter ring last.frameNumber) := by
  induction written with
  | done db => rfl
  | step call rest db seen final txn ran later ih =>
      obtain ⟨first, rest⟩ := List.forall_mem_cons.mp others
      obtain ⟨-, datas, -, -, touches⟩ := commit_trie_ops c ran
      rw [ih rest]
      refine Table.lookup_commit_other fun op inside touched => ?_
      obtain ⟨isFilter, isNumber, -⟩ := touches op inside _ _ _ touched
      exact first ⟨isFilter.symm, isNumber.symm⟩

theorem commit_stores_tries (ran : commitDataClockFrame c seen call = .ok txn) (few : call.proverTries.length < 65536)
    {j : Nat} (isTrie : call.proverTries[j]? = some trie) :
    ∃ data, (Table.commit txn db).lookup (clockProverTrieKey call.filter (UInt16.ofNat j) call.frameNumber) = some data ∧
      trie.serialize c = .ok data := by
  obtain ⟨-, datas, encoded, writes, touches⟩ := commit_trie_ops c ran
  obtain ⟨short, isTrie⟩ := List.getElem?_eq_some_iff.mp isTrie
  have shortData := short
  rw [encoded.length_eq] at shortData
  have isData := List.getElem?_eq_getElem shortData
  refine ⟨datas[j], ?_, by rw [← isTrie]; exact encoded.get short shortData⟩
  apply Table.lookup_commit_agreed fun op inside touched => ?_
  · exact ⟨_, writes j _ isData, (Table.touches_set _ _ _).mpr rfl⟩
  · obtain ⟨-, -, k, other, isOther, sameRing, left⟩ := touches op inside _ _ _ touched
    obtain ⟨shortOther, -⟩ := List.getElem?_eq_some_iff.mp isOther
    have sameNumber := congrArg UInt16.toNat sameRing
    rw [UInt16.toNat_ofNat', UInt16.toNat_ofNat', Nat.mod_eq_of_lt (by omega),
      Nat.mod_eq_of_lt (by rw [encoded.length_eq] at few; omega)] at sameNumber
    rw [left, ← isOther, ← sameNumber, isData]

theorem deserialize_serialize (inverts : GobInverts c) {data : Bytes} (encoded : trie.serialize c = .ok data) :
    .deserialize c data = trie := by
  rw [RollingFrecencyCritbitTrie.serialize, wrap_err_ok_iff, returned_ok_iff] at encoded
  obtain ⟨filled, decoded⟩ := inverts trie.trie data encoded
  rw [RollingFrecencyCritbitTrie.deserialize, if_neg fun empty => filled (List.length_eq_zero_iff.mp empty), decoded]

theorem get_with_tries_iff {frame : ClockFrame} (loads : LoadsFrame c db filter frameNumber frame) :
    getDataClockFrame c db filter frameNumber false = .ok (frame, proverTries) ↔
      readProverTries c db filter frameNumber 65537 0 = .ok proverTries := by
  obtain ⟨found, genesis, isFound, isFilled⟩ := loads
  have filled : wrapErr "get data clock frame" (wrapErr "invalid data" (fillAggregateProofs c db found genesis)) = .ok frame := by
    rw [isFilled]
    rfl
  simp only [getDataClockFrame, isFound, ok_bind, Bool.false_eq_true, if_false, filled, bind_ok_iff, pure, Except.pure, Except.ok.injEq,
    Prod.mk.injEq, true_and, exists_eq_right]

theorem committed_tries_read_back_iff (inverts : GobInverts c) (db final : Kvdb) (history : List (List DataCommit))
    (ran : runCommits c db history = .ok final) (before after : List DataCommit) (last : DataCommit)
    (isSplit : history.flatten = before ++ last :: after) (isLast : ∀ call ∈ after, ¬ call.SameFrame last) (frame : ClockFrame)
    (loads : LoadsFrame c final last.filter last.frameNumber frame) :
    getDataClockFrame c final last.filter last.frameNumber false = .ok (frame, last.proverTries) ↔
      last.proverTries.length < 65536 ∧
        db.lookup (clockProverTrieKey last.filter (UInt16.ofNat last.proverTries.length) last.frameNumber) = none ∧
        ∀ call ∈ before, call.SameFrame last → call.proverTries.length ≤ last.proverTries.length := by
  have written := run_commits_written c db final history ran
  rw [isSplit] at written
  have stored := written_stores_iff c db final written last.filter (UInt16.ofNat last.proverTries.length) last.frameNumber
  have wrapped : (UInt16.ofNat last.proverTries.length).toNat = last.proverTries.length % 65536 := UInt16.toNat_ofNat'
  rw [get_with_tries_iff c loads, read_prover_tries_iff, UInt16.zero_add]
  constructor
  · rintro ⟨-, -, missing⟩
    rw [missing, wrapped] at stored
    obtain ⟨fresh, short⟩ := not_or.mp (stored.not.mp (not_not.mpr rfl))
    push Not at short
    have few : last.proverTries.length < 65536 := by
      have own := short last (by simp) ⟨rfl, rfl⟩
      by_contra many
      have := Nat.mod_lt last.proverTries.length (show 0 < 65536 by decide)
      omega
    refine ⟨few, not_not.mp fresh, fun call isBefore same => ?_⟩
    have reached := short call (by simp [isBefore]) ⟨same.1.symm, same.2.symm⟩
    rwa [Nat.mod_eq_of_lt few] at reached
  · rintro ⟨few, fresh, shorter⟩
    refine ⟨by omega, fun j trie isTrie => ?_, ?_⟩
    · obtain ⟨middle, -, ends⟩ := (written_append_iff c).mp written
      cases ends with
      | step _ _ _ seen _ txn committed later =>
          obtain ⟨data, isStored, encoded⟩ := commit_stores_tries c committed few isTrie
          refine ⟨data, ?_, (deserialize_serialize c inverts encoded).symm⟩
          rw [UInt16.zero_add, written_other_frames c later isLast, isStored]
    · by_contra present
      rcases stored.mp present with old | ⟨call, inside, same, reaches⟩
      · exact old fresh
      · rw [wrapped, Nat.mod_eq_of_lt few] at reaches
        rcases List.mem_append.mp inside with isBefore | isAfter
        · exact absurd (shorter call isBefore ⟨same.1.symm, same.2.symm⟩) (by omega)
        · rcases List.mem_cons.mp isAfter with isOwn | isLater
          · rw [isOwn] at reaches
            omega
          · exact isLast call isLater ⟨same.1.symm, same.2.symm⟩

def emptyTrieCodec : StoreCodec where
  sha3Sum256 := fun _ => ⟨List.replicate 32 7, rfl⟩
  marshalOutput := fun _ => .ok []
  unmarshalOutput := fun _ => .ok ⟨[], [], []⟩
  marshalFrame := fun _ => .ok []
  unmarshalFrame := fun _ => .ok ⟨[7], 1, 0, 0, [], List.replicate 516 0, [], [], none, []⟩
  gobEncode := fun tree => if tree = newTree then .ok [1] else .error (errorsNew "gob")
  gobDecode := fun _ => newTree

def recommit (rings : Nat) : DataCommit := ⟨[7], 1, [9], List.replicate rings .zero, false⟩

def stagedOnly : Kvdb := (∅ : Kvdb).insert (clockDataParentIndexKey [7] 1 [9]) [5]

def stagedFrame : ClockFrame := ⟨[7], 1, 0, 0, [], List.replicate 516 0, [], [], none, []⟩

theorem empty_trie_codec_inverts : GobInverts emptyTrieCodec := by
  intro tree data encoded
  by_cases empty : tree = newTree
  · rw [show emptyTrieCodec.gobEncode tree = .ok [1] from if_pos empty] at encoded
    cases encoded
    exact ⟨by decide, empty.symm⟩
  · rw [show emptyTrieCodec.gobEncode tree = .error (errorsNew "gob") from if_neg empty] at encoded
    cases encoded

theorem staged_frame_commits : frameCommits stagedFrame = .ok [] := by
  have wide : stagedFrame.input.length = 516 := List.length_replicate
  rw [frameCommits, sliceFrom, if_pos wide.ge, ok_bind, List.length_drop, wide]
  rfl

theorem staged_frame_loads (found : findDataClockFrame emptyTrieCodec db [7] 1 = .ok (stagedFrame, false)) :
    LoadsFrame emptyTrieCodec db [7] 1 stagedFrame := by
  refine ⟨stagedFrame, false, found, ?_⟩
  rw [fillAggregateProofs, if_neg (by simp), staged_frame_commits]
  rfl

theorem committed_tries_one_then_two :
    ∃ final, runCommits emptyTrieCodec stagedOnly [[recommit 1], [recommit 2]] = .ok final ∧
      getDataClockFrame emptyTrieCodec final [7] 1 false = .ok (stagedFrame, [.zero, .zero]) := by
  refine ⟨_, rfl, ?_⟩
  refine (committed_tries_read_back_iff emptyTrieCodec empty_trie_codec_inverts stagedOnly _ [[recommit 1], [recommit 2]] rfl [recommit 1] []
    (recommit 2) rfl (by simp) stagedFrame (staged_frame_loads rfl)).mpr ⟨by decide, rfl, ?_⟩
  intro call isBefore _
  rw [List.mem_singleton.mp isBefore]
  decide

theorem shorter_commit_keeps_old_trie :
    ∃ final, runCommits emptyTrieCodec stagedOnly [[recommit 2], [recommit 1]] = .ok final ∧
      getDataClockFrame emptyTrieCodec final [7] 1 false = .ok (stagedFrame, [.zero, .zero]) ∧
      (recommit 1).proverTries = [.zero] := by
  refine ⟨_, rfl, ?_, rfl⟩
  exact (get_with_tries_iff emptyTrieCodec (staged_frame_loads rfl)).mpr rfl

end PebbleClockStore

end Ceremony
