import CeremonyClient.Consensus.Reassembly
import CeremonyClient.Lib.Passes

set_option autoImplicit false

namespace Ceremony

open GoSem

variable {k after : Learned} {fragment : ClockFrameFragment} {encoding : ReedSolomonEncoding} {count : Nat} {table filled : List Bytes}

-- What is assumed of the library.
structure ReedSolomon.RefusesEmpty (rs : ReedSolomon) : Prop where
  counts : ∀ parityShards, rs.new 0 parityShards ≠ .ok ()
  shards : ∀ dataShards parityShards shards restored, (∀ shard ∈ shards, shard = []) →
    rs.reconstructData dataShards parityShards shards ≠ .ok restored

structure EncodedFragment where
  fragment : ClockFrameFragment
  encoding : ReedSolomonEncoding
  encoded : fragment.reedSolomon = some encoding

structure Carried where
  frameNumber : UInt64
  filter : Bytes
  timestamp : Int64
  frameHash : Bytes
  dataShardCount : UInt64
  parityShardCount : UInt64
  frameSize : UInt64
  dataLength : Nat

namespace EncodedFragment

def carried (piece : EncodedFragment) : Carried :=
  ⟨piece.fragment.frameNumber, piece.fragment.filter, piece.fragment.timestamp, piece.fragment.frameHash,
    piece.encoding.fragmentDataShardCount, piece.encoding.fragmentParityShardCount, piece.encoding.frameSize,
    piece.encoding.fragmentData.length⟩

def shard (piece : EncodedFragment) : UInt64 := piece.encoding.fragmentShard

def entry (piece : EncodedFragment) : Option ClockFrameFragment := some piece.fragment

end EncodedFragment

def ConsistentFragments (fragments : List (Option ClockFrameFragment)) : Prop :=
  ∃ pieces : List EncodedFragment, fragments = pieces.map EncodedFragment.entry ∧
    (∃ common, ∀ piece ∈ pieces, piece.carried = common) ∧ (pieces.map EncodedFragment.shard).Nodup

structure Carried.Known (common : Carried) : Prop where
  number : common.frameNumber ≠ 0
  counts : common.dataShardCount ≠ 0
  filter : common.filter ≠ []
  dataLength : common.dataLength ≠ 0
  timestamp : common.timestamp ≠ 0
  hash : common.frameHash ≠ []

-- What the i-th fragment has to share with the others: a field is taken from the first, second, third or fourth
-- fragment, and those before it are never compared.
structure AgreesEarly (common : Carried) (i : Nat) (piece : EncodedFragment) : Prop where
  number : i < 1 → piece.carried.frameNumber = common.frameNumber
  counts : i < 1 → piece.carried.dataShardCount = common.dataShardCount ∧ piece.carried.parityShardCount = common.parityShardCount
  filter : i < 2 → piece.carried.filter = common.filter
  dataLength : i < 2 → piece.carried.dataLength = common.dataLength
  timestamp : i < 3 → piece.carried.timestamp = common.timestamp
  frameSize : i < 3 ∨ common.frameSize = 0 → piece.carried.frameSize = common.frameSize
  hash : i < 4 → piece.carried.frameHash = common.frameHash

def EarlyAgree (fragments : List (Option ClockFrameFragment)) : Prop :=
  ∃ (pieces : List EncodedFragment) (common : Carried), fragments = pieces.map EncodedFragment.entry ∧ common.Known ∧
    ∀ i piece, pieces[i]? = some piece → AgreesEarly common i piece

theorem go_int_injective (left right : UInt64) : goInt left = goInt right ↔ left = right := by
  rw [goInt, goInt, Int64.toInt_inj]
  constructor
  · intro same
    have back := congrArg Int64.toUInt64 same
    simpa using back
  · exact congrArg UInt64.toInt64

theorem go_int_zero {value : UInt64} : goInt value = 0 ↔ value = 0 := go_int_injective value 0

variable {pieces : List EncodedFragment}

section Learning

def Carried.learned (common : Carried) : Learned :=
  ⟨common.frameNumber, common.filter, common.timestamp, common.frameHash, goInt common.dataShardCount, goInt common.parityShardCount,
    common.dataLength, goInt common.frameSize⟩

variable (common : Carried) (known : common.Known) (piece : EncodedFragment)

structure Compared (count : Nat) : Prop where
  number : 1 ≤ count → piece.carried.frameNumber = common.frameNumber
  counts : 1 ≤ count → piece.carried.dataShardCount = common.dataShardCount ∧ piece.carried.parityShardCount = common.parityShardCount
  filter : 2 ≤ count → piece.carried.filter = common.filter
  dataLength : 2 ≤ count → piece.carried.dataLength = common.dataLength
  timestamp : 3 ≤ count → piece.carried.timestamp = common.timestamp
  frameSize : 3 ≤ count → common.frameSize ≠ 0 → piece.carried.frameSize = common.frameSize
  hash : 4 ≤ count → piece.carried.frameHash = common.frameHash

theorem learn_fragment_encoded : learnFragment k piece.entry = learnFrame k piece.fragment >>= fun k => learnEncoding k piece.encoding := by
  simp only [EncodedFragment.entry, learnFragment, piece.encoded]

theorem learn_frame_settled (learned : learnFrame k fragment = .ok after) (number : k.frameNumber ≠ 0) :
    fragment.frameNumber = k.frameNumber ∧ (k.filter ≠ [] → fragment.filter = k.filter ∧ (k.timestamp ≠ 0 →
      fragment.timestamp = k.timestamp ∧ (k.frameHash ≠ [] → fragment.frameHash = k.frameHash))) := by
  rw [learnFrame, if_neg number, guarded_ok_iff, not_not] at learned
  refine ⟨learned.1.symm, fun filter => ?_⟩
  rw [if_neg (fun empty => filter (List.length_eq_zero_iff.mp empty)), guarded_ok_iff, not_not] at learned
  refine ⟨learned.2.1.symm, fun timestamp => ?_⟩
  rw [if_neg timestamp, guarded_ok_iff, not_not] at learned
  refine ⟨learned.2.2.1.symm, fun hash => ?_⟩
  rw [if_neg (fun empty => hash (List.length_eq_zero_iff.mp empty)), guarded_ok_iff, not_not] at learned
  exact learned.2.2.2.1.symm

theorem learn_encoding_settled (learned : learnEncoding k encoding = .ok after) (counts : k.dataShardCount ≠ 0) :
    goInt encoding.fragmentDataShardCount = k.dataShardCount ∧ goInt encoding.fragmentParityShardCount = k.parityShardCount ∧
      (k.fragmentSize ≠ 0 → (encoding.fragmentData.length : Int) = k.fragmentSize ∧ (k.frameSize ≠ 0 →
        goInt encoding.frameSize = k.frameSize)) := by
  rw [learnEncoding, if_neg counts, guarded_ok_iff, guarded_ok_iff, guarded_ok_iff, not_not, not_not] at learned
  obtain ⟨sameData, sameParity, -, learned⟩ := learned
  refine ⟨sameData.symm, sameParity.symm, fun size => ?_⟩
  rw [if_neg size, guarded_ok_iff, not_not] at learned
  refine ⟨learned.1, fun frameSize => ?_⟩
  rw [if_neg frameSize, guarded_ok_iff, not_not] at learned
  exact learned.2.1

theorem learn_encoding_counts (learned : learnEncoding k encoding = .ok after) (counts : k.dataShardCount ≠ 0) :
    after.dataShardCount = k.dataShardCount := by
  rw [learnEncoding, if_neg counts, guarded_ok_iff, guarded_ok_iff, guarded_ok_iff] at learned
  obtain ⟨-, -, -, learned⟩ := learned
  by_cases noSize : k.fragmentSize = 0
  · rw [if_pos noSize] at learned
    cases learned
    rfl
  rw [if_neg noSize, guarded_ok_iff] at learned
  by_cases noFrameSize : k.frameSize = 0
  · rw [if_pos noFrameSize] at learned
    cases learned.2
    rfl
  rw [if_neg noFrameSize, guarded_ok_iff] at learned
  cases learned.2.2
  rfl

theorem learn_frame_keeps (learned : learnFrame k fragment = .ok after) :
    after.dataShardCount = k.dataShardCount ∧ after.parityShardCount = k.parityShardCount ∧ after.fragmentSize = k.fragmentSize ∧
      after.frameSize = k.frameSize ∧ (after.frameHash = k.frameHash ∨ after.frameHash = fragment.frameHash) := by
  rw [learnFrame] at learned
  by_cases noNumber : k.frameNumber = 0
  · rw [if_pos noNumber] at learned
    cases learned
    exact ⟨rfl, rfl, rfl, rfl, .inl rfl⟩
  rw [if_neg noNumber, guarded_ok_iff] at learned
  by_cases noFilter : k.filter.length = 0
  · rw [if_pos noFilter] at learned
    cases learned.2
    exact ⟨rfl, rfl, rfl, rfl, .inl rfl⟩
  rw [if_neg noFilter, guarded_ok_iff] at learned
  by_cases noTimestamp : k.timestamp = 0
  · rw [if_pos noTimestamp] at learned
    cases learned.2.2
    exact ⟨rfl, rfl, rfl, rfl, .inl rfl⟩
  rw [if_neg noTimestamp, guarded_ok_iff] at learned
  by_cases noHash : k.frameHash.length = 0
  · rw [if_pos noHash] at learned
    cases learned.2.2.2
    exact ⟨rfl, rfl, rfl, rfl, .inr rfl⟩
  rw [if_neg noHash, guarded_ok_iff] at learned
  cases learned.2.2.2.2
  exact ⟨rfl, rfl, rfl, rfl, .inl rfl⟩

include known in
theorem learn_compared (learned : learnFragment (common.learned.upTo count) piece.entry = .ok after) : Compared common piece count := by
  rw [learn_fragment_encoded] at learned
  obtain ⟨framed, isFramed, encoded⟩ := (bind_ok_iff _ _ _).mp learned
  obtain ⟨sameData, sameParity, sameSize, sameFrameSize, -⟩ := learn_frame_keeps isFramed
  have frame := learn_frame_settled isFramed
  have encoding := learn_encoding_settled encoded
  rw [sameData, sameParity, sameSize, sameFrameSize] at encoding
  obtain ⟨numberKnown, countsKnown, filterKnown, sizeKnown, timestampKnown, hashKnown⟩ := known
  simp only [Learned.upTo, Carried.learned] at frame encoding
  have dataKnown : goInt common.dataShardCount ≠ 0 := fun zero => countsKnown (go_int_zero.mp zero)
  constructor <;> intro enough
  · rw [if_pos enough] at frame
    exact (frame numberKnown).1
  · rw [if_pos enough, if_pos enough] at encoding
    obtain ⟨isData, isParity, -⟩ := encoding dataKnown
    exact ⟨(go_int_injective _ _).mp isData, (go_int_injective _ _).mp isParity⟩
  · rw [if_pos (show 1 ≤ count by omega), if_pos enough] at frame
    exact ((frame numberKnown).2 filterKnown).1
  · rw [if_pos (show 1 ≤ count by omega), if_pos enough] at encoding
    exact Int.natCast_inj.mp ((encoding dataKnown).2.2 (Int.natCast_ne_zero.mpr sizeKnown)).1
  · rw [if_pos (show 1 ≤ count by omega), if_pos (show 2 ≤ count by omega), if_pos enough] at frame
    exact (((frame numberKnown).2 filterKnown).2 timestampKnown).1
  · intro frameSize
    rw [if_pos (show 1 ≤ count by omega), if_pos (show 2 ≤ count by omega), if_pos enough] at encoding
    have same := ((encoding dataKnown).2.2 (Int.natCast_ne_zero.mpr sizeKnown)).2 fun zero => frameSize (go_int_zero.mp zero)
    exact (go_int_injective _ _).mp same
  · rw [if_pos (show 1 ≤ count by omega), if_pos (show 2 ≤ count by omega), if_pos (show 3 ≤ count by omega), if_pos enough] at frame
    exact (((frame numberKnown).2 filterKnown).2 timestampKnown).2 hashKnown

include known in
theorem learn_agreeing (agrees : piece.carried = common) (learned : learnFragment (common.learned.upTo count) piece.entry = .ok after) :
    after = common.learned.upTo (count + 1) := by
  subst agrees
  obtain ⟨number, counts, filter, dataLength, timestamp, hash⟩ := known
  have dataShards : goInt piece.encoding.fragmentDataShardCount ≠ 0 := fun zero => counts (go_int_zero.mp zero)
  simp only [EncodedFragment.carried] at number filter dataLength timestamp hash
  rw [learn_fragment_encoded] at learned
  by_cases outside : addInt (goInt piece.encoding.fragmentDataShardCount) (goInt piece.encoding.fragmentParityShardCount) ≤
      goInt piece.encoding.fragmentShard <;>
    rcases count with _ | _ | _ | _ | count <;>
    simp [learnFrame, learnEncoding, Learned.upTo, Carried.learned, EncodedFragment.carried, number, filter, dataLength, timestamp, hash,
      dataShards, outside] at learned ⊢
  all_goals first | exact learned.symm | cases learned

variable {common} {piece} in
theorem compared_agrees {count : Nat} (compared : Compared common piece count) (early : AgreesEarly common count piece) :
    piece.carried = common := by
  have number : piece.carried.frameNumber = common.frameNumber := (Nat.lt_or_ge count 1).elim early.number compared.number
  have counts := (Nat.lt_or_ge count 1).elim early.counts compared.counts
  have filter : piece.carried.filter = common.filter := (Nat.lt_or_ge count 2).elim early.filter compared.filter
  have dataLength : piece.carried.dataLength = common.dataLength := (Nat.lt_or_ge count 2).elim early.dataLength compared.dataLength
  have timestamp : piece.carried.timestamp = common.timestamp := (Nat.lt_or_ge count 3).elim early.timestamp compared.timestamp
  have hash : piece.carried.frameHash = common.frameHash := (Nat.lt_or_ge count 4).elim early.hash compared.hash
  have frameSize : piece.carried.frameSize = common.frameSize := by
    by_cases unknown : count < 3 ∨ common.frameSize = 0
    · exact early.frameSize unknown
    · rw [not_or, not_lt] at unknown
      exact compared.frameSize unknown.1 unknown.2
  cases common
  simp only [EncodedFragment.carried, Carried.mk.injEq] at *
  exact ⟨number, filter, timestamp, hash, counts.1, counts.2, frameSize, dataLength⟩

include known in
theorem learned_agree (pieces : List EncodedFragment) (count : Nat) (after : Learned)
    (learned : (pieces.map EncodedFragment.entry).foldlM learnFragment (common.learned.upTo count) = .ok after)
    (early : ∀ i piece, pieces[i]? = some piece → AgreesEarly common (count + i) piece) : ∀ piece ∈ pieces, piece.carried = common := by
  induction pieces generalizing count with
  | nil => exact fun _ member => absurd member List.not_mem_nil
  | cons first tail ih =>
      rw [List.map_cons, List.foldlM_cons] at learned
      obtain ⟨next, isNext, learned⟩ := (bind_ok_iff _ _ _).mp learned
      have agrees := compared_agrees (learn_compared common known first isNext) (early 0 first rfl)
      rw [learn_agreeing common known first agrees isNext] at learned
      have rest := ih (count + 1) learned fun i piece isPiece => by
        have later := early (i + 1) piece isPiece
        rwa [← Nat.add_assoc, Nat.add_right_comm] at later
      exact List.forall_mem_cons.mpr ⟨agrees, rest⟩

theorem learned_drawn (agree : ∀ piece ∈ pieces, piece.carried = common)
    (learned : (pieces.map EncodedFragment.entry).foldlM learnFragment Learned.nothing = .ok after) :
    (after.frameHash = [] ∨ after.frameHash = common.frameHash) ∧
      (after.dataShardCount = 0 ∨ after.dataShardCount = goInt common.dataShardCount) := by
  refine fold_keeps (fun k => (k.frameHash = [] ∨ k.frameHash = common.frameHash) ∧
    (k.dataShardCount = 0 ∨ k.dataShardCount = goInt common.dataShardCount)) learnFragment _ _ after ⟨.inl rfl, .inl rfl⟩ ?_ learned
  intro entry member k next drawn isNext
  obtain ⟨piece, isPiece, isEntry⟩ := List.mem_map.mp member
  have agrees := agree piece isPiece
  rw [← isEntry, learn_fragment_encoded, bind_ok_iff] at isNext
  obtain ⟨framed, isFramed, isNext⟩ := isNext
  obtain ⟨sameData, -, -, -, hash⟩ := learn_frame_keeps isFramed
  obtain ⟨-, -, -, sameHash⟩ := learn_encoding_keeps isNext
  constructor
  · rw [sameHash]
    cases hash with
    | inl kept => rw [kept]; exact drawn.1
    | inr taken => exact .inr (taken.trans (congrArg Carried.frameHash agrees))
  · by_cases unknown : framed.dataShardCount = 0
    · rw [learnEncoding, if_pos unknown] at isNext
      cases isNext
      exact .inr (congrArg (fun c => goInt (Carried.dataShardCount c)) agrees)
    · rw [learn_encoding_counts isNext unknown, sameData]
      exact drawn.2

end Learning

section Placing

theorem place_shard_ok {piece : EncodedFragment} (placed : placeShard table piece.entry = .ok filled) :
    table[piece.shard.toNat]? = some [] ∧ filled = table.set piece.shard.toNat piece.encoding.fragmentData := by
  simp only [placeShard, EncodedFragment.entry, deref, ok_bind, piece.encoded, bind_ok_iff, index_ok_iff, fail_if_ok_iff, not_not] at placed
  obtain ⟨there, isThere, _, vacant, isFilled⟩ := placed
  cases isFilled
  exact ⟨vacant ▸ isThere, rfl⟩

theorem placed_distinct (data : ∀ piece ∈ pieces, piece.encoding.fragmentData ≠ [])
    (placed : (pieces.map EncodedFragment.entry).foldlM placeShard table = .ok filled) :
    (∀ piece ∈ pieces, table[piece.shard.toNat]? = some []) ∧ (pieces.map EncodedFragment.shard).Nodup := by
  induction pieces generalizing table with
  | nil => exact ⟨fun _ member => absurd member List.not_mem_nil, List.nodup_nil⟩
  | cons first tail ih =>
      obtain ⟨firstData, tailData⟩ := List.forall_mem_cons.mp data
      rw [List.map_cons, List.foldlM_cons, bind_ok_iff] at placed
      obtain ⟨next, isNext, placed⟩ := placed
      obtain ⟨vacant, isSet⟩ := place_shard_ok isNext
      obtain ⟨tailVacant, distinct⟩ := ih tailData placed
      have elsewhere : ∀ piece ∈ tail, piece.shard ≠ first.shard := by
        intro piece member same
        have taken := tailVacant piece member
        rw [isSet, same, List.getElem?_set_self (List.getElem?_eq_some_iff.mp vacant).1] at taken
        exact firstData (Option.some.inj taken)
      constructor
      · intro piece member
        rw [List.mem_cons] at member
        cases member with
        | inl isFirst => exact isFirst ▸ vacant
        | inr later =>
            have there := tailVacant piece later
            rwa [isSet, List.getElem?_set_ne fun same => elsewhere piece later (UInt64.toNat_inj.mp same.symm)] at there
      · rw [List.map_cons, List.nodup_cons]
        refine ⟨fun member => ?_, distinct⟩
        obtain ⟨piece, later, same⟩ := List.mem_map.mp member
        exact elsewhere piece later same

theorem placed_empty (noData : ∀ piece ∈ pieces, piece.encoding.fragmentData = [])
    (placed : (pieces.map EncodedFragment.entry).foldlM placeShard (List.replicate count []) = .ok filled) :
    ∀ shard ∈ filled, shard = [] := by
  refine fold_keeps (fun table => ∀ shard ∈ table, shard = []) placeShard _ _ filled (fun _ => List.eq_of_mem_replicate) ?_ placed
  intro entry member table next empty isNext shard isShard
  obtain ⟨piece, isPiece, isEntry⟩ := List.mem_map.mp member
  rw [← isEntry] at isNext
  rw [(place_shard_ok isNext).2, noData piece isPiece] at isShard
  cases List.mem_or_eq_of_mem_set isShard with
  | inl old => exact empty shard old
  | inr placed => exact placed

end Placing

section Assembled

variable (prim : Primitives) (rs : ReedSolomon) (refuses : rs.RefusesEmpty) (proto : FrameMarshaler)
  (fragments : List (Option ClockFrameFragment)) (frame : ClockFrame) (assembled : assembleClockFrame prim rs proto fragments = .ok frame)

theorem assembled_passes (assembled : assembleClockFrame prim rs proto fragments = .ok frame) :
    ∃ k count filled restored bs, fragments.foldlM learnFragment Learned.nothing = .ok k ∧
      fragments.foldlM placeShard (List.replicate count []) = .ok filled ∧ rs.new k.dataShardCount k.parityShardCount = .ok () ∧
      rs.reconstructData k.dataShardCount k.parityShardCount filled = .ok restored ∧ (prim.sha256Sum256 bs).bytes = k.frameHash := by
  simp only [assembleClockFrame, bind_ok_iff, fail_if_ok_iff, returned_ok_iff, not_not] at assembled
  obtain ⟨_, -, k, learned, count, -, filled, placed, _, opened, restored, isRestored, _, -, _, -, _, -, bs, -, _, isHash, -⟩ := assembled
  exact ⟨k, count, filled, restored, bs, learned, placed, opened, isRestored, isHash⟩

include refuses in
theorem assembled_known {common : Carried} (agree : ∀ piece ∈ pieces, piece.carried = common)
    (assembled : assembleClockFrame prim rs proto (pieces.map EncodedFragment.entry) = .ok frame) : common.Known := by
  obtain ⟨k, count, filled, restored, bs, learned, placed, opened, isRestored, isHash⟩ := assembled_passes prim rs proto _ frame assembled
  obtain ⟨hash, dataShards⟩ := learned_drawn common agree learned
  have entries : pieces.map EncodedFragment.entry = (pieces.map EncodedFragment.fragment).map some := by rw [List.map_map]; rfl
  rw [entries] at assembled
  obtain ⟨-, number, filter, timestamp⟩ := assembled_taught common.frameNumber common.filter common.timestamp (by
      intro fragment member
      obtain ⟨piece, isPiece, isFragment⟩ := List.mem_map.mp member
      rw [← isFragment, ← agree piece isPiece]
      exact ⟨rfl, rfl, rfl⟩) assembled
  refine ⟨number, ?_, filter, ?_, timestamp, ?_⟩
  · intro zero
    have noCount : k.dataShardCount = 0 := dataShards.elim id fun drawn => by rw [drawn, zero]; rfl
    rw [noCount] at opened
    exact refuses.counts _ opened
  · intro zero
    refine refuses.shards _ _ filled restored (placed_empty ?_ placed) isRestored
    intro piece member
    have length : piece.encoding.fragmentData.length = common.dataLength := congrArg Carried.dataLength (agree piece member)
    exact List.length_eq_zero_iff.mp (length.trans zero)
  · intro empty
    have noHash : k.frameHash = [] := hash.elim id fun drawn => drawn.trans empty
    have size := (prim.sha256Sum256 bs).size
    rw [isHash, noHash] at size
    cases size

include refuses assembled in
theorem assembled_consistent_iff : ConsistentFragments fragments ↔ EarlyAgree fragments := by
  constructor
  · rintro ⟨pieces, isPieces, ⟨common, agree⟩, -⟩
    subst isPieces
    refine ⟨pieces, common, rfl, assembled_known prim rs refuses proto frame agree assembled, fun i piece isPiece => ?_⟩
    rw [← agree piece (List.mem_of_getElem? isPiece)]
    exact ⟨fun _ => rfl, fun _ => ⟨rfl, rfl⟩, fun _ => rfl, fun _ => rfl, fun _ => rfl, fun _ => rfl, fun _ => rfl⟩
  · rintro ⟨pieces, common, isPieces, known, early⟩
    subst isPieces
    obtain ⟨k, count, filled, restored, bs, learned, placed, -⟩ := assembled_passes prim rs proto _ frame assembled
    have agree := learned_agree common known pieces 0 k learned fun i piece isPiece => by
      rw [Nat.zero_add]
      exact early i piece isPiece
    refine ⟨pieces, rfl, ⟨common, agree⟩, (placed_distinct (fun piece member noData => ?_) placed).2⟩
    apply known.dataLength
    rw [← agree piece member]
    exact List.length_eq_zero_iff.mpr noData

end Assembled

def countedRepetition : ReedSolomon :=
  { repetition with
    new := fun dataShards parityShards =>
      if dataShards < 1 ∨ parityShards < 0 then .error (errorsNew "cannot create Encoder with less than one data shard or less than zero parity shards")
      else .ok () }

theorem counted_repetition_refuses : countedRepetition.RefusesEmpty := by
  constructor
  · intro parityShards opened
    simp [countedRepetition] at opened
  · intro dataShards parityShards shards restored empty returned
    have nothing : (shards.find? fun shard => shard ≠ []) = none := by
      rw [List.find?_eq_none]
      intro shard member
      simp [empty shard member]
    simp only [countedRepetition, repetition, nothing] at returned
    cases returned

def copyEncoding (i : UInt64) : ReedSolomonEncoding := ⟨3, i, 1, 3, [1, 2, 3]⟩

def copyFragment (i : UInt64) : ClockFrameFragment :=
  ⟨List.replicate 32 9, 8, 1, (samplePrimitives.sha256Sum256 [1, 2, 3]).bytes, some (copyEncoding i), none⟩

theorem assembled_consistent_copies :
    assembleClockFrame samplePrimitives countedRepetition fragmentMarshaler ([0, 1, 2, 3].map fun i => some (copyFragment i)) =
        .ok fragmentedFrame ∧
      ConsistentFragments ([0, 1, 2, 3].map fun i => some (copyFragment i)) := by
  have assembled : assembleClockFrame samplePrimitives countedRepetition fragmentMarshaler
      ([0, 1, 2, 3].map fun i => some (copyFragment i)) = .ok fragmentedFrame := by decide +kernel
  refine ⟨assembled, (assembled_consistent_iff samplePrimitives countedRepetition counted_repetition_refuses fragmentMarshaler _
    fragmentedFrame assembled).mpr ?_⟩
  refine ⟨[0, 1, 2, 3].map fun i => ⟨copyFragment i, copyEncoding i, rfl⟩,
    ⟨8, List.replicate 32 9, 1, (samplePrimitives.sha256Sum256 [1, 2, 3]).bytes, 1, 3, 3, 3⟩, by rw [List.map_map]; rfl, ?_, ?_⟩
  · exact ⟨by decide, by decide, by decide, by decide, by decide, by decide +kernel⟩
  · intro i piece isPiece
    obtain ⟨shard, -, isShard⟩ := List.mem_map.mp (List.mem_of_getElem? isPiece)
    rw [← isShard]
    exact ⟨fun _ => rfl, fun _ => ⟨rfl, rfl⟩, fun _ => rfl, fun _ => rfl, fun _ => rfl, fun _ => rfl, fun _ => rfl⟩

def mixedFragments : List (Option ClockFrameFragment) :=
  [some { copyFragment 0 with filter := [1], timestamp := 5, frameHash := [1], reedSolomon := some { copyEncoding 0 with frameSize := 7 } },
    some { copyFragment 1 with timestamp := 6, frameHash := [2], reedSolomon := some { copyEncoding 1 with frameSize := 9 } },
    some { copyFragment 2 with frameHash := [3] }, some (copyFragment 3)]

theorem mixed_fragments_assembled :
    countedRepetition.RefusesEmpty ∧
      assembleClockFrame samplePrimitives countedRepetition fragmentMarshaler mixedFragments = .ok fragmentedFrame ∧
      ¬ ConsistentFragments mixedFragments := by
  refine ⟨counted_repetition_refuses, by decide +kernel, ?_⟩
  rintro ⟨pieces, isPieces, ⟨common, agree⟩, -⟩
  have hashes : ∀ fragment, some fragment ∈ mixedFragments → fragment.frameHash = common.frameHash := by
    intro fragment member
    rw [isPieces] at member
    obtain ⟨piece, isPiece, isFragment⟩ := List.mem_map.mp member
    cases isFragment
    exact congrArg Carried.frameHash (agree piece isPiece)
  have first := hashes _ (List.mem_cons_self)
  have second := hashes _ (List.mem_cons_of_mem _ List.mem_cons_self)
  exact absurd (first.trans second.symm) (by decide)

end Ceremony
