import CeremonyClient.Consensus.Fragmentation

set_option autoImplicit false

namespace Ceremony

open GoSem

variable {count : Nat} {k after : Learned} {fragment : ClockFrameFragment} {encoding : ReedSolomonEncoding}
  {fragments : List ClockFrameFragment} {full : Learned} {chosen : List ClockFrameFragment}

-- What is assumed of the library: any dataShards of the encoded shards restore the data shards.
structure ReedSolomon.Restores (rs : ReedSolomon) (d p : Nat) : Prop where
  opens : rs.new d p = .ok ()
  encodes : ∀ (width : Nat) (shards : List Bytes), 0 < width → shards.length = d + p → (∀ shard ∈ shards, shard.length = width) →
    ∃ full, rs.encode d p shards = .ok full ∧ full.length = d + p ∧ full.take d = shards.take d ∧ ∀ shard ∈ full, shard.length = width
  restores : ∀ (width : Nat) (shards full present : List Bytes) (positions : List Nat), 0 < width → shards.length = d + p →
    (∀ shard ∈ shards, shard.length = width) → rs.encode d p shards = .ok full → present.length = d + p →
    positions.Nodup → d ≤ positions.length → (∀ i ∈ positions, i < d + p ∧ present[i]? = full[i]?) →
    (∀ i, i < d + p → i ∉ positions → present[i]? = some []) →
    ∃ restored, rs.reconstructData d p present = .ok restored ∧ restored.length = d + p ∧ restored.take d = full.take d

section Learning

variable (number : UInt64) (filter : Bytes) (timestamp : Int64)

-- A later field is known only when the earlier ones are, and each took a fragment of its own.
structure Taught (count : Nat) (k : Learned) : Prop where
  ofNumber : k.frameNumber ≠ 0 → 1 ≤ count ∧ k.frameNumber = number
  ofFilter : k.filter ≠ [] → 2 ≤ count ∧ number ≠ 0 ∧ k.filter = filter
  ofTimestamp : k.timestamp ≠ 0 → 3 ≤ count ∧ number ≠ 0 ∧ filter ≠ [] ∧ k.timestamp = timestamp
  ofHash : k.frameHash ≠ [] → 4 ≤ count ∧ number ≠ 0 ∧ filter ≠ [] ∧ timestamp ≠ 0

def Carries (fragment : ClockFrameFragment) : Prop :=
  fragment.frameNumber = number ∧ fragment.filter = filter ∧ fragment.timestamp = timestamp

theorem learn_frame_taught (taught : Taught number filter timestamp count k) (carries : Carries number filter timestamp fragment)
    (learned : learnFrame k fragment = .ok after) : Taught number filter timestamp (count + 1) after := by
  obtain ⟨sameNumber, sameFilter, sameTimestamp⟩ := carries
  have later : Taught number filter timestamp (count + 1) k := by
    constructor
    · exact fun known => ⟨by omega, (taught.ofNumber known).2⟩
    · exact fun known => ⟨by have := (taught.ofFilter known).1; omega, (taught.ofFilter known).2⟩
    · exact fun known => ⟨by have := (taught.ofTimestamp known).1; omega, (taught.ofTimestamp known).2⟩
    · exact fun known => ⟨by have := (taught.ofHash known).1; omega, (taught.ofHash known).2⟩
  rw [learnFrame] at learned
  by_cases noNumber : k.frameNumber = 0
  · rw [if_pos noNumber] at learned
    cases learned
    exact ⟨fun _ => ⟨by omega, sameNumber⟩, later.ofFilter, later.ofTimestamp, later.ofHash⟩
  rw [if_neg noNumber, guarded_ok_iff] at learned
  have isNumber := taught.ofNumber noNumber
  by_cases noFilter : k.filter.length = 0
  · rw [if_pos noFilter] at learned
    cases learned.2
    exact ⟨later.ofNumber, fun _ => ⟨by omega, isNumber.2 ▸ noNumber, sameFilter⟩, later.ofTimestamp, later.ofHash⟩
  rw [if_neg noFilter, guarded_ok_iff] at learned
  have isFilter := taught.ofFilter (fun empty => noFilter (by rw [empty]; rfl))
  have filterKnown : filter ≠ [] := fun empty => noFilter (by rw [isFilter.2.2, empty]; rfl)
  by_cases noTimestamp : k.timestamp = 0
  · rw [if_pos noTimestamp] at learned
    cases learned.2.2
    exact ⟨later.ofNumber, later.ofFilter, fun _ => ⟨by omega, isFilter.2.1, filterKnown, sameTimestamp⟩, later.ofHash⟩
  rw [if_neg noTimestamp, guarded_ok_iff] at learned
  have isTimestamp := taught.ofTimestamp noTimestamp
  by_cases noHash : k.frameHash.length = 0
  · rw [if_pos noHash] at learned
    cases learned.2.2.2
    exact ⟨later.ofNumber, later.ofFilter, later.ofTimestamp,
      fun _ => ⟨by omega, isFilter.2.1, filterKnown, isTimestamp.2.2.2 ▸ noTimestamp⟩⟩
  rw [if_neg noHash, guarded_ok_iff] at learned
  cases learned.2.2.2.2
  exact later

theorem learn_encoding_keeps (learned : learnEncoding k encoding = .ok after) :
    after.frameNumber = k.frameNumber ∧ after.filter = k.filter ∧ after.timestamp = k.timestamp ∧ after.frameHash = k.frameHash := by
  rw [learnEncoding] at learned
  by_cases noCount : k.dataShardCount = 0
  · rw [if_pos noCount] at learned
    cases learned
    exact ⟨rfl, rfl, rfl, rfl⟩
  rw [if_neg noCount, guarded_ok_iff, guarded_ok_iff, guarded_ok_iff] at learned
  obtain ⟨-, -, -, learned⟩ := learned
  by_cases noSize : k.fragmentSize = 0
  · rw [if_pos noSize] at learned
    cases learned
    exact ⟨rfl, rfl, rfl, rfl⟩
  rw [if_neg noSize, guarded_ok_iff] at learned
  by_cases noFrameSize : k.frameSize = 0
  · rw [if_pos noFrameSize] at learned
    cases learned.2
    exact ⟨rfl, rfl, rfl, rfl⟩
  rw [if_neg noFrameSize, guarded_ok_iff] at learned
  cases learned.2.2
  exact ⟨rfl, rfl, rfl, rfl⟩

theorem learn_fragments_taught (carry : ∀ f ∈ fragments, Carries number filter timestamp f)
    (taught : Taught number filter timestamp count k) (learned : (fragments.map some).foldlM learnFragment k = .ok after) :
    Taught number filter timestamp (count + fragments.length) after := by
  induction fragments generalizing count k with
  | nil =>
      cases learned
      exact taught
  | cons fragment tail ih =>
      obtain ⟨carries, rest⟩ := List.forall_mem_cons.mp carry
      rw [List.map_cons, List.foldlM_cons] at learned
      obtain ⟨next, first, learned⟩ := (bind_ok_iff _ _ _).mp learned
      obtain ⟨framed, isFramed, encoded⟩ := (bind_ok_iff _ _ _).mp first
      have framedTaught := learn_frame_taught number filter timestamp taught carries isFramed
      cases encoding : fragment.reedSolomon with
      | none => simp [encoding, raise] at encoded
      | some encoding' =>
          simp only [encoding] at encoded
          obtain ⟨sameNumber, sameFilter, sameTimestamp, sameHash⟩ := learn_encoding_keeps encoded
          have nextTaught : Taught number filter timestamp (count + 1) next := by
            constructor
            · rw [sameNumber]; exact framedTaught.ofNumber
            · rw [sameFilter]; exact framedTaught.ofFilter
            · rw [sameTimestamp]; exact framedTaught.ofTimestamp
            · rw [sameHash]; exact framedTaught.ofHash
          have done := ih rest nextTaught learned
          rwa [Nat.add_assoc, Nat.add_comm 1] at done

theorem nothing_taught : Taught number filter timestamp 0 Learned.nothing := by
  constructor <;> simp [Learned.nothing]

theorem assembled_taught {prim : Primitives} {rs : ReedSolomon} {proto : FrameMarshaler}
    (carry : ∀ f ∈ fragments, Carries number filter timestamp f) {frame : ClockFrame}
    (assembled : assembleClockFrame prim rs proto (fragments.map some) = .ok frame) :
    4 ≤ fragments.length ∧ number ≠ 0 ∧ filter ≠ [] ∧ timestamp ≠ 0 := by
  simp only [assembleClockFrame, bind_ok_iff, fail_if_ok_iff, not_not] at assembled
  obtain ⟨_, -, k, learned, _, -, _, -, _, -, _, -, _, -, _, -, _, -, bs, -, _, isHash, -⟩ := assembled
  have taught := learn_fragments_taught number filter timestamp carry (nothing_taught number filter timestamp) learned
  rw [Nat.zero_add] at taught
  apply taught.ofHash
  rw [← isHash]
  intro empty
  have size := (prim.sha256Sum256 bs).size
  rw [empty] at size
  cases size

end Learning

section Complete

def Learned.upTo (full : Learned) (count : Nat) : Learned where
  frameNumber := if 1 ≤ count then full.frameNumber else 0
  filter := if 2 ≤ count then full.filter else []
  timestamp := if 3 ≤ count then full.timestamp else 0
  frameHash := if 4 ≤ count then full.frameHash else []
  dataShardCount := if 1 ≤ count then full.dataShardCount else 0
  parityShardCount := if 1 ≤ count then full.parityShardCount else 0
  fragmentSize := if 2 ≤ count then full.fragmentSize else 0
  frameSize := if 3 ≤ count then full.frameSize else 0

structure Learned.Complete (full : Learned) : Prop where
  number : full.frameNumber ≠ 0
  filter : full.filter ≠ []
  timestamp : full.timestamp ≠ 0
  hash : full.frameHash ≠ []
  shards : full.dataShardCount ≠ 0
  size : full.fragmentSize ≠ 0
  total : full.frameSize ≠ 0

structure Matches (full : Learned) (fragment : ClockFrameFragment) (encoding : ReedSolomonEncoding) : Prop where
  number : fragment.frameNumber = full.frameNumber
  filter : fragment.filter = full.filter
  timestamp : fragment.timestamp = full.timestamp
  hash : fragment.frameHash = full.frameHash
  encoded : fragment.reedSolomon = some encoding
  shards : goInt encoding.fragmentDataShardCount = full.dataShardCount
  parity : goInt encoding.fragmentParityShardCount = full.parityShardCount
  bound : goInt encoding.fragmentShard < addInt full.dataShardCount full.parityShardCount
  size : encoding.fragmentData.length = full.fragmentSize
  total : goInt encoding.frameSize = full.frameSize

theorem learn_matching (complete : full.Complete) (same : Matches full fragment encoding) (count : Nat) :
    learnFragment (full.upTo count) (some fragment) = .ok (full.upTo (count + 1)) := by
  have inside : ¬ addInt full.dataShardCount full.parityShardCount ≤ goInt encoding.fragmentShard := not_le.mpr same.bound
  rcases count with _ | _ | _ | _ | count <;>
    simp [learnFragment, learnFrame, learnEncoding, Learned.upTo, same.number, same.filter, same.timestamp, same.hash, same.encoded,
      same.shards, same.parity, same.size, same.total, inside, complete.number, complete.filter, complete.timestamp, complete.hash,
      complete.shards, complete.size, complete.total]

theorem learn_all (full : Learned) (complete : full.Complete) (fragments : List ClockFrameFragment)
    (same : ∀ f ∈ fragments, ∃ encoding, Matches full f encoding) (count : Nat) :
    (fragments.map some).foldlM learnFragment (full.upTo count) = .ok (full.upTo (count + fragments.length)) := by
  induction fragments generalizing count with
  | nil => rfl
  | cons fragment tail ih =>
      obtain ⟨⟨encoding, first⟩, rest⟩ := List.forall_mem_cons.mp same
      rw [List.map_cons, List.foldlM_cons, learn_matching complete first count, ok_bind, ih rest (count + 1),
        List.length_cons, Nat.add_assoc, Nat.add_comm 1]

theorem up_to_full (enough : 4 ≤ count) : full.upTo count = full := by
  simp [Learned.upTo, enough, show 1 ≤ count by omega, show 2 ≤ count by omega, show 3 ≤ count by omega]

end Complete

section Placing

theorem place_all (fragments : List ClockFrameFragment) (place : ClockFrameFragment → Nat) (full table : List Bytes)
    (encoded : ∀ f ∈ fragments, ∃ encoding, f.reedSolomon = some encoding ∧ encoding.fragmentShard.toNat = place f ∧
      full[place f]? = some encoding.fragmentData)
    (distinct : (fragments.map place).Nodup) (sized : table.length = full.length)
    (vacant : ∀ f ∈ fragments, table[place f]? = some []) :
    ∃ filled, (fragments.map some).foldlM placeShard table = .ok filled ∧ filled.length = full.length ∧
      (∀ i ∈ fragments.map place, filled[i]? = full[i]?) ∧ ∀ i, i ∉ fragments.map place → filled[i]? = table[i]? := by
  induction fragments generalizing table with
  | nil => exact ⟨table, rfl, sized, by simp, fun _ _ => rfl⟩
  | cons fragment tail ih =>
      obtain ⟨⟨encoding, isEncoding, isPlace, isShard⟩, tailEncoded⟩ := List.forall_mem_cons.mp encoded
      obtain ⟨empty, tailVacant⟩ := List.forall_mem_cons.mp vacant
      obtain ⟨fresh, tailDistinct⟩ := List.nodup_cons.mp distinct
      have step : placeShard table (some fragment) = .ok (table.set (place fragment) encoding.fragmentData) := by
        simp [placeShard, isEncoding, isPlace, index, empty, failIf, pure, Except.pure]
      have elsewhere : ∀ f ∈ tail, (table.set (place fragment) encoding.fragmentData)[place f]? = some [] := by
        intro f member
        rw [List.getElem?_set_ne, tailVacant f member]
        intro same
        exact fresh (same ▸ List.mem_map_of_mem member)
      obtain ⟨filled, done, length, inside, outside⟩ := ih (table.set (place fragment) encoding.fragmentData) tailEncoded tailDistinct
        (by rw [List.length_set, sized]) elsewhere
      refine ⟨filled, by rw [List.map_cons, List.foldlM_cons, step, ok_bind, done], length, ?_, ?_⟩
      · intro i member
        rw [List.map_cons, List.mem_cons] at member
        rcases member with isFirst | later
        · rw [isFirst, outside _ fresh, List.getElem?_set_self (by
            rw [sized]
            exact (List.getElem?_eq_some_iff.mp isShard).1), isShard]
        · exact inside i later
      · intro i absent
        rw [List.map_cons, List.mem_cons, not_or] at absent
        rw [outside i absent.2, List.getElem?_set_ne (Ne.symm absent.1)]

end Placing

theorem go_int_of_nat (value : Nat) (small : value < 2 ^ 63) : goInt (UInt64.ofNat value) = value := by
  have fits : value < 2 ^ 64 := by omega
  have same : (UInt64.ofNat value).toNat = value := UInt64.toNat_ofNat_of_lt' fits
  have bits : goInt (UInt64.ofNat value) = (UInt64.ofNat value).toBitVec.toInt := rfl
  rw [bits, BitVec.toInt_eq_toNat_of_lt]
  · rw [UInt64.toNat_toBitVec, same]
  · rw [UInt64.toNat_toBitVec, same]
    omega

theorem add_int_small (left right : Nat) (small : left + right ≤ 256) : addInt left right = (left + right : Nat) := by
  rw [addInt, ← Nat.cast_add, Int.bmod_eq_of_le] <;> omega

theorem shard_size_covers (length dataShardCount : Nat) (positive : 0 < dataShardCount) :
    length ≤ dataShardCount * shardSize length dataShardCount := by
  have rounded : ∀ share : Nat, share ≤ if share % 64 ≠ 0 then share + (64 - share % 64) else share := by
    intro share
    split <;> omega
  have whole := Nat.div_add_mod length dataShardCount
  have rest := Nat.mod_lt length positive
  apply le_trans _ (Nat.mul_le_mul_left dataShardCount (rounded _))
  split
  · rw [Nat.mul_add, Nat.mul_one]
    omega
  · rw [Nat.add_zero]
    omega

def shardIndex (fragment : ClockFrameFragment) : Nat :=
  match fragment.reedSolomon with
  | some encoding => encoding.fragmentShard.toNat
  | none => 0

section RoundTrip

variable (prim : Primitives) (rs : ReedSolomon) (proto : FrameMarshaler) (d p : Nat) (frame : ClockFrame) (bs : Bytes)
  (dataShards : 1 ≤ d) (few : d + p ≤ 256) (correct : rs.Restores d p)
  (encoded : proto.marshal frame = .ok bs) (decoded : proto.unmarshal bs = .ok frame) (nonempty : bs ≠ []) (sized : bs.length < 2 ^ 63)

def fragmentsOf (full : List Bytes) : List ClockFrameFragment :=
  full.mapIdx (fragmentOf ⟨d, p⟩ frame bs.length (prim.sha256Sum256 bs).bytes)

def dataAndParity : List Bytes :=
  cut (shardSize bs.length d) d bs ++ List.replicate p (List.replicate (shardSize bs.length d) 0)

include dataShards nonempty in
theorem shard_size_positive : 0 < shardSize bs.length d := by
  have covers := shard_size_covers bs.length d dataShards
  have positive := List.length_pos_iff.mpr nonempty
  by_contra zero
  rw [Nat.eq_zero_of_not_pos zero, Nat.mul_zero] at covers
  omega

theorem data_and_parity_length : (dataAndParity d p bs).length = d + p := by
  simp [dataAndParity, cut_length]

theorem data_and_parity_sizes : ∀ shard ∈ dataAndParity d p bs, shard.length = shardSize bs.length d := by
  intro shard member
  rcases List.mem_append.mp member with isData | isParity
  · exact cut_sizes shard isData
  · rw [List.eq_of_mem_replicate isParity, List.length_replicate]

include dataShards correct encoded nonempty in
theorem split_returns : ∃ full, rs.encode d p (dataAndParity d p bs) = .ok full ∧ full.length = d + p ∧
    full.take d = cut (shardSize bs.length d) d bs ∧ (∀ shard ∈ full, shard.length = shardSize bs.length d) ∧
    splitClockFrame prim rs proto ⟨d, p⟩ frame = .ok (fragmentsOf prim d p frame bs full) := by
  have positive := shard_size_positive d bs dataShards nonempty
  obtain ⟨full, isFull, length, kept, sizes⟩ := correct.encodes _ _ positive (data_and_parity_length d p bs) (data_and_parity_sizes d p bs)
  have isData : (dataAndParity d p bs).take d = cut (shardSize bs.length d) d bs := List.take_left' cut_length
  refine ⟨full, isFull, length, kept.trans isData, sizes, ?_⟩
  rw [dataAndParity] at isFull
  simp [splitClockFrame, encoded, returned, failIf, Nat.pos_iff_ne_zero.mp positive, correct.opens, isFull, fragmentsOf,
    pure, Except.pure]

theorem fragments_of_member (full : List Bytes) (f : ClockFrameFragment) (member : f ∈ fragmentsOf prim d p frame bs full) :
    ∃ i shard, full[i]? = some shard ∧ f = fragmentOf ⟨d, p⟩ frame bs.length (prim.sha256Sum256 bs).bytes i shard := by
  obtain ⟨i, inside, isFragment⟩ := List.mem_mapIdx.mp member
  exact ⟨i, full[i], List.getElem?_eq_getElem inside, isFragment.symm⟩

theorem shard_index_of (r : ReedSolomonClockFrameSplitter) (frameSize i : Nat) (h shard : Bytes) (small : i < 2 ^ 63) :
    shardIndex (fragmentOf r frame frameSize h i shard) = i := by
  have fits : i < 2 ^ 64 := by omega
  exact UInt64.toNat_ofNat_of_lt' fits

include few in
theorem shard_index_distinct (full : List Bytes) (length : full.length = d + p) (chosen : List ClockFrameFragment)
    (subset : ∀ f ∈ chosen, f ∈ fragmentsOf prim d p frame bs full) (distinct : chosen.Nodup) :
    (chosen.map shardIndex).Nodup := by
  apply List.Nodup.map_on _ distinct
  intro left leftMember right rightMember same
  obtain ⟨i, shard, isShard, isLeft⟩ := fragments_of_member prim d p frame bs full left (subset left leftMember)
  obtain ⟨j, other, isOther, isRight⟩ := fragments_of_member prim d p frame bs full right (subset right rightMember)
  have iSmall := (List.getElem?_eq_some_iff.mp isShard).1
  have jSmall := (List.getElem?_eq_some_iff.mp isOther).1
  rw [isLeft, isRight, shard_index_of _ _ _ _ _ _ (by omega), shard_index_of _ _ _ _ _ _ (by omega)] at same
  subst same
  rw [isShard] at isOther
  cases isOther
  rw [isLeft, isRight]

def learnedFrame : Learned :=
  ⟨frame.frameNumber, frame.filter, frame.timestamp, (prim.sha256Sum256 bs).bytes, d, p, shardSize bs.length d, bs.length⟩

include few sized in
theorem fragment_matches (full : List Bytes) (length : full.length = d + p)
    (sizes : ∀ shard ∈ full, shard.length = shardSize bs.length d) (i : Nat) (shard : Bytes) (isShard : full[i]? = some shard) :
    ∃ encoding, Matches (learnedFrame prim d p frame bs)
      (fragmentOf ⟨d, p⟩ frame bs.length (prim.sha256Sum256 bs).bytes i shard) encoding := by
  have small := (List.getElem?_eq_some_iff.mp isShard).1
  refine ⟨_, rfl, rfl, rfl, rfl, rfl, go_int_of_nat d (by omega), go_int_of_nat p (by omega), ?_, ?_, go_int_of_nat _ sized⟩
  · simp only [learnedFrame]
    rw [add_int_small d p few, go_int_of_nat i (by omega)]
    omega
  · exact congrArg Nat.cast (sizes shard (List.mem_of_getElem? isShard))

include dataShards nonempty in
theorem learned_frame_complete (known : frame.frameNumber ≠ 0 ∧ frame.filter ≠ [] ∧ frame.timestamp ≠ 0) :
    (learnedFrame prim d p frame bs).Complete := by
  obtain ⟨number, filter, timestamp⟩ := known
  have positive := shard_size_positive d bs dataShards nonempty
  have some_bytes := List.length_pos_iff.mpr nonempty
  refine ⟨number, filter, timestamp, ?_, ?_, ?_, ?_⟩
  · intro empty
    have size := (prim.sha256Sum256 bs).size
    rw [show (prim.sha256Sum256 bs).bytes = [] from empty] at size
    cases size
  all_goals
    simp only [learnedFrame]
    omega

include dataShards few nonempty sized in
theorem chosen_learned {full : List Bytes} (length : full.length = d + p) (sizes : ∀ shard ∈ full, shard.length = shardSize bs.length d)
    (subset : ∀ f ∈ chosen, f ∈ fragmentsOf prim d p frame bs full)
    (known : 4 ≤ chosen.length ∧ frame.frameNumber ≠ 0 ∧ frame.filter ≠ [] ∧ frame.timestamp ≠ 0) :
    (chosen.map some).foldlM learnFragment Learned.nothing = .ok (learnedFrame prim d p frame bs) := by
  have complete := learned_frame_complete prim d p frame bs dataShards nonempty known.2
  have all := learn_all (learnedFrame prim d p frame bs) complete chosen (fun f member => by
    obtain ⟨i, shard, isShard, isFragment⟩ := fragments_of_member prim d p frame bs full f (subset f member)
    rw [isFragment]
    exact fragment_matches prim d p frame bs few sized full length sizes i shard isShard) 0
  rwa [Nat.zero_add, up_to_full known.1] at all

include dataShards few correct nonempty in
theorem chosen_restored (chosen : List ClockFrameFragment) (full : List Bytes) (isFull : rs.encode d p (dataAndParity d p bs) = .ok full)
    (length : full.length = d + p) (subset : ∀ f ∈ chosen, f ∈ fragmentsOf prim d p frame bs full) (distinct : chosen.Nodup)
    (enough : d ≤ chosen.length) :
    ∃ filled restored, (chosen.map some).foldlM placeShard (List.replicate (d + p) []) = .ok filled ∧
      rs.reconstructData d p filled = .ok restored ∧ restored.length = d + p ∧ restored.take d = full.take d := by
  have places : ∀ f ∈ chosen, ∃ encoding, f.reedSolomon = some encoding ∧ encoding.fragmentShard.toNat = shardIndex f ∧
      full[shardIndex f]? = some encoding.fragmentData := by
    intro f member
    obtain ⟨i, shard, isShard, isFragment⟩ := fragments_of_member prim d p frame bs full f (subset f member)
    have small := (List.getElem?_eq_some_iff.mp isShard).1
    have isPlace := shard_index_of frame ⟨d, p⟩ bs.length i (prim.sha256Sum256 bs).bytes shard (by omega)
    rw [← isFragment] at isPlace
    rw [isPlace]
    subst isFragment
    exact ⟨_, rfl, isPlace, isShard⟩
  have inside : ∀ f ∈ chosen, shardIndex f < d + p := by
    intro f member
    obtain ⟨encoding, -, -, isShard⟩ := places f member
    rw [← length]
    exact (List.getElem?_eq_some_iff.mp isShard).1
  have distinctPlaces := shard_index_distinct prim d p frame bs few full length chosen subset distinct
  obtain ⟨filled, isFilled, filledLength, atPlaces, elsewhere⟩ := place_all chosen shardIndex full (List.replicate (d + p) [])
    places distinctPlaces (by rw [List.length_replicate, length]) (fun f member => by
      rw [List.getElem?_replicate, if_pos (inside f member)])
  have present : ∀ i ∈ chosen.map shardIndex, i < d + p ∧ filled[i]? = full[i]? := by
    intro i member
    obtain ⟨f, isChosen, isPlace⟩ := List.mem_map.mp member
    exact ⟨isPlace ▸ inside f isChosen, atPlaces i member⟩
  have missing : ∀ i, i < d + p → i ∉ chosen.map shardIndex → filled[i]? = some [] := by
    intro i small absent
    rw [elsewhere i absent, List.getElem?_replicate, if_pos small]
  obtain ⟨restored, isRestored, restoredLength, restoredData⟩ := correct.restores _ _ full filled (chosen.map shardIndex)
    (shard_size_positive d bs dataShards nonempty) (data_and_parity_length d p bs) (data_and_parity_sizes d p bs) isFull
    (by rw [filledLength, length]) distinctPlaces (by rw [List.length_map]; exact enough) present missing
  exact ⟨filled, restored, isFilled, isRestored, restoredLength, restoredData⟩

theorem nat_length_cast {length : Nat} : natLength (length : Int) = .ok length := by
  rw [natLength, if_pos (Int.natCast_nonneg length), Int.toNat_natCast]

include dataShards in
theorem shards_joined (restored full : List Bytes) (restoredLength : restored.length = d + p)
    (restoredData : restored.take d = full.take d) (kept : full.take d = cut (shardSize bs.length d) d bs) :
    slice restored 0 d = .ok (cut (shardSize bs.length d) d bs) ∧
      slice (cut (shardSize bs.length d) d bs).flatten 0 bs.length = .ok bs := by
  have joined := cut_flatten_take (shardSize bs.length d) d bs (shard_size_covers bs.length d dataShards)
  have long : bs.length ≤ (cut (shardSize bs.length d) d bs).flatten.length := by
    have cutLength := congrArg List.length joined
    rw [List.length_take] at cutLength
    omega
  constructor
  · rw [slice, if_pos ⟨Nat.zero_le _, by omega⟩, List.drop_zero, Nat.sub_zero, restoredData, kept]
  · rw [slice, if_pos ⟨Nat.zero_le _, long⟩, List.drop_zero, Nat.sub_zero, joined]

include dataShards few correct decoded nonempty sized in
theorem assembles {full : List Bytes} (isFull : rs.encode d p (dataAndParity d p bs) = .ok full) (length : full.length = d + p)
    (kept : full.take d = cut (shardSize bs.length d) d bs) (sizes : ∀ shard ∈ full, shard.length = shardSize bs.length d)
    (subset : ∀ f ∈ chosen, f ∈ fragmentsOf prim d p frame bs full) (distinct : chosen.Nodup) (enough : d ≤ chosen.length)
    (known : 4 ≤ chosen.length ∧ frame.frameNumber ≠ 0 ∧ frame.filter ≠ [] ∧ frame.timestamp ≠ 0) :
    assembleClockFrame prim rs proto (chosen.map some) = .ok frame := by
  have learned := chosen_learned prim d p frame bs dataShards few nonempty sized length sizes subset known
  obtain ⟨filled, restored, isFilled, isRestored, restoredLength, restoredData⟩ :=
    chosen_restored prim rs d p frame bs dataShards few correct nonempty chosen full isFull length subset distinct enough
  obtain ⟨isData, isBytes⟩ := shards_joined d p bs dataShards restored full restoredLength restoredData kept
  have someFragments : (chosen.map some).length ≠ 0 := by
    rw [List.length_map]
    omega
  have count : natLength (addInt d p) = .ok (d + p) := by rw [add_int_small d p few, nat_length_cast]
  simp only [assembleClockFrame, bind_ok_iff, fail_if_ok_iff, returned_ok_iff, not_not]
  exact ⟨(), someFragments, _, learned, d + p, count, filled, isFilled, (), correct.opens, restored, isRestored, d, nat_length_cast,
    _, isData, bs.length, nat_length_cast, bs, isBytes, (), rfl, decoded⟩

include dataShards few correct encoded decoded nonempty sized in
theorem fragmentation_round_trip_iff :
    ∃ fragments, splitClockFrame prim rs proto ⟨d, p⟩ frame = .ok fragments ∧
      ∀ chosen : List ClockFrameFragment, (∀ f ∈ chosen, f ∈ fragments) → chosen.Nodup → d ≤ chosen.length →
        (assembleClockFrame prim rs proto (chosen.map some) = .ok frame ↔
          4 ≤ chosen.length ∧ frame.frameNumber ≠ 0 ∧ frame.filter ≠ [] ∧ frame.timestamp ≠ 0) := by
  obtain ⟨full, isFull, length, kept, sizes, split⟩ := split_returns prim rs proto d p frame bs dataShards correct encoded nonempty
  refine ⟨_, split, fun chosen subset distinct enough => ⟨fun assembled => ?_, fun known => ?_⟩⟩
  · apply assembled_taught frame.frameNumber frame.filter frame.timestamp _ assembled
    intro f member
    obtain ⟨i, shard, -, isFragment⟩ := fragments_of_member prim d p frame bs full f (subset f member)
    rw [isFragment]
    exact ⟨rfl, rfl, rfl⟩
  · exact assembles prim rs proto d p frame bs dataShards few correct decoded nonempty sized isFull length kept
      sizes subset distinct enough known

end RoundTrip

-- With one data shard the parity shards are copies of it.
def repetition : ReedSolomon where
  new _ _ := .ok ()
  encode d p shards := .ok (List.replicate (d + p) (shards.headD []))
  reconstructData _ _ shards :=
    match shards.find? fun shard => shard ≠ [] with
    | some shard => .ok (List.replicate shards.length shard)
    | none => .error (errorsNew "too few shards given")

theorem repetition_restores {p : Nat} : repetition.Restores 1 p := by
  constructor
  · rfl
  · intro width shards positive length sizes
    cases shards with
    | nil => exact absurd length (by rw [List.length_nil]; omega)
    | cons first rest =>
        refine ⟨_, rfl, List.length_replicate, ?_, ?_⟩
        · simp [Nat.add_comm 1 p, List.replicate_succ]
        · intro shard member
          rw [List.eq_of_mem_replicate member]
          exact sizes first List.mem_cons_self
  · intro width shards full present positions positive length sizes isFull presentLength distinct enough inside outside
    cases shards with
    | nil => exact absurd length (by rw [List.length_nil]; omega)
    | cons first rest =>
        cases isFull
        have nonempty : first ≠ [] := by
          intro empty
          have size := sizes first List.mem_cons_self
          rw [empty] at size
          exact absurd size (Nat.ne_of_lt positive)
        have atPosition : ∀ i ∈ positions, present[i]? = some first := by
          intro i member
          obtain ⟨small, same⟩ := inside i member
          rw [same, List.getElem?_replicate, if_pos small]
          rfl
        obtain ⟨i, member⟩ : ∃ i, i ∈ positions := List.exists_mem_of_length_pos enough
        cases found : present.find? fun shard => shard ≠ [] with
        | none =>
            have none_left := List.find?_eq_none.mp found first (List.mem_of_getElem? (atPosition i member))
            simp [nonempty] at none_left
        | some shard =>
            have isFirst : shard = first := by
              obtain ⟨j, small, isShard⟩ := List.mem_iff_getElem.mp (List.mem_of_find?_eq_some found)
              have atJ : present[j]? = some shard := by rw [List.getElem?_eq_getElem small, isShard]
              by_cases chosen : j ∈ positions
              · exact Option.some.inj (atJ.symm.trans (atPosition j chosen))
              · have empty := List.find?_some found
                rw [outside j (by omega) chosen] at atJ
                simp [← Option.some.inj atJ] at empty
            refine ⟨List.replicate present.length shard, by simp only [repetition, found], by rw [List.length_replicate, presentLength], ?_⟩
            rw [presentLength, isFirst]
            rfl

def fragmentedFrame : ClockFrame := ⟨List.replicate 32 9, 8, 1, 10000, [], [], [], [], none, []⟩

def fragmentMarshaler : FrameMarshaler := ⟨fun _ => .ok [1, 2, 3], fun _ => .ok fragmentedFrame⟩

theorem fragmentation_round_trip_four :
    ∃ fragments, splitClockFrame samplePrimitives repetition fragmentMarshaler ⟨1, 3⟩ fragmentedFrame = .ok fragments ∧
      assembleClockFrame samplePrimitives repetition fragmentMarshaler (fragments.map some) = .ok fragmentedFrame := by
  obtain ⟨fragments, split, roundTrip⟩ := fragmentation_round_trip_iff samplePrimitives repetition fragmentMarshaler 1 3 fragmentedFrame
    [1, 2, 3] (by decide) (by decide) repetition_restores rfl rfl (by decide) (by decide)
  have shape : returnsWith (splitClockFrame samplePrimitives repetition fragmentMarshaler ⟨1, 3⟩ fragmentedFrame)
      (fun fragments => decide (fragments.Nodup ∧ fragments.length = 4)) = true := by decide +kernel
  obtain ⟨others, isOthers, shape⟩ := (returns_with_iff _ _).mp shape
  rw [split] at isOthers
  cases isOthers
  obtain ⟨distinct, length⟩ := of_decide_eq_true shape
  refine ⟨fragments, split, (roundTrip fragments (fun _ member => member) distinct (by omega)).mpr ⟨by omega, ?_⟩⟩
  decide

theorem three_fragments_mismatch :
    repetition.Restores 1 3 ∧
    (do
      let fragments ← splitClockFrame samplePrimitives repetition fragmentMarshaler ⟨1, 3⟩ fragmentedFrame
      assembleClockFrame samplePrimitives repetition fragmentMarshaler ((fragments.take 3).map some)) =
        raise (errorsNew "frame hash mismatch") := by
  exact ⟨repetition_restores, by decide +kernel⟩

end Ceremony
