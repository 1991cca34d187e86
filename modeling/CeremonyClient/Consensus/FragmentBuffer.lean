import CeremonyClient.Consensus.Reassembly
import CeremonyClient.Lib.Runs
import CeremonyClient.Lib.State

set_option autoImplicit false

namespace Ceremony

open GoSem

variable {i : Nat} {shard : Bytes} {j : Nat} {front : List ClockFrameFragment} {first fragment : ClockFrameFragment}
  {rest : List ClockFrameFragment} {shards : List Bytes} {k m width : Nat} {data : List Bytes} {d : Nat} {positions : List Nat}
  {present : List Bytes}

structure ReedSolomonClockFrameFragmentBuffer where
  fragments : List ClockFrameFragment
  haveShards : List UInt64

def newReedSolomonClockFrameFragmentBuffer : ReedSolomonClockFrameFragmentBuffer := ⟨[], []⟩

-- The first fragment that is held is the template for the others, and the first of all fragments
-- is its own template.
def ReedSolomonClockFrameFragmentBuffer.template (r : ReedSolomonClockFrameFragmentBuffer) (fragment : ClockFrameFragment)
    (fragmentRS : ReedSolomonEncoding) : Go ReedSolomonEncoding :=
  match r.fragments with
  | [] => .ok fragmentRS
  | template :: _ => do
      failIf (template.filter ≠ fragment.filter) (errorsNew "inconsistent filter")
      failIf (template.frameNumber ≠ fragment.frameNumber) (errorsNew "inconsistent frame number")
      failIf (template.timestamp ≠ fragment.timestamp) (errorsNew "inconsistent timestamp")
      failIf (template.frameHash ≠ fragment.frameHash) (errorsNew "inconsistent frame hash")
      let templateRS ← deref template.reedSolomon
      failIf (templateRS.frameSize ≠ fragmentRS.frameSize) (errorsNew "inconsistent frame size")
      failIf (templateRS.fragmentDataShardCount + templateRS.fragmentParityShardCount ≤ fragmentRS.fragmentShard)
        (errorsNew "shard out of bounds")
      failIf (fragmentRS.fragmentShard ∈ r.haveShards) (errorsNew "duplicate shard")
      failIf (templateRS.fragmentDataShardCount ≠ fragmentRS.fragmentDataShardCount) (errorsNew "inconsistent data shard count")
      failIf (templateRS.fragmentParityShardCount ≠ fragmentRS.fragmentParityShardCount) (errorsNew "inconsistent parity shard count")
      failIf (templateRS.fragmentData.length ≠ fragmentRS.fragmentData.length) (errorsNew "inconsistent fragment size")
      return templateRS

-- The shard recorded as held is the template's. After an attempt to assemble nothing is held.
def accumulateReedSolomon (prim : Primitives) (rs : ReedSolomon) (proto : FrameMarshaler) (fragment : Option ClockFrameFragment) :
    StateGo ReedSolomonClockFrameFragmentBuffer (Option ClockFrame) :=
  match fragment with
  | none => call (raise (errorsNew "fragment is nil"))
  | some fragment =>
      match fragment.reedSolomon with
      | none => call (raise (errorsNew "fragment is not ReedSolomon"))
      | some fragmentRS => do
          let r ← readState
          let templateRS ← call (r.template fragment fragmentRS)
          let fragments := r.fragments ++ [fragment]
          modifyState fun r => ⟨fragments, templateRS.fragmentShard :: r.haveShards⟩
          if (fragments.length : Int) < goInt templateRS.fragmentDataShardCount then pure none
          else do
            let assembled ← call (attempt (assembleClockFrame prim rs proto (fragments.map some)))
            modifyState fun _ => ⟨[], []⟩
            let frame ← call (returned assembled)
            pure (some frame)

section Delivery

variable (prim : Primitives) (rs : ReedSolomon) (proto : FrameMarshaler) (d p : Nat) (frame : ClockFrame) (bs : Bytes)

def afterFragments (front : List ClockFrameFragment) : ReedSolomonClockFrameFragmentBuffer :=
  runActions (fun fragment r => ((accumulateReedSolomon prim rs proto (some fragment)).on r).2) front newReedSolomonClockFrameFragmentBuffer

-- What is wanted: the frame at the d-th distinct shard, nothing before it, no loss at a repeated one.
structure Delivered (front : List ClockFrameFragment) (fragment : ClockFrameFragment) (outcome : Go (Option ClockFrame))
    (held after : List ClockFrameFragment) : Prop where
  assembled : fragment ∉ front → front.dedup.length + 1 = d → outcome = .ok (some frame)
  nothing : (front ++ [fragment]).dedup.length < d → ∀ other, outcome ≠ .ok (some other)
  rejected : (front ++ [fragment]).dedup.length < d → fragment ∈ front →
    (∃ cause, outcome = .error (.err cause)) ∧ ∀ g ∈ held, g ∈ after

def AllDelivered (deliveries : List ClockFrameFragment) : Prop :=
  ∀ front fragment rest, deliveries = front ++ fragment :: rest →
    Delivered d frame front fragment ((accumulateReedSolomon prim rs proto (some fragment)).on (afterFragments prim rs proto front)).1
      (afterFragments prim rs proto front).fragments (afterFragments prim rs proto (front ++ [fragment])).fragments

def OnlyFirstRepeated (deliveries : List ClockFrameFragment) : Prop :=
  ∀ front fragment rest, deliveries = front ++ fragment :: rest → (front ++ [fragment]).dedup.length < d →
    fragment ∈ front → front.head? = some fragment

end Delivery

section Accumulating

variable (prim : Primitives) (rs : ReedSolomon) (proto : FrameMarshaler) (r : ReedSolomonClockFrameFragmentBuffer)
  (fragment : ClockFrameFragment) (fragmentRS templateRS : ReedSolomonEncoding) (encoded : fragment.reedSolomon = some fragmentRS)

include encoded in
theorem accumulate_refused {fault : Fault} (refused : r.template fragment fragmentRS = .error fault) :
    (accumulateReedSolomon prim rs proto (some fragment)).on r = (.error fault, r) := by
  simp only [accumulateReedSolomon, encoded, on_bind, on_read_state, on_call, refused]

section

variable (accepted : r.template fragment fragmentRS = .ok templateRS)

include accepted

include encoded in
theorem accumulate_waits
    (few : ((r.fragments ++ [fragment]).length : Int) < goInt templateRS.fragmentDataShardCount) :
    (accumulateReedSolomon prim rs proto (some fragment)).on r =
      (.ok none, ⟨r.fragments ++ [fragment], templateRS.fragmentShard :: r.haveShards⟩) := by
  simp only [accumulateReedSolomon, encoded, on_bind, on_read_state, on_call, accepted, on_modify_state, if_pos few, on_pure]

include encoded in
theorem accumulate_assembles
    (enough : ¬ ((r.fragments ++ [fragment]).length : Int) < goInt templateRS.fragmentDataShardCount) {frame : ClockFrame}
    (assembled : assembleClockFrame prim rs proto ((r.fragments ++ [fragment]).map some) = .ok frame) :
    ((accumulateReedSolomon prim rs proto (some fragment)).on r).1 = .ok (some frame) := by
  simp only [accumulateReedSolomon, encoded, on_bind, on_read_state, on_call, accepted, on_modify_state, if_neg enough, assembled,
    attempt, returned, on_pure]

-- An attempt to assemble that fails with an error has thrown away what was held.
include encoded in
theorem accumulate_forgets
    (enough : ¬ ((r.fragments ++ [fragment]).length : Int) < goInt templateRS.fragmentDataShardCount) {cause : GoError}
    (failed : ((accumulateReedSolomon prim rs proto (some fragment)).on r).1 = .error (.err cause)) :
    ((accumulateReedSolomon prim rs proto (some fragment)).on r).2.fragments = [] := by
  simp only [accumulateReedSolomon, encoded, on_bind, on_read_state, on_call, accepted, on_modify_state, if_neg enough] at failed ⊢
  generalize assembleClockFrame prim rs proto ((r.fragments ++ [fragment]).map some) = ran at failed ⊢
  cases ran with
  | ok frame => rfl
  | error fault =>
      cases fault with
      | err other => rfl
      | panic => cases failed
      | outOfFuel => cases failed

end

end Accumulating

variable {r : ReedSolomonClockFrameFragmentBuffer}

section Splitting

variable (prim : Primitives) (rs : ReedSolomon) (proto : FrameMarshaler) (d p : Nat) (frame : ClockFrame) (bs : Bytes)
  (few : d + p ≤ 256) (full : List Bytes) (length : full.length = d + p)
  (sizes : ∀ shard ∈ full, shard.length = shardSize bs.length d)

def encodingAt (i : Nat) (shard : Bytes) : ReedSolomonEncoding :=
  ⟨UInt64.ofNat bs.length, UInt64.ofNat i, UInt64.ofNat d, UInt64.ofNat p, shard⟩

include few length in
theorem shard_small (isShard : full[i]? = some shard) : i < d + p ∧ (UInt64.ofNat i).toNat = i := by
  have inside := (List.getElem?_eq_some_iff.mp isShard).1
  have small : i < 2 ^ 64 := by omega
  exact ⟨by omega, UInt64.toNat_ofNat_of_lt' small⟩

include few length sizes in
theorem template_of_same_frame {other : Bytes} (isShard : full[i]? = some shard) (isOther : full[j]? = some other)
    {tail : List ClockFrameFragment} (held : r.fragments = fragmentOf ⟨d, p⟩ frame bs.length (prim.sha256Sum256 bs).bytes i shard :: tail) :
    r.template (fragmentOf ⟨d, p⟩ frame bs.length (prim.sha256Sum256 bs).bytes j other) (encodingAt d p bs j other) =
      if UInt64.ofNat j ∈ r.haveShards then raise (errorsNew "duplicate shard") else .ok (encodingAt d p bs i shard) := by
  have total : (UInt64.ofNat d + UInt64.ofNat p).toNat = d + p := by
    rw [← UInt64.ofNat_add]
    exact UInt64.toNat_ofNat_of_lt' (show d + p < 2 ^ 64 by omega)
  have inside : ¬ UInt64.ofNat d + UInt64.ofNat p ≤ UInt64.ofNat j := by
    obtain ⟨small, same⟩ := shard_small d p few full length isOther
    rw [UInt64.le_iff_toNat_le, total, same]
    omega
  have sameSize : shard.length = other.length := by
    rw [sizes shard (List.mem_of_getElem? isShard), sizes other (List.mem_of_getElem? isOther)]
  by_cases recorded : UInt64.ofNat j ∈ r.haveShards
  · simp [ReedSolomonClockFrameFragmentBuffer.template, held, fragmentOf, encodingAt, failIf, inside, recorded]
  · simp [ReedSolomonClockFrameFragmentBuffer.template, held, fragmentOf, encodingAt, failIf, inside, recorded, sameSize, pure, Except.pure]

structure Held (front : List ClockFrameFragment) (r : ReedSolomonClockFrameFragmentBuffer) : Prop where
  distinct : r.fragments.Nodup
  same : ∀ g, g ∈ r.fragments ↔ g ∈ front
  first : r.fragments.head? = front.head?
  known : ∀ shard, shard ∈ r.haveShards ↔
    ∃ first encoding, front.head? = some first ∧ first.reedSolomon = some encoding ∧ encoding.fragmentShard = shard

theorem held_length (held : Held front r) : r.fragments.length = front.dedup.length := by
  apply List.Perm.length_eq
  rw [List.perm_ext_iff_of_nodup held.distinct (List.nodup_dedup _)]
  intro g
  rw [held.same, List.mem_dedup]

theorem held_new : Held [] newReedSolomonClockFrameFragmentBuffer := by
  refine ⟨List.nodup_nil, fun _ => Iff.rfl, rfl, fun shard => ?_⟩
  simp [newReedSolomonClockFrameFragmentBuffer]

variable (front : List ClockFrameFragment) (r : ReedSolomonClockFrameFragmentBuffer) (held : Held front r)
  (ours : ∀ g ∈ front, g ∈ fragmentsOf prim d p frame bs full)

include held ours in
theorem held_template (isFirst : front.head? = some first) :
    ∃ i shard tail, full[i]? = some shard ∧ first = fragmentOf ⟨d, p⟩ frame bs.length (prim.sha256Sum256 bs).bytes i shard ∧
      r.fragments = first :: tail ∧ ∀ known, known ∈ r.haveShards ↔ UInt64.ofNat i = known := by
  obtain ⟨i, shard, isShard, isFragment⟩ := fragments_of_member prim d p frame bs full first (ours first (List.mem_of_mem_head? isFirst))
  have top : r.fragments.head? = some first := held.first.trans isFirst
  obtain ⟨tail, isHeld⟩ := List.head?_eq_some_iff.mp top
  refine ⟨i, shard, tail, isShard, isFragment, isHeld, fun known => ?_⟩
  rw [held.known]
  constructor
  · intro recorded
    obtain ⟨other, encoding, isOther, isEncoding, isKnown⟩ := recorded
    rw [isFirst] at isOther
    cases isOther
    rw [isFragment] at isEncoding
    cases isEncoding
    exact isKnown
  · intro isKnown
    exact ⟨first, encodingAt d p bs i shard, isFirst, by rw [isFragment]; rfl, isKnown⟩

include few length sizes held ours in
theorem first_refused (isFirst : front.head? = some first) :
    (accumulateReedSolomon prim rs proto (some first)).on r = (raise (errorsNew "duplicate shard"), r) := by
  obtain ⟨i, shard, tail, isShard, isFragment, isHeld, known⟩ := held_template prim d p frame bs full front r held ours isFirst
  subst isFragment
  have refused := template_of_same_frame prim d p frame bs few full length sizes isShard isShard isHeld
  rw [if_pos ((known _).mpr rfl)] at refused
  exact accumulate_refused prim rs proto r _ _ rfl refused

include few length sizes held ours in
theorem other_accepted (member : fragment ∈ fragmentsOf prim d p frame bs full) (notFirst : front.head? ≠ some fragment) :
    ∃ fragmentRS templateRS, fragment.reedSolomon = some fragmentRS ∧ r.template fragment fragmentRS = .ok templateRS ∧
      goInt templateRS.fragmentDataShardCount = d ∧
      ∃ first encoding, (front ++ [fragment]).head? = some first ∧ first.reedSolomon = some encoding ∧
        encoding.fragmentShard = templateRS.fragmentShard := by
  obtain ⟨j, other, isOther, isFragment⟩ := fragments_of_member prim d p frame bs full fragment member
  subst isFragment
  have count : goInt (UInt64.ofNat d) = d := go_int_of_nat d (by omega)
  cases front with
  | nil =>
      have empty : r.fragments = [] := List.head?_eq_none_iff.mp held.first
      refine ⟨encodingAt d p bs j other, encodingAt d p bs j other, rfl, ?_, count, _, _, rfl, rfl, rfl⟩
      simp [ReedSolomonClockFrameFragmentBuffer.template, empty]
  | cons first rest =>
      obtain ⟨i, shard, tail, isShard, isFirst, isHeld, known⟩ := held_template prim d p frame bs full (first :: rest) r held ours rfl
      subst isFirst
      refine ⟨encodingAt d p bs j other, encodingAt d p bs i shard, rfl, ?_, count, _, _, rfl, rfl, rfl⟩
      rw [template_of_same_frame prim d p frame bs few full length sizes isShard isOther isHeld, if_neg]
      rw [known]
      intro same
      obtain ⟨-, iSame⟩ := shard_small d p few full length isShard
      obtain ⟨-, jSame⟩ := shard_small d p few full length isOther
      have place : i = j := by rw [← iSame, ← jSame, same]
      subst place
      rw [isShard] at isOther
      cases isOther
      exact notFirst rfl

theorem held_step (fresh : fragment ∉ front) {templateRS : ReedSolomonEncoding} (held : Held front r)
    (recorded : ∃ first encoding, (front ++ [fragment]).head? = some first ∧ first.reedSolomon = some encoding ∧
      encoding.fragmentShard = templateRS.fragmentShard) :
    Held (front ++ [fragment]) ⟨r.fragments ++ [fragment], templateRS.fragmentShard :: r.haveShards⟩ := by
  obtain ⟨first, encoding, isFirst, isEncoding, isShard⟩ := recorded
  refine ⟨?_, fun g => ?_, ?_, fun shard => ?_⟩
  · rw [List.nodup_append]
    refine ⟨held.distinct, List.nodup_singleton _, fun g isHeld other isOther => ?_⟩
    rw [List.mem_singleton.mp isOther]
    intro same
    exact fresh ((held.same _).mp (same ▸ isHeld))
  · rw [List.mem_append, List.mem_append, held.same]
  · rw [List.head?_append, List.head?_append, held.first]
  · rw [List.mem_cons, held.known]
    constructor
    · intro known
      cases known with
      | inl isNew => exact ⟨first, encoding, isFirst, isEncoding, isShard.trans isNew.symm⟩
      | inr old =>
          obtain ⟨other, otherEncoding, isOther, rest⟩ := old
          exact ⟨other, otherEncoding, by rw [List.head?_append, isOther]; rfl, rest⟩
    · intro known
      obtain ⟨other, otherEncoding, isOther, isOtherEncoding, isOtherShard⟩ := known
      rw [isFirst] at isOther
      cases isOther
      rw [isEncoding] at isOtherEncoding
      cases isOtherEncoding
      exact .inl (isOtherShard.symm.trans isShard)

end Splitting

theorem dedup_repeated (old : fragment ∈ front) : (front ++ [fragment]).dedup.length = front.dedup.length := by
  rw [← List.card_toFinset, ← List.card_toFinset, List.toFinset_append]
  congr 1
  exact Finset.union_eq_left.mpr (by simpa using old)

theorem dedup_fresh (fresh : fragment ∉ front) : (front ++ [fragment]).dedup.length = front.dedup.length + 1 := by
  rw [← List.card_toFinset, ← List.card_toFinset, List.toFinset_append]
  exact Finset.card_union_of_disjoint (by simpa using fresh)

section Deliveries

variable (prim : Primitives) (rs : ReedSolomon) (proto : FrameMarshaler) (d p : Nat) (frame : ClockFrame) (bs : Bytes)
  (dataShards : 4 ≤ d) (few : d + p ≤ 256) (correct : rs.Restores d p) (decoded : proto.unmarshal bs = .ok frame) (nonempty : bs ≠ [])
  (sized : bs.length < 2 ^ 63) (known : frame.frameNumber ≠ 0 ∧ frame.filter ≠ [] ∧ frame.timestamp ≠ 0) (full : List Bytes)
  (isFull : rs.encode d p (dataAndParity d p bs) = .ok full) (length : full.length = d + p)
  (kept : full.take d = cut (shardSize bs.length d) d bs) (sizes : ∀ shard ∈ full, shard.length = shardSize bs.length d)
  (deliveries : List ClockFrameFragment) (ours : ∀ f ∈ deliveries, f ∈ fragmentsOf prim d p frame bs full)

theorem after_snoc :
    afterFragments prim rs proto (front ++ [fragment]) =
      ((accumulateReedSolomon prim rs proto (some fragment)).on (afterFragments prim rs proto front)).2 :=
  run_append _

include ours in
theorem front_ours (isSplit : deliveries = front ++ rest) : ∀ f ∈ front, f ∈ fragmentsOf prim d p frame bs full :=
  fun f member => ours f (isSplit ▸ List.mem_append_left rest member)

include few length sizes ours in
theorem fresh_waits (isSplit : deliveries = front ++ fragment :: rest) (held : Held front (afterFragments prim rs proto front))
    (fresh : fragment ∉ front) (short : (front ++ [fragment]).dedup.length < d) :
    ((accumulateReedSolomon prim rs proto (some fragment)).on (afterFragments prim rs proto front)).1 = .ok none ∧
      Held (front ++ [fragment]) (afterFragments prim rs proto (front ++ [fragment])) := by
  obtain ⟨fragmentRS, templateRS, encoded, accepted, count, recorded⟩ := other_accepted prim d p frame bs few full length sizes front _ held
    (front_ours prim d p frame bs full deliveries ours isSplit) (ours fragment (by simp [isSplit]))
    (fun isFirst => fresh (List.mem_of_mem_head? isFirst))
  have waits := accumulate_waits prim rs proto _ fragment fragmentRS templateRS encoded accepted (by
    rw [count, List.length_append, held_length held, List.length_singleton, ← dedup_fresh fresh]
    exact Nat.cast_lt.mpr short)
  rw [after_snoc, waits]
  exact ⟨rfl, held_step front _ fresh held recorded⟩

include few length sizes ours in
theorem held_throughout (onlyFirst : ∀ front fragment rest, deliveries = front ++ fragment :: rest →
      Held front (afterFragments prim rs proto front) → (front ++ [fragment]).dedup.length < d → fragment ∈ front →
      front.head? = some fragment)
    (front rest : List ClockFrameFragment) (isSplit : deliveries = front ++ rest) (short : front.dedup.length < d) :
    Held front (afterFragments prim rs proto front) := by
  induction front using List.reverseRecOn generalizing rest with
  | nil => exact held_new
  | append_singleton front fragment ih =>
      rw [List.append_assoc, List.singleton_append] at isSplit
      by_cases old : fragment ∈ front
      · have before := ih (fragment :: rest) isSplit (by rwa [dedup_repeated old] at short)
        have isFirst := onlyFirst front fragment rest isSplit before short old
        rw [after_snoc, first_refused prim rs proto d p frame bs few full length sizes front _ before
          (front_ours prim d p frame bs full deliveries ours isSplit) isFirst]
        refine ⟨before.distinct, fun g => ?_, ?_, fun shard => ?_⟩
        · rw [before.same, List.mem_append, List.mem_singleton]
          exact ⟨.inl, fun either => either.elim id fun same => same ▸ old⟩
        · rw [before.first, List.head?_append, isFirst]
          rfl
        · rw [before.known, List.head?_append, isFirst]
          rfl
      · have before := ih (fragment :: rest) isSplit (by rw [dedup_fresh old] at short; omega)
        exact (fresh_waits prim rs proto d p frame bs few full length sizes deliveries ours isSplit before old short).2

include few length sizes ours in
theorem repeated_is_first (isSplit : deliveries = front ++ fragment :: rest) (held : Held front (afterFragments prim rs proto front))
    (old : fragment ∈ front) (short : (front ++ [fragment]).dedup.length < d) (delivered : Delivered d frame front fragment
      ((accumulateReedSolomon prim rs proto (some fragment)).on (afterFragments prim rs proto front)).1
      (afterFragments prim rs proto front).fragments (afterFragments prim rs proto (front ++ [fragment])).fragments) :
    front.head? = some fragment := by
  by_contra notFirst
  obtain ⟨fragmentRS, templateRS, encoded, accepted, count, -⟩ := other_accepted prim d p frame bs few full length sizes front _ held
    (front_ours prim d p frame bs full deliveries ours isSplit) (ours fragment (by simp [isSplit])) notFirst
  obtain ⟨⟨cause, failed⟩, kept⟩ := delivered.rejected short old
  by_cases waiting : (((afterFragments prim rs proto front).fragments ++ [fragment]).length : Int) < goInt templateRS.fragmentDataShardCount
  · rw [accumulate_waits prim rs proto _ fragment fragmentRS templateRS encoded accepted waiting] at failed
    cases failed
  · have lost := accumulate_forgets prim rs proto _ fragment fragmentRS templateRS encoded accepted waiting failed
    rw [← after_snoc] at lost
    have still := kept fragment ((held.same fragment).mpr old)
    rw [lost] at still
    cases still

include dataShards few correct decoded nonempty sized known isFull length kept sizes ours in
theorem deliveries_iff : AllDelivered prim rs proto d frame deliveries ↔ OnlyFirstRepeated d deliveries := by
  constructor
  · intro all front fragment rest isSplit short old
    have throughout := held_throughout prim rs proto d p frame bs few full length sizes deliveries ours
      (fun front fragment rest isSplit held short old => repeated_is_first prim rs proto d p frame bs few full length sizes deliveries ours isSplit held old short (all front fragment rest isSplit))
    have held := throughout front (fragment :: rest) isSplit (by rwa [dedup_repeated old] at short)
    exact repeated_is_first prim rs proto d p frame bs few full length sizes deliveries ours isSplit held old short
      (all front fragment rest isSplit)
  · intro only front fragment rest isSplit
    have throughout := held_throughout prim rs proto d p frame bs few full length sizes deliveries ours
      (fun front fragment rest isSplit _ => only front fragment rest isSplit) front (fragment :: rest) isSplit
    have frontOurs := front_ours prim d p frame bs full deliveries ours isSplit
    have member : fragment ∈ fragmentsOf prim d p frame bs full := ours fragment (by simp [isSplit])
    -- A repeated fragment is refused and changes nothing.
    have refused : (front ++ [fragment]).dedup.length < d → fragment ∈ front →
        (accumulateReedSolomon prim rs proto (some fragment)).on (afterFragments prim rs proto front) =
          (raise (errorsNew "duplicate shard"), afterFragments prim rs proto front) := by
      intro short old
      have held := throughout (by rwa [dedup_repeated old] at short)
      exact first_refused prim rs proto d p frame bs few full length sizes front _ held frontOurs
        (only front fragment rest isSplit short old)
    refine ⟨fun fresh last => ?_, fun short other => ?_, fun short old => ?_⟩
    · have held := throughout (by omega)
      obtain ⟨fragmentRS, templateRS, encoded, accepted, count, -⟩ := other_accepted prim d p frame bs few full length sizes front _ held
        frontOurs member (fun isFirst => fresh (List.mem_of_mem_head? isFirst))
      have total : ((afterFragments prim rs proto front).fragments ++ [fragment]).length = d := by
        rw [List.length_append, held_length held, List.length_singleton, last]
      have distinct : ((afterFragments prim rs proto front).fragments ++ [fragment]).Nodup := by
        rw [List.nodup_append]
        refine ⟨held.distinct, List.nodup_singleton _, fun g isHeld other isOther => ?_⟩
        rw [List.mem_singleton.mp isOther]
        exact fun same => fresh ((held.same _).mp (same ▸ isHeld))
      have subset : ∀ f ∈ (afterFragments prim rs proto front).fragments ++ [fragment], f ∈ fragmentsOf prim d p frame bs full := by
        intro f isHeld
        cases List.mem_append.mp isHeld with
        | inl before => exact frontOurs f ((held.same f).mp before)
        | inr isLast => exact List.mem_singleton.mp isLast ▸ member
      exact accumulate_assembles prim rs proto _ fragment fragmentRS templateRS encoded accepted (by rw [count, total]; exact lt_irrefl _) (assembles prim rs proto d p frame bs (by omega) few correct decoded nonempty sized isFull length kept sizes subset
          distinct total.ge ⟨by rw [total]; exact dataShards, known⟩)
    · by_cases old : fragment ∈ front
      · rw [refused short old]
        simp [raise]
      · have held := throughout (by rw [dedup_fresh old] at short; omega)
        rw [(fresh_waits prim rs proto d p frame bs few full length sizes deliveries ours isSplit held old short).1]
        simp
    · rw [after_snoc, refused short old]
      exact ⟨⟨_, rfl⟩, fun g isHeld => isHeld⟩

end Deliveries

theorem fragments_distinct (prim : Primitives) (d p : Nat) (frame : ClockFrame) (bs : Bytes) (few : d + p ≤ 256) (full : List Bytes)
    (length : full.length = d + p) : (fragmentsOf prim d p frame bs full).Nodup := by
  apply List.Nodup.of_map shardIndex
  have places : (fragmentsOf prim d p frame bs full).map shardIndex = List.range (d + p) := by
    apply List.ext_getElem
    · rw [List.length_map, fragmentsOf, List.length_mapIdx, length, List.length_range]
    · intro i inside other
      rw [List.length_range] at other
      simp only [List.getElem_map, fragmentsOf, List.getElem_mapIdx, List.getElem_range]
      exact shard_index_of _ _ _ _ _ _ (by omega)
  rw [places]
  exact List.nodup_range

theorem fragment_deliveries_iff (prim : Primitives) (rs : ReedSolomon) (proto : FrameMarshaler) (d p : Nat) (frame : ClockFrame) (bs : Bytes)
    (dataShards : 4 ≤ d) (few : d + p ≤ 256) (correct : rs.Restores d p) (encoded : proto.marshal frame = .ok bs)
    (decoded : proto.unmarshal bs = .ok frame) (nonempty : bs ≠ []) (sized : bs.length < 2 ^ 63)
    (known : frame.frameNumber ≠ 0 ∧ frame.filter ≠ [] ∧ frame.timestamp ≠ 0) :
    ∃ fragments, splitClockFrame prim rs proto ⟨d, p⟩ frame = .ok fragments ∧ fragments.length = d + p ∧ fragments.Nodup ∧
      ∀ deliveries : List ClockFrameFragment, (∀ f ∈ deliveries, f ∈ fragments) →
        (AllDelivered prim rs proto d frame deliveries ↔ OnlyFirstRepeated d deliveries) := by
  obtain ⟨full, isFull, length, kept, sizes, split⟩ := split_returns prim rs proto d p frame bs (by omega) correct encoded nonempty
  refine ⟨_, split, by rw [fragmentsOf, List.length_mapIdx, length], fragments_distinct prim d p frame bs few full length,
    fun deliveries ours => ?_⟩
  exact deliveries_iff prim rs proto d p frame bs dataShards few correct decoded nonempty sized known full isFull length kept sizes
    deliveries ours

section Checksum

-- One parity shard: the exclusive or of the data shards, from which any one missing shard is found.
def checksumByte (shards : List Bytes) (k : Nat) : UInt8 := shards.foldr (fun shard sum => shard.getD k 0 ^^^ sum) 0

def checksumShard (width : Nat) (shards : List Bytes) : Bytes := (List.range width).map (checksumByte shards)

def checksumCode : ReedSolomon where
  new _ _ := .ok ()
  encode d p shards := .ok (shards.take d ++ List.replicate p (checksumShard (shards.headD []).length (shards.take d)))
  reconstructData _ _ shards :=
    match shards.find? fun shard => shard ≠ [] with
    | some known => .ok (shards.map fun shard => if shard = [] then checksumShard known.length shards else shard)
    | none => .error (errorsNew "too few shards given")

theorem checksum_byte_append {last : Bytes} : checksumByte (shards ++ [last]) k = checksumByte shards k ^^^ last.getD k 0 := by
  induction shards with
  | nil => simp [checksumByte, UInt8.xor_comm]
  | cons shard tail ih =>
      simp only [checksumByte, List.cons_append, List.foldr_cons] at ih ⊢
      rw [ih, UInt8.xor_assoc]

theorem checksum_byte_missing (inside : m < shards.length) :
    checksumByte (shards.set m []) k = checksumByte shards k ^^^ (shards.getD m []).getD k 0 := by
  induction shards generalizing m with
  | nil => cases inside
  | cons shard tail ih =>
      cases m with
      | zero =>
          simp only [checksumByte, List.set_cons_zero, List.foldr_cons, List.getD_cons_zero, List.getD_nil, UInt8.zero_xor]
          rw [UInt8.xor_comm (shard.getD k 0), UInt8.xor_assoc, UInt8.xor_self, UInt8.xor_zero]
      | succ m =>
          have rest := ih (Nat.lt_of_succ_lt_succ inside)
          simp only [checksumByte, List.set_cons_succ, List.foldr_cons, List.getD_cons_succ] at rest ⊢
          rw [rest, UInt8.xor_assoc]

theorem checksum_byte_zero (data : List Bytes) (small : k < width) : checksumByte (data ++ [checksumShard width data]) k = 0 := by
  rw [checksum_byte_append, checksumShard, List.getD_eq_getElem?_getD, List.getElem?_map, List.getElem?_range small]
  exact UInt8.xor_self

theorem checksum_missing (isShard : (data ++ [checksumShard width data])[m]? = some shard) (size : shard.length = width) :
    checksumShard width ((data ++ [checksumShard width data]).set m []) = shard := by
  apply List.ext_getElem? fun k => ?_
  by_cases small : k < width
  · have found : (data ++ [checksumShard width data]).getD m [] = shard := by rw [List.getD_eq_getElem?_getD, isShard, Option.getD_some]
    rw [checksumShard, List.getElem?_map, List.getElem?_range small, Option.map_some,
      checksum_byte_missing (List.getElem?_eq_some_iff.mp isShard).1, checksum_byte_zero data small, UInt8.zero_xor, found,
      List.getD_eq_getElem?_getD, List.getElem?_eq_getElem (size ▸ small)]
    rfl
  · rw [List.getElem?_eq_none (by rw [checksumShard, List.length_map, List.length_range]; omega), List.getElem?_eq_none (by omega)]

theorem at_most_one_missing (distinct : positions.Nodup) (enough : d ≤ positions.length) (inside : ∀ i ∈ positions, i < d + 1)
    (mSmall : m < d + 1) (jSmall : j < d + 1) (mMissing : m ∉ positions) (jMissing : j ∉ positions) : m = j := by
  by_contra different
  have subset : positions.toFinset ⊆ ((Finset.range (d + 1)).erase m).erase j := by
    intro i member
    rw [List.mem_toFinset] at member
    rw [Finset.mem_erase, Finset.mem_erase, Finset.mem_range]
    exact ⟨fun same => jMissing (same ▸ member), fun same => mMissing (same ▸ member), inside i member⟩
  have card := Finset.card_le_card subset
  rw [List.card_toFinset, List.Nodup.dedup distinct, Finset.card_erase_of_mem, Finset.card_erase_of_mem, Finset.card_range] at card
  · omega
  · exact Finset.mem_range.mpr mSmall
  · exact Finset.mem_erase.mpr ⟨Ne.symm different, Finset.mem_range.mpr jSmall⟩

theorem one_missing {full : List Bytes} (fullLength : full.length = d + 1) (presentLength : present.length = d + 1)
    (distinct : positions.Nodup) (enough : d ≤ positions.length) (inside : ∀ i ∈ positions, i < d + 1 ∧ present[i]? = full[i]?)
    (outside : ∀ i, i < d + 1 → i ∉ positions → present[i]? = some []) : present = full ∨ ∃ m < d + 1, present = full.set m [] := by
  by_cases all : ∀ i < d + 1, i ∈ positions
  · left
    apply List.ext_getElem? fun i => ?_
    by_cases small : i < d + 1
    · exact (inside i (all i small)).2
    · rw [List.getElem?_eq_none (by omega), List.getElem?_eq_none (by omega)]
  · right
    push Not at all
    obtain ⟨m, mSmall, mMissing⟩ := all
    refine ⟨m, mSmall, List.ext_getElem? fun i => ?_⟩
    by_cases same : m = i
    · rw [← same, outside m mSmall mMissing, List.getElem?_set_self (by omega)]
    · rw [List.getElem?_set_ne same]
      by_cases small : i < d + 1
      · by_cases isKnown : i ∈ positions
        · exact (inside i isKnown).2
        · exact absurd (at_most_one_missing distinct enough (fun k member => (inside k member).1) mSmall small mMissing isKnown)
            same
      · rw [List.getElem?_eq_none (by omega), List.getElem?_eq_none (by omega)]

theorem checksum_encodes (length : shards.length = d + 1) (sizes : ∀ shard ∈ shards, shard.length = width) :
    checksumCode.encode d 1 shards = .ok (shards.take d ++ [checksumShard width (shards.take d)]) := by
  have headSize : (shards.headD []).length = width := by
    cases shards with
    | nil => cases length
    | cons first rest => exact sizes first List.mem_cons_self
  rw [← headSize]
  rfl

theorem checksum_sizes (sizes : ∀ shard ∈ shards, shard.length = width) :
    ∀ shard ∈ shards.take d ++ [checksumShard width (shards.take d)], shard.length = width := by
  intro shard member
  cases List.mem_append.mp member with
  | inl isData => exact sizes shard (List.mem_of_mem_take isData)
  | inr isParity => rw [List.mem_singleton.mp isParity, checksumShard, List.length_map, List.length_range]

theorem checksum_fills (positive : 1 ≤ d) (some_bytes : 0 < width) (dataLength : data.length = d)
    (sizes : ∀ shard ∈ data ++ [checksumShard width data], shard.length = width)
    (isPresent : present = data ++ [checksumShard width data] ∨ ∃ m < d + 1, present = (data ++ [checksumShard width data]).set m []) :
    checksumCode.reconstructData d 1 present = .ok (data ++ [checksumShard width data]) := by
  have fullLength : (data ++ [checksumShard width data]).length = d + 1 := by rw [List.length_append, dataLength, List.length_singleton]
  have solid : ∀ shard ∈ data ++ [checksumShard width data], shard ≠ [] := by
    intro shard member empty
    have size := sizes shard member
    rw [empty, List.length_nil] at size
    omega
  -- Some shard is there, and it tells the width.
  have someThere : ∃ shard ∈ present, shard ≠ [] := by
    have there : ∀ i (small : i < d + 1), present[i]? = (data ++ [checksumShard width data])[i]? → ∃ shard ∈ present, shard ≠ [] := by
      intro i small same
      have isFull := List.getElem?_eq_getElem (show i < (data ++ [checksumShard width data]).length by omega)
      exact ⟨_, List.mem_of_getElem? (same.trans isFull), solid _ (List.getElem_mem _)⟩
    cases isPresent with
    | inl whole => exact there 0 (by omega) (by rw [whole])
    | inr missing =>
        obtain ⟨m, -, isSet⟩ := missing
        by_cases first : m = 0
        · exact there 1 (by omega) (by rw [isSet, List.getElem?_set_ne (by omega)])
        · exact there 0 (by omega) (by rw [isSet, List.getElem?_set_ne first])
  have width_known : ∀ shard ∈ present, shard ≠ [] → shard.length = width := by
    intro shard member nonempty
    cases isPresent with
    | inl whole => exact sizes shard (whole ▸ member)
    | inr missing =>
        obtain ⟨m, -, isSet⟩ := missing
        rw [isSet] at member
        cases List.mem_or_eq_of_mem_set member with
        | inl inFull => exact sizes shard inFull
        | inr empty => exact absurd empty nonempty
  cases found : present.find? (fun shard => shard ≠ []) with
  | none =>
      obtain ⟨shard, member, nonempty⟩ := someThere
      have absent := List.find?_eq_none.mp found shard member
      simp [nonempty] at absent
  | some known =>
      have isWidth := width_known known (List.mem_of_find?_eq_some found) (by simpa using List.find?_some found)
      have filled : (present.map fun shard => if shard = [] then checksumShard known.length present else shard) =
          data ++ [checksumShard width data] := by
        rw [isWidth]
        cases isPresent with
        | inl whole =>
            rw [whole]
            exact (List.map_congr_left fun shard member => if_neg (solid shard member)).trans (List.map_id _)
        | inr missing =>
            obtain ⟨m, small, isSet⟩ := missing
            apply List.ext_getElem? fun i => ?_
            have isShard := List.getElem?_eq_getElem (show m < (data ++ [checksumShard width data]).length by omega)
            rw [isSet, checksum_missing isShard (sizes _ (List.getElem_mem _)), List.getElem?_map]
            by_cases same : m = i
            · rw [← same, List.getElem?_set_self (by omega), isShard]
              rfl
            · rw [List.getElem?_set_ne same]
              cases here : (data ++ [checksumShard width data])[i]? with
              | none => rfl
              | some shard => exact congrArg some (if_neg (solid shard (List.mem_of_getElem? here)))
      simp only [checksumCode, found, filled]

theorem checksum_restores (d : Nat) (positive : 1 ≤ d) : checksumCode.Restores d 1 := by
  constructor
  · rfl
  · intro width shards some_bytes length sizes
    refine ⟨_, checksum_encodes length sizes, ?_, ?_, checksum_sizes sizes⟩
    · rw [List.length_append, List.length_take, length, List.length_singleton]
      omega
    · exact List.take_left' (by rw [List.length_take, length]; omega)
  · intro width shards full present positions some_bytes length sizes isFull presentLength distinct enough inside outside
    rw [checksum_encodes length sizes] at isFull
    cases isFull
    have dataLength : (shards.take d).length = d := by rw [List.length_take, length]; omega
    have fullLength : (shards.take d ++ [checksumShard width (shards.take d)]).length = d + 1 := by
      rw [List.length_append, dataLength, List.length_singleton]
    have isPresent := one_missing fullLength presentLength distinct enough inside outside
    exact ⟨_, checksum_fills positive some_bytes dataLength (checksum_sizes sizes) isPresent, fullLength, rfl⟩

end Checksum

theorem five_fragments {fragments : List ClockFrameFragment} (length : fragments.length = 5) :
    ∃ a b c e f, fragments = [a, b, c, e, f] := by
  rcases fragments with _ | ⟨a, _ | ⟨b, _ | ⟨c, _ | ⟨e, _ | ⟨f, _ | ⟨g, rest⟩⟩⟩⟩⟩⟩ <;> simp at length
  exact ⟨a, b, c, e, f, rfl⟩

theorem fragment_deliveries_first_repeated :
    ∃ a b c e f, splitClockFrame samplePrimitives checksumCode fragmentMarshaler ⟨4, 1⟩ fragmentedFrame = .ok [a, b, c, e, f] ∧
      AllDelivered samplePrimitives checksumCode fragmentMarshaler 4 fragmentedFrame [a, b, a, c, f] := by
  obtain ⟨fragments, split, length, distinct, all⟩ := fragment_deliveries_iff samplePrimitives checksumCode fragmentMarshaler 4 1
    fragmentedFrame [1, 2, 3] (by decide) (by decide) (checksum_restores 4 (by decide)) rfl rfl (by decide) (by decide) (by decide)
  obtain ⟨a, b, c, e, f, isList⟩ := five_fragments length
  subst isList
  refine ⟨a, b, c, e, f, split, (all [a, b, a, c, f] (by simp)).mpr ?_⟩
  intro front fragment rest isSplit short old
  clear split all short
  rcases front with _ | ⟨x, _ | ⟨y, _ | ⟨z, _ | ⟨w, _ | ⟨v, front⟩⟩⟩⟩⟩ <;> simp at isSplit distinct old ⊢ <;> grind

theorem second_shard_repeated :
    ∃ a b c e f, splitClockFrame samplePrimitives checksumCode fragmentMarshaler ⟨4, 1⟩ fragmentedFrame = .ok [a, b, c, e, f] ∧
      ¬ AllDelivered samplePrimitives checksumCode fragmentMarshaler 4 fragmentedFrame [a, b, b, c, e] := by
  obtain ⟨full, isFull, length, kept, sizes, split⟩ := split_returns samplePrimitives checksumCode fragmentMarshaler 4 1 fragmentedFrame
    [1, 2, 3] (by decide) (checksum_restores 4 (by decide)) rfl (by decide)
  have distinct := fragments_distinct samplePrimitives 4 1 fragmentedFrame [1, 2, 3] (by decide) full length
  have exact_when := deliveries_iff samplePrimitives checksumCode fragmentMarshaler 4 1 fragmentedFrame [1, 2, 3] (by decide) (by decide)
    (checksum_restores 4 (by decide)) rfl (by decide) (by decide) (by decide) full isFull length kept sizes
  have size : (fragmentsOf samplePrimitives 4 1 fragmentedFrame [1, 2, 3] full).length = 5 := by rw [fragmentsOf, List.length_mapIdx, length]
  generalize fragmentsOf samplePrimitives 4 1 fragmentedFrame [1, 2, 3] full = fragments at *
  obtain ⟨a, b, c, e, f, isList⟩ := five_fragments size
  subst isList
  refine ⟨a, b, c, e, f, split, fun all => ?_⟩
  have only := (exact_when [a, b, b, c, e] (by simp)).mp all [a, b] b [c, e] rfl
  have isFirst := only (by rw [dedup_repeated (by simp)]; exact lt_of_le_of_lt (List.dedup_sublist _).length_le (by simp)) (by simp)
  simp_all

end Ceremony
