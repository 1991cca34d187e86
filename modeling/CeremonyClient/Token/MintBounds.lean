import CeremonyClient.Tries.Unpacking
import CeremonyClient.Token.MintChain
import CeremonyClient.Token.ProofAgreement

set_option autoImplicit false

namespace Ceremony

open GoSem

variable {input : Digest} {maxValid : UInt64} {fuel : Nat} {result : UInt64} {prim : Primitives} {proofs : List Bytes}
  {parallelism : UInt32} {prfs : List PreCoinProof} {prior : PriorMint} {a : TokenApplication} {currentFrameNumber : UInt64}
  {t : MintCoinRequest} {frame : ClockFrame} {unpacked : Unpacked} {newFrame : ClockFrame} {previousRoot peerId : Bytes}

theorem unbiased_loop_stops (valid : ¬ result > maxValid) : unbiasedLoop input maxValid fuel result = .ok result := by
  cases fuel <;> rw [unbiasedLoop, if_neg valid]

theorem unbiased_loop_more {more : Nat} {out : UInt64} (least : fuel ≤ more) (done : unbiasedLoop input maxValid fuel result = .ok out) :
    unbiasedLoop input maxValid more result = .ok out := by
  by_cases large : result > maxValid
  · induction fuel generalizing more result with
    | zero =>
        rw [unbiasedLoop, if_pos large] at done
        cases done
    | succ fuel ih =>
        obtain ⟨rest, isMore⟩ : ∃ rest, more = rest + 1 := ⟨more - 1, by omega⟩
        rw [isMore]
        rw [unbiasedLoop, if_pos large] at done ⊢
        simp only at done ⊢
        generalize (if mixWords input maxValid result > maxValid then _ else _ : UInt64) = next at done ⊢
        by_cases again : next > maxValid
        · exact ih (by omega) done again
        · rw [unbiased_loop_stops again] at done ⊢
          exact done
  · rw [unbiased_loop_stops large] at done ⊢
    exact done

theorem unbiased_mod_more (fuel more : Nat) {modulus pick : UInt64} (least : fuel ≤ more)
    (drawn : bytesToUnbiasedMod fuel input modulus = .ok pick) : bytesToUnbiasedMod more input modulus = .ok pick := by
  rw [bytesToUnbiasedMod] at drawn ⊢
  by_cases small : modulus ≤ 1
  · rw [if_pos small] at drawn ⊢
    exact drawn
  · rw [if_neg small] at drawn ⊢
    obtain ⟨result, looped, isPick⟩ := (bind_ok_iff _ _ _).mp drawn
    exact (bind_ok_iff _ _ _).mpr ⟨result, unbiased_loop_more least looped, isPick⟩

def rehash (prim : Primitives) (hash : Digest) : Digest := prim.sha3Sum256 hash.bytes

-- Drawing a number from a digest ends, and hashing again and again draws every residue at any later time.
structure Draws (prim : Primitives) (start : Digest) (modulus : UInt64) : Prop where
  ends : ∀ i, ∃ fuel pick, bytesToUnbiasedMod fuel ((rehash prim)^[i] start) modulus = .ok pick
  recurs : ∀ pick < modulus, ∀ n, ∃ i, n ≤ i ∧ ∃ fuel, bytesToUnbiasedMod fuel ((rehash prim)^[i] start) modulus = .ok pick

theorem residue_left (modulus : UInt64) (picks : List UInt64) (few : picks.length < modulus.toNat) : ∃ pick < modulus, pick ∉ picks := by
  by_contra none
  have all : (List.range modulus.toNat).map UInt64.ofNat ⊆ picks := by
    intro pick member
    obtain ⟨i, inRange, same⟩ := List.mem_map.mp member
    have bound := List.mem_range.mp inRange
    have size : modulus.toNat < UInt64.size := modulus.toNat_lt
    by_contra absent
    refine none ⟨pick, ?_, absent⟩
    rw [← same, UInt64.lt_iff_toNat_lt, UInt64.toNat_ofNat_of_lt' (by omega)]
    exact bound
  have distinct : ((List.range modulus.toNat).map UInt64.ofNat).Nodup := by
    refine List.nodup_range.map_on fun i inRange j inRange' same => ?_
    have size : modulus.toNat < UInt64.size := modulus.toNat_lt
    have left := List.mem_range.mp inRange
    have right := List.mem_range.mp inRange'
    have values := congrArg UInt64.toNat same
    rwa [UInt64.toNat_ofNat_of_lt' (by omega), UInt64.toNat_ofNat_of_lt' (by omega)] at values
  have length := (List.subperm_of_subset distinct all).length_le
  rw [List.length_map, List.length_range] at length
  omega

def DrawsEnough (prim : Primitives) (start : Digest) (modulus : UInt64) (i additional : Nat) (picks : List UInt64) : Prop :=
  ∃ enough, ∀ loopFuel fuel, enough ≤ loopFuel → enough ≤ fuel →
    ∃ all, drawPicks prim loopFuel modulus fuel ((rehash prim)^[i] start) additional picks = .ok all

theorem draw_round (prim : Primitives) (start : Digest) (modulus : UInt64) (i additional : Nat) (picks : List UInt64) (here : Nat) (pick : UInt64)
    (isPick : bytesToUnbiasedMod here ((rehash prim)^[i + 1] start) modulus = .ok pick)
    (known : pick ∈ picks → DrawsEnough prim start modulus (i + 1) (additional + 1) picks)
    (new : pick ∉ picks → DrawsEnough prim start modulus (i + 1) additional (picks ++ [pick])) :
    DrawsEnough prim start modulus i (additional + 1) picks := by
  have round (loopFuel left : Nat) (loops : here ≤ loopFuel) :
      drawPicks prim loopFuel modulus (left + 1) ((rehash prim)^[i] start) (additional + 1) picks =
        if pick ∈ picks then drawPicks prim loopFuel modulus left ((rehash prim)^[i + 1] start) (additional + 1) picks
        else drawPicks prim loopFuel modulus left ((rehash prim)^[i + 1] start) additional (picks ++ [pick]) := by
    have drawn := unbiased_mod_more here loopFuel loops isPick
    rw [Function.iterate_succ_apply'] at drawn ⊢
    rw [drawPicks]
    change (bytesToUnbiasedMod loopFuel (rehash prim _) modulus >>= _) = _
    rw [drawn, ok_bind]
    rfl
  by_cases repeated : pick ∈ picks
  · obtain ⟨enough, rest⟩ := known repeated
    refine ⟨max enough here + 1, fun loopFuel fuel loops rounds => ?_⟩
    obtain ⟨left, isFuel⟩ : ∃ left, fuel = left + 1 := ⟨fuel - 1, by omega⟩
    rw [isFuel, round loopFuel left (by omega), if_pos repeated]
    exact rest loopFuel left (by omega) (by omega)
  · obtain ⟨enough, rest⟩ := new repeated
    refine ⟨max enough here + 1, fun loopFuel fuel loops rounds => ?_⟩
    obtain ⟨left, isFuel⟩ : ∃ left, fuel = left + 1 := ⟨fuel - 1, by omega⟩
    rw [isFuel, round loopFuel left (by omega), if_neg repeated]
    exact rest loopFuel left (by omega) (by omega)

-- The outer induction is on the picks that are missing, the inner one on the distance to a digest that draws a new
-- residue.
theorem draw_picks_enough (prim : Primitives) (start : Digest) (modulus : UInt64) (draws : Draws prim start modulus) (additional i : Nat)
    (picks : List UInt64) (few : picks.length + additional ≤ modulus.toNat) : DrawsEnough prim start modulus i additional picks := by
  induction additional generalizing i picks with
  | zero =>
      refine ⟨0, fun loopFuel fuel _ _ => ⟨picks, ?_⟩⟩
      rw [drawPicks]
  | succ additional outer =>
      have grown (pick : UInt64) : (picks ++ [pick]).length + additional ≤ modulus.toNat := by
        rw [List.length_append, List.length_singleton]
        omega
      obtain ⟨fresh, small, absent⟩ := residue_left modulus picks (by omega)
      obtain ⟨later, after, here, isFresh⟩ := draws.recurs fresh small (i + 1)
      obtain ⟨distance, isLater⟩ : ∃ distance, later = i + 1 + distance := ⟨later - (i + 1), by omega⟩
      clear after
      induction distance generalizing i with
      | zero =>
          rw [isLater, Nat.add_zero] at isFresh
          exact draw_round prim start modulus i additional picks here fresh isFresh (fun repeated => absurd repeated absent)
            fun _ => outer (i + 1) _ (grown fresh)
      | succ distance inner =>
          obtain ⟨first, pick, isPick⟩ := draws.ends (i + 1)
          exact draw_round prim start modulus i additional picks first pick isPick (fun _ => inner (i + 1) (by omega))
            fun _ => outer (i + 1) _ (grown pick)

theorem index_from_end_inside (items : List Bytes) (back : Nat) (inside : 0 < back ∧ back ≤ items.length) :
    ∃ item, indexFromEnd items back = .ok item := by
  refine ⟨items[items.length - back], ?_⟩
  rw [indexFromEnd, if_pos inside.2, index, List.getElem?_eq_getElem (by omega)]
  rfl

theorem picks_fit (parallelism : UInt32) (several : 2 ≤ parallelism) :
    0 < len64 (parallelism.toUInt64 - 1) ∧ len64 (parallelism.toUInt64 - 1) ≤ parallelism.toUInt64.toNat := by
  have many : 2 ≤ parallelism.toNat := UInt32.le_iff_toNat_le.mp several
  have bound := parallelism.toNat_lt
  have same : parallelism.toUInt64 = UInt64.ofNat parallelism.toNat := by
    apply UInt64.toNat_inj.mp
    rw [UInt32.toNat_toUInt64, UInt64.toNat_ofNat_of_lt' (by rw [show UInt64.size = 2 ^ 64 from rfl]; omega)]
  have depth := len64_clog many (by omega)
  rw [← same] at depth
  rw [depth, UInt32.toNat_toUInt64]
  refine ⟨Nat.clog_pos (by decide) many, Nat.clog_le_of_le_pow ?_⟩
  exact le_of_lt Nat.lt_two_pow_self

theorem challenge_picks_enough (prim : Primitives) (proofs : List Bytes) (parallelism : UInt32) (newOutput commitment : Bytes)
    (several : 2 ≤ parallelism) (long : len64 (parallelism.toUInt64 - 1) ≤ proofs.length)
    (draws : Draws prim (prim.sha3Sum256 (newOutput ++ commitment)) parallelism.toUInt64) :
    ∃ enough, ∀ fuel, enough ≤ fuel → ∃ picked, challengePicks prim fuel proofs parallelism newOutput commitment = .ok picked := by
  obtain ⟨positive, fits⟩ := picks_fit parallelism several
  have large : 1 < parallelism.toUInt64 := by
    rw [UInt64.lt_iff_toNat_lt, UInt32.toNat_toUInt64]
    exact UInt32.le_iff_toNat_le.mp several
  obtain ⟨first, pick, isPick⟩ := draws.ends 0
  obtain ⟨enough, rest⟩ := draw_picks_enough prim _ _ draws (len64 (parallelism.toUInt64 - 1) - 1) 0 [pick] (by
    rw [List.length_singleton]
    omega)
  refine ⟨max first enough, fun fuel least => ?_⟩
  obtain ⟨all, drawn⟩ := rest fuel fuel (by omega) (by omega)
  obtain ⟨more, same, -, -⟩ := draw_picks_ok prim fuel large fuel drawn
  obtain ⟨leaf, isLeaf⟩ := index_from_end_inside proofs (len64 (parallelism.toUInt64 - 1)) ⟨positive, long⟩
  rw [same] at drawn
  refine ⟨([pick] ++ more, [leaf] ++ proofs.drop (proofs.length - (len64 (parallelism.toUInt64 - 1) - 1))), ?_⟩
  have isFirst : bytesToUnbiasedMod fuel (prim.sha3Sum256 (newOutput ++ commitment)) parallelism.toUInt64 = .ok pick :=
    unbiased_mod_more first fuel (by omega) isPick
  rw [challengePicks]
  simp only [isFirst, ok_bind]
  change (indexFromEnd proofs (len64 (parallelism.toUInt64 - 1)) >>= _) = _
  rw [isLeaf, ok_bind]
  exact mint_picks_drawn prim fuel proofs large fuel (by omega) [pick] more [leaf] drawn

theorem mint_picks_stuck {loopFuel : Nat} {hash : Digest} {additional : Nat} {outputs : List Bytes} :
    mintPicks prim loopFuel proofs 0 fuel hash (additional + 1) [0] outputs = .error .outOfFuel := by
  induction fuel generalizing hash with
  | zero => rw [mintPicks]
  | succ fuel ih =>
      rw [mintPicks, bytesToUnbiasedMod, if_pos (by decide), ok_bind, if_pos (List.mem_singleton_self _)]
      exact ih

theorem challenge_picks_stuck {newOutput commitment : Bytes} (few : ¬ 2 ≤ parallelism) :
    ¬ Returns (challengePicks prim fuel proofs parallelism newOutput commitment) := by
  have cases : parallelism = 0 ∨ parallelism = 1 := by
    rw [← UInt32.toNat_inj, ← UInt32.toNat_inj]
    have small : ¬ 2 ≤ parallelism.toNat := fun many => few (UInt32.le_iff_toNat_le.mpr many)
    have zero : (0 : UInt32).toNat = 0 := rfl
    have one : (1 : UInt32).toNat = 1 := rfl
    omega
  rcases cases with zero | one
  · rw [zero]
    intro returns
    rw [challengePicks, show (0 : UInt32).toUInt64 = 0 from rfl] at returns
    simp only [bytesToUnbiasedMod, if_pos (show (0 : UInt64) ≤ 1 by decide), ok_bind,
      show len64 ((0 : UInt64) - 1) = 63 + 1 by decide +kernel] at returns
    rw [returns_bind_iff] at returns
    cases read : indexFromEnd proofs (63 + 1) with
    | ok leaf =>
        have stuck := returns.2 leaf read
        rw [Nat.add_sub_cancel, show 63 = 62 + 1 from rfl, mint_picks_stuck] at stuck
        exact stuck
    | error fault =>
        rw [indexFromEnd] at read
        have reads := returns.1
        by_cases inside : 63 + 1 ≤ proofs.length
        · obtain ⟨leaf, isLeaf⟩ := index_from_end_inside proofs (63 + 1) ⟨by omega, inside⟩
          rw [indexFromEnd] at isLeaf
          rw [isLeaf] at read
          cases read
        · rw [indexFromEnd, if_neg inside] at reads
          exact reads
  · rw [one]
    intro returns
    rw [challengePicks, show (1 : UInt32).toUInt64 = 1 from rfl] at returns
    simp only [bytesToUnbiasedMod, if_pos (show (1 : UInt64) ≤ 1 by decide), ok_bind, show len64 ((1 : UInt64) - 1) = 0 from rfl] at returns
    have none : indexFromEnd proofs 0 = crash := by
      rw [indexFromEnd, if_pos (by omega), index, Nat.sub_zero, List.getElem?_eq_none (le_refl _)]
      rfl
    rw [none] at returns
    exact returns

section Reading

variable (a : TokenApplication) (filter : Bytes)

def FrameKnown (pr : PreCoinProof) : Prop :=
  ∃ previousFrame, a.clockStore.getDataClockFrame filter (UInt64.ofNat (setBytes ((pr.commitment.drop 32).take 8))) true = .ok previousFrame

-- The proofs that count fit the parallelism read from them, up to the first one whose frame is not known.
def StoredSized : List PreCoinProof → Prop
  | [] => True
  | pr :: tail => (isChainProof pr → 40 ≤ pr.proof.length) ∧ ((isChainProof pr → FrameKnown a filter pr) → StoredSized tail)

theorem read_prior_returns_iff (prfs : List PreCoinProof) (prior : PriorMint) :
    Returns (readPriorMint a filter prfs prior) ↔ StoredSized a filter prfs := by
  induction prfs generalizing prior with
  | nil => exact iff_of_true trivial trivial
  | cons pr tail ih =>
      rw [readPriorMint, StoredSized]
      by_cases chain : isChainProof pr
      · have long : 40 ≤ pr.commitment.length := by
          rcases chain.2 with forty | more
          · omega
          · omega
        have eight : ((pr.commitment.drop 32).take (40 - 32)).length = 8 := by
          rw [List.length_take, List.length_drop]
          omega
        have number : (slice pr.commitment 32 40 >>= beUint64) = .ok (UInt64.ofNat (setBytes ((pr.commitment.drop 32).take 8))) := by
          rw [slice, if_pos ⟨by omega, long⟩, ok_bind, beUint64, if_neg (by omega), List.take_take]
          rfl
        rw [if_pos chain, slice, if_pos ⟨by omega, by omega⟩, ok_bind, number, ok_bind]
        by_cases sized : 40 ≤ pr.proof.length
        · have four : ((pr.proof.drop 36).take (40 - 36)).length = 4 := by
            rw [List.length_take, List.length_drop]
            omega
          have parallelism : ∃ value, (slice pr.proof 36 40 >>= beUint32) = .ok value :=
            ⟨_, by rw [slice, if_pos ⟨by omega, sized⟩, ok_bind, beUint32, if_neg (by omega)]⟩
          have third : ∃ value, thirdPart pr.commitment prior.priorCommitment = .ok value := by
            rw [thirdPart]
            by_cases more : pr.commitment.length > 40
            · exact ⟨_, by rw [if_pos more, sliceFrom, if_pos long]⟩
            · exact ⟨_, by rw [if_neg more]⟩
          obtain ⟨previousParallelism, isParallelism⟩ := parallelism
          obtain ⟨priorCommitment, isThird⟩ := third
          rw [isParallelism, ok_bind, isThird, ok_bind]
          cases known : a.clockStore.getDataClockFrame filter (UInt64.ofNat (setBytes ((pr.commitment.drop 32).take 8))) true with
          | error cause =>
              refine iff_of_true trivial ⟨fun _ => sized, fun all => ?_⟩
              obtain ⟨previousFrame, isKnown⟩ := all chain
              rw [known] at isKnown
              cases isKnown
          | ok previousFrame =>
              refine (ih _).trans ⟨fun rest => ⟨fun _ => sized, fun _ => rest⟩, fun both => both.2 fun _ => ⟨previousFrame, known⟩⟩
        · rw [slice, if_neg (fun inside => sized inside.2)]
          exact iff_of_false id fun both => sized (both.1 chain)
      · rw [if_neg chain, ih]
        exact ⟨fun rest => ⟨fun counts => absurd counts chain, fun _ => rest⟩, fun both => both.2 fun counts => absurd counts chain⟩

theorem read_prior_previous {start : PriorMint} (linked : start.delete.isSome = true → start.previousFrame.isSome = true)
    (read : readPriorMint a filter prfs start = .ok (some prior)) : prior.delete.isSome = true → prior.previousFrame.isSome = true := by
  induction prfs generalizing start with
  | nil =>
      cases read
      exact linked
  | cons pr tail ih =>
      rw [readPriorMint] at read
      by_cases chain : isChainProof pr
      · rw [if_pos chain] at read
        simp only [bind_ok_iff] at read
        obtain ⟨commitment, -, _, -, _, -, third, -, read⟩ := read
        cases known : a.clockStore.getDataClockFrame filter _ true with
        | error cause =>
            rw [known] at read
            cases read
        | ok previousFrame =>
            rw [known] at read
            exact ih (fun _ => rfl) read
      · rw [if_neg chain] at read
        exact ih linked read

end Reading

-- The challenge of a mint that is in order: what was read from the store, unpacked from the request and found for its frame.
structure Reached (a : TokenApplication) (currentFrameNumber : UInt64) (t : MintCoinRequest) (frame : ClockFrame) (prfs : List PreCoinProof)
    (prior : PriorMint) (unpacked : Unpacked) (newFrame : ClockFrame) : Prop where
  read : readPriorMint a frame.filter prfs noPriorMint = .ok (some prior)
  unpack : unpackAndVerifyMultiOutput a.prim prior.commitment t.proofs = .ok unpacked
  onTime : ¬ (notAfterPrevious prior unpacked = true ∨ unpacked.frameNumber < currentFrameNumber - 1)
  challenged : isChallenged t prior unpacked = true
  known : a.clockStore.getDataClockFrame frame.filter unpacked.frameNumber true = .ok newFrame

theorem reached_unique {prior' : PriorMint} {unpacked' : Unpacked} {newFrame' : ClockFrame}
    (first : Reached a currentFrameNumber t frame prfs prior unpacked newFrame)
    (second : Reached a currentFrameNumber t frame prfs prior' unpacked' newFrame') :
    prior = prior' ∧ unpacked = unpacked' ∧ newFrame = newFrame' := by
  cases first.read.symm.trans second.read
  cases first.unpack.symm.trans second.unpack
  cases first.known.symm.trans second.known
  exact ⟨rfl, rfl, rfl⟩

theorem chain_returns_iff (currentFrameNumber : UInt64) (t : MintCoinRequest) (frame : ClockFrame) {owner : Bytes}
    (listed : a.coinStore.getPreCoinProofsForOwner owner = .ok prfs) {check : ClockFrame → PriorMint → UInt32 → Go (Option Bool)} :
    Returns (preProcessChain a currentFrameNumber t frame owner (unpackAndVerifyMultiOutput a.prim) check PriorMint.commitment) ↔
      StoredSized a frame.filter prfs ∧
        (∀ prior, readPriorMint a frame.filter prfs noPriorMint = .ok (some prior) →
          Returns (unpackAndVerifyMultiOutput a.prim prior.commitment t.proofs)) ∧
        ∀ prior unpacked newFrame, Reached a currentFrameNumber t frame prfs prior unpacked newFrame →
          Returns (check newFrame prior unpacked.modulo) := by
  rw [preProcessChain, listed, ← read_prior_returns_iff a frame.filter prfs noPriorMint]
  change Returns (readPriorMint a frame.filter prfs noPriorMint >>= _) ↔ _
  rw [returns_bind_iff]
  refine and_congr_right fun _ => ?_
  constructor
  · intro rest
    refine ⟨fun prior read => ?_, fun prior unpacked newFrame reached => ?_⟩
    · have chain := rest (some prior) read
      simp only [returns_bind_iff, returns_attempt_iff] at chain
      exact chain.1
    · have chain := rest (some prior) reached.read
      simp only [reached.unpack, attempt, ok_bind, failIf, if_neg reached.onTime, returns_bind_iff] at chain
      have checked := chain.1
      rw [checkChallenge, if_pos reached.challenged, reached.known] at checked
      exact checked
  · intro rest result read
    cases result with
    | none => trivial
    | some prior =>
        rw [returns_bind_iff, returns_attempt_iff]
        refine ⟨rest.1 prior read, fun tried ran => ?_⟩
        rcases (attempt_ok_iff _ _).mp ran with ⟨unpacked, unpack, isTried⟩ | ⟨cause, -, isTried⟩
        · rw [isTried]
          by_cases late : notAfterPrevious prior unpacked = true ∨ unpacked.frameNumber < currentFrameNumber - 1
          · simp only [failIf, if_pos late]
            trivial
          · simp only [failIf, if_neg late, ok_bind]
            rw [returns_bind_iff]
            refine ⟨?_, fun answer _ => by cases answer <;> trivial⟩
            rw [checkChallenge]
            by_cases challenged : isChallenged t prior unpacked = true
            · rw [if_pos challenged]
              cases known : a.clockStore.getDataClockFrame frame.filter unpacked.frameNumber true with
              | error cause => trivial
              | ok newFrame => exact rest.2 prior unpacked newFrame ⟨read, unpack, late, challenged, known⟩
            · rw [if_neg challenged]
              trivial
        · rw [isTried]
          trivial

theorem unpack_count {output : List Bytes} (more : 3 < output.length)
    (done : unpackAndVerifyMultiOutput prim previousRoot output = .ok unpacked) :
    output.length = 5 + (len64 (unpacked.modulo.toUInt64 - 1) + (len64 (unpacked.modulo.toUInt64 - 1) - 1)) := by
  simp only [unpackAndVerifyMultiOutput, unpackAndVerify, bind_ok_iff, fail_if_ok_iff] at done
  obtain ⟨_, -, treeRoot, -, modulo, -, frameNumber, -, done⟩ := done
  rw [if_pos more] at done
  simp only [bind_ok_iff, fail_if_ok_iff] at done
  obtain ⟨_, counted, siblings, -, path, -, leaf, -, verified, -, result⟩ := done
  rw [← Except.ok.inj result]
  exact not_not.mp counted

theorem check_enough (reached : Reached a currentFrameNumber t frame prfs prior unpacked newFrame) (several : 2 ≤ unpacked.modulo)
    (draws : ∀ data, Draws a.prim (a.prim.sha3Sum256 data) unpacked.modulo.toUInt64) :
    ∃ enough, ∀ fuel, enough ≤ fuel → Returns (checkMultiChallenge a fuel peerId t frame newFrame prior unpacked.modulo) := by
  have challenged := reached.challenged
  rw [isChallenged, Bool.and_eq_true, Bool.and_eq_true, decide_eq_true_eq] at challenged
  have count := unpack_count challenged.2 reached.unpack
  have linked := read_prior_previous a frame.filter (fun none => by cases none) reached.read challenged.1.2
  obtain ⟨previousFrame, isPrevious⟩ := Option.isSome_iff_exists.mp linked
  obtain ⟨enough, picks⟩ := challenge_picks_enough a.prim t.proofs unpacked.modulo newFrame.output prior.commitment several (by omega) (draws _)
  refine ⟨enough, fun fuel least => ?_⟩
  obtain ⟨picked, drawn⟩ := picks fuel least
  rw [checkMultiChallenge, drawn, ok_bind, isPrevious]
  trivial

theorem check_stuck (few : ¬ 2 ≤ parallelism) : ¬ Returns (checkMultiChallenge a fuel peerId t frame newFrame prior parallelism) := by
  rw [checkMultiChallenge, returns_bind_iff]
  exact fun returns => challenge_picks_stuck few returns.1

-- The element that the path is read from, where the number of elements is the one that the parallelism asks for.
def PathSized (t : MintCoinRequest) : Prop :=
  3 < t.proofs.length → t.proofs.length = 5 + (siblingsOf t.proofs + (siblingsOf t.proofs - 1)) →
    4 ≤ (t.proofs.getD (3 + siblingsOf t.proofs) []).length

structure MintSafe (a : TokenApplication) (currentFrameNumber : UInt64) (t : MintCoinRequest) (frame : ClockFrame) (prfs : List PreCoinProof) :
    Prop where
  stored : StoredSized a frame.filter prfs
  path : ∀ prior, readPriorMint a frame.filter prfs noPriorMint = .ok (some prior) → PathSized t
  several : ∀ prior unpacked newFrame, Reached a currentFrameNumber t frame prfs prior unpacked newFrame → 2 ≤ unpacked.modulo

structure HeadSized (t : MintCoinRequest) : Prop where
  many : 3 ≤ t.proofs.length
  modulo : (t.proofs.getD 1 []).length = 4
  number : (t.proofs.getD 2 []).length = 8

theorem unpack_returns_sized (head : HeadSized t) : Returns (unpackAndVerifyMultiOutput prim previousRoot t.proofs) ↔ PathSized t := by
  have sized : Returns (unpackAndVerifyMultiOutput prim previousRoot t.proofs) ↔ ElementsSized (fun n => 5 + (n + (n - 1))) t.proofs := by
    apply unpack_returns_iff
    · intro n
      omega
    · intro n counted
      exact ⟨_, index_get [] (by omega)⟩
  rw [sized, ElementsSized, PathSized]
  have four := head.modulo
  have eight := head.number
  exact ⟨fun all => (all head.many).2.2, fun path _ => ⟨by omega, by omega, path⟩⟩

section Preprocessing

variable (a : TokenApplication) (currentFrameNumber : UInt64) (t : MintCoinRequest) (frame : ClockFrame) (owner peerId : Bytes)
variable (prfs : List PreCoinProof) (listed : a.coinStore.getPreCoinProofsForOwner owner = .ok prfs) (head : HeadSized t)

include listed head

theorem chain_unsafe_never (risky : ¬ MintSafe a currentFrameNumber t frame prfs) :
    ¬ Returns (preProcessChain a currentFrameNumber t frame owner (unpackAndVerifyMultiOutput a.prim)
      (checkMultiChallenge a fuel peerId t frame) PriorMint.commitment) := by
  rw [chain_returns_iff currentFrameNumber t frame listed]
  intro returns
  refine risky ⟨returns.1, fun prior read => ?_, fun prior unpacked newFrame reached => ?_⟩
  · exact (unpack_returns_sized head).mp (returns.2.1 prior read)
  · by_contra few
    exact check_stuck few (returns.2.2 prior unpacked newFrame reached)

theorem chain_safe_enough (safe : MintSafe a currentFrameNumber t frame prfs)
    (draws : 2 ≤ mintModulo t → ∀ data, Draws a.prim (a.prim.sha3Sum256 data) (mintModulo t).toUInt64) :
    ∃ enough, ∀ fuel, enough ≤ fuel → Returns (preProcessChain a currentFrameNumber t frame owner (unpackAndVerifyMultiOutput a.prim)
      (checkMultiChallenge a fuel peerId t frame) PriorMint.commitment) := by
  have rest : ∃ enough, ∀ fuel, enough ≤ fuel → ∀ prior unpacked newFrame, Reached a currentFrameNumber t frame prfs prior unpacked newFrame →
      Returns (checkMultiChallenge a fuel peerId t frame newFrame prior unpacked.modulo) := by
    by_cases any : ∃ prior unpacked newFrame, Reached a currentFrameNumber t frame prfs prior unpacked newFrame
    · obtain ⟨prior, unpacked, newFrame, reached⟩ := any
      have several := safe.several prior unpacked newFrame reached
      obtain ⟨-, sameModulo, -⟩ := unpack_mint reached.unpack
      obtain ⟨enough, returns⟩ := check_enough reached several (by
        rw [sameModulo] at several ⊢
        exact draws several)
      refine ⟨enough, fun fuel least prior' unpacked' newFrame' reached' => ?_⟩
      obtain ⟨samePrior, sameUnpacked, sameFrame⟩ := reached_unique reached' reached
      rw [samePrior, sameUnpacked, sameFrame]
      exact returns fuel least
    · exact ⟨0, fun fuel _ prior unpacked newFrame reached => absurd ⟨prior, unpacked, newFrame, reached⟩ any⟩
  obtain ⟨enough, returns⟩ := rest
  refine ⟨enough, fun fuel least => ?_⟩
  rw [chain_returns_iff currentFrameNumber t frame listed]
  exact ⟨safe.stored, fun prior read => (unpack_returns_sized head).mpr (safe.path prior read), returns fuel least⟩

end Preprocessing

theorem returned_returns {α : Type} {result : Except GoError α} : Returns (returned result) := by
  cases result <;> trivial

theorem hash_address_returns {message : Bytes} : Returns (hashAddress prim message) :=
  (returns_bind_iff _ _).mpr ⟨returned_returns, fun _ _ => trivial⟩

theorem peer_id_returns {key : Bytes} : Returns (peerIDOfKey prim key) := by
  refine (returns_bind_iff _ _).mpr ⟨?_, fun _ _ => returned_returns⟩
  rw [unmarshalEd448PublicKey]
  by_cases wrong : key.length ≠ 57
  · rw [if_pos wrong]
    trivial
  · rw [if_neg wrong]
    trivial

-- Whatever the stored proofs of the mint's owner are, if the mint gets as far as reading them.
def MintSound (a : TokenApplication) (currentFrameNumber : UInt64) (t : MintCoinRequest) (frame : ClockFrame) : Prop :=
  ∀ key addr owner prfs, signerKey t.signature = .ok key → hashAddress a.prim key = .ok addr → peerAddress a.prim key = .ok owner →
    a.coinStore.getPreCoinProofsForOwner owner = .ok prfs → MintSafe a currentFrameNumber t frame prfs

-- A hash that goes back and forth between two digests, so that both residues of two are drawn again and again.
def evenDigest : Digest := ⟨0 :: List.replicate 31 0, rfl⟩

def oddDigest : Digest := ⟨[0, 0, 0, 0, 0, 0, 0, 1] ++ List.replicate 24 0, rfl⟩

def swingingPrimitives : Primitives :=
  { samplePrimitives with sha3Sum256 := fun data => if data = evenDigest.bytes then oddDigest else evenDigest }

theorem swinging_returns {n : Nat} : (rehash swingingPrimitives)^[2 * n] evenDigest = evenDigest ∧
    (rehash swingingPrimitives)^[2 * n + 1] evenDigest = oddDigest ∧ (rehash swingingPrimitives)^[2 * n] oddDigest = oddDigest ∧
      (rehash swingingPrimitives)^[2 * n + 1] oddDigest = evenDigest := by
  have even : rehash swingingPrimitives evenDigest = oddDigest := rfl
  have odd : rehash swingingPrimitives oddDigest = evenDigest := rfl
  induction n with
  | zero => exact ⟨rfl, even, rfl, odd⟩
  | succ n ih =>
      have next : 2 * (n + 1) = 2 * n + 1 + 1 := by omega
      rw [next, Function.iterate_succ_apply' _ (2 * n + 1 + 1), Function.iterate_succ_apply' _ (2 * n + 1 + 1),
        Function.iterate_succ_apply' _ (2 * n + 1), Function.iterate_succ_apply' _ (2 * n + 1), ih.2.1, ih.2.2.2, even, odd]
      exact ⟨rfl, even, rfl, odd⟩

theorem swinging_draws (data : Bytes) : Draws swingingPrimitives (swingingPrimitives.sha3Sum256 data) 2 := by
  have drawEven : bytesToUnbiasedMod 0 evenDigest 2 = .ok 0 := by decide +kernel
  have drawOdd : bytesToUnbiasedMod 0 oddDigest 2 = .ok 1 := by decide +kernel
  have two : ∀ pick : UInt64, pick < 2 → pick = 0 ∨ pick = 1 := by
    intro pick small
    rw [← UInt64.toNat_inj, ← UInt64.toNat_inj]
    have bound := UInt64.lt_iff_toNat_lt.mp small
    have isTwo : (2 : UInt64).toNat = 2 := rfl
    have isOne : (1 : UInt64).toNat = 1 := rfl
    have isZero : (0 : UInt64).toNat = 0 := rfl
    omega
  have start : swingingPrimitives.sha3Sum256 data = evenDigest ∨ swingingPrimitives.sha3Sum256 data = oddDigest := by
    by_cases same : data = evenDigest.bytes
    · exact .inr (if_pos same)
    · exact .inl (if_neg same)
  constructor
  · intro i
    obtain ⟨n, parity⟩ : ∃ n, i = 2 * n ∨ i = 2 * n + 1 := ⟨i / 2, by omega⟩
    obtain ⟨a, b, c, d⟩ := swinging_returns
    rcases start with isEven | isOdd
    · rw [isEven]
      rcases parity with even | odd
      · exact ⟨0, 0, by rw [even, a, drawEven]⟩
      · exact ⟨0, 1, by rw [odd, b, drawOdd]⟩
    · rw [isOdd]
      rcases parity with even | odd
      · exact ⟨0, 1, by rw [even, c, drawOdd]⟩
      · exact ⟨0, 0, by rw [odd, d, drawEven]⟩
  · intro pick small n
    obtain ⟨a, b, c, d⟩ := swinging_returns
    rcases start with isEven | isOdd
    · rw [isEven]
      rcases two pick small with zero | one
      · exact ⟨2 * n, by omega, 0, by rw [a, drawEven, zero]⟩
      · exact ⟨2 * n + 1, by omega, 0, by rw [b, drawOdd, one]⟩
    · rw [isOdd]
      rcases two pick small with zero | one
      · exact ⟨2 * n + 1, by omega, 0, by rw [d, drawEven, zero]⟩
      · exact ⟨2 * n, by omega, 0, by rw [c, drawOdd, one]⟩

def swingingApplication : TokenApplication := { sampleApplication with prim := swingingPrimitives }

def reachedModulo (a : TokenApplication) (currentFrameNumber : UInt64) (t : MintCoinRequest) (frame : ClockFrame) (prfs : List PreCoinProof) :
    Option UInt32 :=
  match readPriorMint a frame.filter prfs noPriorMint with
  | .ok (some prior) =>
      match unpackAndVerifyMultiOutput a.prim prior.commitment t.proofs with
      | .ok unpacked =>
          if ¬ (notAfterPrevious prior unpacked = true ∨ unpacked.frameNumber < currentFrameNumber - 1) ∧ isChallenged t prior unpacked = true ∧
              (a.clockStore.getDataClockFrame frame.filter unpacked.frameNumber true).isOk = true then some unpacked.modulo
          else none
      | .error _ => none
  | _ => none

theorem reached_of_modulo {modulo : UInt32} (evaluated : reachedModulo a currentFrameNumber t frame prfs = some modulo) :
    ∃ prior unpacked newFrame, Reached a currentFrameNumber t frame prfs prior unpacked newFrame ∧ unpacked.modulo = modulo := by
  rw [reachedModulo] at evaluated
  rcases read : readPriorMint a frame.filter prfs noPriorMint with fault | _ | prior
  · rw [read] at evaluated
    cases evaluated
  · rw [read] at evaluated
    cases evaluated
  · rw [read] at evaluated
    simp only at evaluated
    rcases unpack : unpackAndVerifyMultiOutput a.prim prior.commitment t.proofs with fault | unpacked
    · rw [unpack] at evaluated
      cases evaluated
    · rw [unpack] at evaluated
      simp only at evaluated
      split at evaluated
      · rename_i reached
        rcases known : a.clockStore.getDataClockFrame frame.filter unpacked.frameNumber true with cause | newFrame
        · rw [known] at reached
          cases reached.2.2
        · exact ⟨prior, unpacked, newFrame, ⟨read, unpack, reached.1, reached.2.1, known⟩, Option.some.inj evaluated⟩
      · cases evaluated

-- A first mint with a parallelism, and a second one that answers the challenge on the first root.
def parallelMint (parallelism : Nat) (root : Bytes) (frameNumber : Nat) (answer : List Bytes) : MintCoinRequest :=
  ⟨[root, beBytes 4 parallelism, beBytes 8 frameNumber] ++ answer, none,
    sampleSignature (ascii ['m', 'i', 'n', 't'] ++ ([root, beBytes 4 parallelism, beBytes 8 frameNumber] ++ answer).flatten)⟩

def parallelProcessed (parallelism : UInt32) (root : Bytes) : ProcessedMint :=
  ⟨false, false, none, parallelism, [], root, 4, sampleProver, false, true, true⟩

def parallelProof (parallelism : Nat) (root : Bytes) : PreCoinProof :=
  mintProof sampleApplication (parallelMint parallelism root 4 []) (parallelProcessed (UInt32.ofNat parallelism) root) sampleProver []

def mintedApplication (proof : PreCoinProof) : TokenApplication :=
  { sampleApplication with coinStore := ⟨sampleApplication.coinStore.getCoinByAddress, fun _ => .ok [proof]⟩ }

-- With 64 siblings any root that was hashed up from a leaf in 64 steps is opened.
def deepRoot : Bytes := sampleMerkleRoot [1] (List.replicate 64 []) 0

def deepAnswer : List Bytes := List.replicate 64 [] ++ [beBytes 4 0, [1]] ++ List.replicate 63 []

theorem parallel_unsafe (parallelism : Nat) (root : Bytes) (answer : List Bytes) (modulo : UInt32) (small : ¬ 2 ≤ modulo)
    (evaluated : reachedModulo (mintedApplication (parallelProof parallelism root)) 6 (parallelMint parallelism (List.replicate 32 8) 5 answer)
      (sampleFrame 5) [parallelProof parallelism root] = some modulo)
    (valid : MintCoinRequest.validate samplePrimitives (some (parallelMint parallelism (List.replicate 32 8) 5 answer)) = .ok ()) (fuel : Nat) :
    ¬ Returns (preProcessMint (mintedApplication (parallelProof parallelism root)) fuel 6 (parallelMint parallelism (List.replicate 32 8) 5 answer)
      (sampleFrame 5)) := by
  obtain ⟨prior, unpacked, newFrame, reached, isModulo⟩ := reached_of_modulo evaluated
  have many : 1 < (parallelMint parallelism (List.replicate 32 8) 5 answer).proofs.length := by
    rw [parallelMint, List.length_append]
    simp
    omega
  rw [pre_process_mint_chain (mintedApplication (parallelProof parallelism root)) fuel 6 _ (sampleFrame 5) sampleKey valid rfl (show peerIDOfKey samplePrimitives sampleKey = .ok samplePeerId by decide +kernel)
    (show hashAddress samplePrimitives sampleKey = .ok sampleAddress by decide +kernel)
    (show hashAddress samplePrimitives samplePeerId = .ok sampleProver by decide +kernel) many UInt64.zero_le]
  rw [chain_returns_iff _ _ _ rfl]
  intro returns
  refine check_stuck ?_ (returns.2.2 prior unpacked newFrame reached)
  rw [isModulo]
  exact small

end Ceremony
