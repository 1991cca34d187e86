import CeremonyClient.Protobufs.Validation
import CeremonyClient.Tries.ProofLeaf
import CeremonyClient.Token.Coins

set_option autoImplicit false

namespace Ceremony

open GoSem

variable {a : TokenApplication} {currentFrameNumber : UInt64} {t : MintCoinRequest} {frame : ClockFrame} {altAddrBytes : Bytes}
  {unpack : Bytes → List Bytes → Go Unpacked}

-- The index of the first, or last, ring that contains an address, and -1 for none.
def firstRing (rings : List RollingFrecencyCritbitTrie) (address : Bytes) : Int :=
  match rings.findIdx? fun ring => ring.contains address with
  | some i => i
  | none => -1

def lastRing (rings : List RollingFrecencyCritbitTrie) (address : Bytes) : Int :=
  rings.zipIdx.foldl (fun ring entry => if entry.1.contains address then (entry.2 : Int) else ring) (-1)

-- What both lookups answer when the rings may overlap: some ring that contains the address.
def RingFound (rings : List RollingFrecencyCritbitTrie) (address : Bytes) (found : Int) : Prop :=
  (found = -1 ∧ ∀ ring ∈ rings, ring.contains address = false) ∨
    ∃ i ring, found = (i : Nat) ∧ rings[i]? = some ring ∧ ring.contains address = true

theorem first_ring_found (rings : List RollingFrecencyCritbitTrie) (address : Bytes) :
    RingFound rings address (firstRing rings address) := by
  rw [firstRing]
  cases found : rings.findIdx? fun ring => ring.contains address with
  | none => exact Or.inl ⟨rfl, by simpa using List.findIdx?_eq_none_iff.mp found⟩
  | some i =>
      obtain ⟨bound, holds, -⟩ := List.findIdx?_eq_some_iff_getElem.mp found
      exact Or.inr ⟨i, rings[i], rfl, List.getElem?_eq_getElem bound, holds⟩

theorem last_ring_append {rings : List RollingFrecencyCritbitTrie} {last : RollingFrecencyCritbitTrie} {address : Bytes} :
    lastRing (rings ++ [last]) address = if last.contains address then (rings.length : Int) else lastRing rings address := by
  simp [lastRing, List.zipIdx_append]

theorem last_ring_found (rings : List RollingFrecencyCritbitTrie) (address : Bytes) :
    RingFound rings address (lastRing rings address) := by
  induction rings using List.reverseRecOn with
  | nil => exact Or.inl ⟨rfl, by simp⟩
  | append_singleton rings last ih =>
      rw [last_ring_append]
      cases present : last.contains address with
      | true => exact Or.inr ⟨rings.length, last, rfl, by simp, present⟩
      | false =>
          rw [if_neg Bool.false_ne_true]
          rcases ih with ⟨outside, none⟩ | ⟨i, ring, inside, isRing, holds⟩
          · refine Or.inl ⟨outside, fun ring member => ?_⟩
            rcases List.mem_append.mp member with old | new
            · exact none ring old
            · rw [List.mem_singleton.mp new]; exact present
          · have bound : i < rings.length := (List.getElem?_eq_some_iff.mp isRing).1
            exact Or.inr ⟨i, ring, inside, by rw [List.getElem?_append_left bound]; exact isRing, holds⟩

-- len(t.Proofs) >= 3 && len(t.Proofs[1]) == 4: four bytes are always a number.
def mintParallelism (t : MintCoinRequest) : Option UInt32 :=
  match t.proofs with
  | _ :: parallelism :: _ :: _ =>
      if parallelism.length = 4 then some (UInt32.ofNat (setBytes parallelism)) else none
  | _ => none

-- The ring lookup is a callback that may keep state of its own, also when the request
-- is refused after it ran.
def ringAndParallelism {σ : Type} (prim : Primitives) (t : MintCoinRequest) (ringCalc : σ → Bytes → Go (Int × σ)) (state : σ) :
    Go (Option (Int × UInt32) × σ) := do
  let key ← signerKey t.signature
  match ← attempt (peerAddress prim key) with
  | .error _ => return (none, state)
  | .ok address =>
      let (ring, state) ← ringCalc state address
      return (if ring = -1 then none else (mintParallelism t).map fun parallelism => (ring, parallelism), state)

theorem ring_and_parallelism_ok_iff {σ : Type} (prim : Primitives) (t : MintCoinRequest) (ringCalc : σ → Bytes → Go (Int × σ))
    (state after : σ) {found : Option (Int × UInt32)} :
    ringAndParallelism prim t ringCalc state = .ok (found, after) ↔ ∃ key, signerKey t.signature = .ok key ∧
      ((∃ cause, peerAddress prim key = raise cause) ∧ found = none ∧ after = state ∨
       ∃ address ring, peerAddress prim key = .ok address ∧ ringCalc state address = .ok (ring, after) ∧
         found = if ring = -1 then none else (mintParallelism t).map fun parallelism => (ring, parallelism)) := by
  rw [ringAndParallelism, bind_ok_iff]
  refine exists_congr fun key => and_congr_right fun _ => ?_
  rcases peerAddress prim key with (cause | _ | _) | address
  · simp [attempt, raise, pure, Except.pure, eq_comm]
  · simp [attempt, raise]
  · simp [attempt, raise]
  · simp only [attempt, ok_bind, bind_ok_iff, pure, Except.pure, Except.ok.injEq, Prod.mk.injEq, Prod.exists, raise,
      reduceCtorEq]
    constructor
    · rintro ⟨ring, next, ran, same, last⟩
      exact Or.inr ⟨address, ring, rfl, last ▸ ran, same.symm⟩
    · rintro (⟨⟨_, impossible⟩, -⟩ | ⟨_, ring, rfl, ran, same⟩)
      · exact impossible.elim
      · exact ⟨ring, after, ran, same.symm, rfl⟩

structure ProcessedMint where
  isPre2 : Bool
  penalty : Bool
  deletedProof : Option PreCoinProof
  parallelism : UInt32
  priorCommitment : Bytes
  newCommitment : Bytes
  newFrameNumber : UInt64
  implicitAddr : Bytes
  validForReward : Bool
  treeVerified : Bool
  wesoVerified : Bool
deriving DecidableEq

def pre2Mint : ProcessedMint := ⟨true, false, none, 0, [], [], 0, [], false, false, false⟩

def penalizedMint : ProcessedMint := ⟨false, true, none, 0, [], [], 0, [], false, false, false⟩

structure PriorMint where
  delete : Option PreCoinProof
  commitment : Bytes
  previousFrame : Option ClockFrame
  previousParallelism : UInt32
  priorCommitment : Bytes

def noPriorMint : PriorMint := ⟨none, [], none, 0, []⟩

def isChainProof (pr : PreCoinProof) : Prop :=
  pr.proof.length ≥ 3 ∧ (pr.commitment.length = 40 ∨ pr.commitment.length = 72)

instance (pr : PreCoinProof) : Decidable (isChainProof pr) := inferInstanceAs (Decidable (_ ∧ _))

-- A commitment of 40 bytes has no third part.
def thirdPart (commitment kept : Bytes) : Go Bytes := if commitment.length > 40 then sliceFrom commitment 40 else .ok kept

-- A prior commitment stays when the later proof has none. An unknown frame ends the mint with a penalty: none.
def readPriorMint (a : TokenApplication) (filter : Bytes) : List PreCoinProof → PriorMint → Go (Option PriorMint)
  | [], prior => .ok (some prior)
  | pr :: tail, prior =>
      if isChainProof pr then do
        let commitment ← slice pr.commitment 0 32
        let previousFrameNumber ← (slice pr.commitment 32 40 >>= beUint64)
        let previousParallelism ← (slice pr.proof 36 40 >>= beUint32)
        let priorCommitment ← thirdPart pr.commitment prior.priorCommitment
        match a.clockStore.getDataClockFrame filter previousFrameNumber true with
        | .error _ => return none
        | .ok previousFrame =>
            readPriorMint a filter tail ⟨some pr, commitment, some previousFrame, previousParallelism, priorCommitment⟩
      else readPriorMint a filter tail prior

def verifyChallengeProof (prim : Primitives) (challenge : Bytes) (difficulty : UInt32) (proof : Bytes) : Bool :=
  if proof.length ≠ 516 then false else prim.wesolowskiVerify (prim.sha3Sum256 challenge) difficulty proof

-- A leaf of the wrong size ends the mint with a penalty: none. A leaf that does not
-- verify only clears the flag.
def verifyLeaves (verify : UInt64 → Bytes → Bool) : List (UInt64 × Bytes) → Bool → Option Bool
  | [], wesoVerified => some wesoVerified
  | (pick, leaf) :: tail, wesoVerified =>
      if leaf.length ≠ 516 then none
      else verifyLeaves verify tail (wesoVerified && leaf != List.replicate 516 0 && verify pick leaf)

def mintPicks (prim : Primitives) (loopFuel : Nat) (proofs : List Bytes) (parallelism : UInt64) :
    Nat → (hash : Digest) → (additional : Nat) → (picks : List UInt64) → (outputs : List Bytes) → Go (List UInt64 × List Bytes)
  | _, _, 0, picks, outputs => .ok (picks, outputs)
  | 0, _, _ + 1, _, _ => .error .outOfFuel
  | fuel + 1, hash, additional + 1, picks, outputs => do
      let hash := prim.sha3Sum256 hash.bytes
      let pick ← bytesToUnbiasedMod loopFuel hash parallelism
      if pick ∈ picks then mintPicks prim loopFuel proofs parallelism fuel hash (additional + 1) picks outputs
      else
        let leaf ← indexFromEnd proofs (additional + 1)
        mintPicks prim loopFuel proofs parallelism fuel hash additional (picks ++ [pick]) (outputs ++ [leaf])

-- With a parallelism of one, additional is -1 and the first element read is past the end of the list.
def challengePicks (prim : Primitives) (fuel : Nat) (proofs : List Bytes) (parallelism : UInt32) (newOutput commitment : Bytes) :
    Go (List UInt64 × List Bytes) := do
  let hash := prim.sha3Sum256 (newOutput ++ commitment)
  let pick ← bytesToUnbiasedMod fuel hash parallelism.toUInt64
  let siblings := len64 (parallelism.toUInt64 - 1)
  let leaf ← indexFromEnd proofs siblings
  mintPicks prim fuel proofs parallelism.toUInt64 fuel hash (siblings - 1) [pick] [leaf]

def leafChallenge (peerId : Bytes) (previousFrame : ClockFrame) (pick : UInt64) (priorCommitment : Bytes) : Bytes :=
  appendUint32 (appendUint64 peerId previousFrame.frameNumber) pick.toUInt32 ++ previousFrame.output ++ priorCommitment

def checkMultiChallenge (a : TokenApplication) (fuel : Nat) (peerId : Bytes) (t : MintCoinRequest) (frame newFrame : ClockFrame)
    (prior : PriorMint) (parallelism : UInt32) : Go (Option Bool) := do
  let (picks, outputs) ← challengePicks a.prim fuel t.proofs parallelism newFrame.output prior.commitment
  let previousFrame ← deref prior.previousFrame
  let verify := fun pick leaf =>
    verifyChallengeProof a.prim (leafChallenge peerId previousFrame pick prior.priorCommitment) frame.difficulty leaf
  return verifyLeaves verify (picks.zip outputs) true

def checkSingleChallenge (a : TokenApplication) (fuel : Nat) (peerId : Bytes) (t : MintCoinRequest) (frame newFrame : ClockFrame)
    (prior : PriorMint) (parallelism : UInt32) : Go (Option Bool) := do
  let hash := a.prim.sha3Sum256 newFrame.output
  let pick ← bytesToUnbiasedMod fuel hash parallelism.toUInt64
  let previousFrame ← deref prior.previousFrame
  let leaf ← indexFromEnd t.proofs 1
  let verify := fun pick leaf =>
    verifyChallengeProof a.prim (leafChallenge peerId previousFrame pick []) frame.difficulty leaf
  return verifyLeaves verify [(pick, leaf)] true

-- The tree proof counts only when the parallelism did not change since the last mint.
def chainVerified (prior : PriorMint) (unpacked : Unpacked) : Bool :=
  if prior.previousParallelism ≠ 0 ∧ prior.previousParallelism ≠ unpacked.modulo then false else unpacked.verified

def notAfterPrevious (prior : PriorMint) (unpacked : Unpacked) : Bool :=
  match prior.previousFrame with
  | some previousFrame => decide (unpacked.frameNumber ≤ previousFrame.frameNumber)
  | none => false

def isChallenged (t : MintCoinRequest) (prior : PriorMint) (unpacked : Unpacked) : Bool :=
  chainVerified prior unpacked && prior.delete.isSome && decide (t.proofs.length > 3)

def checkChallenge (a : TokenApplication) (t : MintCoinRequest) (frame : ClockFrame) (prior : PriorMint) (unpacked : Unpacked)
    (check : (newFrame : ClockFrame) → (prior : PriorMint) → (parallelism : UInt32) → Go (Option Bool)) : Go (Option Bool) :=
  if isChallenged t prior unpacked then
    match a.clockStore.getDataClockFrame frame.filter unpacked.frameNumber true with
    | .error _ => .ok none
    | .ok newFrame => check newFrame prior unpacked.modulo
  else .ok (some true)

-- The two generations of mint proofs, before and from PROOF_FRAME_COMBINE_CUTOFF on.
def preProcessChain (a : TokenApplication) (currentFrameNumber : UInt64) (t : MintCoinRequest) (frame : ClockFrame)
    (altAddrBytes : Bytes) (unpack : (previousRoot : Bytes) → (output : List Bytes) → Go Unpacked)
    (check : (newFrame : ClockFrame) → (prior : PriorMint) → (parallelism : UInt32) → Go (Option Bool))
    (keptCommitment : PriorMint → Bytes) : Go ProcessedMint := do
  let prfs ← replaceErr (errInvalidStateTransition.wrap "pre process mint")
    (returned (a.coinStore.getPreCoinProofsForOwner altAddrBytes))
  match ← readPriorMint a frame.filter prfs noPriorMint with
  | none => return penalizedMint
  | some prior =>
      match ← attempt (unpack prior.commitment t.proofs) with
      | .error _ => return penalizedMint
      | .ok unpacked =>
          failIf (notAfterPrevious prior unpacked = true ∨ unpacked.frameNumber < currentFrameNumber - 1)
            (errInvalidStateTransition.wrap "handle mint")
          match ← checkChallenge a t frame prior unpacked check with
          | none => return penalizedMint
          | some wesoVerified =>
              return ⟨false, false, prior.delete, unpacked.modulo, keptCommitment prior, unpacked.treeRoot,
                unpacked.frameNumber, altAddrBytes, isChallenged t prior unpacked && wesoVerified,
                chainVerified prior unpacked, wesoVerified⟩

-- len(t.Proofs) == 1 && a.Tries[0].Contains(addr) && key == a.Beacon, left to right.
def isBeaconMint (a : TokenApplication) (t : MintCoinRequest) (key addrBytes : Bytes) : Go Bool :=
  if t.proofs.length = 1 then do
    let beacons ← index a.tries 0
    return beacons.contains addrBytes && key == a.beacon
  else .ok false

def preProcessMint (a : TokenApplication) (fuel : Nat) (currentFrameNumber : UInt64) (t : MintCoinRequest)
    (frame : ClockFrame) : Go ProcessedMint := do
  let invalid := errInvalidStateTransition.wrap "pre process mint"
  replaceErr invalid (MintCoinRequest.validate a.prim (some t))
  let key ← signerKey t.signature
  let peerId ← replaceErr invalid (peerIDOfKey a.prim key)
  let addrBytes ← replaceErr invalid (hashAddress a.prim key)
  let altAddrBytes ← replaceErr invalid (hashAddress a.prim peerId)
  let beacon ← isBeaconMint a t key addrBytes
  if beacon then return pre2Mint
  else if t.proofs.length > 0 ∧ currentFrameNumber > PROOF_FRAME_CUTOFF ∧ currentFrameNumber < PROOF_FRAME_COMBINE_CUTOFF then
    preProcessChain a currentFrameNumber t frame altAddrBytes (unpackAndVerifyOutput a.prim)
      (checkSingleChallenge a fuel peerId t frame) fun _ => []
  else if t.proofs.length > 0 ∧ currentFrameNumber ≥ PROOF_FRAME_COMBINE_CUTOFF then
    preProcessChain a currentFrameNumber t frame altAddrBytes (unpackAndVerifyMultiOutput a.prim)
      (checkMultiChallenge a fuel peerId t frame) PriorMint.commitment
  else raise invalid

-- The basis divided by the ring's parallelism as an int64, times the request's own.
def rewardAmount (basis : Nat) (ringParallelism : UInt64) (parallelism : UInt32) : Int :=
  let m := if ringParallelism = 0 then 1 else ringParallelism
  Int.tdiv (basis : Int) m.toInt64.toInt * (parallelism.toNat : Int)

-- An owner without proofs is not an error.
def storedProofs (a : TokenApplication) (owner : Bytes) (invalid : GoError) : Go (List PreCoinProof) :=
  match a.coinStore.getPreCoinProofsForOwner owner with
  | .ok pr => .ok pr
  | .error cause => if errorsIs cause errNotFound then .ok [] else raise invalid

def handlePre2Mint (a : TokenApplication) (t : MintCoinRequest) (invalid : GoError) : Go (List TokenOutput) := do
  let proof ← index t.proofs 0
  failIf (proof.length ≠ 64) invalid
  let amount ← slice proof 0 32
  let owner ← sliceFrom proof 32
  let pr ← storedProofs a owner invalid
  failIf (pr.any (fun p => p.indexProof == [] && p.amount == amount) = true) invalid
  let signature ← deref t.signature
  return [.proof ⟨amount, 0, [], [], signature.signature, 0, 0, implicitOwner owner⟩,
    .coin ⟨amount, zeroIntersection, implicitOwner owner⟩]

def mintCommitment (processed : ProcessedMint) : Bytes :=
  appendUint64 processed.newCommitment processed.newFrameNumber ++ processed.priorCommitment

-- What a prover's next mint is checked against; a mint without reward leaves the amount out.
def mintProof (a : TokenApplication) (t : MintCoinRequest) (processed : ProcessedMint) (altAddrBytes storageBytes : Bytes) :
    PreCoinProof :=
  ⟨storageBytes, 0, [], mintCommitment processed, t.signatureMessage, 0, a.difficulty, implicitOwner altAddrBytes⟩

def handleMint (a : TokenApplication) (currentFrameNumber : UInt64) (t : MintCoinRequest) (processed : ProcessedMint)
    (parallelismMap : Int → UInt64) : Go (List TokenOutput) := do
  let invalid := errInvalidStateTransition.wrap "handle mint"
  let key ← signerKey t.signature
  let altAddrBytes ← replaceErr invalid (peerAddress a.prim key)
  let penalty := TokenOutput.penalty ⟨10, implicitOwner altAddrBytes⟩
  if processed.isPre2 then handlePre2Mint a t invalid
  else if t.proofs.length > 0 ∧ currentFrameNumber > PROOF_FRAME_CUTOFF then do
    let rings ← sliceFrom a.tries 1
    let ring := lastRing rings altAddrBytes
    if processed.penalty then return [penalty]
    else
      let deleted := processed.deletedProof.toList.map TokenOutput.deletedProof
      if processed.validForReward then do
        let storage := rewardAmount (a.prim.pomwBasis 1 ring currentFrameNumber) (parallelismMap ring) processed.parallelism
        let storageBytes ← fillBytes 32 storage
        return deleted ++
          [.proof (mintProof a t processed altAddrBytes storageBytes),
           .coin ⟨storageBytes, zeroIntersection, implicitOwner altAddrBytes⟩]
      else
        let punished := !processed.wesoVerified || (decide (currentFrameNumber < PROOF_FRAME_RING_RESET) && !processed.treeVerified)
        return deleted ++
          [.proof (mintProof a t processed altAddrBytes [])] ++
          (if punished then [penalty] else [])
  else raise invalid

variable {check : ClockFrame → PriorMint → UInt32 → Go (Option Bool)} {processed : ProcessedMint}

theorem pre_process_chain_cases {keptCommitment : PriorMint → Bytes}
    (done : preProcessChain a currentFrameNumber t frame altAddrBytes unpack check keptCommitment = .ok processed) :
    processed = penalizedMint ∨ ∃ prfs prior unpacked wesoVerified, a.coinStore.getPreCoinProofsForOwner altAddrBytes = .ok prfs ∧
      readPriorMint a frame.filter prfs noPriorMint = .ok (some prior) ∧ unpack prior.commitment t.proofs = .ok unpacked ∧
      ¬ (notAfterPrevious prior unpacked = true ∨ unpacked.frameNumber < currentFrameNumber - 1) ∧
      checkChallenge a t frame prior unpacked check = .ok (some wesoVerified) ∧
      processed = ⟨false, false, prior.delete, unpacked.modulo, keptCommitment prior, unpacked.treeRoot, unpacked.frameNumber,
        altAddrBytes, isChallenged t prior unpacked && wesoVerified, chainVerified prior unpacked, wesoVerified⟩ := by
  simp only [preProcessChain, bind_ok_iff, replace_err_ok_iff, returned_ok_iff] at done
  obtain ⟨prfs, stored, prior, read, done⟩ := done
  cases prior with
  | none =>
      cases done
      exact Or.inl rfl
  | some prior =>
      obtain ⟨result, tried, done⟩ := (bind_ok_iff _ _ _).mp done
      rcases (attempt_ok_iff _ _).mp tried with ⟨unpacked, ran, same⟩ | ⟨cause, -, same⟩
      · subst same
        simp only [bind_ok_iff, fail_if_ok_iff] at done
        obtain ⟨_, onTime, challenged, checked, done⟩ := done
        cases challenged with
        | none =>
            cases done
            exact Or.inl rfl
        | some wesoVerified =>
            exact Or.inr ⟨prfs, prior, unpacked, wesoVerified, stored, read, ran, onTime, checked, (Except.ok.inj done).symm⟩
      · subst same
        cases done
        exact Or.inl rfl

theorem pre_process_chain_linked (a : TokenApplication) (currentFrameNumber : UInt64) (t : MintCoinRequest) (frame : ClockFrame)
    (altAddrBytes : Bytes) (keptCommitment : PriorMint → Bytes) {prfs : List PreCoinProof} {prior : PriorMint} {unpacked : Unpacked}
    (wesoVerified : Bool) (stored : a.coinStore.getPreCoinProofsForOwner altAddrBytes = .ok prfs)
    (read : readPriorMint a frame.filter prfs noPriorMint = .ok (some prior)) (ran : unpack prior.commitment t.proofs = .ok unpacked)
    (onTime : ¬ (notAfterPrevious prior unpacked = true ∨ unpacked.frameNumber < currentFrameNumber - 1))
    (checked : checkChallenge a t frame prior unpacked check = .ok (some wesoVerified)) :
    preProcessChain a currentFrameNumber t frame altAddrBytes unpack check keptCommitment =
      .ok ⟨false, false, prior.delete, unpacked.modulo, keptCommitment prior, unpacked.treeRoot, unpacked.frameNumber,
        altAddrBytes, isChallenged t prior unpacked && wesoVerified, chainVerified prior unpacked, wesoVerified⟩ := by
  simp only [preProcessChain, stored, returned, replaceErr, mapErr, ok_bind, read, ran, attempt, failIf, if_neg onTime, checked]
  rfl

theorem pre_process_mint_cases {fuel : Nat} (done : preProcessMint a fuel currentFrameNumber t frame = .ok processed) :
    ∃ key peerId altAddrBytes, signerKey t.signature = .ok key ∧ peerIDOfKey a.prim key = .ok peerId ∧
      hashAddress a.prim peerId = .ok altAddrBytes ∧
      (t.proofs.length = 1 ∧ processed = pre2Mint ∨
       currentFrameNumber < PROOF_FRAME_COMBINE_CUTOFF ∧
         preProcessChain a currentFrameNumber t frame altAddrBytes (unpackAndVerifyOutput a.prim)
           (checkSingleChallenge a fuel peerId t frame) (fun _ => []) = .ok processed ∨
       currentFrameNumber ≥ PROOF_FRAME_COMBINE_CUTOFF ∧
         preProcessChain a currentFrameNumber t frame altAddrBytes (unpackAndVerifyMultiOutput a.prim)
           (checkMultiChallenge a fuel peerId t frame) PriorMint.commitment = .ok processed) := by
  simp only [preProcessMint, bind_ok_iff, replace_err_ok_iff] at done
  obtain ⟨_, -, key, isKey, peerId, isPeer, addrBytes, -, altAddrBytes, hashed, beacon, isBeacon, done⟩ := done
  refine ⟨key, peerId, altAddrBytes, isKey, isPeer, hashed, ?_⟩
  split at done
  · rename_i chosen
    refine Or.inl ⟨?_, (Except.ok.inj done).symm⟩
    by_contra notSingle
    rw [isBeaconMint, if_neg notSingle] at isBeacon
    cases isBeacon
    cases chosen
  · split at done
    · rename_i early
      exact Or.inr (Or.inl ⟨early.2.2, done⟩)
    · split at done
      · rename_i late
        exact Or.inr (Or.inr ⟨late.2, done⟩)
      · cases done

theorem pre_process_mint_chain (a : TokenApplication) (fuel : Nat) (currentFrameNumber : UInt64) (t : MintCoinRequest) (frame : ClockFrame)
    {peerId addrBytes : Bytes} (key : Bytes) (valid : MintCoinRequest.validate a.prim (some t) = .ok ())
    (isKey : signerKey t.signature = .ok key) (isPeer : peerIDOfKey a.prim key = .ok peerId)
    (hashed : hashAddress a.prim key = .ok addrBytes) (altHashed : hashAddress a.prim peerId = .ok altAddrBytes)
    (many : t.proofs.length > 1) (late : currentFrameNumber ≥ PROOF_FRAME_COMBINE_CUTOFF) :
    preProcessMint a fuel currentFrameNumber t frame =
      preProcessChain a currentFrameNumber t frame altAddrBytes (unpackAndVerifyMultiOutput a.prim)
        (checkMultiChallenge a fuel peerId t frame) PriorMint.commitment := by
  have notBeacon : isBeaconMint a t key addrBytes = .ok false := by rw [isBeaconMint, if_neg (by omega)]
  have notEarly : ¬ (t.proofs.length > 0 ∧ currentFrameNumber > PROOF_FRAME_CUTOFF ∧ currentFrameNumber < PROOF_FRAME_COMBINE_CUTOFF) :=
    fun early => absurd early.2.2 (UInt64.not_lt.mpr late)
  have isLate : t.proofs.length > 0 ∧ currentFrameNumber ≥ PROOF_FRAME_COMBINE_CUTOFF := ⟨by omega, late⟩
  simp only [preProcessMint, valid, isKey, isPeer, hashed, altHashed, notBeacon, replaceErr, mapErr, ok_bind, Bool.false_eq_true,
    if_false, if_neg notEarly, if_pos isLate]

theorem handle_mint_cases (a : TokenApplication) (currentFrameNumber : UInt64) (t : MintCoinRequest) (processed : ProcessedMint)
    (parallelismMap : Int → UInt64) (outputs : List TokenOutput)
    (done : handleMint a currentFrameNumber t processed parallelismMap = .ok outputs) :
    ∃ key altAddrBytes, signerKey t.signature = .ok key ∧ peerAddress a.prim key = .ok altAddrBytes ∧
      (processed.isPre2 = true ∧ handlePre2Mint a t (errInvalidStateTransition.wrap "handle mint") = .ok outputs ∨
       processed.isPre2 = false ∧ t.proofs.length > 0 ∧ currentFrameNumber > PROOF_FRAME_CUTOFF ∧
         ∃ rings, sliceFrom a.tries 1 = .ok rings ∧
           (processed.penalty = true ∧ outputs = [.penalty ⟨10, implicitOwner altAddrBytes⟩] ∨
            processed.penalty = false ∧ processed.validForReward = true ∧ (∃ storageBytes,
              fillBytes 32 (rewardAmount (a.prim.pomwBasis 1 (lastRing rings altAddrBytes) currentFrameNumber)
                (parallelismMap (lastRing rings altAddrBytes)) processed.parallelism) = .ok storageBytes ∧
              outputs = processed.deletedProof.toList.map TokenOutput.deletedProof ++
                [.proof (mintProof a t processed altAddrBytes storageBytes),
                 .coin ⟨storageBytes, zeroIntersection, implicitOwner altAddrBytes⟩]) ∨
            processed.penalty = false ∧ processed.validForReward = false ∧ ∃ punishment,
              (punishment = [] ∨ punishment = [TokenOutput.penalty ⟨10, implicitOwner altAddrBytes⟩]) ∧
              outputs = processed.deletedProof.toList.map TokenOutput.deletedProof ++
                [.proof (mintProof a t processed altAddrBytes [])] ++ punishment)) := by
  simp only [handleMint, bind_ok_iff, replace_err_ok_iff] at done
  obtain ⟨key, isKey, altAddrBytes, hashed, done⟩ := done
  refine ⟨key, altAddrBytes, isKey, hashed, ?_⟩
  cases pre2 : processed.isPre2 with
  | true =>
      rw [pre2, if_pos rfl] at done
      exact Or.inl ⟨rfl, done⟩
  | false =>
      rw [pre2, if_neg Bool.false_ne_true] at done
      split at done
      · rename_i late
        obtain ⟨rings, read, done⟩ := (bind_ok_iff _ _ _).mp done
        refine Or.inr ⟨rfl, late.1, late.2, rings, read, ?_⟩
        cases penalized : processed.penalty with
        | true =>
            rw [penalized, if_pos rfl] at done
            exact Or.inl ⟨rfl, (Except.ok.inj done).symm⟩
        | false =>
            rw [penalized, if_neg Bool.false_ne_true] at done
            cases rewarded : processed.validForReward with
            | true =>
                rw [rewarded, if_pos rfl] at done
                obtain ⟨storageBytes, filled, result⟩ := (bind_ok_iff _ _ _).mp done
                exact Or.inr (Or.inl ⟨rfl, rfl, storageBytes, filled, (Except.ok.inj result).symm⟩)
            | false =>
                rw [rewarded, if_neg Bool.false_ne_true] at done
                refine Or.inr (Or.inr ⟨rfl, rfl, _, ?_, (Except.ok.inj done).symm⟩)
                split
                · exact Or.inr rfl
                · exact Or.inl rfl
      · cases done

theorem handle_mint_rewarded (a : TokenApplication) (currentFrameNumber : UInt64) (t : MintCoinRequest) (processed : ProcessedMint)
    (parallelismMap : Int → UInt64) (key altAddrBytes storageBytes : Bytes) (rings : List RollingFrecencyCritbitTrie)
    (isKey : signerKey t.signature = .ok key) (hashed : peerAddress a.prim key = .ok altAddrBytes) (some : t.proofs.length > 0)
    (late : currentFrameNumber > PROOF_FRAME_CUTOFF) (read : sliceFrom a.tries 1 = .ok rings)
    (rewarded : processed.isPre2 = false ∧ processed.penalty = false ∧ processed.validForReward = true)
    (filled : fillBytes 32 (rewardAmount (a.prim.pomwBasis 1 (lastRing rings altAddrBytes) currentFrameNumber)
      (parallelismMap (lastRing rings altAddrBytes)) processed.parallelism) = .ok storageBytes) :
    handleMint a currentFrameNumber t processed parallelismMap =
      .ok (processed.deletedProof.toList.map TokenOutput.deletedProof ++
        [.proof (mintProof a t processed altAddrBytes storageBytes), .coin ⟨storageBytes, zeroIntersection, implicitOwner altAddrBytes⟩]) := by
  have isLate : t.proofs.length > 0 ∧ currentFrameNumber > PROOF_FRAME_CUTOFF := ⟨some, late⟩
  simp only [handleMint, isKey, hashed, read, replaceErr, mapErr, ok_bind, rewarded, Bool.false_eq_true, if_false, if_true,
    if_pos isLate, filled]
  rfl

end Ceremony
