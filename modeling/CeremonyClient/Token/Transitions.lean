import CeremonyClient.Lib.Passes
import CeremonyClient.Store.Coin
import CeremonyClient.Tries.MinHeap
import CeremonyClient.Token.Provers
import CeremonyClient.Token.Mint

set_option autoImplicit false

namespace Ceremony

open GoSem

def TokenRequest.priority (t : TokenRequest) : Go UInt64 :=
  match t.request with
  | some (.mint p) => if p.proofs.length ≥ 3 then index p.proofs 2 >>= beUint64 else .ok 0
  | _ => .ok 0

-- One index of the arrays: fails[i], set[i], processedMap[i], and successes[i] together with outputsSet[i].
structure Slot where
  transition : TokenRequest
  fails : Bool
  set : Bool
  processed : Option ProcessedMint
  success : Option (List TokenOutput)
deriving DecidableEq

def newSlot (transition : TokenRequest) : Slot := ⟨transition, false, false, none, none⟩

def Slot.mint (slot : Slot) : Option MintCoinRequest :=
  match slot.transition.request with
  | some (.mint t) => some t
  | _ => none

def validateMintSlot (a : TokenApplication) (slot : Slot) : Go Slot :=
  match slot.mint with
  | some t => do
      match ← attempt (MintCoinRequest.validate a.prim (some t)) with
      | .ok _ => return slot
      | .error _ => return { slot with fails := true }
  | none => .ok slot

-- The callback of the first ring test: every address counts once, in the last ring that has it.
def unseenRing (a : TokenApplication) (seen : List Bytes) (addr : Bytes) : Go (Int × List Bytes) :=
  if addr ∈ seen then .ok (-1, seen)
  else do
    let rings ← sliceFrom a.tries 1
    let ring := lastRing rings addr
    return (ring, if ring = -1 then seen else addr :: seen)

def selectPre2 (a : TokenApplication) (seen : List Bytes) (t : MintCoinRequest) : Go (Bool × List Bytes) := do
  let key ← signerKey t.signature
  match ← attempt (hashAddress a.prim key) with
  | .error _ => return (false, seen)
  | .ok addr =>
      let beacons ← index a.tries 0
      if beacons.contains addr && key == a.beacon then
        let owner ← (index t.proofs 0 >>= fun proof => sliceFrom proof 32)
        if owner ∈ seen then return (false, seen) else return (true, owner :: seen)
      else return (false, seen)

def selectChain (a : TokenApplication) (currentFrameNumber : UInt64) (seen : List Bytes) (t : MintCoinRequest) :
    Go (Bool × List Bytes) := do
  let frameNumber ← (index t.proofs 2 >>= beUint64)
  if frameNumber < currentFrameNumber - 1 then return (false, seen)
  else
    let (found, seen) ← ringAndParallelism a.prim t (unseenRing a) seen
    return (found.isSome, seen)

-- A mint with no proof count of its own is put in neither array.
def selectSlot (a : TokenApplication) (currentFrameNumber : UInt64) (seen : List Bytes) (slot : Slot) :
    Go (Slot × List Bytes) :=
  if slot.fails then .ok (slot, seen)
  else
    match slot.mint with
    | none => .ok ({ slot with set := true }, seen)
    | some t =>
        if t.proofs.length = 1 then do
          let (chosen, seen) ← selectPre2 a seen t
          return ({ slot with set := chosen, fails := !chosen }, seen)
        else if t.proofs.length ≥ 3 ∧ currentFrameNumber > PROOF_FRAME_CUTOFF then do
          let (chosen, seen) ← selectChain a currentFrameNumber seen t
          return ({ slot with set := chosen, fails := !chosen }, seen)
        else .ok (slot, seen)

def handlerOf (a : TokenApplication) (currentFrameNumber : UInt64) : Option Request → Option (LockM Bytes (List TokenOutput))
  | some (.announce t) => some (handleAnnounce a currentFrameNumber t)
  | some (.join t) => some (handleDataAnnounceProverJoin a currentFrameNumber t)
  | some (.leave t) => some (handleDataAnnounceProverLeave a currentFrameNumber t)
  | some (.resume t) => some (handleDataAnnounceProverResume a currentFrameNumber t)
  | some (.pause t) => some (handleDataAnnounceProverPause a currentFrameNumber t)
  | some (.merge t) => some (handleMerge a t)
  | some (.split t) => some (handleSplit a t)
  | some (.transfer t) => some (handleTransfer a t)
  | some (.mint _) => none
  | none => none

def isAnnounce : Option Request → Bool
  | some (.announce _) => true
  | _ => false

-- A refused announcement is not put in fails[i] as every other refused request is; its list is overwritten at the
-- end.
def handleSlot (a : TokenApplication) (currentFrameNumber : UInt64) (skipFailures : Bool) (lockMap : List Bytes) (slot : Slot) :
    Go (Slot × List Bytes) :=
  if slot.set then
    match handlerOf a currentFrameNumber slot.transition.request with
    | none => .ok (slot, lockMap)
    | some handler =>
        match handler.on lockMap with
        | (.ok success, lockMap) => .ok ({ slot with success := some success }, lockMap)
        | (.error (.err cause), lockMap) =>
            if skipFailures then .ok ({ slot with fails := !isAnnounce slot.transition.request }, lockMap)
            else raise (cause.wrap "apply transitions")
        | (.error .panic, _) => .error .panic
        | (.error .outOfFuel, _) => .error .outOfFuel
  else .ok (slot, lockMap)

def preProcessSlot (a : TokenApplication) (fuel : Nat) (currentFrameNumber : UInt64) (frame : ClockFrame) (slot : Slot) :
    Go Slot :=
  match slot.set, slot.mint with
  | true, some t => do
      match ← attempt (preProcessMint a fuel currentFrameNumber t frame) with
      | .ok processed => return { slot with processed := some processed }
      | .error _ => return { slot with fails := true }
  | _, _ => .ok slot

def ringOf (a : TokenApplication) (state : Unit) (addr : Bytes) : Go (Int × Unit) := do
  let rings ← sliceFrom a.tries 1
  return (firstRing rings addr, state)

-- Only a mint that will be rewarded adds its parallelism to its ring.
def tallySlot (a : TokenApplication) (currentFrameNumber : UInt64) (parallelismMap : Int → UInt64) (slot : Slot) :
    Go (Slot × (Int → UInt64)) :=
  match slot.set && !slot.fails, slot.mint with
  | true, some t =>
      if t.proofs.length = 1 then .ok (slot, parallelismMap)
      else if t.proofs.length ≥ 3 ∧ currentFrameNumber > PROOF_FRAME_CUTOFF then do
        let processed ← deref slot.processed
        if processed.validForReward then
          let (found, _) ← ringAndParallelism a.prim t (ringOf a) ()
          match found with
          | some (ring, parallelism) =>
              return (slot, Function.update parallelismMap ring (parallelismMap ring + parallelism.toUInt64))
          | none => return ({ slot with fails := true }, parallelismMap)
        else return (slot, parallelismMap)
      else .ok (slot, parallelismMap)
  | _, _ => .ok (slot, parallelismMap)

def mintSlot (a : TokenApplication) (currentFrameNumber : UInt64) (parallelismMap : Int → UInt64) (slot : Slot) : Go Slot :=
  match slot.set && !slot.fails, slot.mint with
  | true, some t => do
      let processed ← deref slot.processed
      match ← attempt (handleMint a currentFrameNumber t processed parallelismMap) with
      | .ok success => return { slot with success := some success }
      | .error _ => return { slot with fails := true }
  | _, _ => .ok slot

structure Applied where
  receipts : List (TokenRequest × List TokenOutput)
  failed : List TokenRequest
deriving DecidableEq

def Applied.finalized (applied : Applied) : List TokenRequest := applied.receipts.map Prod.fst

def Applied.outputs (applied : Applied) : List TokenOutput := applied.receipts.flatMap Prod.snd

def Slot.receipt (slot : Slot) : Option (TokenRequest × List TokenOutput) :=
  slot.success.map fun outputs => (slot.transition, outputs)

def runPasses (a : TokenApplication) (fuel : Nat) (currentFrameNumber : UInt64) (frame : ClockFrame)
    (requests : List TokenRequest) (skipFailures : Bool) : Go (List Slot) := do
  let validated ← (requests.map newSlot).mapM (validateMintSlot a)
  let (selected, _) ← mapAccumM (selectSlot a currentFrameNumber) [] validated
  let (handled, _) ← mapAccumM (handleSlot a currentFrameNumber skipFailures) [] selected
  let processed ← handled.mapM (preProcessSlot a fuel currentFrameNumber frame)
  let (tallied, parallelismMap) ← mapAccumM (tallySlot a currentFrameNumber) (fun _ => 0) processed
  tallied.mapM (mintSlot a currentFrameNumber parallelismMap)

def orderRequests (requests : List TokenRequest) (skipFailures : Bool) : Go (List TokenRequest) :=
  if skipFailures then do
    let mints ← pushAll TokenRequest.priority requests
    return mints.all
  else .ok requests

def applyTransitions (a : TokenApplication) (fuel : Nat) (currentFrameNumber : UInt64) (transitions : List TokenRequest)
    (skipFailures : Bool) : Go Applied := do
  let filter ← getBloomFilter a.prim TOKEN_ADDRESS 256 3
  let frame ← replaceErr (errInvalidStateTransition.wrap "apply transitions")
    (returned (a.clockStore.getDataClockFrame filter (currentFrameNumber - 1) false))
  let requests ← orderRequests transitions skipFailures
  let slots ← runPasses a fuel currentFrameNumber frame requests skipFailures
  let failed := (slots.filter Slot.fails).map Slot.transition
  failIf (failed ≠ [] ∧ skipFailures = false) (errInvalidStateTransition.wrap "apply transitions")
  return ⟨slots.filterMap Slot.receipt, failed⟩

-- A node with two coins of different owners and one beacon prover, to evaluate the model on.
def sampleKey : Bytes := List.replicate 57 7

def sampleAddress : Bytes := beBytes 32 (setBytes sampleKey % poseidonOrder)

def sampleCoinAddress : Bytes := List.replicate 32 1

def sampleCoin : Coin := ⟨beBytes 32 1000, zeroIntersection, implicitOwner sampleAddress⟩

def sampleOtherAddress : Bytes := List.replicate 32 2

def sampleOtherCoin : Coin := ⟨beBytes 32 77, zeroIntersection, implicitOwner (List.replicate 32 6)⟩

def sampleStore : PebbleCoinStore where
  coins := (AList.singleton sampleCoinAddress (0, sampleCoin)).insert sampleOtherAddress (0, sampleOtherCoin)
  coinsByOwner := (AList.singleton (sampleAddress ++ sampleCoinAddress) (0, sampleCoin)).insert
    (List.replicate 32 6 ++ sampleOtherAddress) (0, sampleOtherCoin)
  proofs := ∅
  proofsByOwner := ∅
  latestExecution := some 4

def sampleFrame (frameNumber : UInt64) : ClockFrame :=
  ⟨List.replicate 32 9, frameNumber, 1, 10000, [], [], List.replicate 516 5, [], none, []⟩

def sampleApplication : TokenApplication where
  prim := samplePrimitives
  beacon := sampleKey
  tries := [RollingFrecencyCritbitTrie.zero.add sampleAddress 0]
  coinStore := sampleStore.view
  clockStore := { getDataClockFrame := fun _ frameNumber _ => .ok (sampleFrame frameNumber) }
  difficulty := 10000

def sampleSignature (message : Bytes) : Option Ed448Signature := some ⟨sampleSign sampleKey message, some ⟨sampleKey⟩⟩

def sampleTransfer (receiver : Bytes) : TokenRequest :=
  let message := ascii ['t', 'r', 'a', 'n', 's', 'f', 'e', 'r'] ++ sampleCoinAddress ++ receiver
  ⟨some (.transfer ⟨implicitOwner receiver, none, some ⟨sampleCoinAddress⟩, 0, none, none, sampleSignature message⟩), 1⟩

end Ceremony
