import CeremonyClient.Lib.Locks
import CeremonyClient.Store.Coin
import CeremonyClient.Token.Provers
import CeremonyClient.Token.Rings

set_option autoImplicit false

namespace Ceremony

open GoSem

variable {address : Bytes} {frame : ClockFrame} {proof : PreCoinProof} {first : Ed448Signature}

def getAddressOfCoin (prim : Primitives) (coin : Coin) (frameNumber seqno : UInt64) : Go Bytes := do
  let eval := appendUint64 TOKEN_ADDRESS frameNumber
  let eval := if frameNumber ≠ 0 then appendUint64 eval seqno else eval
  let eval := appendUint32 (eval ++ coin.amount ++ coin.intersection) 0
  let owner ← implicitAddress coin.owner
  hashAddress prim (eval ++ owner)

def getAddressOfPreCoinProof (prim : Primitives) (proof : PreCoinProof) : Go Bytes := do
  let eval := appendUint32 (TOKEN_ADDRESS ++ proof.amount) proof.index ++ proof.indexProof ++ proof.commitment ++ proof.proof
  let eval := appendUint32 (appendUint32 (appendUint32 eval proof.parallelism) proof.difficulty) 0
  let owner ← implicitAddress proof.owner
  hashAddress prim (eval ++ owner)

-- The last execution output among all inclusion commitments. Without any, the outputs stay a nil pointer.
def readInclusion (codec : Codec) (found : Bytes × Option (List (Option TokenOutput))) (inclusion : InclusionCommitment) :
    Go (Bytes × Option (List (Option TokenOutput))) :=
  if inclusion.typeUrl = intrinsicExecutionOutputType then do
    let output ← returned (codec.unmarshalIntrinsicExecutionOutput inclusion.data)
    let tokenOutputs ← returned (codec.unmarshalTokenOutputs output.output)
    return (output.proof, some tokenOutputs)
  else .ok found

def getOutputsFromClockFrame (codec : Codec) (frame : ClockFrame) : Go (List TokenRequest × Option (List (Option TokenOutput))) :=
  wrapErr "get outputs from clock frame" do
    let inclusions := frame.aggregateProofs.flatMap InclusionAggregateProof.inclusionCommitments
    let (associatedProof, tokenOutputs) ← inclusions.foldlM (readInclusion codec) ([], none)
    let transition ← if frame.frameNumber ≠ 0 then returned (codec.unmarshalTokenRequests associatedProof) else .ok []
    return (transition, tokenOutputs)

-- The hypergraph and its store, as far as a frame uses them.
structure HypergraphStore (γ : Type) where
  loadHypergraph : Except GoError γ
  saveHypergraph : γ → Except GoError Unit
  addVertex : γ → (appAddress dataAddress value : Bytes) → Except GoError γ
  removeVertex : γ → (appAddress dataAddress value : Bytes) → Except GoError γ
  commit : γ → γ × List Bytes

structure TokenExecutionEngine (γ : Type) where
  prim : Primitives
  codec : Codec
  coinStore : PebbleCoinStore
  clockStore : ClockStore
  hypergraphStore : HypergraphStore γ
  network : UInt8
  intrinsicFilter : Bytes
  peerSeniority : PeerSeniority
  hypergraph : γ
  getAggregatedSeniority : (peerIds : List Bytes) → Nat
  rebuildPeerSeniority : (network : UInt8) → Except GoError PeerSeniority

-- What ProcessFrame changes; the tries are changed in place. All of it stays as it is when an error is returned.
structure FrameState (γ : Type) where
  txn : PebbleCoinStore
  aborted : Bool
  seniorityMap : Option PeerSeniority
  savedHypergraph : Option γ
  tries : List RollingFrecencyCritbitTrie
  peerSeniority : PeerSeniority
  hypergraph : γ
  hg : Option γ
  activeMap : PeerSeniority
  proverTrieJoinRequests : List Bytes
  proverTrieLeaveRequests : List Bytes

section ProcessFrame

variable {γ : Type} {α : Type}

abbrev FrameM (γ α : Type) := StateGo (FrameState γ) α

-- if err != nil { txn.Abort(); return nil, errors.Wrap(err, "process frame") }
def orAbort (run : Go α) : FrameM γ α := fun state =>
  match run with
  | .ok value => (.ok value, state)
  | .error (.err cause) => (raise (cause.wrap "process frame"), { state with aborted := true })
  | .error fault => (.error fault, state)

-- if err != nil { txn.Abort(); panic(err) }
def orPanic (result : Except GoError α) : FrameM γ α := fun state =>
  match result with
  | .ok value => (.ok value, state)
  | .error _ => (crash, { state with aborted := true })

def outputAddress (prim : Primitives) (frameNumber : UInt64) (output : Option TokenOutput × Nat) : Go (Except GoError Bytes) :=
  match output.1 with
  | some (.coin coin) => attempt (getAddressOfCoin prim coin frameNumber (UInt64.ofNat output.2))
  | some (.proof proof) => attempt (getAddressOfPreCoinProof prim proof)
  | some (.deletedProof proof) => attempt (getAddressOfPreCoinProof prim proof)
  | _ => .ok (.ok [])

-- [32]byte(slice)
def array32 (bytes : Bytes) : Go Bytes := slice bytes 0 32

def vertexValue (coin : Coin) : Bytes :=
  List.replicate 8 0 ++ coin.amount ++ [0x00] ++ PebbleCoinStore.ownerAddress coin.owner ++ [0x00] ++ coin.intersection

def changeVertex (change : γ → (appAddress dataAddress value : Bytes) → Except GoError γ) (address : Bytes) (coin : Coin) :
    FrameM γ Unit := do
  let dataAddress ← call (array32 address)
  let state ← readState
  let hg ← call (deref state.hg)
  let hg ← orPanic (change hg TOKEN_ADDRESS dataAddress (vertexValue coin))
  modifyState fun state => { state with hg := some hg }

def processCoin (e : TokenExecutionEngine γ) (frame : ClockFrame) (outputAddress : Except GoError Bytes) (coin : Coin) :
    FrameM γ Unit := do
  let address ← orAbort (returned outputAddress)
  let state ← readState
  let txn ← orAbort (state.txn.putCoin frame.frameNumber address coin)
  modifyState fun state => { state with txn := txn }
  changeVertex e.hypergraphStore.addVertex address coin

-- The coin is read from the committed store, not through the transaction.
def processDeletedCoin (e : TokenExecutionEngine γ) (deleted : CoinRef) : FrameM γ Unit := do
  let coin ← orAbort (returned (e.coinStore.getCoinByAddress deleted.address))
  modifyState fun state => { state with txn := state.txn.deleteCoin deleted.address coin }
  changeVertex e.hypergraphStore.removeVertex deleted.address coin

def addToFirst (address : Bytes) (frameNumber : UInt64) : List RollingFrecencyCritbitTrie → List RollingFrecencyCritbitTrie
  | [] => []
  | t :: tail => if t.contains address then t.add address frameNumber :: tail else t :: addToFirst address frameNumber tail

def raiseSeniority (activeMap : PeerSeniority) (address : Bytes) (amount : UInt64) : PeerSeniority :=
  match activeMap.lookup address with
  | none => activeMap.insert address amount
  | some seniority => activeMap.insert address (seniority + amount)

def rewardProver (frame : ClockFrame) (proof : PreCoinProof) : FrameM γ Unit := do
  let address ← call (implicitAddress proof.owner)
  modifyState fun state => { state with
    tries := addToFirst address frame.frameNumber state.tries
    activeMap := raiseSeniority state.activeMap address 10 }

def isReward (proof : PreCoinProof) : Bool :=
  proof.amount.length == 32 && proof.amount != List.replicate 32 0 && proof.commitment != []

def processProof (frame : ClockFrame) (outputAddress : Except GoError Bytes) (proof : PreCoinProof) : FrameM γ Unit := do
  let address ← orAbort (returned outputAddress)
  let state ← readState
  let txn ← orAbort (state.txn.putPreCoinProof frame.frameNumber address proof)
  modifyState fun state => { state with txn := txn }
  if isReward proof then rewardProver frame proof else pure ()

def processDeletedProof (outputAddress : Except GoError Bytes) (proof : PreCoinProof) : FrameM γ Unit := do
  let address ← orAbort (returned outputAddress)
  modifyState fun state => { state with txn := state.txn.deletePreCoinProof address proof }

def getPeerIdFromSignature (prim : Primitives) (sig : Ed448Signature) : Go Bytes :=
  match sig.publicKey with
  | none => raise (errorsNew "invalid data")
  | some publicKey =>
      if publicKey.keyValue = [] then raise (errorsNew "invalid data")
      else wrapErr "get address from signature" (peerIDOfKey prim publicKey.keyValue)

def addressOf (e : TokenExecutionEngine γ) (sig : Option Ed448Signature) : FrameM γ Bytes :=
  orAbort (getAddressFromSignature e.prim sig)

-- A signer whose seniority already differs from its retroactive one ends the search.
def isMergeable (e : TokenExecutionEngine γ) : List (Ed448Signature × Bytes) → FrameM γ Bool
  | [] => pure true
  | (sig, peerId) :: tail => do
      let address ← addressOf e (some sig)
      let state ← readState
      match state.activeMap.lookup address with
      | none => isMergeable e tail
      | some seniority =>
          if seniority.toNat = e.getAggregatedSeniority [peerId] then isMergeable e tail else pure false

def additionalSeniority (prfs : List PreCoinProof) : UInt64 :=
  prfs.foldl (fun additional pr =>
    if pr.indexProof = [] ∧ pr.difficulty = 0 ∧ pr.commitment = [] then UInt64.ofNat (min (setBytes pr.amount / 58800000) 4000000)
    else additional) 0

-- An owner without proofs is not an error.
def proofsOf (e : TokenExecutionEngine γ) (address : Bytes) : FrameM γ (List PreCoinProof) :=
  match e.coinStore.getPreCoinProofsForOwner address with
  | .ok prfs => pure prfs
  | .error cause => if errorsIs cause errNotFound then pure [] else orAbort (raise cause)

def setSeniority (address : Bytes) (seniority : UInt64) : FrameM γ Unit :=
  modifyState fun state => { state with activeMap := state.activeMap.insert address seniority }

def mergeAnnounced (e : TokenExecutionEngine γ) (first : Ed448Signature) (others : List Ed448Signature) (peerIds : List Bytes) :
    FrameM γ Unit := do
  let address ← addressOf e (some first)
  let prfs ← proofsOf e address
  setSeniority address (UInt64.ofNat (e.getAggregatedSeniority peerIds) + additionalSeniority prfs)
  others.forM fun sig => do
    let address ← addressOf e (some sig)
    setSeniority address 0

def grantRetroactive (e : TokenExecutionEngine γ) (address firstId : Bytes) : FrameM γ Unit := do
  let prfs ← proofsOf e address
  setSeniority address (UInt64.ofNat (e.getAggregatedSeniority [firstId]) + additionalSeniority prfs)

def announceFirst (e : TokenExecutionEngine γ) (first : Ed448Signature) (firstId : Bytes) : FrameM γ Unit := do
  let address ← addressOf e (some first)
  let state ← readState
  match state.activeMap.lookup address with
  | none => pure ()
  | some seniority =>
      if seniority.toNat = e.getAggregatedSeniority [firstId] then grantRetroactive e address firstId else pure ()

def processAnnounce (e : TokenExecutionEngine γ) (announce : AnnounceProverRequest) : FrameM γ Unit := do
  let peerIds ← announce.publicKeySignaturesEd448.mapM fun sig => orAbort (getPeerIdFromSignature e.prim sig)
  let firstId ← call (index peerIds 0)
  let mergeable ← isMergeable e (announce.publicKeySignaturesEd448.zip peerIds)
  let first ← call (index announce.publicKeySignaturesEd448 0)
  if mergeable then mergeAnnounced e first (announce.publicKeySignaturesEd448.drop 1) peerIds
  else announceFirst e first firstId

def processJoin (e : TokenExecutionEngine γ) (join : AnnounceProverJoin) : FrameM γ Unit := do
  let address ← addressOf e join.publicKeySignatureEd448
  modifyState fun state => { state with
    activeMap := raiseSeniority state.activeMap address 20
    proverTrieJoinRequests := state.proverTrieJoinRequests ++ [address] }

def requestLeave (address : Bytes) : FrameM γ Unit :=
  modifyState fun state => { state with proverTrieLeaveRequests := state.proverTrieLeaveRequests ++ [address] }

def processLeave (e : TokenExecutionEngine γ) (leave : AnnounceProverChange) : FrameM γ Unit := do
  let address ← addressOf e leave.publicKeySignatureEd448
  requestLeave address

-- Pause and resume only check that their signer has an address.
def processPauseOrResume (e : TokenExecutionEngine γ) (change : AnnounceProverChange) : FrameM γ Unit := do
  let _ ← addressOf e change.publicKeySignatureEd448
  pure ()

-- The prover is also made to leave when the first trie that has it last saw it long ago.
def leavesWithPenalty (frameNumber : UInt64) (address : Bytes) (tries : List RollingFrecencyCritbitTrie) : Bool :=
  match tries.find? fun t => t.contains address with
  | some t => frameNumber - (t.get address).latestFrame > 100
  | none => false

def processPenalty (frame : ClockFrame) (penalty : ProverPenalty) : FrameM γ Unit := do
  let address ← call (implicitAddress penalty.account)
  modifyState fun state =>
    let left := { state with proverTrieLeaveRequests := state.proverTrieLeaveRequests ++ [address] }
    match state.activeMap.lookup address with
    | none => { left with activeMap := state.activeMap.insert address 0 }
    | some seniority =>
        if seniority > penalty.quantity then
          { (if leavesWithPenalty frame.frameNumber address state.tries then left else state) with
            activeMap := state.activeMap.insert address (seniority - penalty.quantity) }
        else { left with activeMap := state.activeMap.insert address 0 }

def processOutput (e : TokenExecutionEngine γ) (frame : ClockFrame) (output : Option TokenOutput × Except GoError Bytes) :
    FrameM γ Unit :=
  match output.1 with
  | some (.coin coin) => processCoin e frame output.2 coin
  | some (.deletedCoin deleted) => processDeletedCoin e deleted
  | some (.proof proof) => processProof frame output.2 proof
  | some (.deletedProof proof) => processDeletedProof output.2 proof
  | some (.announce announce) => processAnnounce e announce
  | some (.join join) => processJoin e join
  | some (.leave leave) => processLeave e leave
  | some (.pause pause) => processPauseOrResume e pause
  | some (.resume resume) => processPauseOrResume e resume
  | some (.penalty penalty) => processPenalty frame penalty
  | none => pure ()

def requestOrder (activeMap : PeerSeniority) (addresses : List Bytes) : Go (List PeerSeniorityItem) := do
  let heap ← pushAll PeerSeniorityItem.priority (addresses.map fun address => ⟨(activeMap.lookup address).getD 0, address⟩)
  return heap.all.reverse

def repairSigner (e : TokenExecutionEngine γ) (activeMap : PeerSeniority) (others : List Ed448Signature)
    (address peerId : Bytes) : PeerSeniority :=
  match e.coinStore.getPreCoinProofsForOwner address with
  | .error cause => if errorsIs cause errNotFound then grant [] else activeMap
  | .ok prfs => grant prfs
where
  grant (prfs : List PreCoinProof) : PeerSeniority :=
    let peerIds := peerId :: others.filterMap fun sig => (getPeerIdFromSignature e.prim sig).toOption
    let total := UInt64.ofNat (e.getAggregatedSeniority peerIds) + additionalSeniority prfs
    match activeMap.lookup address with
    | none => activeMap.insert address total
    | some seniority => if seniority < total then activeMap.insert address total else activeMap

def repairRequest (e : TokenExecutionEngine γ) (activeMap : PeerSeniority) (req : TokenRequest) : Go PeerSeniority :=
  match req.request with
  | some (.join ⟨_, _, _, some ⟨first :: others⟩⟩) => do
      let address ← attempt (getAddressFromSignature e.prim (some first))
      let peerId ← attempt (getPeerIdFromSignature e.prim first)
      match address, peerId with
      | .ok address, .ok peerId => return repairSigner e activeMap others address peerId
      | _, _ => return activeMap
  | _ => .ok activeMap

-- The loop over earlier frames: a missing frame ends it, and a frame that does not decode
-- has a nil request list.
def repairFrames (e : TokenExecutionEngine γ) : Nat → UInt64 → PeerSeniority → Go PeerSeniority
  | 0, _, activeMap => .ok activeMap
  | count + 1, f, activeMap =>
      match e.clockStore.getDataClockFrame e.intrinsicFilter f false with
      | .error _ => .ok activeMap
      | .ok frame => do
          match ← attempt (getOutputsFromClockFrame e.codec frame) with
          | .error _ => crash
          | .ok (requests, _) =>
              let activeMap ← requests.foldlM (repairRequest e) activeMap
              repairFrames e count (f + 1) activeMap

def performSeniorityMapRepair (e : TokenExecutionEngine γ) (activeMap : PeerSeniority) (frame : ClockFrame) : Go PeerSeniority :=
  if e.network ≠ 0 then .ok activeMap
  else repairFrames e (frame.frameNumber.toNat - PROOF_FRAME_RING_RESET_2.toNat) PROOF_FRAME_RING_RESET_2 activeMap

def repairSeniority (e : TokenExecutionEngine γ) (frame : ClockFrame) : FrameM γ Unit :=
  if frame.frameNumber = PROOF_FRAME_SENIORITY_REPAIR then do
    let state ← readState
    let activeMap ← call (performSeniorityMapRepair e state.activeMap frame)
    modifyState fun state => { state with activeMap := activeMap }
  else pure ()

-- This error, like that of a frame that does not decode, is returned without an abort.
def resetRings (e : TokenExecutionEngine γ) (frame : ClockFrame) : FrameM γ Unit :=
  if frame.frameNumber = PROOF_FRAME_RING_RESET ∨ frame.frameNumber = PROOF_FRAME_RING_RESET_2 then do
    let seniorityMap ← call (wrapErr "process frame" (returned (e.rebuildPeerSeniority e.network)))
    let state ← readState
    let beacons ← call (index state.tries 0)
    modifyState fun state => { state with peerSeniority := seniorityMap, tries := [beacons], seniorityMap := some seniorityMap }
  else pure ()

def commitHypergraph (e : TokenExecutionEngine γ) : FrameM γ Unit := do
  let state ← readState
  let hg ← call (deref state.hg)
  let (hg, roots) := e.hypergraphStore.commit hg
  let _ ← call (index roots 0)
  orAbort (returned (e.hypergraphStore.saveHypergraph hg))
  modifyState fun state => { state with savedHypergraph := some hg, hypergraph := hg }

def finishFrame (e : TokenExecutionEngine γ) (frame : ClockFrame) : FrameM γ (List RollingFrecencyCritbitTrie) := do
  let state ← readState
  let joinReqs ← call (requestOrder state.activeMap state.proverTrieJoinRequests)
  let leaveReqs ← call (requestOrder state.activeMap state.proverTrieLeaveRequests)
  let tries ← call (processJoinsAndLeaves joinReqs leaveReqs state.tries e.peerSeniority frame.frameNumber)
  modifyState fun state => { state with tries := tries }
  repairSeniority e frame
  modifyState fun state => { state with
    seniorityMap := some state.activeMap
    txn := state.txn.setLatestFrameProcessed frame.frameNumber
    peerSeniority := state.activeMap }
  resetRings e frame
  commitHypergraph e
  let state ← readState
  return state.tries

def applyOutputs (e : TokenExecutionEngine γ) (frame : ClockFrame) (outputs : List (Option TokenOutput)) :
    FrameM γ (List RollingFrecencyCritbitTrie) := do
  let outputAddresses ← call (outputs.zipIdx.mapM (outputAddress e.prim frame.frameNumber))
  let hg ← orPanic e.hypergraphStore.loadHypergraph
  modifyState fun state => { state with hg := some hg }
  (outputs.zip outputAddresses).forM (processOutput e frame)
  finishFrame e frame

-- A frame that was processed last returns nil without an error.
def processFrameOutputs (e : TokenExecutionEngine γ) (frame : ClockFrame) : FrameM γ (Option (List RollingFrecencyCritbitTrie)) :=
  if e.coinStore.getLatestFrameProcessed = frame.frameNumber then pure none
  else do
    let (_, tokenOutputs) ← call (wrapErr "process frame"
      (wrapErr "materialize application from frame" (getOutputsFromClockFrame e.codec frame)))
    let outputs ← call (deref tokenOutputs)
    let tries ← applyOutputs e frame outputs
    return some tries

def processFrame (e : TokenExecutionEngine γ) (frame : ClockFrame) (triesAtFrame : List RollingFrecencyCritbitTrie) :
    Go (Option (List RollingFrecencyCritbitTrie)) × FrameState γ :=
  (processFrameOutputs e frame).on
    ⟨e.coinStore, false, none, none, triesAtFrame, e.peerSeniority, e.hypergraph, none, e.peerSeniority, [], []⟩

theorem on_or_abort_ok {run : Go α} {state after : FrameState γ} {value : α} :
    StateGo.on (orAbort run) state = (.ok value, after) ↔ run = .ok value ∧ after = state := by
  rcases run with (cause | _ | _) | result <;> simp [orAbort, StateGo.on, StateT.run, ExceptT.run, raise, eq_comm]

theorem on_or_panic_ok (result : Except GoError α) (state after : FrameState γ) (value : α) :
    StateGo.on (orPanic result) state = (.ok value, after) ↔ result = .ok value ∧ after = state := by
  cases result <;> simp [orPanic, StateGo.on, StateT.run, ExceptT.run, crash, eq_comm]

section Keeps

variable {τ : Type} {view : FrameState γ → τ}

-- A view that sees nothing of what an output changes outside the transaction.
def Unseen (view : FrameState γ → τ) : Prop :=
  ∀ (state : FrameState γ) (aborted : Bool) (hg : Option γ) (tries : List RollingFrecencyCritbitTrie) (activeMap : PeerSeniority)
    (joins leaves : List Bytes), view { state with
      aborted := aborted, hg := hg, tries := tries, activeMap := activeMap
      proverTrieJoinRequests := joins, proverTrieLeaveRequests := leaves } = view state

section

variable (unseen : Unseen view)

include unseen

theorem keeps_or_abort {run : Go α} : Keeps view (orAbort run) := by
  intro state
  rcases run with (cause | _ | _) | value
  · exact unseen state true _ _ _ _ _
  · rfl
  · rfl
  · rfl

theorem keeps_or_panic {result : Except GoError α} : Keeps view (orPanic result) := by
  intro state
  cases result with
  | error cause => exact unseen state true _ _ _ _ _
  | ok value => rfl

variable {e : TokenExecutionEngine γ}

theorem keeps_address_of {sig : Option Ed448Signature} :
    Keeps view (addressOf e sig) := keeps_or_abort unseen

theorem keeps_change_vertex {change : γ → (appAddress dataAddress value : Bytes) → Except GoError γ} {coin : Coin} :
    Keeps view (changeVertex change address coin) :=
  keeps_bind _ _ _ keeps_call fun _ => keeps_bind _ _ _ keeps_read fun _ => keeps_bind _ _ _ keeps_call fun _ =>
    keeps_bind _ _ _ (keeps_or_panic unseen) fun _ => keeps_modify fun state => unseen state _ _ _ _ _ _

theorem keeps_reward_prover : Keeps view (rewardProver frame proof) :=
  keeps_bind _ _ _ keeps_call fun _ => keeps_modify fun state => unseen state _ _ _ _ _ _

theorem keeps_set_seniority {seniority : UInt64} : Keeps view (setSeniority address seniority) := keeps_modify fun state => unseen state _ _ _ _ _ _

theorem keeps_proofs_of : Keeps view (proofsOf e address) := by
  rw [proofsOf]
  split
  · exact keeps_pure
  · split
    · exact keeps_pure
    · exact keeps_or_abort unseen

theorem keeps_is_mergeable {signers : List (Ed448Signature × Bytes)} :
    Keeps view (isMergeable e signers) := by
  induction signers with
  | nil => exact keeps_pure
  | cons signer tail ih =>
      refine keeps_bind _ _ _ (keeps_address_of unseen) fun address => keeps_bind _ _ _ keeps_read fun state => ?_
      split
      · exact ih
      · split
        · exact ih
        · exact keeps_pure

theorem keeps_merge_announced {others : List Ed448Signature} {peerIds : List Bytes} :
    Keeps view (mergeAnnounced e first others peerIds) :=
  keeps_bind _ _ _ (keeps_address_of unseen) fun _ => keeps_bind _ _ _ (keeps_proofs_of unseen) fun _ =>
    keeps_bind _ _ _ (keeps_set_seniority unseen) fun _ =>
      keeps_for_each _ _ _ fun _ => keeps_bind _ _ _ (keeps_address_of unseen) fun _ => keeps_set_seniority unseen

theorem keeps_announce_first {firstId : Bytes} :
    Keeps view (announceFirst e first firstId) := by
  refine keeps_bind _ _ _ (keeps_address_of unseen) fun address => keeps_bind _ _ _ keeps_read fun state => ?_
  split
  · exact keeps_pure
  · split
    · exact keeps_bind _ _ _ (keeps_proofs_of unseen) fun _ => keeps_set_seniority unseen
    · exact keeps_pure

theorem keeps_announce {announce : AnnounceProverRequest} :
    Keeps view (processAnnounce e announce) := by
  refine keeps_bind _ _ _ (keeps_map fun _ => keeps_or_abort unseen) fun peerIds =>
    keeps_bind _ _ _ keeps_call fun firstId => keeps_bind _ _ _ (keeps_is_mergeable unseen) fun mergeable =>
      keeps_bind _ _ _ keeps_call fun first => ?_
  split
  · exact keeps_merge_announced unseen
  · exact keeps_announce_first unseen

theorem keeps_penalty {penalty : ProverPenalty} : Keeps view (processPenalty frame penalty) := by
  refine keeps_bind _ _ _ keeps_call fun address => keeps_modify fun state => ?_
  cases state.activeMap.lookup address with
  | none => exact unseen state _ _ _ _ _ _
  | some seniority =>
      simp only
      split
      · split
        · exact unseen state _ _ _ _ _ _
        · exact unseen state _ _ _ _ _ _
      · exact unseen state _ _ _ _ _ _

theorem keeps_join {join : AnnounceProverJoin} : Keeps view (processJoin e join) :=
  keeps_bind _ _ _ (keeps_address_of unseen) fun _ => keeps_modify fun state => unseen state _ _ _ _ _ _

theorem keeps_leave {leave : AnnounceProverChange} :
    Keeps view (processLeave e leave) :=
  keeps_bind _ _ _ (keeps_address_of unseen) fun _ => keeps_modify fun state => unseen state _ _ _ _ _ _

theorem keeps_pause_or_resume {change : AnnounceProverChange} :
    Keeps view (processPauseOrResume e change) :=
  keeps_bind _ _ _ (keeps_address_of unseen) fun _ => keeps_pure

end

end Keeps

def frameCoins (state : FrameState γ) : Table Bytes (UInt64 × Coin) := state.txn.coins

theorem coins_unseen : Unseen (@frameCoins γ) := fun _ _ _ _ _ _ _ => rfl

theorem keeps_deleted_proof {outputAddress : Except GoError Bytes} : Keeps (@frameCoins γ) (processDeletedProof outputAddress proof) :=
  keeps_bind _ _ _ (keeps_or_abort coins_unseen) fun _ => keeps_modify fun _ => rfl

def coinChange (frameNumber : UInt64) (output : Option TokenOutput × Except GoError Bytes) :
    Option (Table.Change Bytes (UInt64 × Coin)) :=
  match output with
  | (some (.coin coin), .ok address) => some (.put address (frameNumber, coin))
  | (some (.deletedCoin deleted), _) => some (.erase deleted.address)
  | _ => none

theorem process_output_coins (e : TokenExecutionEngine γ) (frame : ClockFrame) (output : Option TokenOutput × Except GoError Bytes)
    (state after : FrameState γ) (value : PUnit) (done : (processOutput e frame output).on state = (.ok value, after)) :
    frameCoins after = (coinChange frame.frameNumber output).elim (frameCoins state) (Table.change (frameCoins state)) := by
  obtain ⟨kind, address⟩ := output
  rcases kind with _ | (coin | proof | deleted | proof | announce | join | leave | pause | resume | penalty)
  · exact keeps_pure.done done
  · simp only [processOutput, processCoin, on_bind_ok, on_or_abort_ok, on_read_state_ok, on_modify_state_ok, returned_ok_iff] at done
    obtain ⟨found, _, ⟨isAddress, rfl⟩, _, _, ⟨rfl, rfl⟩, txn, _, ⟨put, rfl⟩, _, _, rfl, vertex⟩ := done
    rw [(keeps_change_vertex coins_unseen).done vertex, isAddress]
    exact PebbleCoinStore.put_coin_coins put
  · simp only [processOutput, processProof, on_bind_ok, on_or_abort_ok, on_read_state_ok, on_modify_state_ok] at done
    obtain ⟨found, _, ⟨-, rfl⟩, _, _, ⟨rfl, rfl⟩, txn, _, ⟨put, rfl⟩, _, _, rfl, reward⟩ := done
    refine Eq.trans ?_ (PebbleCoinStore.put_proof_coins put)
    split at reward
    · exact (keeps_reward_prover coins_unseen).done reward
    · exact keeps_pure.done reward
  · simp only [processOutput, processDeletedCoin, on_bind_ok, on_or_abort_ok, on_modify_state_ok] at done
    obtain ⟨coin, _, ⟨-, rfl⟩, _, _, rfl, vertex⟩ := done
    rw [(keeps_change_vertex coins_unseen).done vertex]
    rfl
  · exact keeps_deleted_proof.done done
  · exact (keeps_announce coins_unseen).done done
  · exact (keeps_join coins_unseen).done done
  · exact (keeps_leave coins_unseen).done done
  · exact (keeps_pause_or_resume coins_unseen).done done
  · exact (keeps_pause_or_resume coins_unseen).done done
  · exact (keeps_penalty coins_unseen).done done

theorem keeps_finish_frame (e : TokenExecutionEngine γ) (frame : ClockFrame) : Keeps frameCoins (finishFrame e frame) := by
  have repair : Keeps frameCoins (repairSeniority e frame) := by
    rw [repairSeniority]
    split
    · exact keeps_bind _ _ _ keeps_read fun _ => keeps_bind _ _ _ keeps_call fun _ => keeps_modify fun _ => rfl
    · exact keeps_pure
  have reset : Keeps frameCoins (resetRings e frame) := by
    rw [resetRings]
    split
    · exact keeps_bind _ _ _ keeps_call fun _ => keeps_bind _ _ _ keeps_read fun _ =>
        keeps_bind _ _ _ keeps_call fun _ => keeps_modify fun _ => rfl
    · exact keeps_pure
  have commit : Keeps frameCoins (commitHypergraph e) :=
    keeps_bind _ _ _ keeps_read fun _ => keeps_bind _ _ _ keeps_call fun _ => keeps_bind _ _ _ keeps_call fun _ =>
      keeps_bind _ _ _ (keeps_or_abort coins_unseen) fun _ => keeps_modify fun _ => rfl
  exact keeps_bind _ _ _ keeps_read fun _ => keeps_bind _ _ _ keeps_call fun _ => keeps_bind _ _ _ keeps_call fun _ =>
    keeps_bind _ _ _ keeps_call fun _ => keeps_bind _ _ _ (keeps_modify fun _ => rfl) fun _ =>
      keeps_bind _ _ _ repair fun _ => keeps_bind _ _ _ (keeps_modify fun _ => rfl) fun _ =>
        keeps_bind _ _ _ reset fun _ => keeps_bind _ _ _ commit fun _ => keeps_bind _ _ _ keeps_read fun _ => keeps_pure

def coinChanges (frameNumber : UInt64) (outputs : List (Option TokenOutput)) (addresses : List (Except GoError Bytes)) :
    List (Table.Change Bytes (UInt64 × Coin)) := (outputs.zip addresses).filterMap (coinChange frameNumber)

theorem process_frame_coins {e : TokenExecutionEngine γ} {triesAtFrame tries : List RollingFrecencyCritbitTrie} {state : FrameState γ}
    (done : processFrame e frame triesAtFrame = (.ok (some tries), state)) :
    ∃ requests outputs addresses, getOutputsFromClockFrame e.codec frame = .ok (requests, some outputs) ∧
      outputs.zipIdx.mapM (outputAddress e.prim frame.frameNumber) = .ok addresses ∧
      (∀ output ∈ outputs.zip addresses, ∀ coin, output.1 = some (.coin coin) → ∃ address, output.2 = .ok address) ∧
      state.txn.coins = Table.run (coinChanges frame.frameNumber outputs addresses) e.coinStore.coins := by
  rw [processFrame, processFrameOutputs] at done
  split at done
  · rw [on_pure, Prod.mk.injEq] at done
    cases done.1
  · simp only [applyOutputs, on_bind_ok, on_call_ok, on_or_panic_ok, on_modify_state_ok, wrap_err_ok_iff, deref_ok_iff] at done
    obtain ⟨⟨requests, tokenOutputs⟩, _, ⟨read, rfl⟩, outputs, _, ⟨isSome, rfl⟩, tries, _, ⟨addresses, _, ⟨computed, rfl⟩, hg, _,
      ⟨-, rfl⟩, _, _, rfl, _, looped, loop, finish⟩, last⟩ := done
    rw [on_pure, Prod.mk.injEq] at last
    cases last.2
    refine ⟨requests, outputs, addresses, by rw [read, ← isSome], computed, ?_, ?_⟩
    · intro output member coin isCoin
      obtain ⟨before, between, _, step⟩ := on_for_each_ran loop output member
      simp only [processOutput, isCoin, processCoin, on_bind_ok, on_or_abort_ok, returned_ok_iff] at step
      obtain ⟨address, _, ⟨isAddress, -⟩, -⟩ := step
      exact ⟨address, isAddress⟩
    have finished := (keeps_finish_frame e frame).done finish
    have effects := on_for_each_view frameCoins
      (fun coins output => (coinChange frame.frameNumber output).elim coins (Table.change coins))
      (fun output before between value step => process_output_coins e frame output before between value step) loop
    refine (finished.trans effects).trans ?_
    rw [Table.run, coinChanges, List.foldl_filterMap]
    refine congrFun (congrFun (congrArg List.foldl (funext fun coins => funext fun output => ?_)) _) _
    cases coinChange frame.frameNumber output <;> rfl

end ProcessFrame

end Ceremony
