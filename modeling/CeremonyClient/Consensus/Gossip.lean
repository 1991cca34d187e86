import CeremonyClient.Crypto.FrameProver
import CeremonyClient.Lib.Panics
import CeremonyClient.Protobufs.Validation

set_option autoImplicit false

namespace Ceremony

open GoSem

-- The decoders of gossip messages: any byte string may decode to any message of the type.
structure GossipCodec where
  unmarshalMessage : Bytes → Except GoError Message
  unmarshalAny : Bytes → Except GoError AnyMessage
  unmarshalClockFrame : Bytes → Except GoError ClockFrame
  unmarshalClockFrameFragment : Bytes → Except GoError ClockFrameFragment
  unmarshalTokenRequest : Bytes → Except GoError TokenRequest

inductive ValidationResult where
  | accept
  | reject
  | ignore
deriving DecidableEq

-- The source prints an identifier as its kind, a dash and hex.
inductive RequestIdentifier where
  | transfer (coin : Bytes)
  | split (coin : Bytes)
  | merge (coin : Bytes)
  | mintProof (digest : Bytes)
  | mintSign (frameNumber : Option UInt64) (key : Bytes)
  | announce (key : Bytes)
  | join (key : Bytes)
  | leave (key : Bytes)
  | pause (key : Bytes)
  | resume (key : Bytes)
deriving DecidableEq

structure DataClockConsensusEngine (β : Type) where
  prim : Primitives
  codec : GossipCodec
  sha3Sum512 : Bytes → Bytes
  accumulateClockFrameFragment : β → ClockFrameFragment → Except GoError (Option ClockFrame) × β
  peerID : Bytes
  provingKeyAddress : Bytes

structure Insertion where
  frame : ClockFrame
  tries : List RollingFrecencyCritbitTrie

structure DataState (β : Type) where
  frameProverTries : List RollingFrecencyCritbitTrie
  head : ClockFrame
  recentlyProcessedFrames : List Bytes
  fragmentBuffer : β
  validationFilter : List RequestIdentifier
  stagedTransactions : List TokenRequest
  stagedTransactionsSet : List RequestIdentifier
  peerScores : List (Bytes × Int)
  inserted : List Insertion

namespace DataState

variable {β : Type}

def frameProverTrieContains (s : DataState β) (i : Nat) (key : Bytes) : Bool :=
  match s.frameProverTries[i]? with
  | some trie => trie.contains key
  | none => false

def frameProverTriesContains (s : DataState β) (key : Bytes) : Bool := s.frameProverTries.any fun trie => trie.contains key

def isInProverTrie (prim : Primitives) (s : DataState β) (key : Bytes) : Bool :=
  match prim.poseidonHashBytes key with
  | .error _ => false
  | .ok h => s.frameProverTriesContains (beBytes 32 h.val)

-- lru.Cache.Add on a cache of 25 entries, the newest one first.
def remember (s : DataState β) (output : Bytes) : DataState β :=
  { s with recentlyProcessedFrames := (output :: s.recentlyProcessedFrames.erase output).take 25 }

def insert (s : DataState β) (frame : ClockFrame) : DataState β :=
  { s with inserted := s.inserted ++ [⟨frame, s.frameProverTries⟩] }

end DataState

-- time.Since(time.UnixMilli(timestamp)) > minutes, with the clock in nanoseconds.
def stale (now : Int) (timestamp : Int64) (minutes : Int) : Bool :=
  now - timestamp.toInt * 1000000 > minutes * 60000000000

def freshness (now : Int) (timestamp : Int64) (minutes : Int) : ValidationResult :=
  if stale now timestamp minutes then .ignore else .accept

def tokenRequestIdentifiers (sha3Sum512 : Bytes → Bytes) (transition : TokenRequest) : Go (List RequestIdentifier) :=
  match transition.request with
  | some (.transfer t) => do
      let coin ← deref t.ofCoin
      return [.transfer coin.address]
  | some (.split t) => do
      let coin ← deref t.ofCoin
      return [.split coin.address]
  | some (.merge t) => .ok (t.coins.map fun coin => .merge coin.address)
  | some (.mint t) =>
      if t.proofs.length = 1 then do
        let proof ← index t.proofs 0
        return [.mintProof (sha3Sum512 proof)]
      else if 3 ≤ t.proofs.length then do
        let proof ← index t.proofs 2
        let frameNumber ← beUint64 proof
        let key ← signerKey t.signature
        return [.mintSign (some frameNumber) key]
      else do
        let key ← signerKey t.signature
        return [.mintSign none key]
  | some (.announce t) => t.publicKeySignaturesEd448.mapM fun sig => do
      let publicKey ← deref sig.publicKey
      return .announce publicKey.keyValue
  | some (.join t) => do return [.join (← signerKey t.publicKeySignatureEd448)]
  | some (.leave t) => do return [.leave (← signerKey t.publicKeySignatureEd448)]
  | some (.pause t) => do return [.pause (← signerKey t.publicKeySignatureEd448)]
  | some (.resume t) => do return [.resume (← signerKey t.publicKeySignatureEd448)]
  | none => crash

namespace DataClockConsensusEngine

variable {β : Type} (e : DataClockConsensusEngine β)

def openMessage (data : Bytes) : Except GoError AnyMessage := do
  let msg ← e.codec.unmarshalMessage data
  e.codec.unmarshalAny msg.payload

-- The three validators decode the message and its payload and refuse other types.
def validateMessage (typeUrl : String) (validateValue : Bytes → StateGo (DataState β) ValidationResult) (data : Bytes) :
    StateGo (DataState β) ValidationResult :=
  match e.openMessage data with
  | .error _ => pure .reject
  | .ok a => if a.typeUrl = typeUrl then validateValue a.value else pure .reject

def validateFrameMessage (now : Int) (data : Bytes) : StateGo (DataState β) ValidationResult :=
  e.validateMessage clockFrameType (fun value =>
    match e.codec.unmarshalClockFrame value with
    | .error _ => pure .reject
    | .ok frame => pure (freshness now frame.timestamp 2)) data

def validateFrameFragmentMessage (now : Int) (data : Bytes) : StateGo (DataState β) ValidationResult :=
  e.validateMessage clockFrameFragmentType (fun value =>
    match e.codec.unmarshalClockFrameFragment value with
    | .error _ => pure .reject
    | .ok fragment => do
        match ← call (attempt (ClockFrameFragment.validate e.prim (some fragment))) with
        | .error _ => pure .reject
        | .ok () => pure (freshness now fragment.timestamp 2)) data

-- The checks on a mint before its age: none means that all of them passed.
def validateMint (sender : Bytes) (mint : MintCoinRequest) : StateGo (DataState β) (Option ValidationResult) :=
  if mint.proofs.length < 3 then pure (some .reject)
  else do
    let parallelism ← call (index mint.proofs 1)
    if parallelism.length ≠ 4 then pure (some .reject)
    else do
      let number ← call (index mint.proofs 2)
      if number.length ≠ 8 then pure (some .reject)
      else do
        let frameNumber ← call (beUint64 number)
        let key ← call (signerKey mint.signature)
        let id := RequestIdentifier.mintSign (some frameNumber) key
        let state ← readState
        modifyState fun s => { s with validationFilter := s.validationFilter.insert id }
        if id ∈ state.validationFilter then do
          modifyState fun s => { s with peerScores := s.peerScores ++ [(sender, -1000000)] }
          pure (some .ignore)
        else if frameNumber + 1 < state.head.frameNumber then pure (some .ignore)
        else pure none

def validateTx (now : Int) (sender : Bytes) (tx : TokenRequest) : StateGo (DataState β) ValidationResult := do
  match ← call (attempt (TokenRequest.validate e.prim (some tx))) with
  | .error _ => pure .reject
  | .ok () =>
      match tx.request with
      | some (.mint mint) => do
          let verdict ← validateMint sender mint
          pure (verdict.getD (freshness now tx.timestamp 10))
      | _ => pure (freshness now tx.timestamp 10)

def validateTxMessage (now : Int) (sender data : Bytes) : StateGo (DataState β) ValidationResult :=
  e.validateMessage tokenRequestType (fun value =>
    match e.codec.unmarshalTokenRequest value with
    | .error _ => pure .reject
    | .ok tx => e.validateTx now sender tx) data

def handleClockFrame (frame : Option ClockFrame) : StateGo (DataState β) Unit :=
  match frame with
  | none => call (raise ((errorsNew "frame is nil").wrap "handle clock frame"))
  | some frame => do
      let key ← call (signerKey frame.publicKeySignatureEd448)
      let address ← call (wrapErr "handle clock frame data" (hashAddress e.prim key))
      let state ← readState
      if state.frameProverTrieContains 0 address = false then pure ()
      else if frame.output ∈ state.recentlyProcessedFrames then pure ()
      else do
        modifyState fun s => s.remember frame.output
        call (wrapErr "handle clock frame data" (verifyDataClockFrame e.prim frame))
        if state.head.frameNumber < frame.frameNumber then modifyState fun s => s.insert frame else pure ()

def accumulate (fragment : ClockFrameFragment) : StateGo (DataState β) (Option ClockFrame) := do
  let state ← readState
  let (result, buffer) := e.accumulateClockFrameFragment state.fragmentBuffer fragment
  modifyState fun s => { s with fragmentBuffer := buffer }
  call (wrapErr "handle clock frame fragment data" (returned result))

def handleClockFrameFragment (fragment : Option ClockFrameFragment) : StateGo (DataState β) Unit :=
  match fragment with
  | none => call (raise ((errorsNew "fragment is nil").wrap "handle clock frame fragment"))
  | some fragment => do
      let key ← call (signerKey fragment.publicKeySignatureEd448)
      let address ← call (wrapErr "handle clock frame fragment data" (hashAddress e.prim key))
      let state ← readState
      if state.frameProverTrieContains 0 address = false then pure ()
      else do
        match ← e.accumulate fragment with
        | none => pure ()
        | some frame => e.handleClockFrame (some frame)

def handleTokenRequest (transition : TokenRequest) : StateGo (DataState β) Unit := do
  let state ← readState
  if state.frameProverTrieContains 0 e.provingKeyAddress then do
    let identifiers ← call (tokenRequestIdentifiers e.sha3Sum512 transition)
    if identifiers.any (fun identifier => identifier ∈ state.stagedTransactionsSet) then pure ()
    else modifyState fun s => { s with
      stagedTransactions := s.stagedTransactions ++ [transition]
      stagedTransactionsSet := identifiers ++ s.stagedTransactionsSet }
  else pure ()

-- The message loops decode again what the validators accepted and only log errors.
def handleMessage (typeUrl : String) (handleValue : Bytes → StateGo (DataState β) Unit) (data : Bytes) :
    StateGo (DataState β) Unit :=
  match e.openMessage data with
  | .error _ => pure ()
  | .ok a => if a.typeUrl = typeUrl then logged (handleValue a.value) else pure ()

-- Messages of the node itself come back from the mesh and are skipped.
def handleFrameMessage (sender data : Bytes) : StateGo (DataState β) Unit :=
  e.handleMessage clockFrameType (fun value =>
    if sender = e.peerID then pure ()
    else do
      let frame ← call (wrapErr "handle clock frame data" (returned (e.codec.unmarshalClockFrame value)))
      e.handleClockFrame (some frame)) data

def handleFrameFragmentMessage (sender data : Bytes) : StateGo (DataState β) Unit :=
  e.handleMessage clockFrameFragmentType (fun value =>
    if sender = e.peerID then pure ()
    else do
      let fragment ← call (wrapErr "handle clock frame fragment data" (returned (e.codec.unmarshalClockFrameFragment value)))
      e.handleClockFrameFragment (some fragment)) data

-- A node in the first trie gives the message to its token engine, which hands the same request back.
def handleTxMessage (data : Bytes) : StateGo (DataState β) Unit :=
  e.handleMessage tokenRequestType (fun value => do
    let state ← readState
    if state.frameProverTrieContains 0 e.provingKeyAddress then do
      let transition ← call (returned (e.codec.unmarshalTokenRequest value))
      e.handleTokenRequest transition
    else pure ()) data

end DataClockConsensusEngine

inductive Topic where
  | frame
  | frameFragment
  | tx
deriving DecidableEq

section Receive

variable {β : Type} (e : DataClockConsensusEngine β)

def validateOn (now : Int) (sender data : Bytes) : Topic → StateGo (DataState β) ValidationResult
  | .frame => e.validateFrameMessage now data
  | .frameFragment => e.validateFrameFragmentMessage now data
  | .tx => e.validateTxMessage now sender data

def handleOn (sender data : Bytes) : Topic → StateGo (DataState β) Unit
  | .frame => e.handleFrameMessage sender data
  | .frameFragment => e.handleFrameFragmentMessage sender data
  | .tx => e.handleTxMessage data

def receiveMessage (topic : Topic) (now : Int) (sender data : Bytes) : StateGo (DataState β) Unit := do
  let verdict ← validateOn e now sender data topic
  if verdict = .accept then handleOn e sender data topic else pure ()

end Receive

end Ceremony
