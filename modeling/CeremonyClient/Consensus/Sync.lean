import CeremonyClient.Consensus.Gossip
import CeremonyClient.Time.DataTimeReel

set_option autoImplicit false

namespace Ceremony

open GoSem

structure SyncSession where
  peerId : Bytes
  latest : ClockFrame
  doneChs : List Nat
  maxFrame : UInt64
  cooperative : Bool

structure Syncing (β : Type) where
  data : DataState β
  session : SyncSession

def Syncing.uncooperative {β : Type} (s : Syncing β) : Syncing β := { s with session := { s.session with cooperative := false } }

@[simp] theorem uncooperative_data {β : Type} {s : Syncing β} : s.uncooperative.data = s.data := rfl

-- A missing genesis frame or selector is followed as a nil pointer: reading errors are ignored.
def followsGenesis (prim : Primitives) (genesis : Option ClockFrame) (frame : ClockFrame) : Go Bool :=
  if frame.frameNumber = 1 then do
    let genesis ← deref genesis
    match genesis.getSelector prim with
    | .ok selector => .ok (frame.parentSelector == beBytes 32 selector.val)
    | .error _ => crash
  else .ok true

section SyncWithPeer

variable {β : Type} (e : DataClockConsensusEngine β) (genesis : Option ClockFrame)

-- The result says whether syncWithPeer returns. A signer outside the tries only makes the peer uncooperative.
def syncFrame (frame : ClockFrame) (insertion : Except GoError Nat) : StateGo (Syncing β) Bool := do
  let key ← call (signerKey frame.publicKeySignatureEd448)
  modifyState fun s => if s.data.isInProverTrie e.prim key then s else s.uncooperative
  call (wrapErr "sync" (verifyDataClockFrame e.prim frame))
  let follows ← call (followsGenesis e.prim genesis frame)
  if follows = false then do
    modifyState fun s => s.uncooperative
    call (raise ((errorsNew "invalid frame").wrap "sync"))
  else do
    modifyState fun s => { s with data := s.data.insert frame }
    let doneCh ← call (wrapErr "sync" (returned insertion))
    modifyState fun s => { s with session := { s.session with doneChs := s.session.doneChs ++ [doneCh], latest := frame } }
    let s ← readState
    return decide (s.session.maxFrame ≤ frame.frameNumber)

def syncResponse (response : Except GoError (Option (Option ClockFrame))) (insertion : Except GoError Nat) :
    StateGo (Syncing β) Bool :=
  match response with
  | .error cause => do
      modifyState fun s => s.uncooperative
      call (raise (cause.wrap "sync"))
  | .ok none => pure true
  | .ok (some none) => do
      modifyState fun s => s.uncooperative
      pure true
  | .ok (some (some frame)) => do
      let s ← readState
      if frame.frameNumber ≠ s.session.latest.frameNumber + 1 ∨ frame.timestamp < s.session.latest.timestamp then do
        modifyState fun s => s.uncooperative
        pure true
      else syncFrame e genesis frame insertion

end SyncWithPeer

-- The node as its peers meet it. The peer maps hold the time stamps that the node compares.
structure DataNode (β : Type) where
  data : DataState β
  session : Option SyncSession
  peerMap : Table Bytes Int64
  uncooperativePeersMap : Table Bytes Int64
  crashed : Bool

inductive NodeEvent where
  | gossip (topic : Topic) (sender data : Bytes)
  | reel (head : ClockFrame) (tries : List RollingFrecencyCritbitTrie)
  | dial (latest : ClockFrame) (doneChs : List Nat) (maxFrame : UInt64) (peerId : Bytes) (channel : Except GoError Unit) (now : Int64)
  | response (response : Except GoError (Option (Option ClockFrame))) (insertion : Except GoError Nat) (now : Int64)

namespace DataNode

variable {β : Type}

-- The deferred functions of syncWithPeer.
def finish (n : DataNode β) (session : SyncSession) (now : Int64) : DataNode β :=
  if session.cooperative then { n with session := none }
  else
    match n.peerMap.lookup session.peerId with
    | none => { n with session := none }
    | some _ => { n with
        session := none
        uncooperativePeersMap := n.uncooperativePeersMap.insert session.peerId now
        peerMap := n.peerMap.erase session.peerId }

-- Events of a node that crashed, and responses without a session, change nothing.
def step (e : DataClockConsensusEngine β) (genesis : Option ClockFrame) (event : NodeEvent) (n : DataNode β) : DataNode β :=
  if n.crashed then n
  else
    match event with
    | .gossip topic sender data =>
        match (handleOn e sender data topic).on n.data with
        | (.error .panic, after) => { n with data := after, crashed := true }
        | (_, after) => { n with data := after }
    | .reel head tries => { n with data := { n.data with head := head, frameProverTries := tries } }
    | .dial latest doneChs maxFrame peerId channel now =>
        match n.session, channel with
        | some _, _ => n
        | none, .error _ => n.finish ⟨peerId, latest, doneChs, maxFrame, false⟩ now
        | none, .ok () => { n with session := some ⟨peerId, latest, doneChs, maxFrame, true⟩ }
    | .response response insertion now =>
        match n.session with
        | none => n
        | some session =>
            match (syncResponse e genesis response insertion).on ⟨n.data, session⟩ with
            | (.ok false, after) => { n with data := after.data, session := some after.session }
            | (.error .panic, after) => { n with data := after.data, session := some after.session, crashed := true }
            | (_, after) => { n with data := after.data }.finish after.session now

end DataNode

end Ceremony
