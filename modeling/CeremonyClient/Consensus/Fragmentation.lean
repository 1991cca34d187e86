import CeremonyClient.Lib.Chunks
import CeremonyClient.Protobufs.Messages
import CeremonyClient.Protobufs.Primitives

set_option autoImplicit false

namespace Ceremony

open GoSem

-- The Reed-Solomon library. A missing shard is empty.
structure ReedSolomon where
  new : (dataShards parityShards : Int) → Except GoError Unit
  encode : (dataShards parityShards : Nat) → List Bytes → Except GoError (List Bytes)
  reconstructData : (dataShards parityShards : Int) → List Bytes → Except GoError (List Bytes)

structure FrameMarshaler where
  marshal : ClockFrame → Except GoError Bytes
  unmarshal : Bytes → Except GoError ClockFrame

-- int(x) for a uint64, and the sum of two ints.
def goInt (value : UInt64) : Int := value.toInt64.toInt

def addInt (left right : Int) : Int := (left + right).bmod (2 ^ 64)

structure ReedSolomonClockFrameSplitter where
  dataShardCount : Nat
  parityShardCount : Nat

def newReedSolomonClockFrameSplitter (dataShardCount parityShardCount : Nat) : Go ReedSolomonClockFrameSplitter := do
  failIf (dataShardCount = 0) (errorsNew "dataShardCount must be greater than 0")
  failIf (parityShardCount = 0) (errorsNew "parityShardCount must be greater than 0")
  failIf (dataShardCount + parityShardCount > 256)
    (errorsNew "dataShardCount + parityShardCount must be less than or equal to 256")
  return ⟨dataShardCount, parityShardCount⟩

def shardSize (length dataShardCount : Nat) : Nat :=
  let share := length / dataShardCount + if length % dataShardCount ≠ 0 then 1 else 0
  if share % 64 ≠ 0 then share + (64 - share % 64) else share

def fragmentOf (r : ReedSolomonClockFrameSplitter) (frame : ClockFrame) (frameSize : Nat) (h : Bytes) (i : Nat) (shard : Bytes) :
    ClockFrameFragment :=
  ⟨frame.filter, frame.frameNumber, frame.timestamp, h,
    some ⟨UInt64.ofNat frameSize, UInt64.ofNat i, UInt64.ofNat r.dataShardCount, UInt64.ofNat r.parityShardCount, shard⟩, none⟩

def splitClockFrame (prim : Primitives) (rs : ReedSolomon) (proto : FrameMarshaler) (r : ReedSolomonClockFrameSplitter)
    (frame : ClockFrame) : Go (List ClockFrameFragment) := do
  let bs ← returned (proto.marshal frame)
  let fragmentSize := shardSize bs.length r.dataShardCount
  failIf (fragmentSize = 0) (errorsNew "ClockFrame is too small")
  let shards := cut fragmentSize r.dataShardCount bs ++ List.replicate r.parityShardCount (List.replicate fragmentSize 0)
  returned (rs.new r.dataShardCount r.parityShardCount)
  let shards ← returned (rs.encode r.dataShardCount r.parityShardCount shards)
  return shards.mapIdx (fragmentOf r frame bs.length (prim.sha256Sum256 bs).bytes)

-- What the assembler has learned from the fragments so far. A zero means unknown.
structure Learned where
  frameNumber : UInt64
  filter : Bytes
  timestamp : Int64
  frameHash : Bytes
  dataShardCount : Int
  parityShardCount : Int
  fragmentSize : Int
  frameSize : Int

def Learned.nothing : Learned := ⟨0, [], 0, [], 0, 0, 0, 0⟩

-- Each fragment takes the first case that applies, and teaches or checks one field at a time.
def learnFrame (k : Learned) (fragment : ClockFrameFragment) : Go Learned :=
  if k.frameNumber = 0 then .ok { k with frameNumber := fragment.frameNumber }
  else if k.frameNumber ≠ fragment.frameNumber then raise (errorsNew "inconsistent frame number")
  else if k.filter.length = 0 then .ok { k with filter := fragment.filter }
  else if k.filter ≠ fragment.filter then raise (errorsNew "inconsistent filter")
  else if k.timestamp = 0 then .ok { k with timestamp := fragment.timestamp }
  else if k.timestamp ≠ fragment.timestamp then raise (errorsNew "inconsistent timestamp")
  else if k.frameHash.length = 0 then .ok { k with frameHash := fragment.frameHash }
  else if k.frameHash ≠ fragment.frameHash then raise (errorsNew "inconsistent frame hash")
  else .ok k

def learnEncoding (k : Learned) (fragment : ReedSolomonEncoding) : Go Learned :=
  if k.dataShardCount = 0 then
    .ok { k with
      dataShardCount := goInt fragment.fragmentDataShardCount
      parityShardCount := goInt fragment.fragmentParityShardCount }
  else if k.dataShardCount ≠ goInt fragment.fragmentDataShardCount then raise (errorsNew "inconsistent data shard count")
  else if k.parityShardCount ≠ goInt fragment.fragmentParityShardCount then raise (errorsNew "inconsistent parity shard count")
  else if addInt k.dataShardCount k.parityShardCount ≤ goInt fragment.fragmentShard then raise (errorsNew "shard out of bounds")
  else if k.fragmentSize = 0 then .ok { k with fragmentSize := fragment.fragmentData.length }
  else if (fragment.fragmentData.length : Int) ≠ k.fragmentSize then raise (errorsNew "inconsistent fragment size")
  else if k.frameSize = 0 then .ok { k with frameSize := goInt fragment.frameSize }
  else if goInt fragment.frameSize ≠ k.frameSize then raise (errorsNew "inconsistent frame size")
  else .ok k

def learnFragment (k : Learned) (fragment : Option ClockFrameFragment) : Go Learned :=
  match fragment with
  | none => raise (errorsNew "fragment is nil")
  | some fragment => do
      let k ← learnFrame k fragment
      match fragment.reedSolomon with
      | none => raise (errorsNew "fragment is not ReedSolomon")
      | some encoding => learnEncoding k encoding

-- shards[shard] = fragment.FragmentData, with the check for a shard that is there already.
def placeShard (shards : List Bytes) (fragment : Option ClockFrameFragment) : Go (List Bytes) := do
  let fragment ← deref fragment
  let encoding ← deref fragment.reedSolomon
  let shard := encoding.fragmentShard.toNat
  let there ← index shards shard
  failIf (there ≠ []) (errorsNew "duplicate shard")
  return shards.set shard encoding.fragmentData

-- make([][]byte, n) and bs[:n] panic on a negative length.
def natLength (length : Int) : Go Nat := if 0 ≤ length then .ok length.toNat else crash

def assembleClockFrame (prim : Primitives) (rs : ReedSolomon) (proto : FrameMarshaler) (fragments : List (Option ClockFrameFragment)) :
    Go ClockFrame := do
  failIf (fragments.length = 0) (errorsNew "no fragments")
  let k ← fragments.foldlM learnFragment Learned.nothing
  let count ← natLength (addInt k.dataShardCount k.parityShardCount)
  let shards ← fragments.foldlM placeShard (List.replicate count [])
  returned (rs.new k.dataShardCount k.parityShardCount)
  let shards ← returned (rs.reconstructData k.dataShardCount k.parityShardCount shards)
  let dataCount ← natLength k.dataShardCount
  let dataShards ← slice shards 0 dataCount
  let frameSize ← natLength k.frameSize
  let bs ← slice dataShards.flatten 0 frameSize
  failIf ((prim.sha256Sum256 bs).bytes ≠ k.frameHash) (errorsNew "frame hash mismatch")
  returned (proto.unmarshal bs)

end Ceremony
