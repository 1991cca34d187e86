import CeremonyClient.Store.DataProof

set_option autoImplicit false

namespace Ceremony

open GoSem

def RollingFrecencyCritbitTrie.serialize (c : StoreCodec) (t : RollingFrecencyCritbitTrie) : Go Bytes :=
  wrapErr "serialize" (returned (c.gobEncode t.trie))

def RollingFrecencyCritbitTrie.deserialize (c : StoreCodec) (buf : Bytes) : RollingFrecencyCritbitTrie :=
  if buf.length = 0 then .zero else ⟨c.gobDecode buf⟩

def rightAlign (data : Bytes) (size : Nat) : Bytes :=
  if data.length = size then data
  else if size < data.length then data.drop (data.length - size)
  else List.replicate (size - data.length) 0 ++ data

def clockFrameKey (filter : Bytes) (frameNumber : UInt64) (frameType : UInt8) : Bytes := appendUint64 [0x00, frameType] frameNumber ++ filter

def clockDataFrameKey (filter : Bytes) (frameNumber : UInt64) : Bytes := clockFrameKey filter frameNumber 0x01

def clockLatestIndex (filter : Bytes) (frameType : UInt8) : Bytes := [0x00, frameType] ++ filter

def clockDataLatestIndex (filter : Bytes) : Bytes := clockLatestIndex filter 0x21

def clockEarliestIndex (filter : Bytes) (frameType : UInt8) : Bytes := [0x00, frameType] ++ filter

def clockDataEarliestIndex (filter : Bytes) : Bytes := clockEarliestIndex filter 0x11

def clockParentIndexKey (filter : Bytes) (frameNumber : UInt64) (selector : Bytes) (frameType : UInt8) : Bytes :=
  appendUint64 [0x00, frameType] frameNumber ++ filter ++ rightAlign selector 32

def clockDataParentIndexKey (filter : Bytes) (frameNumber : UInt64) (selector : Bytes) : Bytes :=
  clockParentIndexKey filter frameNumber (rightAlign selector 32) 0x31

def clockProverTrieKey (filter : Bytes) (ring : UInt16) (frameNumber : UInt64) : Bytes :=
  appendUint64 (appendUint16 [0x00, 0x03] ring) frameNumber ++ filter

theorem prover_trie_key_inj {filter other : Bytes} {ring ring' : UInt16} {frameNumber number' : UInt64} :
    clockProverTrieKey filter ring frameNumber = clockProverTrieKey other ring' number' ↔
      filter = other ∧ ring = ring' ∧ frameNumber = number' := by
  constructor
  · intro same
    simp only [clockProverTrieKey, appendUint64, appendUint16, List.append_assoc] at same
    obtain ⟨rings, rest⟩ := List.append_inj (List.append_cancel_left same) (by rw [be_bytes_length, be_bytes_length])
    obtain ⟨numbers, filters⟩ := List.append_inj rest (by rw [be_bytes_length, be_bytes_length])
    exact ⟨filters, uint16_be_bytes_injective rings, uint64_be_bytes_injective numbers⟩
  · intro same
    rw [same.1, same.2.1, same.2.2]

namespace PebbleClockStore

section Reading

variable (c : StoreCodec) (db : Kvdb)

def frameCommits (frame : ClockFrame) : Go (List Bytes) := do
  let rest ← sliceFrom frame.input 516
  (List.range (rest.length / 74)).mapM fun i => slice frame.input (516 + i * 74) (516 + (i + 1) * 74)

def fillAggregateProofs (frame : ClockFrame) (genesisFramePreIndex : Bool) : Go ClockFrame :=
  if frame.frameNumber = 0 ∧ genesisFramePreIndex = true then .ok frame
  else do
    let commits ← frameCommits frame
    let proofs ← commits.mapM fun commit => internalGetAggregateProof c db frame.filter frame.frameNumber commit
    return { frame with aggregateProofs := frame.aggregateProofs ++ proofs }

-- A value of the size of a parent index key is such a key; any other value is a frame in the old format.
def findDataClockFrame (filter : Bytes) (frameNumber : UInt64) : Go (ClockFrame × Bool) :=
  match db.lookup (clockDataFrameKey filter frameNumber) with
  | none => raise errNotFound
  | some value =>
      if value.length = filter.length + 42 then
        match db.lookup value with
        | none => raise errNotFound
        | some frameValue => do
            let frame ← wrapErr "get data clock frame" (wrapErr "invalid data" (returned (c.unmarshalFrame frameValue)))
            return (frame, false)
      else do
        let frame ← wrapErr "get data clock frame" (wrapErr "invalid data" (returned (c.unmarshalFrame value)))
        return (frame, decide (frameNumber = 0))

-- The ring number is 16 bits wide: the loop does not end when there is a trie under each of them.
def readProverTries (filter : Bytes) (frameNumber : UInt64) : Nat → UInt16 → Go (List RollingFrecencyCritbitTrie)
  | 0, _ => .error .outOfFuel
  | fuel + 1, i =>
      match db.lookup (clockProverTrieKey filter i frameNumber) with
      | none => .ok []
      | some trieData => do
          let proverTries ← readProverTries filter frameNumber fuel (i + 1)
          return .deserialize c trieData :: proverTries

def getDataClockFrame (filter : Bytes) (frameNumber : UInt64) (truncate : Bool) : Go (ClockFrame × List RollingFrecencyCritbitTrie) := do
  let (frame, genesisFramePreIndex) ← findDataClockFrame c db filter frameNumber
  if truncate then return (frame, [])
  else do
    let filled ← wrapErr "get data clock frame" (wrapErr "invalid data" (fillAggregateProofs c db frame genesisFramePreIndex))
    let proverTries ← readProverTries c db filter frameNumber 65537 0
    return (filled, proverTries)

def getStagedDataClockFrame (filter : Bytes) (frameNumber : UInt64) (parentSelector : Bytes) (truncate : Bool) : Go ClockFrame :=
  match db.lookup (clockDataParentIndexKey filter frameNumber parentSelector) with
  | none => raise (errNotFound.wrap "get parent data clock frame")
  | some data => do
      let parent ← wrapErr "get parent data clock frame" (returned (c.unmarshalFrame data))
      if truncate then return parent
      else wrapErr "get clock frame iterator value" (wrapErr "invalid data" (fillAggregateProofs c db parent false))

end Reading

section Committing

variable (c : StoreCodec) (db : Kvdb)

structure DataCommit where
  filter : Bytes
  frameNumber : UInt64
  selector : Bytes
  proverTries : List RollingFrecencyCritbitTrie
  backfill : Bool

def putProverTries (filter : Bytes) (frameNumber : UInt64) : Nat → List RollingFrecencyCritbitTrie → Go Txn
  | _, [] => .ok []
  | i, proverTrie :: rest => do
      let proverData ← wrapErr "commit data clock frame" (proverTrie.serialize c)
      let later ← putProverTries filter frameNumber (i + 1) rest
      return .set (clockProverTrieKey filter (UInt16.ofNat i) frameNumber) proverData :: later

-- What a commit adds to its transaction; the earliest index is looked up in the database.
def commitDataClockFrame (call : DataCommit) : Go Txn := do
  let proverTries ← putProverTries c call.filter call.frameNumber 0 call.proverTries
  return .set (clockDataFrameKey call.filter call.frameNumber) (clockDataParentIndexKey call.filter call.frameNumber call.selector) :: proverTries ++
    (if (db.lookup (clockDataEarliestIndex call.filter)).isSome then []
      else [.set (clockDataEarliestIndex call.filter) (appendUint64 [] call.frameNumber)]) ++
    (if call.backfill then [] else [.set (clockDataLatestIndex call.filter) (appendUint64 [] call.frameNumber)])

end Committing

end PebbleClockStore

end Ceremony
