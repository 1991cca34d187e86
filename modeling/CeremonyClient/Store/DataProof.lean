import CeremonyClient.Lib.Batch
import CeremonyClient.Token.Application

set_option autoImplicit false

namespace Ceremony

open GoSem

-- gobDecode is what decoding leaves in the Trie field, also when it fails: Deserialize drops the error.
abbrev Kvdb := Table Bytes Bytes

abbrev Txn := List (Table.BatchOp Bytes Bytes)

structure StoreCodec where
  sha3Sum256 : Bytes → Digest
  marshalOutput : IntrinsicExecutionOutput → Except GoError Bytes
  unmarshalOutput : Bytes → Except GoError IntrinsicExecutionOutput
  marshalFrame : ClockFrame → Except GoError Bytes
  unmarshalFrame : Bytes → Except GoError ClockFrame
  gobEncode : Tree → Except GoError Bytes
  gobDecode : Bytes → Tree

def errInvalidData : GoError := errorsNew "invalid data"

-- A Go string is a sequence of bytes; it is kept here as a text with one character for each byte.
def textBytes (text : String) : Bytes := ascii text.toList

def bytesText (bytes : Bytes) : String := String.ofList (bytes.map fun byte => Char.ofNat byte.toNat)

def dataProofMetadataKey (filter commitment : Bytes) : Bytes := [0x04, 0x00] ++ commitment ++ filter

def dataProofInclusionKey (filter commitment : Bytes) (seqNo : UInt64) : Bytes := appendUint64 ([0x04, 0x01] ++ commitment) seqNo ++ filter

def dataProofSegmentKey (filter hash : Bytes) : Bytes := [0x04, 0x02] ++ hash ++ filter

section Reading

variable (c : StoreCodec) (db : Kvdb) (filter : Bytes) (frameNumber : UInt64)

def readSegment (hash : Bytes) : Go Bytes :=
  match db.lookup (dataProofSegmentKey filter hash) with
  | none => raise errInvalidData
  | some segment => .ok segment

def readChunks (incCommit : Bytes) (remainder : Nat) : Go (List Bytes) :=
  (List.range ((incCommit.length - remainder) / 32)).mapM fun j => do
    readSegment db filter (← slice incCommit (remainder + j * 32) (remainder + (j + 1) * 32))

def joinChunks (url : String) (chunks : List Bytes) : Go Bytes :=
  if url = intrinsicExecutionOutputType then do
    let left ← index chunks 0
    let right ← index chunks 1
    let address ← slice left 0 32
    let output ← sliceFrom left 32
    wrapErr "get aggregate proof" (returned (c.marshalOutput ⟨address, output, right⟩))
  else index chunks 0

-- The lengths are 16 bits wide and so are the sums of them.
def decodeInclusion (position : UInt32) (incCommit : Bytes) : Go InclusionCommitment := do
  let urlLength ← (slice incCommit 0 2 >>= beUint16)
  let commitLength ← (slice incCommit 2 4 >>= beUint16)
  let url ← slice incCommit 4 (urlLength + 4).toNat
  let commit ← slice incCommit (urlLength + 4).toNat (urlLength + 4 + commitLength).toNat
  let chunks ← readChunks db filter incCommit (urlLength + 4 + commitLength).toNat
  let data ← joinChunks c (bytesText url) chunks
  return ⟨filter, frameNumber, position, bytesText url, data, commit⟩

def decodeInclusions : UInt32 → List (Bytes × Bytes) → Go (List InclusionCommitment)
  | _, [] => .ok []
  | position, entry :: rest => do
      let inclusion ← decodeInclusion c db filter frameNumber position entry.2
      let inclusions ← decodeInclusions (position + 1) rest
      return inclusion :: inclusions

def internalGetAggregateProof (commitment : Bytes) : Go InclusionAggregateProof :=
  match db.lookup (dataProofMetadataKey filter commitment) with
  | none => raise errNotFound
  | some value => do
      let copied ← sliceFrom value 8
      let limit ← (slice value 0 8 >>= beUint64)
      let iter := db.range (dataProofInclusionKey filter commitment 0) (dataProofInclusionKey filter commitment (limit + 1))
      let inclusions ← decodeInclusions c db filter frameNumber 0 iter
      return ⟨filter, frameNumber, inclusions, copied⟩

end Reading

section Writing

variable (c : StoreCodec)

def segmentsOf (text : String) (inc : InclusionCommitment) : Go (List Bytes) :=
  if inc.typeUrl = intrinsicExecutionOutputType then do
    let o ← wrapErr text (returned (c.unmarshalOutput inc.data))
    return [o.address ++ o.output, o.proof]
  else .ok [inc.data]

def segmentKey (filter segment : Bytes) : Bytes := dataProofSegmentKey filter (c.sha3Sum256 segment).bytes

def encodeInclusion (inc : InclusionCommitment) (segments : List Bytes) : Bytes :=
  appendUint16 (appendUint16 [] (UInt16.ofNat (textBytes inc.typeUrl).length)) (UInt16.ofNat inc.commitment.length) ++
    textBytes inc.typeUrl ++ inc.commitment ++ segments.flatMap fun segment => (c.sha3Sum256 segment).bytes

def putInclusions (filter commitment : Bytes) : Nat → List InclusionCommitment → Go Txn
  | _, [] => .ok []
  | i, inc :: rest => do
      let segments ← segmentsOf c "get aggregate proof" inc
      let later ← putInclusions filter commitment (i + 1) rest
      return (segments.map fun segment => .set (segmentKey c filter segment) segment) ++
        .set (dataProofInclusionKey filter commitment (UInt64.ofNat i)) (encodeInclusion c inc segments) :: later

def aggregateMetadata (aggregateProof : InclusionAggregateProof) : Bytes :=
  appendUint64 [] (UInt64.ofNat aggregateProof.inclusionCommitments.length) ++ aggregateProof.proof

def internalPutAggregateProof (aggregateProof : InclusionAggregateProof) (commitment : Bytes) : Go Txn := do
  let inclusions ← putInclusions c aggregateProof.filter commitment 0 aggregateProof.inclusionCommitments
  return inclusions ++ [.set (dataProofMetadataKey aggregateProof.filter commitment) (aggregateMetadata aggregateProof)]

def inclusionSegments (inc : InclusionCommitment) : List Bytes := (segmentsOf c "" inc).toOption.getD []

theorem segments_of_ok {text : String} {inc : InclusionCommitment} {segments : List Bytes} (ran : segmentsOf c text inc = .ok segments) :
    segments = inclusionSegments c inc := by
  rw [inclusionSegments]
  by_cases isOutput : inc.typeUrl = intrinsicExecutionOutputType
  · rw [segmentsOf, if_pos isOutput] at ran ⊢
    obtain ⟨o, isO, isSegments⟩ := (bind_ok_iff _ _ _).mp ran
    rw [wrap_err_ok_iff] at isO
    rw [isO]
    exact (Except.ok.inj isSegments).symm
  · rw [segmentsOf, if_neg isOutput] at ran ⊢
    exact (Except.ok.inj ran).symm

end Writing

end Ceremony
