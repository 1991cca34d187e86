import CeremonyClient.Lib.Go

set_option autoImplicit false

namespace Ceremony

open GoSem

variable {address : Bytes}

-- As the protobuf decoder builds them: pointers are Options, repeated fields have no nil entries, and a chosen oneof
-- arm has its message.
structure Ed448PublicKey where
  keyValue : Bytes
deriving DecidableEq, Repr

structure Ed448Signature where
  signature : Bytes
  publicKey : Option Ed448PublicKey
deriving DecidableEq, Repr

structure OriginatedAccountRef where
  address : Bytes
deriving DecidableEq, Repr

structure ImplicitAccount where
  implicitType : UInt32
  address : Bytes
  domain : Bytes
deriving DecidableEq, Repr

inductive Account where
  | originatedAccount (account : OriginatedAccountRef)
  | implicitAccount (account : ImplicitAccount)
deriving DecidableEq, Repr

structure AccountRef where
  account : Option Account
deriving DecidableEq, Repr

structure AccountAllowanceRef where
  address : Bytes
deriving DecidableEq, Repr

structure CoinAllowanceRef where
  address : Bytes
deriving DecidableEq, Repr

structure CoinRef where
  address : Bytes
deriving DecidableEq, Repr

structure Coin where
  amount : Bytes
  intersection : Bytes
  owner : Option AccountRef
deriving DecidableEq, Repr

structure PreCoinProof where
  amount : Bytes
  index : UInt32
  indexProof : Bytes
  commitment : Bytes
  proof : Bytes
  parallelism : UInt32
  difficulty : UInt32
  owner : Option AccountRef
deriving DecidableEq, Repr

structure TransferCoinRequest where
  toAccount : Option AccountRef
  refundAccount : Option AccountRef
  ofCoin : Option CoinRef
  expiry : Int64
  accountAllowance : Option AccountAllowanceRef
  coinAllowance : Option CoinAllowanceRef
  signature : Option Ed448Signature
deriving DecidableEq

structure SplitCoinRequest where
  ofCoin : Option CoinRef
  amounts : List Bytes
  accountAllowance : Option AccountAllowanceRef
  coinAllowance : Option CoinAllowanceRef
  signature : Option Ed448Signature
deriving DecidableEq

structure MergeCoinRequest where
  coins : List CoinRef
  accountAllowance : Option AccountAllowanceRef
  coinAllowances : List CoinAllowanceRef
  signature : Option Ed448Signature
deriving DecidableEq

structure MintCoinRequest where
  proofs : List Bytes
  allowance : Option AccountAllowanceRef
  signature : Option Ed448Signature
deriving DecidableEq

structure AnnounceProverRequest where
  publicKeySignaturesEd448 : List Ed448Signature
deriving DecidableEq

structure AnnounceProverJoin where
  filter : Bytes
  frameNumber : UInt64
  publicKeySignatureEd448 : Option Ed448Signature
  announce : Option AnnounceProverRequest
deriving DecidableEq

-- AnnounceProverLeave, AnnounceProverPause and AnnounceProverResume have the same fields.
structure AnnounceProverChange where
  filter : Bytes
  frameNumber : UInt64
  publicKeySignatureEd448 : Option Ed448Signature
deriving DecidableEq

inductive Request where
  | transfer (request : TransferCoinRequest)
  | split (request : SplitCoinRequest)
  | merge (request : MergeCoinRequest)
  | mint (request : MintCoinRequest)
  | announce (request : AnnounceProverRequest)
  | join (request : AnnounceProverJoin)
  | leave (request : AnnounceProverChange)
  | pause (request : AnnounceProverChange)
  | resume (request : AnnounceProverChange)
deriving DecidableEq

structure TokenRequest where
  request : Option Request
  timestamp : Int64
deriving DecidableEq

structure ProverPenalty where
  quantity : UInt64
  account : Option AccountRef
deriving DecidableEq, Repr

inductive TokenOutput where
  | coin (coin : Coin)
  | proof (proof : PreCoinProof)
  | deletedCoin (coin : CoinRef)
  | deletedProof (proof : PreCoinProof)
  | announce (announce : AnnounceProverRequest)
  | join (join : AnnounceProverJoin)
  | leave (leave : AnnounceProverChange)
  | pause (pause : AnnounceProverChange)
  | resume (resume : AnnounceProverChange)
  | penalty (penalty : ProverPenalty)
deriving DecidableEq

structure InclusionCommitment where
  filter : Bytes
  frameNumber : UInt64
  position : UInt32
  typeUrl : String
  data : Bytes
  commitment : Bytes
deriving DecidableEq

structure InclusionAggregateProof where
  filter : Bytes
  frameNumber : UInt64
  inclusionCommitments : List InclusionCommitment
  proof : Bytes
deriving DecidableEq

structure ClockFrame where
  filter : Bytes
  frameNumber : UInt64
  timestamp : Int64
  difficulty : UInt32
  parentSelector : Bytes
  input : Bytes
  output : Bytes
  aggregateProofs : List InclusionAggregateProof
  publicKeySignatureEd448 : Option Ed448Signature
  padding : Bytes
deriving DecidableEq

structure ReedSolomonEncoding where
  frameSize : UInt64
  fragmentShard : UInt64
  fragmentDataShardCount : UInt64
  fragmentParityShardCount : UInt64
  fragmentData : Bytes
deriving DecidableEq

structure ClockFrameFragment where
  filter : Bytes
  frameNumber : UInt64
  timestamp : Int64
  frameHash : Bytes
  reedSolomon : Option ReedSolomonEncoding
  publicKeySignatureEd448 : Option Ed448Signature
deriving DecidableEq

structure IntrinsicExecutionOutput where
  address : Bytes
  output : Bytes
  proof : Bytes
deriving DecidableEq

structure Message where
  hash : Bytes
  address : Bytes
  payload : Bytes
deriving DecidableEq

structure AnyMessage where
  typeUrl : String
  value : Bytes
deriving DecidableEq

def tokenRequestType : String := "types.quilibrium.com/quilibrium.node.node.pb.TokenRequest"

def clockFrameType : String := "types.quilibrium.com/quilibrium.node.clock.pb.ClockFrame"

def clockFrameFragmentType : String := "types.quilibrium.com/quilibrium.node.clock.pb.ClockFrameFragment"

def intrinsicExecutionOutputType : String :=
  "types.quilibrium.com/quilibrium.node.application.pb.IntrinsicExecutionOutput"

-- The protobuf decoders: any byte string may decode to any message of the type, and the oneof
-- of an output may be unset.
structure Codec where
  unmarshalIntrinsicExecutionOutput : Bytes → Except GoError IntrinsicExecutionOutput
  unmarshalTokenOutputs : Bytes → Except GoError (List (Option TokenOutput))
  unmarshalTokenRequests : Bytes → Except GoError (List TokenRequest)

-- The generated getter: nil receivers and the other oneof arm both give nil.
def getImplicitAccount (owner : Option AccountRef) : Option ImplicitAccount :=
  match owner with
  | some ⟨some (.implicitAccount account)⟩ => some account
  | _ => none

def getOriginatedAccount (owner : Option AccountRef) : Option OriginatedAccountRef :=
  match owner with
  | some ⟨some (.originatedAccount account)⟩ => some account
  | _ => none

-- owner.GetImplicitAccount().Address, a field read through a pointer that may be nil.
def implicitAddress (owner : Option AccountRef) : Go Bytes := do
  let account ← deref (getImplicitAccount owner)
  return account.address

def implicitOwner (address : Bytes) : Option AccountRef :=
  some ⟨some (.implicitAccount ⟨0, address, []⟩)⟩

@[simp] theorem implicit_address_owner : implicitAddress (implicitOwner address) = .ok address := rfl

end Ceremony
