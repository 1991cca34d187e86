import CeremonyClient.Lib.Go

set_option autoImplicit false

namespace Ceremony

open GoSem

variable {address : Bytes}

structure Digest where
  bytes : Bytes
  size : bytes.length = 32
deriving DecidableEq

theorem digest_ext {left right : Digest} (same : left.bytes = right.bytes) : left = right := by
  cases left
  cases right
  cases same
  rfl

-- The scalar field that go-iden3-crypto hashes into.
def poseidonOrder : Nat := 21888242871839275222246405745257275088548364400416034343698204186575808495617

def fieldElement (value : Nat) : Fin poseidonOrder := ⟨value % poseidonOrder, Nat.mod_lt value (by decide)⟩

structure MerkleProof where
  siblings : List Bytes
  path : UInt32
deriving DecidableEq

-- What the Merkle library builds in proof generation mode: one proof per leaf.
structure MerkleTree where
  root : Bytes
  leaves : List Bytes
  proofs : List MerkleProof
deriving DecidableEq

-- Functions of other packages and of the VDF library, deterministic and without effect on the node. PomwBasis is
-- floating point and only known to return a non-negative integer.
structure Primitives where
  ed448Verify : (key message signature : Bytes) → Bool
  poseidonHashBytes : Bytes → Except GoError (Fin poseidonOrder)
  idFromPublicKey : Bytes → Except GoError Bytes
  sha3Sum256 : Bytes → Digest
  sha256Sum256 : Bytes → Digest
  merkleNew : (blocks : List Bytes) → Except GoError MerkleTree
  merkleVerify : (block : Bytes) → (proof : MerkleProof) → (root : Bytes) → Except GoError Bool
  wesolowskiVerify : Digest → UInt32 → Bytes → Bool
  pomwBasis : (generation : UInt64) → (ring : Int) → (currentFrameNumber : UInt64) → Nat

def returned {α : Type} : Except GoError α → Go α
  | .ok value => .ok value
  | .error cause => raise cause

-- HashBytes followed by FillBytes(make([]byte, 32)): a field element always fits.
def hashAddress (prim : Primitives) (message : Bytes) : Go Bytes := do
  let hash ← returned (prim.poseidonHashBytes message)
  return beBytes 32 hash.val

def unmarshalEd448PublicKey (data : Bytes) : Go Bytes :=
  if data.length ≠ 57 then raise (errorsNew "expect ed448 public key data size to be 57") else .ok data

def peerIDOfKey (prim : Primitives) (key : Bytes) : Go Bytes := do
  let pk ← unmarshalEd448PublicKey key
  returned (prim.idFromPublicKey pk)

def peerAddress (prim : Primitives) (key : Bytes) : Go Bytes := do
  let peerID ← peerIDOfKey prim key
  hashAddress prim peerID

theorem returned_ok_iff {α : Type} {result : Except GoError α} {value : α} : returned result = .ok value ↔ result = .ok value := by
  cases result <;> simp [returned, raise]

variable {prim : Primitives}

-- Small stand-ins with the shape of the real functions, to evaluate the model.
def sampleDigest (data : Bytes) : Digest := ⟨beBytes 32 (setBytes (1 :: data) * 2654435761), be_bytes_length 32 _⟩

def sampleSign (key message : Bytes) : Bytes := beBytes 114 (setBytes (key ++ message))

def sampleMerkleRoot (leaf : Bytes) : List Bytes → Nat → Bytes
  | [], _ => leaf
  | sibling :: tail, path =>
      sampleMerkleRoot (sampleDigest (if path % 2 = 1 then leaf ++ sibling else sibling ++ leaf)).bytes tail (path / 2)

def sampleMerkleNew : List Bytes → Except GoError MerkleTree
  | [left, right] => .ok ⟨(sampleDigest (left ++ right)).bytes, [left, right], [⟨[right], 1⟩, ⟨[left], 0⟩]⟩
  | _ => .error (errorsNew "the sample tree has two leaves")

def samplePrimitives : Primitives where
  ed448Verify key message signature := signature == sampleSign key message
  poseidonHashBytes message := .ok (fieldElement (setBytes message))
  idFromPublicKey key := .ok (0x12 :: 0x20 :: (sampleDigest key).bytes)
  sha3Sum256 := sampleDigest
  sha256Sum256 := sampleDigest
  merkleNew := sampleMerkleNew
  merkleVerify block proof root := .ok (sampleMerkleRoot block proof.siblings proof.path.toNat == root)
  wesolowskiVerify challenge _ proof := proof == beBytes 516 (setBytes challenge.bytes)
  pomwBasis _ ring _ := 1000000 / 2 ^ ring.toNat

end Ceremony
