import CeremonyClient.Protobufs.Messages
import CeremonyClient.Protobufs.Primitives

set_option autoImplicit false

namespace Ceremony

open GoSem

def digestWord (input : Digest) (offset : Nat) : UInt64 := UInt64.ofNat (setBytes ((input.bytes.drop offset).take 8))

def mixWords (input : Digest) (maxValid result : UInt64) : UInt64 :=
  [8, 16, 24].foldl (fun result offset => if result > maxValid then (result * (31 : UInt64)) ^^^ digestWord input offset else result) result

-- The rejection loop has no bound in the source, so it carries fuel.
def unbiasedLoop (input : Digest) (maxValid : UInt64) : Nat → UInt64 → Go UInt64
  | fuel, result =>
      if result > maxValid then
        match fuel with
        | 0 => .error .outOfFuel
        | fuel + 1 =>
            let mixed := mixWords input maxValid result
            unbiasedLoop input maxValid fuel (if mixed > maxValid then (mixed * (31 : UInt64)) ^^^ (mixed >>> (32 : UInt64)) else mixed)
      else .ok result

def maxUint64 : UInt64 := 0xffffffffffffffff

def bytesToUnbiasedMod (fuel : Nat) (input : Digest) (modulus : UInt64) : Go UInt64 :=
  if modulus ≤ 1 then .ok 0
  else do
    let maxValid := maxUint64 - maxUint64 % modulus
    let result ← unbiasedLoop input maxValid fuel (digestWord input 0)
    return result % modulus

-- Further leaves of the previous tree, picked by hashing the last digest again until
-- `additional` distinct ones are found.
def packPicks (prim : Primitives) (loopFuel : Nat) (previousTree : MerkleTree) (modulo : UInt64) :
    Nat → (hash : Digest) → (additional : Nat) → (picks : List UInt64) → (output : List Bytes) → Go (List UInt64 × List Bytes)
  | _, _, 0, picks, output => .ok (picks, output)
  | 0, _, _ + 1, _, _ => .error .outOfFuel
  | fuel + 1, hash, additional + 1, picks, output => do
      let hash := prim.sha3Sum256 hash.bytes
      let pick ← bytesToUnbiasedMod loopFuel hash modulo
      if pick ∈ picks then packPicks prim loopFuel previousTree modulo fuel hash (additional + 1) picks output
      else
        let leaf ← index previousTree.leaves pick.toNat
        packPicks prim loopFuel previousTree modulo fuel hash additional (picks ++ [pick]) (output ++ [leaf])

-- The part of the payload that answers the challenge on the previous tree, with the picks.
def packPreviousLeaves (prim : Primitives) (fuel : Nat) (modulo : Nat) (frame : ClockFrame) (previousTree : MerkleTree) :
    Go (List UInt64 × List Bytes) := do
  let hash := prim.sha3Sum256 (frame.output ++ previousTree.root)
  let pick ← bytesToUnbiasedMod fuel hash (UInt64.ofNat modulo)
  failIf (UInt64.ofNat modulo < pick) ((errorsNew "proof size mismatch").wrap "pack output into payload and proof")
  let proof ← index previousTree.proofs pick.toNat
  let leaf ← index previousTree.leaves pick.toNat
  packPicks prim fuel previousTree (UInt64.ofNat modulo) fuel hash (len64 (UInt64.ofNat modulo - 1) - 1) [pick]
    (proof.siblings ++ [appendUint32 [] proof.path, leaf])

def packOutputIntoMultiPayloadAndProof (prim : Primitives) (fuel : Nat) (outputs : List Bytes) (modulo : Nat)
    (frame : ClockFrame) (previousTree : Option MerkleTree) : Go (MerkleTree × List Bytes) := do
  failIf (modulo ≠ outputs.length)
    ((errorsNew "mismatch of outputs and prover size").wrap "pack output into payload and proof")
  let tree ← wrapErr "pack output into payload and proof" (returned (prim.merkleNew outputs))
  let output := [tree.root, appendUint32 [] (UInt32.ofNat modulo), appendUint64 [] frame.frameNumber]
  match previousTree with
  | none => return (tree, output)
  | some previousTree =>
      if previousTree.proofs.length = modulo then
        let packed ← packPreviousLeaves prim fuel modulo frame previousTree
        return (tree, output ++ packed.2)
      else return (tree, output)

structure Unpacked where
  treeRoot : Bytes
  modulo : UInt32
  frameNumber : UInt64
  verified : Bool

-- The single and the multiple form differ in the number of elements and the place of the leaf.
def unpackAndVerify (prim : Primitives) (previousRoot : Bytes) (output : List Bytes) (expected : (numSiblings : Nat) → Nat)
    (leafOf : (numSiblings : Nat) → Go Bytes) : Go Unpacked := do
  failIf (output.length < 3)
    ((errorsNew "output too short, expected at least 3 elements").wrap "unpack and verify output")
  let treeRoot ← index output 0
  let modulo ← (index output 1 >>= beUint32)
  let frameNumber ← (index output 2 >>= beUint64)
  if output.length > 3 then
    let numSiblings := len64 (modulo.toUInt64 - 1)
    failIf (output.length ≠ expected numSiblings)
      ((errorsNew "invalid number of proof elements").wrap "unpack and verify output")
    let siblings ← slice output 3 (3 + numSiblings)
    let path ← (index output (3 + numSiblings) >>= beUint32)
    let leaf ← leafOf numSiblings
    let verified ← wrapErr "unpack and verify output" (returned (prim.merkleVerify leaf ⟨siblings, path⟩ previousRoot))
    return ⟨treeRoot, modulo, frameNumber, verified⟩
  else return ⟨treeRoot, modulo, frameNumber, true⟩

def unpackAndVerifyOutput (prim : Primitives) (previousRoot : Bytes) (output : List Bytes) : Go Unpacked :=
  unpackAndVerify prim previousRoot output (fun numSiblings => 5 + numSiblings) fun _ => indexFromEnd output 1

-- additional is numSiblings - 1 and is only added when it is positive.
def unpackAndVerifyMultiOutput (prim : Primitives) (previousRoot : Bytes) (output : List Bytes) : Go Unpacked :=
  unpackAndVerify prim previousRoot output (fun numSiblings => 5 + (numSiblings + (numSiblings - 1)))
    fun numSiblings => index output (4 + numSiblings)

theorem unpack_and_verify_ok {prim : Primitives} {previousRoot : Bytes} {output : List Bytes} {expected : Nat → Nat}
    {leafOf : Nat → Go Bytes} {unpacked : Unpacked} (done : unpackAndVerify prim previousRoot output expected leafOf = .ok unpacked) :
    output.length ≥ 3 ∧ index output 0 = .ok unpacked.treeRoot ∧ (index output 1 >>= beUint32) = .ok unpacked.modulo ∧
      (index output 2 >>= beUint64) = .ok unpacked.frameNumber := by
  simp only [unpackAndVerify, bind_ok_iff, fail_if_ok_iff] at done ⊢
  obtain ⟨_, many, treeRoot, isRoot, modulo, isModulo, frameNumber, isFrame, done⟩ := done
  split at done
  · simp only [bind_ok_iff] at done
    obtain ⟨_, -, siblings, -, path, -, leaf, -, verified, -, result⟩ := done
    cases result
    exact ⟨by omega, isRoot, isModulo, isFrame⟩
  · cases done
    exact ⟨by omega, isRoot, isModulo, isFrame⟩

end Ceremony
