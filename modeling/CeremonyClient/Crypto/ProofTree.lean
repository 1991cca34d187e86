import CeremonyClient.Crypto.Nibbles
import CeremonyClient.Lib.Passes

set_option autoImplicit false

namespace Ceremony

open GoSem

-- SHA-512 and the vector commitments of the BLS48-581 library, always for vectors of 64 elements.
structure TreePrimitives where
  sha512 : Bytes → Bytes
  sha512_size : ∀ message, (sha512 message).length = 64
  commitRaw : (data : Bytes) → Bytes
  proveRaw : (data : Bytes) → (index : Fin 64) → Bytes
  verifyRaw : (data commit : Bytes) → (index : Fin 64) → (proof : Bytes) → Bool

-- A nil interface, a leaf or a branch. A nil value and a nil size differ from an empty value and zero.
inductive VectorCommitmentNode where
  | nil
  | leaf (key : Bytes) (value : Option Bytes) (hashTarget : Bytes) (commitment : Option Bytes) (size : Option Int)
  | branch (pre : List (Fin 64)) (children : Fin 64 → VectorCommitmentNode) (commitment : Option Bytes) (size : Option Int)
      (leafCount longestBranch : Nat)

structure VectorCommitmentTree where
  root : VectorCommitmentNode

def nibble (key : Bytes) (pos : Nat) : Fin 64 := ⟨getNextNibble key pos, get_next_nibble_lt⟩

-- The loop has no other end than the divergence of the two keys.
def getNibblesUntilDiverge : (fuel : Nat) → (key1 key2 : Bytes) → (depth : Nat) → Go (List (Fin 64) × Nat)
  | 0, _, _, _ => .error .outOfFuel
  | fuel + 1, key1, key2, depth =>
      if nibble key1 depth ≠ nibble key2 depth then .ok ([], depth)
      else do
        let (nibbles, divergeDepth) ← getNibblesUntilDiverge fuel key1 key2 (depth + 6)
        return (nibble key1 depth :: nibbles, divergeDepth)

namespace VectorCommitmentNode

def isNil : VectorCommitmentNode → Bool
  | .nil => true
  | _ => false

-- Returns the leaf count, the longest branch and the size as well. Adding a nil size panics.
def recalcMetadata : VectorCommitmentNode → Go (VectorCommitmentNode × Nat × Nat × Option Int)
  | .nil => .ok (.nil, 0, 0, some 0)
  | .leaf key value hashTarget commitment size => .ok (.leaf key value hashTarget commitment size, 1, 0, size)
  | .branch pre children commitment _ _ _ => do
      let results ← (List.finRange 64).mapM fun i => recalcMetadata (children i)
      let totalLeaves := (results.map fun child => child.2.1).sum
      let maxChildDepth := results.foldl (fun deepest child => max deepest child.2.2.1) 0
      let size ← results.foldlM (fun total child => do return total + (← deref child.2.2.2)) (0 : Int)
      let refreshed := fun i : Fin 64 => (results.getD i.val (.nil, 0, 0, some 0)).1
      return (.branch pre refreshed commitment (some size) totalLeaves (maxChildDepth + 1), totalLeaves, maxChildDepth + 1, some size)

def mismatch (key : Bytes) (depth : Nat) : List (Fin 64) → Option Nat
  | [] => none
  | expectedNibble :: rest =>
      if nibble key depth ≠ expectedNibble then some 0 else (mismatch key (depth + 6) rest).map (· + 1)

-- The source writes the case of a branch without a prefix out once more, with the same steps.
def insert (fuel : Nat) (key : Bytes) (value : Option Bytes) (hashTarget : Bytes) (size : Option Int) :
    VectorCommitmentNode → (depth : Nat) → Go VectorCommitmentNode
  | .nil, _ => .ok (.leaf key value hashTarget none size)
  | .leaf k v h c s, depth =>
      if k = key then .ok (.leaf k value hashTarget none size)
      else do
        let (sharedNibbles, divergeDepth) ← getNibblesUntilDiverge fuel k key depth
        let children := Function.update (Function.update (fun _ => .nil) (nibble k divergeDepth) (.leaf k v h c s))
          (nibble key divergeDepth) (.leaf key value hashTarget none size)
        return .branch sharedNibbles children none none 0 0
  | .branch pre children c s leafCount longestBranch, depth =>
      match mismatch key depth pre with
      | some i => do
          let expectedNibble ← index pre i
          let old := .branch (pre.drop (i + 1)) children c s leafCount longestBranch
          let forked := Function.update (Function.update (fun _ => .nil) expectedNibble old)
            (nibble key (depth + i * 6)) (.leaf key value hashTarget none size)
          let (newBranch, _) ← recalcMetadata (.branch (pre.take i) forked none none 0 0)
          return newBranch
      | none => do
          let finalNibble := nibble key (depth + pre.length * 6)
          let child ← insert fuel key value hashTarget size (children finalNibble) (depth + pre.length * 6 + 6)
          let (n, _) ← recalcMetadata (.branch pre (Function.update children finalNibble child) none s leafCount longestBranch)
          return n

-- What a branch becomes when one of its children has changed: nothing, its only child, or itself.
def collapse (pre : List (Fin 64)) (children : Fin 64 → VectorCommitmentNode) (size : Option Int) (leafCount longestBranch : Nat) :
    VectorCommitmentNode :=
  match (List.finRange 64).filter fun i => !(children i).isNil with
  | [] => .nil
  | [lastChildIndex] =>
      match children lastChildIndex with
      | .branch childPre grandchildren _ s leaves longest => .branch (pre ++ lastChildIndex :: childPre) grandchildren none s leaves longest
      | lastChild => lastChild
  | _ => .branch pre children none size leafCount longestBranch

def remove (key : Bytes) : VectorCommitmentNode → (depth : Nat) → Go VectorCommitmentNode
  | .nil, _ => .ok .nil
  | .leaf k v h c s, _ => if k = key then .ok .nil else .ok (.leaf k v h c s)
  | .branch pre children c s leafCount longestBranch, depth =>
      match mismatch key depth pre with
      | some _ => .ok (.branch pre children c s leafCount longestBranch)
      | none => do
          let finalNibble := nibble key (depth + pre.length * 6)
          let child ← remove key (children finalNibble) (depth + pre.length * 6 + 6)
          let (retNode, _) ← recalcMetadata (collapse pre (Function.update children finalNibble child) s leafCount longestBranch)
          return retNode

def get (key : Bytes) : VectorCommitmentNode → (depth : Nat) → Option Bytes
  | .nil, _ => none
  | .leaf k v _ _ _, _ => if k = key then v else none
  | .branch pre children _ _ _ _, depth =>
      match mismatch key depth pre with
      | some _ => none
      | none => get key (children (nibble key (depth + pre.length * 6))) (depth + pre.length * 6 + 6)

variable (prims : TreePrimitives)

-- What a child adds to the data of its branch, for the bytes that its own Commit returned.
def childDigest (child : VectorCommitmentNode) (out : Bytes) : Bytes :=
  match child with
  | .nil => List.replicate 64 0
  | .leaf _ _ _ _ _ => out
  | .branch pre _ _ _ _ _ => prims.sha512 (1 :: (pre.flatMap fun p => beBytes 4 p.val) ++ out)

def commit (recalculate : Bool) : VectorCommitmentNode → VectorCommitmentNode × Bytes
  | .nil => (.nil, [])
  | .leaf key value hashTarget commitment size =>
      match if recalculate then none else commitment with
      | some cached => (.leaf key value hashTarget commitment size, cached)
      | none =>
          let sum := prims.sha512 (0 :: key ++ if hashTarget.length ≠ 0 then hashTarget else value.getD [])
          (.leaf key value hashTarget (some sum) size, sum)
  | .branch pre children commitment size leafCount longestBranch =>
      match if recalculate then none else commitment with
      | some cached => (.branch pre children commitment size leafCount longestBranch, cached)
      | none =>
          let data := (List.finRange 64).flatMap fun i => childDigest prims (children i) (commit recalculate (children i)).2
          let committed := fun i => (commit recalculate (children i)).1
          (.branch pre committed (some (prims.commitRaw data)) size leafCount longestBranch, prims.commitRaw data)

def branchData (children : Fin 64 → VectorCommitmentNode) : Bytes :=
  (List.finRange 64).flatMap fun i => childDigest prims (children i) (commit prims false (children i)).2

-- VectorCommitmentBranchNode.Prove commits to all children.
def proveAt (children : Fin 64 → VectorCommitmentNode) (i : Fin 64) : (Fin 64 → VectorCommitmentNode) × Bytes :=
  (fun j => (commit prims false (children j)).1, prims.proveRaw (branchData prims children) i)

-- Commits to all children only when the branch has no commitment yet.
def verifyAt (children : Fin 64 → VectorCommitmentNode) (commitment : Option Bytes) (i : Fin 64) (proof : Bytes) :
    (Fin 64 → VectorCommitmentNode) × Bytes × Bool :=
  match commitment with
  | none =>
      let data := branchData prims children
      (fun j => (commit prims false (children j)).1, prims.commitRaw data,
        prims.verifyRaw ((data.drop (64 * i.val)).take 64) (prims.commitRaw data) i proof)
  | some cached =>
      let (child, out) := commit prims false (children i)
      (Function.update children i child, cached, prims.verifyRaw (childDigest prims (children i) out) cached i proof)

def height : VectorCommitmentNode → Nat
  | .nil => 0
  | .leaf _ _ _ _ _ => 0
  | .branch _ children _ _ _ _ => (Finset.univ.sup fun i => height (children i)) + 1

theorem height_child (pre : List (Fin 64)) (children : Fin 64 → VectorCommitmentNode) (commitment : Option Bytes) (size : Option Int)
    (leafCount longestBranch : Nat) (i : Fin 64) :
    (children i).height < (VectorCommitmentNode.branch pre children commitment size leafCount longestBranch).height :=
  Nat.lt_succ_of_le (Finset.le_sup (f := fun j => (children j).height) (Finset.mem_univ i))

theorem height_commit {recalculate : Bool} {node : VectorCommitmentNode} : (commit prims recalculate node).1.height = node.height := by
  induction node with
  | nil => rfl
  | leaf key value hashTarget commitment size =>
      rw [commit]
      split <;> rfl
  | branch pre children commitment size leafCount longestBranch ih =>
      rw [commit]
      split
      · rfl
      · simp only [height, ih]

-- n.Prove has committed to all children before the recursion goes on with one of them.
def prove (key : Bytes) (node : VectorCommitmentNode) (depth : Nat) : VectorCommitmentNode × List Bytes :=
  match node with
  | .nil => (.nil, [])
  | .leaf k v h c s => (.leaf k v h c s, if k = key then [v.getD []] else [])
  | .branch pre children c s leafCount longestBranch =>
      match mismatch key depth pre with
      | some _ => (.branch pre children c s leafCount longestBranch, [])
      | none =>
          let finalNibble := nibble key (depth + pre.length * 6)
          let proved := proveAt prims children finalNibble
          let below := prove key (commit prims false (children finalNibble)).1 (depth + pre.length * 6 + 6)
          (.branch pre (Function.update proved.1 finalNibble below.1) c s leafCount longestBranch, proved.2 :: below.2)
termination_by node.height
decreasing_by
  rw [height_commit]
  exact height_child _ _ _ _ _ _ _

def verify (key : Bytes) : (proofs : List Bytes) → VectorCommitmentNode → (depth : Nat) → VectorCommitmentNode × Bool
  | _, .nil, _ => (.nil, false)
  | [], node, _ => (node, false)
  | proof :: _, .leaf k v h c s, _ => (.leaf k v h c s, if k = key then v.getD [] = proof else false)
  | proof :: proofs, .branch pre children c s leafCount longestBranch, depth =>
      match mismatch key depth pre with
      | some _ => (.branch pre children c s leafCount longestBranch, false)
      | none =>
          let finalNibble := nibble key (depth + pre.length * 6)
          let verified := verifyAt prims children c finalNibble proof
          if verified.2.2 = false then (.branch pre verified.1 (some verified.2.1) s leafCount longestBranch, false)
          else
            let below := verify key proofs (verified.1 finalNibble) (depth + pre.length * 6 + 6)
            (.branch pre (Function.update verified.1 finalNibble below.1) (some verified.2.1) s leafCount longestBranch, below.2)

end VectorCommitmentNode

namespace VectorCommitmentTree

def insert (fuel : Nat) (t : VectorCommitmentTree) (key : Bytes) (value : Option Bytes) (hashTarget : Bytes) (size : Option Int) :
    Go VectorCommitmentTree := do
  failIf (key.length = 0) (errorsNew "empty key not allowed")
  return ⟨← t.root.insert fuel key value hashTarget size 0⟩

def get (t : VectorCommitmentTree) (key : Bytes) : Go Bytes := do
  failIf (key.length = 0) (errorsNew "empty key not allowed")
  match t.root.get key 0 with
  | none => raise (errorsNew "key not found")
  | some value => return value

def delete (t : VectorCommitmentTree) (key : Bytes) : Go VectorCommitmentTree := do
  failIf (key.length = 0) (errorsNew "empty key not allowed")
  return ⟨← t.root.remove key 0⟩

def getMetadata (t : VectorCommitmentTree) : Nat × Nat :=
  match t.root with
  | .nil => (0, 0)
  | .leaf _ _ _ _ _ => (1, 0)
  | .branch _ _ _ _ leafCount longestBranch => (leafCount, longestBranch)

-- The method call on a nil root panics.
def getSize (t : VectorCommitmentTree) : Go (Option Int) :=
  match t.root with
  | .nil => crash
  | .leaf _ _ _ _ size => .ok size
  | .branch _ _ _ size _ _ => .ok size

def commit (prims : TreePrimitives) (t : VectorCommitmentTree) (recalculate : Bool) : VectorCommitmentTree × Bytes :=
  match t.root with
  | .nil => (t, List.replicate 64 0)
  | root => (⟨(root.commit prims recalculate).1⟩, (root.commit prims recalculate).2)

def prove (prims : TreePrimitives) (t : VectorCommitmentTree) (key : Bytes) : VectorCommitmentTree × List Bytes :=
  if key.length = 0 then (t, []) else (⟨(t.root.prove prims key 0).1⟩, (t.root.prove prims key 0).2)

def verify (prims : TreePrimitives) (t : VectorCommitmentTree) (key : Bytes) (proofs : List Bytes) : VectorCommitmentTree × Bool :=
  if key.length = 0 then (t, false) else (⟨(t.root.verify prims key proofs 0).1⟩, (t.root.verify prims key proofs 0).2)

end VectorCommitmentTree

-- The calls that claims about the tree range over. Sizes are numbers, as all callers pass them.
inductive TreeCall where
  | insert (key : Bytes) (value : Option Bytes) (hashTarget : Bytes) (size : Int)
  | delete (key : Bytes)
  | commit (recalculate : Bool)
  | prove (key : Bytes)
  | verify (key : Bytes) (proofs : List Bytes)

def TreeCall.on (prims : TreePrimitives) (fuel : Nat) (t : VectorCommitmentTree) : TreeCall → Go VectorCommitmentTree
  | .insert key value hashTarget size => t.insert fuel key value hashTarget (some size)
  | .delete key => t.delete key
  | .commit recalculate => .ok (t.commit prims recalculate).1
  | .prove key => .ok (t.prove prims key).1
  | .verify key proofs => .ok (t.verify prims key proofs).1

def runTree (prims : TreePrimitives) (fuel : Nat) (calls : List TreeCall) (t : VectorCommitmentTree) : Go VectorCommitmentTree :=
  calls.foldlM (TreeCall.on prims fuel) t

def emptyTree : VectorCommitmentTree := ⟨.nil⟩

end Ceremony
