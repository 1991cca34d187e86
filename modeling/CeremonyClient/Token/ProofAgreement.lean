import CeremonyClient.Token.Transitions

set_option autoImplicit false

namespace Ceremony

open GoSem

variable {fuel : Nat} {modulo : UInt64} {hash : Digest} {additional : Nat} {picks : List UInt64} {prim : Primitives} {root : Bytes}
  {answer : List Bytes}

-- The loop that prover and verifier each write out again: distinct picks, by hashing the
-- last digest again.
def drawPicks (prim : Primitives) (loopFuel : Nat) (modulo : UInt64) :
    Nat → (hash : Digest) → (additional : Nat) → (picks : List UInt64) → Go (List UInt64)
  | _, _, 0, picks => .ok picks
  | 0, _, _ + 1, _ => .error .outOfFuel
  | fuel + 1, hash, additional + 1, picks => do
      let hash := prim.sha3Sum256 hash.bytes
      let pick ← bytesToUnbiasedMod loopFuel hash modulo
      if pick ∈ picks then drawPicks prim loopFuel modulo fuel hash (additional + 1) picks
      else drawPicks prim loopFuel modulo fuel hash additional (picks ++ [pick])

def challengeDraw (prim : Primitives) (fuel : Nat) (modulo : UInt64) (output root : Bytes) : Go (List UInt64) := do
  let hash := prim.sha3Sum256 (output ++ root)
  let pick ← bytesToUnbiasedMod fuel hash modulo
  drawPicks prim fuel modulo fuel hash (len64 (modulo - 1) - 1) [pick]

theorem unbiased_mod_lt {input : Digest} {modulus pick : UInt64} (large : 1 < modulus)
    (drawn : bytesToUnbiasedMod fuel input modulus = .ok pick) : pick < modulus := by
  rw [bytesToUnbiasedMod, if_neg (UInt64.not_le.mpr large), bind_ok_iff] at drawn
  obtain ⟨result, -, isPick⟩ := drawn
  rw [← Except.ok.inj isPick]
  exact UInt64.mod_lt result (UInt64.lt_trans (by decide) large)

theorem draw_picks_ok (prim : Primitives) (loopFuel : Nat) (large : 1 < modulo) (fuel : Nat) {all : List UInt64}
    (drawn : drawPicks prim loopFuel modulo fuel hash additional picks = .ok all) :
    ∃ more, all = picks ++ more ∧ more.length = additional ∧ ∀ pick ∈ more, pick < modulo := by
  induction fuel generalizing hash additional picks with
  | zero =>
      cases additional with
      | zero =>
          rw [drawPicks, Except.ok.injEq] at drawn
          exact ⟨[], by simp [drawn], rfl, by simp⟩
      | succ additional => cases drawn
  | succ fuel ih =>
      cases additional with
      | zero =>
          rw [drawPicks, Except.ok.injEq] at drawn
          exact ⟨[], by simp [drawn], rfl, by simp⟩
      | succ additional =>
          rw [drawPicks, bind_ok_iff] at drawn
          obtain ⟨pick, isPick, drawn⟩ := drawn
          by_cases repeated : pick ∈ picks
          · rw [if_pos repeated] at drawn
            exact ih drawn
          · rw [if_neg repeated] at drawn
            obtain ⟨more, same, count, small⟩ := ih drawn
            exact ⟨pick :: more, by rw [same, List.append_assoc]; rfl, by rw [List.length_cons, count],
              List.forall_mem_cons.mpr ⟨unbiased_mod_lt large isPick, small⟩⟩

theorem pack_picks_drawn {loopFuel : Nat} {tree : MerkleTree} (large : 1 < modulo) (leaves : tree.leaves.length = modulo.toNat)
    {more : List UInt64} {output : List Bytes} (drawn : drawPicks prim loopFuel modulo fuel hash additional picks = .ok (picks ++ more)) :
    packPicks prim loopFuel tree modulo fuel hash additional picks output =
      .ok (picks ++ more, output ++ more.map fun pick => tree.leaves.getD pick.toNat []) := by
  induction fuel generalizing hash additional picks more output with
  | zero =>
      cases additional with
      | zero =>
          rw [drawPicks, Except.ok.injEq, List.self_eq_append_right] at drawn
          rw [drawn]
          simp [packPicks]
      | succ additional => cases drawn
  | succ fuel ih =>
      cases additional with
      | zero =>
          rw [drawPicks, Except.ok.injEq, List.self_eq_append_right] at drawn
          rw [drawn]
          simp [packPicks]
      | succ additional =>
          rw [drawPicks, bind_ok_iff] at drawn
          obtain ⟨pick, isPick, drawn⟩ := drawn
          rw [packPicks, isPick, ok_bind]
          by_cases repeated : pick ∈ picks
          · rw [if_pos repeated] at drawn ⊢
            exact ih drawn
          · rw [if_neg repeated] at drawn ⊢
            obtain ⟨rest, same, -⟩ := draw_picks_ok prim loopFuel large fuel drawn
            have isMore : more = pick :: rest := by
              rw [List.append_assoc] at same
              exact List.append_cancel_left same
            have inside : pick.toNat < tree.leaves.length := by
              rw [leaves]
              exact UInt64.lt_iff_toNat_lt.mp (unbiased_mod_lt large isPick)
            have leaf : index tree.leaves pick.toNat = .ok (tree.leaves.getD pick.toNat []) := by
              simp [index, deref, inside]
            rw [same] at drawn
            rw [leaf, ok_bind, ih drawn, isMore]
            simp

theorem mint_picks_drawn (prim : Primitives) (loopFuel : Nat) (proofs : List Bytes) (large : 1 < modulo) (fuel : Nat)
    (enough : additional ≤ proofs.length) (picks more : List UInt64) (outputs : List Bytes)
    (drawn : drawPicks prim loopFuel modulo fuel hash additional picks = .ok (picks ++ more)) :
    mintPicks prim loopFuel proofs modulo fuel hash additional picks outputs =
      .ok (picks ++ more, outputs ++ proofs.drop (proofs.length - additional)) := by
  induction fuel generalizing hash additional picks more outputs with
  | zero =>
      cases additional with
      | zero =>
          rw [drawPicks, Except.ok.injEq, List.self_eq_append_right] at drawn
          rw [drawn]
          simp [mintPicks]
      | succ additional => cases drawn
  | succ fuel ih =>
      cases additional with
      | zero =>
          rw [drawPicks, Except.ok.injEq, List.self_eq_append_right] at drawn
          rw [drawn]
          simp [mintPicks]
      | succ additional =>
          rw [drawPicks, bind_ok_iff] at drawn
          obtain ⟨pick, isPick, drawn⟩ := drawn
          rw [mintPicks, isPick, ok_bind]
          by_cases repeated : pick ∈ picks
          · rw [if_pos repeated] at drawn ⊢
            exact ih enough _ _ _ drawn
          · rw [if_neg repeated] at drawn ⊢
            obtain ⟨rest, same, -⟩ := draw_picks_ok prim loopFuel large fuel drawn
            have isMore : more = pick :: rest := by
              rw [List.append_assoc] at same
              exact List.append_cancel_left same
            have inside : proofs.length - (additional + 1) < proofs.length := by omega
            have next : proofs.length - (additional + 1) + 1 = proofs.length - additional := by omega
            have leaf : indexFromEnd proofs (additional + 1) = .ok proofs[proofs.length - (additional + 1)] := by
              rw [indexFromEnd, if_pos enough]
              simp only [index, List.getElem?_eq_getElem inside, deref]
            rw [same] at drawn
            rw [leaf, ok_bind, ih (by omega) _ rest _ drawn, isMore, List.drop_eq_getElem_cons inside, next]
            simp

theorem len64_clog {modulo : Nat} (many : 2 ≤ modulo) (fits : modulo < 2 ^ 64) : len64 (UInt64.ofNat modulo - 1) = Nat.clog 2 modulo := by
  have value : (UInt64.ofNat modulo - 1).toNat = modulo - 1 := by
    rw [UInt64.toNat_sub_of_le]
    · rw [UInt64.toNat_ofNat_of_lt' fits]
      rfl
    · rw [UInt64.le_iff_toNat_le, UInt64.toNat_ofNat_of_lt' fits]
      exact le_trans (by decide) many
  have nonzero : UInt64.ofNat modulo - 1 ≠ 0 := by
    intro zero
    rw [zero] at value
    have none : (0 : UInt64).toNat = 0 := rfl
    omega
  rw [len64, if_neg nonzero, value]
  apply eq_of_forall_ge_iff
  intro depth
  rw [Nat.clog_le_iff_le_pow (by decide), Nat.succ_le_iff, Nat.log2_lt (by omega)]
  omega

structure ProvesLeaves (prim : Primitives) (tree : MerkleTree) (modulo : Nat) : Prop where
  leaves : tree.leaves.length = modulo
  proofs : tree.proofs.length = modulo
  siblings : ∀ proof ∈ tree.proofs, proof.siblings.length = Nat.clog 2 modulo
  verifies : ∀ (i : Nat) leaf proof, tree.leaves[i]? = some leaf → tree.proofs[i]? = some proof →
    prim.merkleVerify leaf proof tree.root = .ok true

section Agreement

variable (prim : Primitives) (fuel modulo : Nat) (frame : ClockFrame) (tree : MerkleTree)

theorem pack_previous_leaves_drawn (many : 2 ≤ modulo) (fits : modulo < 2 ^ 64) (sound : ProvesLeaves prim tree modulo)
    (picks : List UInt64) (drawn : challengeDraw prim fuel (UInt64.ofNat modulo) frame.output tree.root = .ok picks) :
    ∃ pick more proof, picks = pick :: more ∧ more.length = Nat.clog 2 modulo - 1 ∧ tree.proofs[pick.toNat]? = some proof ∧
      (∀ pick ∈ picks, pick.toNat < tree.leaves.length) ∧
      packPreviousLeaves prim fuel modulo frame tree = .ok (picks,
        proof.siblings ++ appendUint32 [] proof.path :: picks.map fun pick => tree.leaves.getD pick.toNat []) := by
  have size : (UInt64.ofNat modulo).toNat = modulo := UInt64.toNat_ofNat_of_lt' fits
  have large : 1 < UInt64.ofNat modulo := by
    rw [UInt64.lt_iff_toNat_lt, size]
    exact many
  obtain ⟨pick, isPick, rest⟩ := (bind_ok_iff _ _ _).mp drawn
  have small := unbiased_mod_lt large isPick
  obtain ⟨more, same, count, others⟩ := draw_picks_ok prim fuel large fuel rest
  rw [same] at rest
  have inside : ∀ other : UInt64, other < UInt64.ofNat modulo → other.toNat < modulo := by
    intro other less
    rw [UInt64.lt_iff_toNat_lt, size] at less
    exact less
  have leafInside : pick.toNat < tree.leaves.length := by
    rw [sound.leaves]
    exact inside pick small
  have proofInside : pick.toNat < tree.proofs.length := by
    rw [sound.proofs]
    exact inside pick small
  have leaf : index tree.leaves pick.toNat = .ok (tree.leaves.getD pick.toNat []) := by
    simp [index, deref, leafInside]
  have proof : index tree.proofs pick.toNat = .ok tree.proofs[pick.toNat] := by
    simp [index, deref, proofInside]
  have inOrder : ¬ UInt64.ofNat modulo < pick := UInt64.not_lt.mpr (UInt64.le_of_lt small)
  refine ⟨pick, more, tree.proofs[pick.toNat], same, by rw [count, len64_clog many fits],
    List.getElem?_eq_getElem proofInside, ?_, ?_⟩
  · intro other member
    rw [sound.leaves]
    rw [same] at member
    rcases List.mem_cons.mp member with first | later
    · rw [first]
      exact inside pick small
    · exact inside other (others other later)
  · rw [packPreviousLeaves, isPick, ok_bind, failIf, if_neg inOrder, ok_bind, proof, ok_bind, leaf, ok_bind,
      pack_picks_drawn large (by rw [sound.leaves, size]) rest, same]
    simp

theorem multi_payload_read (many : 2 ≤ modulo) (fits : modulo < 2 ^ 32) (sound : ProvesLeaves prim tree modulo)
    (drawn : challengeDraw prim fuel (UInt64.ofNat modulo) frame.output tree.root = .ok picks)
    (packed : packPreviousLeaves prim fuel modulo frame tree = .ok (picks, answer)) : let output := [root, appendUint32 [] (UInt32.ofNat modulo), appendUint64 [] frame.frameNumber] ++ answer
    unpackAndVerifyMultiOutput prim tree.root output = .ok ⟨root, UInt32.ofNat modulo, frame.frameNumber, true⟩ ∧
      challengePicks prim fuel output (UInt32.ofNat modulo) frame.output tree.root =
        .ok (picks, picks.map fun pick => tree.leaves.getD pick.toNat []) := by
  intro output
  obtain ⟨pick, more, proof, same, count, isProof, inside, isPacked⟩ := pack_previous_leaves_drawn prim fuel modulo frame tree many
    (fits.trans (by decide)) sound picks drawn
  rw [isPacked, Except.ok.injEq, Prod.mk.injEq] at packed
  have isAnswer := packed.2.symm
  have depth := len64_clog many (fits.trans (by decide))
  have positive : 0 < Nat.clog 2 modulo := Nat.clog_pos (by decide) many
  have siblings : proof.siblings.length = Nat.clog 2 modulo := sound.siblings proof (List.mem_of_getElem? isProof)
  have wide : (UInt32.ofNat modulo).toUInt64 = UInt64.ofNat modulo := by
    apply UInt64.toNat_inj.mp
    rw [UInt32.toNat_toUInt64, UInt32.toNat_ofNat_of_lt' fits, UInt64.toNat_ofNat_of_lt' (fits.trans (by decide))]
  have large : 1 < UInt64.ofNat modulo := by
    rw [UInt64.lt_iff_toNat_lt, UInt64.toNat_ofNat_of_lt' (fits.trans (by decide))]
    exact many
  -- Everything before the leaf of the first pick.
  have parts : output = ([root, appendUint32 [] (UInt32.ofNat modulo), appendUint64 [] frame.frameNumber] ++ proof.siblings ++
      [appendUint32 [] proof.path]) ++ tree.leaves.getD pick.toNat [] :: more.map fun pick => tree.leaves.getD pick.toNat [] := by
    simp only [output, isAnswer, same, List.map_cons, List.append_assoc, List.cons_append, List.nil_append]
  have front : ([root, appendUint32 [] (UInt32.ofNat modulo), appendUint64 [] frame.frameNumber] ++ proof.siblings ++
      [appendUint32 [] proof.path]).length = 4 + Nat.clog 2 modulo := by
    simp only [List.length_append, List.length_cons, List.length_nil, siblings]
    omega
  have total : output.length = 4 + Nat.clog 2 modulo + Nat.clog 2 modulo := by
    rw [parts, List.length_append, front, List.length_cons, List.length_map, count]
    omega
  have leafAt : index output (4 + Nat.clog 2 modulo) = .ok (tree.leaves.getD pick.toNat []) := by
    rw [index, parts, List.getElem?_append_right (by rw [front]), front, Nat.sub_self]
    rfl
  constructor
  · have readModulo : beUint32 (appendUint32 [] (UInt32.ofNat modulo)) = .ok (UInt32.ofNat modulo) := by
      simpa [appendUint32] using be_uint32_append (UInt32.ofNat modulo) []
    have readNumber : beUint64 (appendUint64 [] frame.frameNumber) = .ok frame.frameNumber := by
      simpa [appendUint64] using be_uint64_append frame.frameNumber []
    have readPath : beUint32 (appendUint32 [] proof.path) = .ok proof.path := by
      simpa [appendUint32] using be_uint32_append proof.path []
    have path : index output (3 + Nat.clog 2 modulo) = .ok (appendUint32 [] proof.path) := by
      rw [index, parts, List.getElem?_append_left (by rw [front]; omega), List.getElem?_append_right (by simp [siblings]; omega)]
      simp [siblings, deref, Nat.add_comm 3]
    have cut : slice output 3 (3 + Nat.clog 2 modulo) = .ok proof.siblings := by
      rw [slice, if_pos ⟨by omega, by omega⟩, parts, Nat.add_sub_cancel_left, List.append_assoc, List.append_assoc]
      simp only [List.cons_append, List.nil_append, List.drop_succ_cons, List.drop_zero, List.take_left' siblings]
    have leaf : tree.leaves[pick.toNat]? = some (tree.leaves.getD pick.toNat []) := by
      have bound := inside pick (by rw [same]; exact List.mem_cons_self)
      simp [bound]
    have verified : prim.merkleVerify (tree.leaves.getD pick.toNat []) ⟨proof.siblings, proof.path⟩ tree.root = .ok true :=
      sound.verifies pick.toNat _ proof leaf isProof
    have first : index output 0 = .ok root := rfl
    have second : index output 1 = .ok (appendUint32 [] (UInt32.ofNat modulo)) := rfl
    have third : index output 2 = .ok (appendUint64 [] frame.frameNumber) := rfl
    have expected : ¬ output.length ≠ 5 + (Nat.clog 2 modulo + (Nat.clog 2 modulo - 1)) := by omega
    simp only [unpackAndVerifyMultiOutput, unpackAndVerify, first, second, third, ok_bind, readModulo, readNumber, wide, depth, cut, path,
      readPath, leafAt, verified, returned, wrapErr, mapErr, failIf, if_neg expected, if_neg (show ¬ output.length < 3 by omega),
      if_pos (show output.length > 3 by omega)]
    rfl
  · obtain ⟨first, isFirst, rest⟩ := (bind_ok_iff _ _ _).mp drawn
    obtain ⟨others, sameOthers, -, -⟩ := draw_picks_ok prim fuel large fuel rest
    rw [same, List.singleton_append, List.cons.injEq] at sameOthers
    rw [same, ← sameOthers.1] at rest
    rw [← sameOthers.1] at isFirst
    have taken : indexFromEnd output (Nat.clog 2 modulo) = .ok (tree.leaves.getD pick.toNat []) := by
      rw [indexFromEnd, if_pos (by omega), total, Nat.add_sub_cancel]
      exact leafAt
    have tail : output.drop (output.length - (Nat.clog 2 modulo - 1)) = more.map fun pick => tree.leaves.getD pick.toNat [] := by
      have position : output.length - (Nat.clog 2 modulo - 1) = 4 + Nat.clog 2 modulo + 1 := by omega
      rw [position, parts, ← List.drop_drop, List.drop_left' front]
      rfl
    rw [depth] at rest
    rw [challengePicks, wide, isFirst, ok_bind, depth]
    simp only [taken, ok_bind]
    rw [mint_picks_drawn prim fuel output large fuel (by omega) [pick] more _ rest, tail, same]
    rfl

theorem pack_output_linked {outputs : List Bytes} {newTree : MerkleTree} (picks : List UInt64) (count : outputs.length = modulo)
    (made : prim.merkleNew outputs = .ok newTree) (proofs : tree.proofs.length = modulo)
    (packed : packPreviousLeaves prim fuel modulo frame tree = .ok (picks, answer)) :
    packOutputIntoMultiPayloadAndProof prim fuel outputs modulo frame (some tree) = .ok (newTree,
      [newTree.root, appendUint32 [] (UInt32.ofNat modulo), appendUint64 [] frame.frameNumber] ++ answer) := by
  rw [packOutputIntoMultiPayloadAndProof, failIf, if_neg (not_not.mpr count.symm), ok_bind, made]
  simp only [returned, wrapErr, mapErr, ok_bind, proofs, if_true, packed]
  rfl

end Agreement

-- Packing, unpacking and the recomputed challenge line up for every tree size that fits the
-- four bytes it is sent in.
theorem mint_proof_agreement (prim : Primitives) (fuel modulo : Nat) (outputs : List Bytes) (frame : ClockFrame)
    (tree previousTree : MerkleTree) (picks : List UInt64) (many : 2 ≤ modulo) (fits : modulo < 2 ^ 32)
    (count : outputs.length = modulo) (made : prim.merkleNew outputs = .ok tree) (sound : ProvesLeaves prim previousTree modulo)
    (terminates : challengeDraw prim fuel (UInt64.ofNat modulo) frame.output previousTree.root = .ok picks) :
    ∃ payload answer, packOutputIntoMultiPayloadAndProof prim fuel outputs modulo frame (some previousTree) = .ok (tree, payload) ∧
      unpackAndVerifyMultiOutput prim previousTree.root payload = .ok ⟨tree.root, UInt32.ofNat modulo, frame.frameNumber, true⟩ ∧
      (UInt32.ofNat modulo).toNat = modulo ∧
      packPreviousLeaves prim fuel modulo frame previousTree = .ok (picks, answer) ∧
      ∃ leaves, challengePicks prim fuel payload (UInt32.ofNat modulo) frame.output previousTree.root = .ok (picks, leaves) ∧
        leaves.map some = picks.map fun pick => previousTree.leaves[pick.toNat]? := by
  obtain ⟨pick, more, proof, -, -, -, inside, packed⟩ := pack_previous_leaves_drawn prim fuel modulo frame previousTree many
    (fits.trans (by decide)) sound picks terminates
  obtain ⟨unpacked, challenged⟩ := multi_payload_read prim fuel modulo frame previousTree many fits sound terminates packed
  refine ⟨_, _, pack_output_linked prim fuel modulo frame previousTree picks count made sound.proofs packed, unpacked,
    UInt32.toNat_ofNat_of_lt' fits, packed, _, challenged, ?_⟩
  rw [List.map_map]
  apply List.map_congr_left
  intro other member
  simp [inside other member]

def sampleTree : MerkleTree :=
  ⟨(sampleDigest ([1] ++ [2])).bytes, [[1], [2]], [⟨[[2]], 1⟩, ⟨[[1]], 0⟩]⟩

theorem sample_tree_proves : ProvesLeaves samplePrimitives sampleTree 2 where
  leaves := rfl
  proofs := rfl
  siblings := by
    have depth : Nat.clog 2 2 = 1 := by decide
    simp [sampleTree, depth]
  verifies := by
    intro i leaf proof isLeaf isProof
    match i with
    | 0 =>
        cases isLeaf
        cases isProof
        decide +kernel
    | 1 =>
        cases isLeaf
        cases isProof
        decide +kernel
    | _ + 2 => cases isLeaf

theorem mint_proof_agreement_two :
    challengeDraw samplePrimitives 8 (UInt64.ofNat 2) (sampleFrame 6).output sampleTree.root = .ok [0] ∧
    ∃ payload answer, packOutputIntoMultiPayloadAndProof samplePrimitives 8 [[1], [2]] 2 (sampleFrame 6) (some sampleTree) =
        .ok (sampleTree, payload) ∧
      unpackAndVerifyMultiOutput samplePrimitives sampleTree.root payload = .ok ⟨sampleTree.root, UInt32.ofNat 2, 6, true⟩ ∧
      (UInt32.ofNat 2).toNat = 2 ∧
      packPreviousLeaves samplePrimitives 8 2 (sampleFrame 6) sampleTree = .ok ([0], answer) ∧
      ∃ leaves, challengePicks samplePrimitives 8 payload (UInt32.ofNat 2) (sampleFrame 6).output sampleTree.root = .ok ([0], leaves) ∧
        leaves.map some = [0].map fun pick : UInt64 => sampleTree.leaves[pick.toNat]? := by
  have drawn : challengeDraw samplePrimitives 8 (UInt64.ofNat 2) (sampleFrame 6).output sampleTree.root = .ok [0] := by decide +kernel
  exact ⟨drawn, mint_proof_agreement samplePrimitives 8 2 [[1], [2]] (sampleFrame 6) sampleTree sampleTree [0] (by decide) (by decide)
    rfl rfl sample_tree_proves drawn⟩

-- Hashing counts up, and a tree of any size has the same leaf everywhere.
def countingDigest (data : Bytes) : Digest := ⟨beBytes 8 (setBytes (data.take 8) + 1) ++ List.replicate 24 0, by simp [be_bytes_length]⟩

def uniformTree (modulo : Nat) : MerkleTree :=
  ⟨[], List.replicate modulo [], List.replicate modulo ⟨List.replicate (Nat.clog 2 modulo) [], 0⟩⟩

def countingPrimitives (modulo : Nat) : Primitives :=
  { samplePrimitives with
    sha3Sum256 := countingDigest
    merkleNew := fun _ => .ok (uniformTree modulo)
    merkleVerify := fun _ _ _ => .ok true }

theorem uniform_tree_proves (modulo : Nat) : ProvesLeaves (countingPrimitives modulo) (uniformTree modulo) modulo where
  leaves := List.length_replicate
  proofs := List.length_replicate
  siblings := by
    intro proof member
    rw [List.eq_of_mem_replicate member]
    exact List.length_replicate
  verifies := fun _ _ _ _ _ => rfl

theorem pack_uniform (fuel modulo : Nat) (frame : ClockFrame) (many : 2 ≤ modulo) (fits : modulo < 2 ^ 64)
    (drawn : challengeDraw (countingPrimitives modulo) fuel (UInt64.ofNat modulo) frame.output (uniformTree modulo).root = .ok picks) :
    ∃ answer, answer.length = 2 * Nat.clog 2 modulo + 1 ∧
      packOutputIntoMultiPayloadAndProof (countingPrimitives modulo) fuel (List.replicate modulo []) modulo frame (some (uniformTree modulo)) =
        .ok (uniformTree modulo,
          [(uniformTree modulo).root, appendUint32 [] (UInt32.ofNat modulo), appendUint64 [] frame.frameNumber] ++ answer) := by
  have sound := uniform_tree_proves modulo
  obtain ⟨pick, more, proof, same, count, isProof, -, packed⟩ := pack_previous_leaves_drawn _ fuel modulo frame (uniformTree modulo) many
    fits sound picks drawn
  have siblings := sound.siblings proof (List.mem_of_getElem? isProof)
  have positive : 0 < Nat.clog 2 modulo := Nat.clog_pos (by decide) many
  refine ⟨_, ?_, pack_output_linked _ fuel modulo frame _ picks List.length_replicate rfl sound.proofs packed⟩
  rw [List.length_append, List.length_cons, List.length_map, siblings, same, List.length_cons, count]
  omega

theorem unpack_zero_modulo {previousRoot : Bytes} {frameNumber : UInt64} (some : 0 < answer.length) (size : answer.length ≠ 129) :
    unpackAndVerifyMultiOutput prim previousRoot ([root, appendUint32 [] 0, appendUint64 [] frameNumber] ++ answer) =
      raise ((errorsNew "invalid number of proof elements").wrap "unpack and verify output") := by
  have total : ([root, appendUint32 [] 0, appendUint64 [] frameNumber] ++ answer).length = 3 + answer.length := by
    rw [List.length_append]
    rfl
  have readNumber : beUint64 (appendUint64 [] frameNumber) = .ok frameNumber := by
    simpa [appendUint64] using be_uint64_append frameNumber []
  have readModulo : beUint32 (appendUint32 [] 0) = .ok 0 := rfl
  have deep : len64 ((0 : UInt32).toUInt64 - 1) = 64 := by decide +kernel
  have first : index ([root, appendUint32 [] 0, appendUint64 [] frameNumber] ++ answer) 0 = .ok root := rfl
  have second : index ([root, appendUint32 [] 0, appendUint64 [] frameNumber] ++ answer) 1 = .ok (appendUint32 [] 0) := rfl
  have third : index ([root, appendUint32 [] 0, appendUint64 [] frameNumber] ++ answer) 2 = .ok (appendUint64 [] frameNumber) := rfl
  simp only [unpackAndVerifyMultiOutput, unpackAndVerify, first, second, third, total, readModulo, readNumber, deep, ok_bind, failIf,
    if_neg (show ¬ 3 + answer.length < 3 by omega), if_pos (show 3 + answer.length > 3 by omega),
    if_pos (show 3 + answer.length ≠ 5 + (64 + (64 - 1)) by omega), raise_bind]

theorem oversized_tree_refused : ∃ (prim : Primitives) (fuel modulo : Nat) (outputs : List Bytes) (frame : ClockFrame)
    (tree previousTree : MerkleTree) (picks : List UInt64) (payload : List Bytes) (cause : GoError),
    2 ≤ modulo ∧ outputs.length = modulo ∧ prim.merkleNew outputs = .ok tree ∧ ProvesLeaves prim previousTree modulo ∧
      challengeDraw prim fuel (UInt64.ofNat modulo) frame.output previousTree.root = .ok picks ∧
      packOutputIntoMultiPayloadAndProof prim fuel outputs modulo frame (some previousTree) = .ok (tree, payload) ∧
      unpackAndVerifyMultiOutput prim previousTree.root payload = raise cause := by
  have drawn : challengeDraw (countingPrimitives (2 ^ 32)) 40 (UInt64.ofNat (2 ^ 32)) (List.replicate 516 0) [] =
      .ok ((List.range 32).map fun i => UInt64.ofNat (i + 1)) := by decide +kernel
  have depth : Nat.clog 2 (2 ^ 32) = 32 := Nat.clog_pow 2 32 (by decide)
  let frame : ClockFrame := { sampleFrame 6 with output := List.replicate 516 0 }
  obtain ⟨answer, size, packed⟩ := pack_uniform 40 (2 ^ 32) frame (by decide) (by decide) drawn
  rw [depth] at size
  have wraps : UInt32.ofNat (2 ^ 32) = 0 := by decide
  rw [wraps] at packed
  exact ⟨_, 40, 2 ^ 32, _, frame, _, uniformTree (2 ^ 32), _, _, _, by decide, List.length_replicate, rfl, uniform_tree_proves _, drawn, packed,
    unpack_zero_modulo (by omega) (by omega)⟩

end Ceremony
