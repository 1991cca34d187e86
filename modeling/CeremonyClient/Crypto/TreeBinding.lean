import CeremonyClient.Crypto.TreeHistory
import CeremonyClient.Lib.Chunks

set_option autoImplicit false

namespace Ceremony

open GoSem PrefixTrie

variable {length size : Nat} {a : Node Bytes Bytes (Fin 64)}

section Binding

variable (prims : TreePrimitives)

def branchMessage (pre : List (Fin 64)) (out : Bytes) : Bytes := 1 :: (pre.flatMap fun p => beBytes 4 p.val) ++ out

def digestOf (node : Node Bytes Bytes (Fin 64)) : Bytes := nodeDigest prims node (fresh prims node)

def Digested : Node Bytes Bytes (Fin 64) → Bytes → Prop
  | .nil, _ => False
  | .leaf key value, message => message = 0 :: key ++ value
  | .branch pre children, message => message = branchMessage pre (prims.commitRaw (freshData prims children)) ∨ ∃ i, Digested (children i) message

-- The messages and the vectors of a whole tree: a root branch is not hashed.
def TreeMessage : Node Bytes Bytes (Fin 64) → Bytes → Prop
  | .nil, _ => False
  | .leaf key value, message => message = 0 :: key ++ value
  | .branch _ children, message => ∃ i, Digested prims (children i) message

def TreeVector : Node Bytes Bytes (Fin 64) → Bytes → Prop
  | .nil, _ => False
  | .leaf _ _, _ => False
  | .branch _ children, data => data = freshData prims children ∨ ∃ i, TreeVector (children i) data

theorem digest_of_size (node : Node Bytes Bytes (Fin 64)) : (digestOf prims node).length = 64 := by
  cases node with
  | nil => exact List.length_replicate
  | leaf key value => exact prims.sha512_size _
  | branch pre children => exact prims.sha512_size _

theorem fresh_data_parts {children others : Fin 64 → Node Bytes Bytes (Fin 64)} (same : freshData prims children = freshData prims others)
    {i : Fin 64} : digestOf prims (children i) = digestOf prims (others i) :=
  flat_map_parts 64 (fun i => digest_of_size prims (children i)) (fun i => digest_of_size prims (others i)) same i
    (List.mem_finRange i)

theorem nibble_bytes_injective : Function.Injective fun p : Fin 64 => beBytes 4 p.val := by
  intro p q same
  have value := congrArg setBytes same
  simp only [] at value
  rw [set_bytes_be_bytes 4 p.val (by omega), set_bytes_be_bytes 4 q.val (by omega)] at value
  exact Fin.ext value

theorem branch_message_injective {pre other : List (Fin 64)} {out otherOut : Bytes} (size : out.length = otherOut.length)
    (same : branchMessage pre out = branchMessage other otherOut) : pre = other ∧ out = otherOut := by
  obtain ⟨-, rest⟩ := List.cons.inj same
  obtain ⟨front, back⟩ := List.append_inj' rest size
  exact ⟨flat_map_injective 4 (by decide) (fun p => be_bytes_length 4 p.val) nibble_bytes_injective front, back⟩

theorem digest_of_injective (commitSize : ∀ data, (prims.commitRaw data).length = size)
    (noZero : ∀ message, prims.sha512 message ≠ List.replicate 64 0) (b : Node Bytes Bytes (Fin 64))
    (aKeys : ∀ k v, Stored a k v → k.length = length) (bKeys : ∀ k v, Stored b k v → k.length = length)
    (shaInjective : ∀ m m', Digested prims a m → Digested prims b m' → prims.sha512 m = prims.sha512 m' → m = m')
    (commitInjective : ∀ d d', TreeVector prims a d → TreeVector prims b d' → prims.commitRaw d = prims.commitRaw d' → d = d')
    (same : digestOf prims a = digestOf prims b) : a = b := by
  induction a generalizing b with
  | nil =>
      cases b with
      | nil => rfl
      | leaf key value => exact absurd same.symm (noZero _)
      | branch pre children => exact absurd same.symm (noZero _)
  | leaf key value =>
      cases b with
      | nil => exact absurd same (noZero _)
      | leaf other otherValue =>
          have message := shaInjective _ _ rfl rfl same
          have keyLength := (aKeys key value ⟨rfl, rfl⟩).trans (bKeys other otherValue ⟨rfl, rfl⟩).symm
          obtain ⟨sameKey, sameValue⟩ := List.append_inj (List.cons.inj message).2 keyLength
          rw [sameKey, sameValue]
      | branch pre children =>
          have message := shaInjective _ _ rfl (.inl rfl) same
          exact absurd (List.cons.inj message).1 (by decide)
  | branch pre children ih =>
      cases b with
      | nil => exact absurd same (noZero _)
      | leaf other otherValue =>
          have message := shaInjective _ _ (.inl rfl) rfl same
          exact absurd (List.cons.inj message).1 (by decide)
      | branch other others =>
          have message := shaInjective _ _ (.inl rfl) (.inl rfl) same
          obtain ⟨samePre, sameOut⟩ := branch_message_injective ((commitSize _).trans (commitSize _).symm) message
          have data := commitInjective _ _ (.inl rfl) (.inl rfl) sameOut
          have sameChild : ∀ i, children i = others i := fun i =>
            ih i (others i) (fun k v stored => aKeys k v ⟨i, stored⟩) (fun k v stored => bKeys k v ⟨i, stored⟩)
              (fun m m' left right => shaInjective m m' (.inr ⟨i, left⟩) (.inr ⟨i, right⟩))
              (fun d d' left right => commitInjective d d' (.inr ⟨i, left⟩) (.inr ⟨i, right⟩)) (fresh_data_parts prims data)
          rw [samePre, funext sameChild]

-- At the root the prefix is not covered, and the kinds of nodes differ in the length of the commitment.
theorem root_commitment_stored (notDigest : size ≠ 64) (commitSize : ∀ data, (prims.commitRaw data).length = size)
    (noZero : ∀ message, prims.sha512 message ≠ List.replicate 64 0) {b : Node Bytes Bytes (Fin 64)}
    (aKeys : ∀ k v, Stored a k v → k.length = length) (bKeys : ∀ k v, Stored b k v → k.length = length)
    (shaInjective : ∀ m m', TreeMessage prims a m → TreeMessage prims b m' → prims.sha512 m = prims.sha512 m' → m = m')
    (commitInjective : ∀ d d', TreeVector prims a d → TreeVector prims b d' → prims.commitRaw d = prims.commitRaw d' → d = d')
    (same : rootCommitment prims a = rootCommitment prims b) (k v : Bytes) : Stored a k v ↔ Stored b k v := by
  have lengths := congrArg List.length same
  cases a with
  | nil =>
      cases b with
      | nil => rfl
      | leaf key value => exact absurd same.symm (noZero _)
      | branch pre children => exact absurd (lengths.trans (commitSize _)).symm (by simpa [rootCommitment] using notDigest)
  | leaf key value =>
      cases b with
      | nil => exact absurd same (noZero _)
      | leaf other otherValue =>
          rw [digest_of_injective prims commitSize noZero (.leaf other otherValue) aKeys bKeys shaInjective
            commitInjective same]
      | branch pre children => exact absurd ((prims.sha512_size _).symm.trans (lengths.trans (commitSize _))).symm notDigest
  | branch pre children =>
      cases b with
      | nil => exact absurd ((commitSize _).symm.trans lengths) (by simpa [rootCommitment] using notDigest)
      | leaf other otherValue => exact absurd ((commitSize _).symm.trans (lengths.trans (prims.sha512_size _))) notDigest
      | branch other others =>
          have data := commitInjective _ _ (.inl rfl) (.inl rfl) same
          have sameChild : ∀ i, children i = others i := fun i =>
            digest_of_injective prims commitSize noZero (others i) (fun k v stored => aKeys k v ⟨i, stored⟩)
              (fun k v stored => bKeys k v ⟨i, stored⟩) (fun m m' left right => shaInjective m m' ⟨i, left⟩ ⟨i, right⟩)
              (fun d d' left right => commitInjective d d' (.inr ⟨i, left⟩) (.inr ⟨i, right⟩)) (fresh_data_parts prims data)
          rw [Stored, Stored, funext sameChild]

-- SHA-512 and the vector commitment are taken to be free of collisions on what the two trees hash and commit to.
theorem root_commitment_binding (fuel length size : Nat) (first second : List TreeCall) (a b : VectorCommitmentTree)
    (firstKeyed : ∀ call ∈ first, call.Keyed (·.length = length)) (secondKeyed : ∀ call ∈ second, call.Keyed (·.length = length))
    (ranFirst : runTree prims fuel first emptyTree = .ok a) (ranSecond : runTree prims fuel second emptyTree = .ok b)
    (notDigest : size ≠ 64) (commitSize : ∀ data, (prims.commitRaw data).length = size)
    (noZero : ∀ message, prims.sha512 message ≠ List.replicate 64 0)
    (shaInjective : ∀ m m', TreeMessage prims (a.root.trie payload) m → TreeMessage prims (b.root.trie payload) m' →
      prims.sha512 m = prims.sha512 m' → m = m')
    (commitInjective : ∀ d d', TreeVector prims (a.root.trie payload) d → TreeVector prims (b.root.trie payload) d' →
      prims.commitRaw d = prims.commitRaw d' → d = d')
    (recalculateFirst recalculateSecond : Bool) (same : (a.commit prims recalculateFirst).2 = (b.commit prims recalculateSecond).2) :
    mapAfter payload first = mapAfter payload second := by
  obtain ⟨left, leftCoherent⟩ := run_represents payload prims fuel first a ranFirst
  obtain ⟨right, rightCoherent⟩ := run_represents payload prims fuel second b ranSecond
  rw [tree_commit_fresh (.inr leftCoherent), tree_commit_fresh (.inr rightCoherent)] at same
  have aKeys : ∀ k v, Stored (a.root.trie payload) k v → k.length = length := fun k v stored =>
    map_after_key payload _ first firstKeyed k (by rw [(left.stored k v).mp stored]; simp)
  have bKeys : ∀ k v, Stored (b.root.trie payload) k v → k.length = length := fun k v stored =>
    map_after_key payload _ second secondKeyed k (by rw [(right.stored k v).mp stored]; simp)
  have stored := root_commitment_stored prims notDigest commitSize noZero aKeys bKeys shaInjective commitInjective same
  funext key
  apply Option.ext
  intro value
  exact (left.stored key value).symm.trans ((stored key value).trans (right.stored key value))

end Binding

-- A hash that starts with a one, and a commitment of 74 bytes.
def markedPrimitives : TreePrimitives where
  sha512 message := 1 :: (message ++ List.replicate 63 0).take 63
  sha512_size message := by simp
  commitRaw data := (data ++ List.replicate 74 0).take 74
  proveRaw data index := (data.drop (64 * index.val)).take 64
  verifyRaw data _ _ proof := decide (proof = data)

theorem root_commitment_binding_hash_target :
    ∃ a b, runTree markedPrimitives 1 [.insert [1] (some [5]) [] 1] emptyTree = .ok a ∧
      runTree markedPrimitives 1 [.insert [1] (some [9]) [5] 2] emptyTree = .ok b ∧
      (a.commit markedPrimitives false).2 = (b.commit markedPrimitives true).2 ∧
      mapAfter payload [.insert [1] (some [5]) [] 1] = mapAfter payload [.insert [1] (some [9]) [5] 2] := by
  refine ⟨⟨.leaf [1] (some [5]) [] none (some 1)⟩, ⟨.leaf [1] (some [9]) [5] none (some 2)⟩, rfl, rfl, rfl, ?_⟩
  refine root_commitment_binding markedPrimitives 1 1 74 _ _ ⟨.leaf [1] (some [5]) [] none (some 1)⟩ ⟨.leaf [1] (some [9]) [5] none (some 2)⟩
    (by simp [TreeCall.Keyed]) (by simp [TreeCall.Keyed]) rfl rfl (by decide) ?_ ?_ ?_ ?_ false true rfl
  · intro data
    simp [markedPrimitives]
  · intro message zero
    exact absurd (List.cons.inj zero).1 (by decide)
  · intro m m' left right _
    exact left.trans right.symm
  · intro d d' left
    cases left

end Ceremony
