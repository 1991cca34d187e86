import CeremonyClient.Crypto.TreeShape

set_option autoImplicit false

namespace Ceremony

open GoSem PrefixTrie

variable {commitment : Option Bytes} {node : VectorCommitmentNode} {i : Fin 64} {children : Fin 64 → VectorCommitmentNode}

def payload (value : Option Bytes) (hashTarget : Bytes) (_ : Option Int) : Bytes :=
  if hashTarget.length ≠ 0 then hashTarget else value.getD []

section Fresh

variable (prims : TreePrimitives)

def nodeDigest (node : Node Bytes Bytes (Fin 64)) (out : Bytes) : Bytes :=
  match node with
  | .nil => List.replicate 64 0
  | .leaf _ _ => out
  | .branch pre _ => prims.sha512 (1 :: (pre.flatMap fun p => beBytes 4 p.val) ++ out)

def fresh : Node Bytes Bytes (Fin 64) → Bytes
  | .nil => []
  | .leaf key value => prims.sha512 (0 :: key ++ value)
  | .branch _ children => prims.commitRaw ((List.finRange 64).flatMap fun i => nodeDigest prims (children i) (fresh (children i)))

def freshData (children : Fin 64 → Node Bytes Bytes (Fin 64)) : Bytes :=
  (List.finRange 64).flatMap fun i => nodeDigest prims (children i) (fresh prims (children i))

def Current (cached : Option Bytes) (expected : Bytes) : Prop := cached = none ∨ cached = some expected

omit prims in
theorem current_cached {expected cached : Bytes} (current : Current commitment expected)
    (isCached : (if false = true then none else commitment) = some cached) : cached = expected := by
  rw [if_neg (by simp)] at isCached
  cases current with
  | inl empty => rw [empty] at isCached; cases isCached
  | inr current => exact Option.some.inj (isCached.symm.trans current)

def Coherent : VectorCommitmentNode → Prop
  | .nil => True
  | .leaf key value hashTarget commitment size =>
      Current commitment (fresh prims (VectorCommitmentNode.trie payload (.leaf key value hashTarget commitment size)))
  | .branch _ children commitment _ _ _ =>
      Current commitment (prims.commitRaw (freshData prims fun i => (children i).trie payload)) ∧ ∀ i, Coherent (children i)

theorem child_digest_eq {child : VectorCommitmentNode} {out : Bytes} :
    VectorCommitmentNode.childDigest prims child out = nodeDigest prims (child.trie payload) out := by
  cases child <;> rfl

theorem commit_trie {ν : Type} (view : Option Bytes → Bytes → Option Int → ν) (recalculate : Bool) (node : VectorCommitmentNode) :
    (node.commit prims recalculate).1.trie view = node.trie view := by
  induction node with
  | nil => rfl
  | leaf key value hashTarget commitment size =>
      rw [VectorCommitmentNode.commit]
      split <;> rfl
  | branch pre children commitment size leafCount longestBranch ih =>
      rw [VectorCommitmentNode.commit]
      split
      · rfl
      · simp only [VectorCommitmentNode.trie, ih]

theorem commit_fresh (recalculate : Bool) (node : VectorCommitmentNode) (ready : recalculate = true ∨ Coherent prims node) :
    (node.commit prims recalculate).2 = fresh prims (node.trie payload) ∧ Coherent prims (node.commit prims recalculate).1 := by
  induction node with
  | nil => exact ⟨rfl, trivial⟩
  | leaf key value hashTarget commitment size =>
      rw [VectorCommitmentNode.commit]
      split
      · next cached isCached =>
          cases recalculate with
          | true => cases isCached
          | false =>
              have coherent := ready.resolve_left (by simp)
              exact ⟨current_cached coherent isCached, coherent⟩
      · exact ⟨rfl, .inr rfl⟩
  | branch pre children commitment size leafCount longestBranch ih =>
      rw [VectorCommitmentNode.commit]
      split
      · next cached isCached =>
          cases recalculate with
          | true => cases isCached
          | false =>
              have coherent := ready.resolve_left (by simp)
              exact ⟨current_cached coherent.1 isCached, coherent⟩
      · have below := fun i => ih i (ready.imp_right fun coherent => coherent.2 i)
        have data : ((List.finRange 64).flatMap fun i =>
            VectorCommitmentNode.childDigest prims (children i) ((children i).commit prims recalculate).2) =
              freshData prims fun i => (children i).trie payload := by
          rw [freshData]
          congr 1
          funext i
          rw [child_digest_eq, (below i).1]
        refine ⟨congrArg prims.commitRaw data, ?_, fun i => (below i).2⟩
        rw [data]
        right
        simp only [commit_trie]

theorem refresh_coherent (coherent : Coherent prims node) : Coherent prims node.refresh := by
  induction node with
  | nil => trivial
  | leaf key value hashTarget commitment size => exact coherent
  | branch pre children commitment size leafCount longestBranch ih =>
      refine ⟨?_, fun i => ih i (coherent.2 i)⟩
      simp only [trie_refresh]
      exact coherent.1

theorem coherent_update (children : Fin 64 → VectorCommitmentNode) (coherent : ∀ i, Coherent prims (children i)) (i : Fin 64)
    (child : VectorCommitmentNode) (childCoherent : Coherent prims child) (j : Fin 64) :
    Coherent prims (Function.update children i child j) := by
  by_cases same : j = i
  · rw [same, Function.update_self]
    exact childCoherent
  · rw [Function.update_of_ne same]
    exact coherent j

theorem coherent_fork {j : Fin 64} {first second : VectorCommitmentNode} (firstCoherent : Coherent prims first)
    (secondCoherent : Coherent prims second) (l : Fin 64) :
    Coherent prims (Function.update (Function.update (fun _ => VectorCommitmentNode.nil) i first) j second l) := by
  have nothing : ∀ l : Fin 64, Coherent prims ((fun _ => VectorCommitmentNode.nil) l) := fun _ => trivial
  exact coherent_update prims _ (coherent_update prims _ nothing i first firstCoherent) j second secondCoherent l

theorem insert_coherent (fuel : Nat) (key : Bytes) (value : Option Bytes) (hashTarget : Bytes) (size : Int)
    (node after : VectorCommitmentNode) (d : Nat) (sized : node.Sized) (coherent : Coherent prims node)
    (ran : node.insert fuel key value hashTarget (some size) (6 * d) = .ok after) : Coherent prims after := by
  induction node generalizing after d with
  | nil =>
      cases ran
      exact .inl rfl
  | leaf k v h c s =>
      rw [VectorCommitmentNode.insert] at ran
      by_cases same : k = key
      · rw [if_pos same] at ran
        cases ran
        exact .inl rfl
      · rw [if_neg same] at ran
        obtain ⟨shared, -, ran⟩ := (bind_ok_iff _ _ _).mp ran
        cases ran
        exact ⟨.inl rfl, coherent_fork prims coherent (.inl rfl)⟩
  | branch pre children c s leafCount longestBranch ih =>
      cases insert_branch fuel key value hashTarget size pre children c s leafCount longestBranch d sized with
      | inl forked =>
          obtain ⟨front, x, back, -, -, -, isResult⟩ := forked
          rw [isResult] at ran
          cases ran
          -- The commitment of a branch does not cover its own prefix, so the shortened branch keeps its cache.
          exact refresh_coherent prims ⟨.inl rfl, coherent_fork prims coherent (.inl rfl)⟩
      | inr descended =>
          rw [descended.2] at ran
          obtain ⟨child, inserted, ran⟩ := (bind_ok_iff _ _ _).mp ran
          have childSized := (insert_trie payload fuel key value hashTarget size _ child _ (sized _) inserted).2
          have nextSized : (VectorCommitmentNode.branch pre (Function.update children (keyDigit key (d + pre.length)) child) none s
              leafCount longestBranch).Sized := sized_update children sized _ child childSized
          rw [recalc_sized nextSized] at ran
          cases ran
          exact refresh_coherent prims ⟨.inl rfl, coherent_update prims _ coherent.2 _ _ (ih _ child _ (sized _) (coherent.2 _) inserted)⟩

theorem collapse_coherent {pre : List (Fin 64)} {size : Option Int} {leafCount longestBranch : Nat}
    (coherent : ∀ i, Coherent prims (children i)) :
    Coherent prims (VectorCommitmentNode.collapse pre children size leafCount longestBranch) := by
  rw [VectorCommitmentNode.collapse]
  split
  · trivial
  · next lastChildIndex _ =>
      have child := coherent lastChildIndex
      split
      · next same =>
          rw [same] at child
          exact ⟨.inl rfl, child.2⟩
      · exact child
  · exact ⟨.inl rfl, coherent⟩

theorem remove_coherent (key : Bytes) (node after : VectorCommitmentNode) (d : Nat) (sized : node.Sized) (coherent : Coherent prims node)
    (ran : node.remove key (6 * d) = .ok after) : Coherent prims after := by
  induction node generalizing after d with
  | nil =>
      cases ran
      trivial
  | leaf k v h c s =>
      rw [VectorCommitmentNode.remove] at ran
      by_cases same : k = key
      · rw [if_pos same] at ran
        cases ran
        trivial
      · rw [if_neg same] at ran
        cases ran
        exact coherent
  | branch pre children c s leafCount longestBranch ih =>
      cases remove_branch key pre children c s leafCount longestBranch d sized with
      | inl astray =>
          cases astray.2.symm.trans ran
          exact coherent
      | inr descended =>
          obtain ⟨-, child, removed, isResult⟩ := descended
          cases isResult.symm.trans ran
          exact refresh_coherent prims (collapse_coherent prims
            (coherent_update prims _ coherent.2 _ _ (ih _ child _ (sized _) (coherent.2 _) removed)))

theorem coherent_branch (pre : List (Fin 64)) (children others : Fin 64 → VectorCommitmentNode) (commitment : Option Bytes) (size : Option Int)
    (leafCount longestBranch : Nat) (same : ∀ i, (others i).trie payload = (children i).trie payload)
    (current : Current commitment (prims.commitRaw (freshData prims fun i => (children i).trie payload)))
    (coherent : ∀ i, Coherent prims (others i)) :
    Coherent prims (.branch pre others commitment size leafCount longestBranch) := by
  refine ⟨?_, coherent⟩
  rw [funext same]
  exact current

theorem update_trie {ν : Type} (view : Option Bytes → Bytes → Option Int → ν) (children others : Fin 64 → VectorCommitmentNode)
    (same : ∀ i, (others i).trie view = (children i).trie view) (i : Fin 64) (child : VectorCommitmentNode)
    (childSame : child.trie view = (children i).trie view) (j : Fin 64) :
    (Function.update others i child j).trie view = (children j).trie view := by
  by_cases here : j = i
  · rw [here, Function.update_self]
    exact childSame
  · rw [Function.update_of_ne here]
    exact same j

theorem prove_keeps (key : Bytes) (node : VectorCommitmentNode) (depth : Nat) :
    (∀ (ν : Type) (view : Option Bytes → Bytes → Option Int → ν), (node.prove prims key depth).1.trie view = node.trie view) ∧
      (Coherent prims node → Coherent prims (node.prove prims key depth).1) := by
  induction isHeight : node.height using Nat.strong_induction_on generalizing node depth with
  | _ height ih =>
      cases node with
      | nil => simp [VectorCommitmentNode.prove]
      | leaf k v h c s => simp [VectorCommitmentNode.prove]
      | branch pre children c s leafCount longestBranch =>
          rw [VectorCommitmentNode.prove]
          cases VectorCommitmentNode.mismatch key depth pre with
          | some i => exact ⟨fun _ _ => rfl, fun coherent => coherent⟩
          | none =>
              simp only [VectorCommitmentNode.proveAt]
              generalize nibble key (depth + pre.length * 6) = i
              have lower : ((children i).commit prims false).1.height < height := by
                rw [VectorCommitmentNode.height_commit, ← isHeight]
                exact VectorCommitmentNode.height_child _ _ _ _ _ _ _
              obtain ⟨childTrie, childCoherent⟩ := ih _ lower ((children i).commit prims false).1 (depth + pre.length * 6 + 6) rfl
              have sameTrie : ∀ (ν : Type) (view : Option Bytes → Bytes → Option Int → ν) (j : Fin 64),
                  (Function.update (fun j => ((children j).commit prims false).1) i
                    (((children i).commit prims false).1.prove prims key (depth + pre.length * 6 + 6)).1 j).trie view =
                  (children j).trie view := by
                intro ν view
                apply update_trie view children _ (fun j => commit_trie prims view false (children j))
                rw [childTrie, commit_trie]
              constructor
              · intro ν view
                rw [VectorCommitmentNode.trie, VectorCommitmentNode.trie, funext (sameTrie ν view)]
              · intro coherent
                have committed := fun j => (commit_fresh prims false (children j) (.inr (coherent.2 j))).2
                exact coherent_branch prims pre children _ c s leafCount longestBranch (sameTrie _ payload) coherent.1
                  (coherent_update prims _ committed i _ (childCoherent (committed i)))

theorem branch_data_fresh (children : Fin 64 → VectorCommitmentNode) (coherent : ∀ i, Coherent prims (children i)) :
    VectorCommitmentNode.branchData prims children = freshData prims fun i => (children i).trie payload := by
  rw [VectorCommitmentNode.branchData, freshData]
  congr 1
  funext i
  rw [child_digest_eq, (commit_fresh prims false (children i) (.inr (coherent i))).1]

theorem verify_at_keeps {proof : Bytes} :
    (∀ (ν : Type) (view : Option Bytes → Bytes → Option Int → ν) (j : Fin 64),
      ((VectorCommitmentNode.verifyAt prims children commitment i proof).1 j).trie view = (children j).trie view) ∧
    ((∀ j, Coherent prims (children j)) → ∀ j, Coherent prims ((VectorCommitmentNode.verifyAt prims children commitment i proof).1 j)) ∧
    ((∀ j, Coherent prims (children j)) → Current commitment (prims.commitRaw (freshData prims fun j => (children j).trie payload)) →
      (VectorCommitmentNode.verifyAt prims children commitment i proof).2.1 =
        prims.commitRaw (freshData prims fun j => (children j).trie payload)) := by
  cases commitment with
  | none =>
      refine ⟨fun ν view j => commit_trie prims view false (children j),
        fun coherent j => (commit_fresh prims false (children j) (.inr (coherent j))).2, fun coherent _ => ?_⟩
      exact congrArg prims.commitRaw (branch_data_fresh prims children coherent)
  | some cached =>
      simp only [VectorCommitmentNode.verifyAt]
      refine ⟨fun ν view => update_trie view children children (fun _ => rfl) i _ (commit_trie prims view false (children i)),
        fun coherent => coherent_update prims _ coherent i _ (commit_fresh prims false (children i) (.inr (coherent i))).2,
        fun _ current => ?_⟩
      cases current with
      | inl empty => cases empty
      | inr same => exact Option.some.inj same

theorem verify_keeps {key : Bytes} {proofs : List Bytes} {depth : Nat} :
    (∀ (ν : Type) (view : Option Bytes → Bytes → Option Int → ν), (node.verify prims key proofs depth).1.trie view = node.trie view) ∧
      (Coherent prims node → Coherent prims (node.verify prims key proofs depth).1) := by
  induction proofs generalizing node depth with
  | nil => cases node <;> simp [VectorCommitmentNode.verify]
  | cons proof proofs ih =>
      cases node with
      | nil => simp [VectorCommitmentNode.verify]
      | leaf k v h c s => simp [VectorCommitmentNode.verify]
      | branch pre children c s leafCount longestBranch =>
          rw [VectorCommitmentNode.verify]
          cases VectorCommitmentNode.mismatch key depth pre with
          | some i => exact ⟨fun _ _ => rfl, fun coherent => coherent⟩
          | none =>
              simp only []
              generalize nibble key (depth + pre.length * 6) = i
              obtain ⟨sameTrie, keeps, isCommitment⟩ := verify_at_keeps prims
              generalize VectorCommitmentNode.verifyAt prims children c i proof = verified at sameTrie keeps isCommitment
              have current : (∀ j, Coherent prims (children j)) →
                  Current c (prims.commitRaw (freshData prims fun j => (children j).trie payload)) →
                  Current (some verified.2.1) (prims.commitRaw (freshData prims fun j => (children j).trie payload)) :=
                fun coherent isCurrent => .inr (congrArg some (isCommitment coherent isCurrent))
              by_cases rejected : verified.2.2 = false
              · rw [if_pos rejected]
                refine ⟨fun ν view => ?_, fun coherent => ?_⟩
                · rw [VectorCommitmentNode.trie, VectorCommitmentNode.trie, funext (sameTrie ν view)]
                · exact coherent_branch prims pre children _ _ s leafCount longestBranch (sameTrie _ payload)
                    (current coherent.2 coherent.1) (keeps coherent.2)
              · rw [if_neg rejected]
                obtain ⟨childTrie, childCoherent⟩ := ih
                have sameBelow : ∀ (ν : Type) (view : Option Bytes → Bytes → Option Int → ν) (j : Fin 64),
                    (Function.update verified.1 i ((verified.1 i).verify prims key proofs (depth + pre.length * 6 + 6)).1 j).trie view =
                      (children j).trie view := by
                  intro ν view
                  apply update_trie view children _ (sameTrie ν view)
                  rw [childTrie, sameTrie]
                refine ⟨fun ν view => ?_, fun coherent => ?_⟩
                · rw [VectorCommitmentNode.trie, VectorCommitmentNode.trie, funext (sameBelow ν view)]
                · exact coherent_branch prims pre children _ _ s leafCount longestBranch (sameBelow _ payload)
                    (current coherent.2 coherent.1) (coherent_update prims _ (keeps coherent.2) i _ (childCoherent (keeps coherent.2 i)))

end Fresh

end Ceremony
