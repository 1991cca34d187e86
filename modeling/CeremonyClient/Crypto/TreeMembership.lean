import CeremonyClient.Crypto.TreeBinding

set_option autoImplicit false

namespace Ceremony

open GoSem PrefixTrie

variable {key : Bytes} {node : Node Bytes (Option Bytes × Bytes) (Fin 64)} {d : Nat}

section Membership

variable (prims : TreePrimitives)

-- VerifyRaw accepts exactly the openings that ProveRaw produces for the same data and index.
def Opens : Prop :=
  ∀ (data : Bytes) (i : Fin 64) (proof : Bytes), data.length = 64 * 64 →
    (prims.verifyRaw ((data.drop (64 * i.val)).take 64) (prims.commitRaw data) i proof = true ↔ proof = prims.proveRaw data i)

def contentPayload (content : Option Bytes × Bytes) : Bytes := payload content.1 content.2 none

theorem trie_payload {node : VectorCommitmentNode} : node.trie payload = (node.trie leafContent).mapValues contentPayload := by
  induction node with
  | nil => rfl
  | leaf key value hashTarget commitment size => rfl
  | branch pre children commitment size leafCount longestBranch ih =>
      rw [VectorCommitmentNode.trie, VectorCommitmentNode.trie, Node.mapValues, funext ih]

def openings (key : Bytes) : Node Bytes (Option Bytes × Bytes) (Fin 64) → (d : Nat) → Option (List Bytes)
  | .nil, _ => none
  | .leaf k content, _ => if k = key then some [content.1.getD []] else none
  | .branch pre children, d =>
      match VectorCommitmentNode.mismatch key (6 * d) pre with
      | some _ => none
      | none =>
          (openings key (children (keyDigit key (d + pre.length))) (d + pre.length + 1)).map
            (prims.proveRaw (freshData prims fun i => (children i).mapValues contentPayload) (keyDigit key (d + pre.length)) :: ·)

def branchesAbove (key : Bytes) : VectorCommitmentNode → (depth : Nat) → Nat
  | .branch pre children _ _ _ _, depth =>
      match VectorCommitmentNode.mismatch key depth pre with
      | some _ => 0
      | none => branchesAbove key (children (nibble key (depth + pre.length * 6))) (depth + pre.length * 6 + 6) + 1
  | _, _ => 0

theorem fresh_data_length (children : Fin 64 → Node Bytes Bytes (Fin 64)) : (freshData prims children).length = 64 * 64 := by
  have length := flat_map_length 64 (List.finRange 64) _ fun i => digest_of_size prims (children i)
  rwa [List.length_finRange] at length

theorem fresh_data_part {children : Fin 64 → Node Bytes Bytes (Fin 64)} {i : Fin 64} :
    ((freshData prims children).drop (64 * i.val)).take 64 = digestOf prims (children i) := by
  have part := flat_map_part 64 (List.finRange 64) _ (fun i => digest_of_size prims (children i)) i.val (by simp)
  rwa [List.getElem_finRange] at part

theorem verify_at_iff (opens : Opens prims) (children : Fin 64 → VectorCommitmentNode) (commitment : Option Bytes) (i : Fin 64) (proof : Bytes)
    (coherent : ∀ j, Coherent prims (children j))
    (current : Current commitment (prims.commitRaw (freshData prims fun j => (children j).trie payload))) :
    (VectorCommitmentNode.verifyAt prims children commitment i proof).2.2 = true ↔
      proof = prims.proveRaw (freshData prims fun j => (children j).trie payload) i := by
  rw [← opens _ i proof (fresh_data_length prims _)]
  cases commitment with
  | none => simp only [VectorCommitmentNode.verifyAt, branch_data_fresh prims children coherent]
  | some cached =>
      cases current with
      | inl empty => cases empty
      | inr same =>
          simp only [VectorCommitmentNode.verifyAt]
          rw [Option.some.inj same, child_digest_eq, (commit_fresh prims false (children i) (.inr (coherent i))).1, fresh_data_part]
          rfl

theorem openings_nonempty {found : List Bytes} (isFound : openings prims key node d = some found) : found ≠ [] := by
  cases node with
  | nil => cases isFound
  | leaf k content =>
      by_cases same : k = key
      · simp only [openings, same, if_true, Option.some.injEq] at isFound
        simp [← isFound]
      · simp [openings, same] at isFound
  | branch pre children =>
      rw [openings] at isFound
      cases onPath : VectorCommitmentNode.mismatch key (6 * d) pre with
      | some i => simp [onPath] at isFound
      | none =>
          simp only [onPath, Option.map_eq_some_iff] at isFound
          obtain ⟨list, -, isWhole⟩ := isFound
          simp [← isWhole]

theorem verify_iff (opens : Opens prims) (key : Bytes) (proofs : List Bytes) (node : VectorCommitmentNode) (d : Nat)
    (coherent : Coherent prims node) :
    (node.verify prims key proofs (6 * d)).2 = true ↔ ∃ found, openings prims key (node.trie leafContent) d = some found ∧ found <+: proofs := by
  induction proofs generalizing node d with
  | nil =>
      have rejected : (node.verify prims key [] (6 * d)).2 = false := by cases node <;> rfl
      simp only [rejected, Bool.false_eq_true, false_iff, List.prefix_nil]
      intro found
      obtain ⟨list, isList, empty⟩ := found
      exact openings_nonempty prims isList empty
  | cons proof proofs ih =>
      cases node with
      | nil => simp [VectorCommitmentNode.verify, VectorCommitmentNode.trie, openings]
      | leaf k v h c s =>
          by_cases same : k = key
          · simp [VectorCommitmentNode.verify, VectorCommitmentNode.trie, openings, same, leafContent, eq_comm]
          · simp [VectorCommitmentNode.verify, VectorCommitmentNode.trie, openings, same]
      | branch pre children c s leafCount longestBranch =>
          rw [VectorCommitmentNode.verify, VectorCommitmentNode.trie, openings]
          cases VectorCommitmentNode.mismatch key (6 * d) pre with
          | some i => simp
          | none =>
              have place : 6 * d + pre.length * 6 = 6 * (d + pre.length) := by omega
              have next : 6 * (d + pre.length) + 6 = 6 * (d + pre.length + 1) := by omega
              simp only [place, next, ← trie_payload]
              change (if (VectorCommitmentNode.verifyAt prims children c (keyDigit key (d + pre.length)) proof).2.2 = false then _ else _ :
                VectorCommitmentNode × Bool).2 = true ↔ _
              have accepts := verify_at_iff prims opens children c (keyDigit key (d + pre.length)) proof coherent.2 coherent.1
              obtain ⟨sameTrie, keeps, -⟩ := verify_at_keeps prims
              have below := ih ((VectorCommitmentNode.verifyAt prims children c (keyDigit key (d + pre.length)) proof).1
                (keyDigit key (d + pre.length))) (d + pre.length + 1) (keeps coherent.2 _)
              rw [sameTrie] at below
              by_cases opened : proof = prims.proveRaw (freshData prims fun i => (children i).trie payload) (keyDigit key (d + pre.length))
              · rw [if_neg (by simpa using accepts.mpr opened)]
                refine below.trans ?_
                simp only [Option.map_eq_some_iff, opened]
                constructor
                · intro found
                  obtain ⟨list, isList, start⟩ := found
                  exact ⟨_, ⟨list, isList, rfl⟩, List.cons_prefix_cons.mpr ⟨rfl, start⟩⟩
                · intro found
                  obtain ⟨whole, ⟨list, isList, isWhole⟩, start⟩ := found
                  rw [← isWhole, List.cons_prefix_cons] at start
                  exact ⟨list, isList, start.2⟩
              · rw [if_pos (by simpa using mt accepts.mp opened)]
                simp only [Bool.false_eq_true, false_iff, Option.map_eq_some_iff]
                intro found
                obtain ⟨whole, ⟨list, isList, isWhole⟩, start⟩ := found
                rw [← isWhole, List.cons_prefix_cons] at start
                exact opened start.1.symm

theorem prove_opens (key : Bytes) (node : VectorCommitmentNode) (d : Nat) (coherent : Coherent prims node) (found : List Bytes)
    (isFound : openings prims key (node.trie leafContent) d = some found) : (node.prove prims key (6 * d)).2 = found := by
  induction isHeight : node.height using Nat.strong_induction_on generalizing node d found with
  | _ height ih =>
      cases node with
      | nil => cases isFound
      | leaf k v h c s =>
          by_cases same : k = key
          · simpa [VectorCommitmentNode.prove, VectorCommitmentNode.trie, openings, same, leafContent] using isFound
          · simp [VectorCommitmentNode.trie, openings, same] at isFound
      | branch pre children c s leafCount longestBranch =>
          rw [VectorCommitmentNode.trie, openings] at isFound
          rw [VectorCommitmentNode.prove]
          cases onPath : VectorCommitmentNode.mismatch key (6 * d) pre with
          | some i => simp [onPath] at isFound
          | none =>
              have place : 6 * d + pre.length * 6 = 6 * (d + pre.length) := by omega
              have next : 6 * (d + pre.length) + 6 = 6 * (d + pre.length + 1) := by omega
              simp only [onPath, ← trie_payload, Option.map_eq_some_iff] at isFound
              obtain ⟨list, isList, isWhole⟩ := isFound
              have lower : ((children (keyDigit key (d + pre.length))).commit prims false).1.height < height := by
                rw [VectorCommitmentNode.height_commit, ← isHeight]
                exact VectorCommitmentNode.height_child _ _ _ _ _ _ _
              obtain ⟨-, committed⟩ := commit_fresh prims false (children (keyDigit key (d + pre.length))) (.inr (coherent.2 _))
              rw [← commit_trie prims leafContent false] at isList
              have below := ih _ lower _ (d + pre.length + 1) committed list isList rfl
              simp only [place, next, VectorCommitmentNode.proveAt, branch_data_fresh prims children coherent.2]
              rw [← isWhole]
              exact congrArg _ below

theorem openings_found (key : Bytes) (node : VectorCommitmentNode) (d : Nat) (found : List Bytes)
    (isFound : openings prims key (node.trie leafContent) d = some found) :
    ∃ content, Stored (node.trie leafContent) key content ∧ found[branchesAbove key node (6 * d)]? = some (content.1.getD []) := by
  induction node generalizing d found with
  | nil => cases isFound
  | leaf k v h c s =>
      by_cases same : k = key
      · simp only [VectorCommitmentNode.trie, openings, same, if_true, Option.some.injEq] at isFound
        exact ⟨leafContent v h s, ⟨same.symm, rfl⟩, by rw [← isFound]; rfl⟩
      · simp [VectorCommitmentNode.trie, openings, same] at isFound
  | branch pre children c s leafCount longestBranch ih =>
      rw [VectorCommitmentNode.trie, openings] at isFound
      rw [branchesAbove]
      cases onPath : VectorCommitmentNode.mismatch key (6 * d) pre with
      | some i => simp [onPath] at isFound
      | none =>
          have place : 6 * d + pre.length * 6 = 6 * (d + pre.length) := by omega
          have next : 6 * (d + pre.length) + 6 = 6 * (d + pre.length + 1) := by omega
          simp only [onPath, Option.map_eq_some_iff] at isFound
          obtain ⟨list, isList, isWhole⟩ := isFound
          obtain ⟨content, stored, element⟩ := ih _ (d + pre.length + 1) list isList
          simp only [place, next]
          exact ⟨content, ⟨_, stored⟩, by rw [← isWhole]; exact element⟩

theorem openings_there (formed : Formed keyDigit d node) {content : Option Bytes × Bytes} (stored : Stored node key content) :
    ∃ found, openings prims key node d = some found := by
  induction node generalizing d with
  | nil => cases stored
  | leaf k own =>
      rw [openings, if_pos stored.1.symm]
      exact ⟨_, rfl⟩
  | branch pre children ih =>
      obtain ⟨reads, below⟩ := branch_reads keyDigit d pre formed key content stored
      obtain ⟨list, isList⟩ := ih _ (formed.2 _).1 below
      rw [openings, (mismatch_none_iff key d pre).mpr reads]
      exact ⟨_, by simp only [isList]; rfl⟩

theorem membership_proofs (fuel length : Nat) (calls : List TreeCall) (key : Bytes) (opens : Opens prims) (positive : 0 < length)
    (keyed : ∀ call ∈ calls, call.Keyed (·.length = length)) (enough : 8 * length ≤ 6 * fuel) (keyLength : key.length = length) :
    ∃ t, runTree prims fuel calls emptyTree = .ok t ∧
      (((t.prove prims key).1.verify prims key (t.prove prims key).2).2 = true ↔ mapAfter leafValue calls key ≠ none) ∧
      ∀ proofs, (t.verify prims key proofs).2 = true →
        ∃ value, mapAfter leafValue calls key = some value ∧ proofs[branchesAbove key t.root 0]? = some (value.getD []) := by
  obtain ⟨t, ran⟩ := run_returns_length positive keyed enough
  obtain ⟨represents, coherent⟩ := run_represents leafContent prims fuel calls t ran
  have isValue : ∀ content, Stored (t.root.trie leafContent) key content → mapAfter leafValue calls key = some content.1 := by
    intro content stored
    have view := map_after_view leafContent Prod.fst calls key
    rw [(represents.stored key content).mp stored] at view
    exact view
  have some_key : ¬ key.length = 0 := by omega
  obtain ⟨proveTrie, proveCoherent⟩ := prove_keeps prims key t.root 0
  refine ⟨t, ran, ?_, fun proofs accepted => ?_⟩
  · rw [VectorCommitmentTree.prove, if_neg some_key, VectorCommitmentTree.verify, if_neg some_key]
    have accepts := verify_iff prims opens key (t.root.prove prims key 0).2 (t.root.prove prims key 0).1 0 (proveCoherent coherent)
    rw [proveTrie] at accepts
    refine accepts.trans ⟨fun found => ?_, fun there => ?_⟩
    · obtain ⟨list, isList, -⟩ := found
      obtain ⟨content, stored, -⟩ := openings_found prims key t.root 0 list isList
      rw [isValue content stored]
      exact Option.some_ne_none _
    · obtain ⟨content, stored⟩ : ∃ content, Stored (t.root.trie leafContent) key content := by
        have view := map_after_view leafContent Prod.fst calls key
        obtain ⟨content, isContent, -⟩ := Option.map_eq_some_iff.mp (view.symm.trans (Option.ne_none_iff_exists'.mp there).choose_spec)
        exact ⟨content, (represents.stored key content).mpr isContent⟩
      obtain ⟨list, isList⟩ := openings_there prims represents.formed stored
      exact ⟨list, isList, by rw [prove_opens prims key t.root 0 coherent list isList]⟩
  · rw [VectorCommitmentTree.verify, if_neg some_key] at accepted
    obtain ⟨list, isList, rest, isProofs⟩ := (verify_iff prims opens key proofs t.root 0 coherent).mp accepted
    obtain ⟨content, stored, element⟩ := openings_found prims key t.root 0 list isList
    refine ⟨content.1, isValue content stored, ?_⟩
    rw [← isProofs, List.getElem?_append_left (List.getElem?_eq_some_iff.mp element).1]
    exact element

end Membership

theorem plain_opens : Opens plainPrimitives := by
  intro data i proof _
  exact decide_eq_true_iff

theorem membership_proofs_two_keys :
    ∃ t, runTree plainPrimitives 2 [.insert [1] (some [5]) [] 1, .insert [2] (some [6]) [] 1] emptyTree = .ok t ∧
      (((t.prove plainPrimitives [2]).1.verify plainPrimitives [2] (t.prove plainPrimitives [2]).2).2 = true ↔
        mapAfter leafValue [.insert [1] (some [5]) [] 1, .insert [2] (some [6]) [] 1] [2] ≠ none) ∧
      ∀ proofs, (t.verify plainPrimitives [2] proofs).2 = true →
        ∃ value, mapAfter leafValue [.insert [1] (some [5]) [] 1, .insert [2] (some [6]) [] 1] [2] = some value ∧
          proofs[branchesAbove [2] t.root 0]? = some (value.getD []) :=
  membership_proofs plainPrimitives 2 1 _ [2] plain_opens (by decide) (by simp [TreeCall.Keyed]) (by decide) rfl

end Ceremony
