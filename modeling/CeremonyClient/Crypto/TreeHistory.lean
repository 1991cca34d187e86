import CeremonyClient.Crypto.TreeCommit

set_option autoImplicit false

namespace Ceremony

open GoSem PrefixTrie

variable {calls : List TreeCall} {call : TreeCall} {t after : VectorCommitmentTree} {fuel : Nat} {key : Bytes} {prims : TreePrimitives}
  {recalculate : Bool}

def TreeCall.Keyed (good : Bytes → Prop) : TreeCall → Prop
  | .insert key _ _ _ => good key
  | .delete key => good key
  | .commit _ => True
  | .prove key => good key
  | .verify key _ => good key

section Keys

theorem digit_eq_iff {left right : Bytes} (n : Nat) :
    keyDigit left n = keyDigit right n ↔ getNextNibble left (6 * n) = getNextNibble right (6 * n) := by
  rw [keyDigit, keyDigit, nibble, nibble, Fin.mk.injEq]

theorem digits_same_iff (left right : Bytes) : (∀ n, keyDigit left n = keyDigit right n) ↔ ZeroPadded left right := by
  rw [← nibbles_same_iff]
  exact forall_congr' digit_eq_iff

theorem digits_part (left right : Bytes) (bound : Nat) (leftShort : 8 * left.length ≤ 6 * bound) (rightShort : 8 * right.length ≤ 6 * bound)
    (apart : ¬ ZeroPadded left right) : ∃ n, n < bound ∧ keyDigit left n ≠ keyDigit right n := by
  rw [← digits_same_iff, not_forall] at apart
  obtain ⟨n, differ⟩ := apart
  have within := nibbles_apart_bound (mt (digit_eq_iff n).mpr differ)
  exact ⟨n, by omega, differ⟩

theorem padded_same_length (left right : Bytes) (length : left.length = right.length) (padded : ZeroPadded left right) : left = right :=
  nibbles_injective length (nibbles_same_iff.mpr padded)

end Keys

section Maps

variable {ν : Type} (view : Option Bytes → Bytes → Option Int → ν)

def TreeCall.mapped (map : Bytes → Option ν) : TreeCall → Bytes → Option ν
  | .insert key value hashTarget size => Function.update map key (some (view value hashTarget (some size)))
  | .delete key => Function.update map key none
  | _ => map

def mapAfter (calls : List TreeCall) : Bytes → Option ν := calls.foldl (fun map call => call.mapped view map) fun _ => none

theorem map_after_append : mapAfter view (calls ++ [call]) = call.mapped view (mapAfter view calls) := by
  rw [mapAfter, List.foldl_append]
  rfl

theorem map_after_view {μ : Type} (change : ν → μ) (calls : List TreeCall) (key : Bytes) :
    mapAfter (fun value hashTarget size => change (view value hashTarget size)) calls key = (mapAfter view calls key).map change := by
  induction calls using List.reverseRecOn generalizing key with
  | nil => rfl
  | append_singleton calls call ih =>
      rw [map_after_append, map_after_append]
      cases call with
      | insert k value hashTarget size =>
          by_cases same : key = k
          · simp [TreeCall.mapped, same]
          · simp [TreeCall.mapped, same, ih]
      | delete k =>
          by_cases same : key = k
          · simp [TreeCall.mapped, same]
          · simp [TreeCall.mapped, same, ih]
      | commit recalculate => exact ih key
      | prove k => exact ih key
      | verify k proofs => exact ih key

theorem map_after_key (good : Bytes → Prop) (calls : List TreeCall) (keyed : ∀ call ∈ calls, call.Keyed good) (key : Bytes)
    (there : mapAfter view calls key ≠ none) : good key := by
  induction calls using List.reverseRecOn with
  | nil => exact absurd rfl there
  | append_singleton calls call ih =>
      have before := ih fun call member => keyed call (List.mem_append_left _ member)
      have last := keyed call (by simp)
      rw [map_after_append] at there
      cases call with
      | insert k value hashTarget size =>
          by_cases same : key = k
          · rw [same]
            exact last
          · exact before (by simpa [TreeCall.mapped, same] using there)
      | delete k =>
          by_cases same : key = k
          · simp [TreeCall.mapped, same] at there
          · exact before (by simpa [TreeCall.mapped, same] using there)
      | commit recalculate => exact before there
      | prove k => exact before there
      | verify k proofs => exact before there

structure Represents (t : VectorCommitmentTree) (map : Bytes → Option ν) : Prop where
  sized : t.root.Sized
  formed : Formed keyDigit 0 (t.root.trie view)
  stored : ∀ k v, Stored (t.root.trie view) k v ↔ map k = some v

theorem empty_represents : Represents view emptyTree fun _ => none :=
  ⟨trivial, trivial, fun _ _ => ⟨False.elim, fun same => by cases same⟩⟩

theorem sized_iff {node : VectorCommitmentNode} : node.Sized ↔ ∀ k s, Stored (node.trie fun _ _ size => size) k s → ∃ n, s = some n := by
  induction node with
  | nil => simp [VectorCommitmentNode.Sized, VectorCommitmentNode.trie, Stored]
  | leaf key value hashTarget commitment size => simp [VectorCommitmentNode.Sized, VectorCommitmentNode.trie, Stored]
  | branch pre children commitment size leafCount longestBranch ih =>
      refine ⟨fun sized k s stored => ?_, fun each i => (ih i).mpr fun k s stored => each k s ⟨i, stored⟩⟩
      obtain ⟨i, stored⟩ := stored
      exact (ih i).mp (sized i) k s stored

variable {map : Bytes → Option ν}

theorem represents_same_tries (represents : Represents view t map)
    (same : ∀ (μ : Type) (seen : Option Bytes → Bytes → Option Int → μ), after.root.trie seen = t.root.trie seen) :
    Represents view after map := by
  refine ⟨?_, ?_, ?_⟩
  · rw [sized_iff, same, ← sized_iff]
    exact represents.sized
  · rw [same]
    exact represents.formed
  · rw [same]
    exact represents.stored

theorem insert_represents {value : Option Bytes} {hashTarget : Bytes} {size : Int}
    (represents : Represents view t map) (ran : t.insert fuel key value hashTarget (some size) = .ok after) :
    Represents view after (Function.update map key (some (view value hashTarget (some size)))) := by
  rw [VectorCommitmentTree.insert] at ran
  obtain ⟨-, -, ran⟩ := (bind_ok_iff _ _ _).mp ran
  obtain ⟨root, inserted, ran⟩ := (bind_ok_iff _ _ _).mp ran
  cases ran
  obtain ⟨follows, sized⟩ := insert_trie view fuel key value hashTarget size t.root root 0 represents.sized inserted
  refine ⟨sized, inserted_formed keyDigit follows represents.formed, fun k v => ?_⟩
  rw [inserted_stored keyDigit follows represents.formed, represents.stored]
  by_cases same : k = key
  · simp [same, eq_comm]
  · simp [same]

theorem delete_represents (represents : Represents view t map) (some_key : key ≠ []) :
    ∃ after, t.delete key = .ok after ∧ Represents view after (Function.update map key none) := by
  obtain ⟨root, ran, sized⟩ := remove_sized key t.root (6 * 0) represents.sized
  have follows := remove_trie view root 0 represents.sized ran
  refine ⟨⟨root⟩, ?_, sized, removed_formed keyDigit follows represents.formed, fun k v => ?_⟩
  · rw [VectorCommitmentTree.delete, failIf, if_neg (by simpa using some_key), ok_bind]
    rw [Nat.mul_zero] at ran
    rw [ran]
    rfl
  · rw [removed_stored keyDigit follows represents.formed, represents.stored]
    by_cases same : k = key
    · simp [same]
    · simp [same]

theorem commit_same_tries :
    (∀ (μ : Type) (seen : Option Bytes → Bytes → Option Int → μ), (t.commit prims recalculate).1.root.trie seen = t.root.trie seen) ∧
      (Coherent prims t.root → Coherent prims (t.commit prims recalculate).1.root) := by
  rw [VectorCommitmentTree.commit]
  split
  · exact ⟨fun _ _ => rfl, fun coherent => coherent⟩
  · exact ⟨fun μ seen => commit_trie prims seen recalculate t.root, fun coherent => (commit_fresh prims recalculate t.root (.inr coherent)).2⟩

theorem prove_same_tries :
    (∀ (μ : Type) (seen : Option Bytes → Bytes → Option Int → μ), (t.prove prims key).1.root.trie seen = t.root.trie seen) ∧
      (Coherent prims t.root → Coherent prims (t.prove prims key).1.root) := by
  rw [VectorCommitmentTree.prove]
  split
  · exact ⟨fun _ _ => rfl, fun coherent => coherent⟩
  · exact prove_keeps prims key t.root 0

theorem verify_same_tries {proofs : List Bytes} :
    (∀ (μ : Type) (seen : Option Bytes → Bytes → Option Int → μ), (t.verify prims key proofs).1.root.trie seen = t.root.trie seen) ∧
      (Coherent prims t.root → Coherent prims (t.verify prims key proofs).1.root) := by
  rw [VectorCommitmentTree.verify]
  split
  · exact ⟨fun _ _ => rfl, fun coherent => coherent⟩
  · exact verify_keeps prims

theorem step_represents (represents : Represents view t map) (ran : call.on prims fuel t = .ok after) :
    Represents view after (call.mapped view map) := by
  cases call with
  | insert key value hashTarget size => exact insert_represents view represents ran
  | delete key =>
      have some_key : key ≠ [] := by
        intro empty
        rw [empty] at ran
        cases ran
      obtain ⟨result, isResult, kept⟩ := delete_represents view represents some_key
      cases isResult.symm.trans ran
      exact kept
  | commit recalculate =>
      cases ran
      exact represents_same_tries view represents commit_same_tries.1
  | prove key =>
      cases ran
      exact represents_same_tries view represents prove_same_tries.1
  | verify key proofs =>
      cases ran
      exact represents_same_tries view represents verify_same_tries.1

theorem step_coherent (sized : t.root.Sized) (coherent : Coherent prims t.root) (ran : call.on prims fuel t = .ok after) :
    Coherent prims after.root := by
  cases call with
  | insert key value hashTarget size =>
      obtain ⟨-, -, ran⟩ := (bind_ok_iff _ _ _).mp ran
      obtain ⟨root, inserted, ran⟩ := (bind_ok_iff _ _ _).mp ran
      cases ran
      exact insert_coherent prims fuel key value hashTarget size t.root root 0 sized coherent inserted
  | delete key =>
      obtain ⟨-, -, ran⟩ := (bind_ok_iff _ _ _).mp ran
      obtain ⟨root, removed, ran⟩ := (bind_ok_iff _ _ _).mp ran
      cases ran
      exact remove_coherent prims key t.root root 0 sized coherent removed
  | commit recalculate =>
      cases ran
      exact commit_same_tries.2 coherent
  | prove key =>
      cases ran
      exact prove_same_tries.2 coherent
  | verify key proofs =>
      cases ran
      exact verify_same_tries.2 coherent

theorem step_returns (represents : Represents view t map) (keyed : call.Keyed (· ≠ []))
    (parted : ∀ key value hashTarget size, call = .insert key value hashTarget size →
      ∀ k, map k ≠ none → k ≠ key → ∃ n, n < fuel ∧ keyDigit k n ≠ keyDigit key n) : ∃ after, call.on prims fuel t = .ok after := by
  cases call with
  | insert key value hashTarget size =>
      have some_key : key ≠ [] := keyed
      obtain ⟨root, inserted⟩ := insert_returns view 0 represents.sized represents.formed
        (fun k v stored m before => absurd before (by omega)) (fun k v stored different => by
          apply parted key value hashTarget size rfl k _ different
          rw [(represents.stored k v).mp stored]
          exact Option.some_ne_none v)
      refine ⟨⟨root⟩, ?_⟩
      rw [TreeCall.on, VectorCommitmentTree.insert, failIf, if_neg (by simpa using some_key), ok_bind]
      rw [Nat.mul_zero] at inserted
      rw [inserted]
      rfl
  | delete key =>
      obtain ⟨after, ran, -⟩ := delete_represents view represents keyed
      exact ⟨after, ran⟩
  | commit recalculate => exact ⟨_, rfl⟩
  | prove key => exact ⟨_, rfl⟩
  | verify key proofs => exact ⟨_, rfl⟩

theorem run_tree_append :
    runTree prims fuel (calls ++ [call]) t = .ok after ↔ ∃ between, runTree prims fuel calls t = .ok between ∧ call.on prims fuel between = .ok after := by
  rw [runTree, List.foldlM_append, bind_ok_iff]
  simp only [List.foldlM_cons, List.foldlM_nil, bind_pure]
  rfl

theorem run_represents (prims : TreePrimitives) (fuel : Nat) (calls : List TreeCall) (after : VectorCommitmentTree)
    (ran : runTree prims fuel calls emptyTree = .ok after) :
    Represents view after (mapAfter view calls) ∧ Coherent prims after.root := by
  induction calls using List.reverseRecOn generalizing after with
  | nil =>
      cases ran
      exact ⟨empty_represents view, trivial⟩
  | append_singleton calls call ih =>
      obtain ⟨between, ranBefore, ranCall⟩ := run_tree_append.mp ran
      obtain ⟨represents, coherent⟩ := ih between ranBefore
      rw [map_after_append]
      exact ⟨step_represents view represents ranCall,
        step_coherent represents.sized coherent ranCall⟩

theorem run_returns (prims : TreePrimitives) (fuel : Nat) (calls : List TreeCall) (keyed : ∀ call ∈ calls, call.Keyed (· ≠ []))
    (parted : ∀ front key value hashTarget size rest, calls = front ++ .insert key value hashTarget size :: rest →
      ∀ k, mapAfter view front k ≠ none → k ≠ key → ∃ n, n < fuel ∧ keyDigit k n ≠ keyDigit key n) :
    ∃ after, runTree prims fuel calls emptyTree = .ok after := by
  induction calls using List.reverseRecOn with
  | nil => exact ⟨_, rfl⟩
  | append_singleton calls call ih =>
      obtain ⟨between, ran⟩ := ih (fun call member => keyed call (List.mem_append_left _ member))
        fun front key value hashTarget size rest isCalls => parted front key value hashTarget size (rest ++ [call]) (by simp [isCalls])
      obtain ⟨after, ranCall⟩ := step_returns view (run_represents view prims fuel calls between ran).1
        (keyed call (by simp)) fun key value hashTarget size isCall => parted calls key value hashTarget size [] (by rw [isCall])
      exact ⟨after, run_tree_append.mpr ⟨between, ran, ranCall⟩⟩

theorem insert_same_length (fuel length : Nat) (t : VectorCommitmentTree) (key : Bytes) (value : Option Bytes) (hashTarget : Bytes) (size : Int)
    (map : Bytes → Option ν) (represents : Represents view t map) (keys : ∀ k, map k ≠ none → k.length = length) (keyLength : key.length = length)
    (positive : 0 < length) (enough : 8 * length ≤ 6 * fuel) :
    ∃ after, t.insert fuel key value hashTarget (some size) = .ok after ∧
      Represents view after (Function.update map key (some (view value hashTarget (some size)))) := by
  have some_key : key ≠ [] := by
    intro empty
    rw [empty] at keyLength
    exact absurd keyLength (by simp; omega)
  obtain ⟨root, inserted⟩ := insert_returns view 0 represents.sized represents.formed
    (fun k v stored m before => absurd before (by omega)) (fun k v stored different => by
      have kLength := keys k (by rw [(represents.stored k v).mp stored]; exact Option.some_ne_none v)
      exact digits_part k key fuel (by omega) (by omega) (mt (padded_same_length k key (by omega)) different))
  have ran : t.insert fuel key value hashTarget (some size) = .ok ⟨root⟩ := by
    rw [VectorCommitmentTree.insert, failIf, if_neg (by simpa using some_key), ok_bind]
    rw [Nat.mul_zero] at inserted
    rw [inserted]
    rfl
  exact ⟨⟨root⟩, ran, insert_represents view represents ran⟩

theorem run_returns_length {length : Nat} (positive : 0 < length) (keyed : ∀ call ∈ calls, call.Keyed (·.length = length))
    (enough : 8 * length ≤ 6 * fuel) : ∃ after, runTree prims fuel calls emptyTree = .ok after := by
  have some_keys : ∀ call ∈ calls, call.Keyed (· ≠ []) := by
    intro call member
    have isLength := keyed call member
    have nonempty : ∀ key : Bytes, key.length = length → key ≠ [] := by
      intro key isLength empty
      rw [empty] at isLength
      exact absurd isLength (by simp; omega)
    cases call with
    | commit recalculate => trivial
    | insert key value hashTarget size => exact nonempty key isLength
    | delete key => exact nonempty key isLength
    | prove key => exact nonempty key isLength
    | verify key proofs => exact nonempty key isLength
  apply run_returns (fun _ _ _ => ()) prims fuel calls some_keys
  intro front key value hashTarget size rest isCalls k there different
  have kLength : k.length = length := map_after_key _ (·.length = length) front (fun call member => keyed call (by simp [isCalls, member])) k there
  have keyLength : key.length = length := keyed (.insert key value hashTarget size) (by simp [isCalls])
  exact digits_part k key fuel (by omega) (by omega) (mt (padded_same_length k key (by omega)) different)

end Maps

def rootCommitment (prims : TreePrimitives) : Node Bytes Bytes (Fin 64) → Bytes
  | .nil => List.replicate 64 0
  | node => fresh prims node

theorem tree_commit_fresh (ready : recalculate = true ∨ Coherent prims t.root) :
    (t.commit prims recalculate).2 = rootCommitment prims (t.root.trie payload) := by
  rw [VectorCommitmentTree.commit]
  have here := (commit_fresh prims recalculate t.root ready).1
  cases isRoot : t.root with
  | nil => rfl
  | leaf key value hashTarget commitment size =>
      rw [isRoot] at here
      exact here
  | branch pre children commitment size leafCount longestBranch =>
      rw [isRoot] at here
      exact here

def leafContent (value : Option Bytes) (hashTarget : Bytes) (_ : Option Int) : Option Bytes × Bytes := (value, hashTarget)

theorem represented_tries {ν : Type} {view : Option Bytes → Bytes → Option Int → ν} {a b : VectorCommitmentTree} {map : Bytes → Option ν}
    (first : Represents view a map) (second : Represents view b map) : a.root.trie view = b.root.trie view :=
  canonical keyDigit 0 _ first.formed second.formed fun k v => (first.stored k v).trans (second.stored k v).symm

theorem tree_history_independent (prims : TreePrimitives) (fuel length : Nat) (first second : List TreeCall) (positive : 0 < length)
    (firstKeyed : ∀ call ∈ first, call.Keyed (·.length = length)) (secondKeyed : ∀ call ∈ second, call.Keyed (·.length = length))
    (enough : 8 * length ≤ 6 * fuel) (same : mapAfter leafContent first = mapAfter leafContent second) :
    ∃ a b, runTree prims fuel first emptyTree = .ok a ∧ runTree prims fuel second emptyTree = .ok b ∧
      a.root.trie leafContent = b.root.trie leafContent ∧
      ∀ recalculate, (a.commit prims recalculate).2 = (b.commit prims recalculate).2 := by
  obtain ⟨a, ranFirst⟩ := run_returns_length positive firstKeyed enough
  obtain ⟨b, ranSecond⟩ := run_returns_length positive secondKeyed enough
  refine ⟨a, b, ranFirst, ranSecond, ?_, fun recalculate => ?_⟩
  · have left := (run_represents leafContent prims fuel first a ranFirst).1
    have right := (run_represents leafContent prims fuel second b ranSecond).1
    rw [← same] at right
    exact represented_tries left right
  · obtain ⟨left, leftCoherent⟩ := run_represents payload prims fuel first a ranFirst
    obtain ⟨right, rightCoherent⟩ := run_represents payload prims fuel second b ranSecond
    have samePayloads : mapAfter payload first = mapAfter payload second := by
      funext key
      have change := map_after_view leafContent fun content => payload content.1 content.2 none
      exact (change first key).trans ((congrArg _ (congrFun same key)).trans (change second key).symm)
    rw [← samePayloads] at right
    rw [tree_commit_fresh (.inr leftCoherent), tree_commit_fresh (.inr rightCoherent),
      represented_tries left right]

-- A hash that keeps the first bytes, and a commitment and openings that keep the whole vector.
def plainPrimitives : TreePrimitives where
  sha512 message := (message ++ List.replicate 64 1).take 64
  sha512_size message := by simp
  commitRaw data := data
  proveRaw data index := (data.drop (64 * index.val)).take 64
  verifyRaw data _ _ proof := decide (proof = data)

theorem tree_history_independent_two :
    ∃ a b, runTree plainPrimitives 2 [.insert [1] (some [5]) [] 1, .insert [2] (some [6]) [] 1] emptyTree = .ok a ∧
      runTree plainPrimitives 2 [.insert [3] (some [7]) [] 4, .insert [2] (some [6]) [] 9, .commit false, .insert [1] (some [5]) [] 1,
        .delete [3]] emptyTree = .ok b ∧
      a.root.trie leafContent = b.root.trie leafContent ∧
      ∀ recalculate, (a.commit plainPrimitives recalculate).2 = (b.commit plainPrimitives recalculate).2 := by
  apply tree_history_independent plainPrimitives 2 1 _ _ (by decide)
  · simp [TreeCall.Keyed]
  · simp [TreeCall.Keyed]
  · decide
  · funext key
    by_cases isOne : key = [1]
    · simp [mapAfter, TreeCall.mapped, isOne, leafContent]
    · by_cases isTwo : key = [2]
      · simp [mapAfter, TreeCall.mapped, isTwo, leafContent]
      · by_cases isThree : key = [3]
        · simp [mapAfter, TreeCall.mapped, isThree]
        · simp [mapAfter, TreeCall.mapped, isOne, isTwo, isThree]

theorem cached_commitments_current (prims : TreePrimitives) (fuel length : Nat) (calls : List TreeCall) (positive : 0 < length)
    (keyed : ∀ call ∈ calls, call.Keyed (·.length = length)) (enough : 8 * length ≤ 6 * fuel) :
    ∃ t, runTree prims fuel calls emptyTree = .ok t ∧ (t.commit prims false).2 = (t.commit prims true).2 := by
  obtain ⟨t, ran⟩ := run_returns_length positive keyed enough
  have coherent := (run_represents payload prims fuel calls t ran).2
  exact ⟨t, ran, by rw [tree_commit_fresh (.inr coherent), tree_commit_fresh (.inl rfl)]⟩

theorem cached_commitments_current_fork :
    ∃ t, runTree plainPrimitives 2 [.insert [1] (some [5]) [] 1, .commit false, .insert [2] (some [6]) [] 1, .verify [2] [[0]], .delete [1],
        .prove [2]] emptyTree = .ok t ∧ (t.commit plainPrimitives false).2 = (t.commit plainPrimitives true).2 :=
  cached_commitments_current plainPrimitives 2 1 _ (by decide) (by simp [TreeCall.Keyed]) (by decide)

def GetsAsMapped (t : VectorCommitmentTree) (map : Bytes → Option (Option Bytes)) : Prop :=
  ∀ key, key ≠ [] → match map key with
    | some value => t.get key = .ok (value.getD [])
    | none => ∃ cause, t.get key = .error (.err cause)

def leafValue (value : Option Bytes) (_ : Bytes) (_ : Option Int) : Option Bytes := value

def ActsAsMap (prims : TreePrimitives) (calls : List TreeCall) : Prop :=
  ∃ fuel, ∀ front rest, calls = front ++ rest →
    ∃ t, runTree prims fuel front emptyTree = .ok t ∧ GetsAsMapped t (mapAfter leafValue front)

theorem tree_get_eq {map : Bytes → Option (Option Bytes)} (represents : Represents leafValue t map) (some_key : key ≠ []) :
    t.get key = match map key with
      | some (some value) => .ok value
      | _ => raise (errorsNew "key not found") := by
  have found : ∀ value, t.root.get key 0 = some value ↔ map key = some (some value) := by
    intro value
    rw [← represents.stored]
    exact get_iff represents.formed
  rw [VectorCommitmentTree.get, failIf, if_neg (by simpa using some_key), ok_bind]
  cases isMapped : map key with
  | none =>
      cases isFound : t.root.get key 0 with
      | none => rfl
      | some value => simp [(found value).mp isFound] at isMapped
  | some stored =>
      cases stored with
      | none =>
          cases isFound : t.root.get key 0 with
          | none => rfl
          | some value => simp [(found value).mp isFound] at isMapped
      | some value =>
          rw [(found value).mpr isMapped]
          rfl

theorem gets_as_mapped_iff (t : VectorCommitmentTree) (map : Bytes → Option (Option Bytes)) (represents : Represents leafValue t map) :
    GetsAsMapped t map ↔ ∀ key, key ≠ [] → map key ≠ some none := by
  apply forall_congr'
  intro key
  apply forall_congr'
  intro some_key
  rw [tree_get_eq represents some_key]
  cases map key with
  | none => simp [raise]
  | some stored => cases stored <;> simp [raise]

-- The insertion has a value, and no other stored key differs from its key in trailing zero bytes only.
def InsertsApart (calls : List TreeCall) : Prop :=
  ∀ front key value hashTarget size rest, calls = front ++ .insert key value hashTarget size :: rest →
    value ≠ none ∧ ∀ k, k ≠ key → mapAfter leafValue front k ≠ none → ¬ ZeroPadded k key

theorem inserts_apart_front (front rest : List TreeCall) (apart : InsertsApart (front ++ rest)) : InsertsApart front := by
  intro earlier key value hashTarget size later isFront
  exact apart earlier key value hashTarget size (later ++ rest) (by simp [isFront])

theorem inserts_apart_append :
    InsertsApart (calls ++ [call]) ↔ InsertsApart calls ∧ ∀ key value hashTarget size, call = .insert key value hashTarget size →
      value ≠ none ∧ ∀ k, k ≠ key → mapAfter leafValue calls k ≠ none → ¬ ZeroPadded k key := by
  constructor
  · intro apart
    refine ⟨inserts_apart_front calls [call] apart, fun key value hashTarget size isCall => ?_⟩
    exact apart calls key value hashTarget size [] (by rw [isCall])
  · intro parts front key value hashTarget size rest isCalls
    cases rest using List.reverseRecOn with
    | nil =>
        obtain ⟨isFront, isCall⟩ := List.append_inj' isCalls rfl
        rw [← isFront]
        exact parts.2 key value hashTarget size (List.singleton_inj.mp isCall)
    | append_singleton later last =>
        rw [← List.cons_append, ← List.append_assoc] at isCalls
        exact parts.1 front key value hashTarget size later (List.append_inj' isCalls rfl).1

theorem inserts_apart_values (calls : List TreeCall) (apart : InsertsApart calls) (key : Bytes) : mapAfter leafValue calls key ≠ some none := by
  induction calls using List.reverseRecOn with
  | nil => simp [mapAfter]
  | append_singleton calls call ih =>
      have before := ih (inserts_apart_front calls [call] apart)
      rw [map_after_append]
      cases call with
      | insert k value hashTarget size =>
          by_cases same : key = k
          · have present := ((inserts_apart_append.mp apart).2 k value hashTarget size rfl).1
            simpa [TreeCall.mapped, same, leafValue] using present
          · simpa [TreeCall.mapped, same] using before
      | delete k =>
          by_cases same : key = k
          · simp [TreeCall.mapped, same]
          · simpa [TreeCall.mapped, same] using before
      | commit recalculate => exact before
      | prove k => exact before
      | verify k proofs => exact before

theorem keys_bounded {good : Bytes → Prop} (calls : List TreeCall) (keyed : ∀ call ∈ calls, call.Keyed good) :
    ∃ bound, ∀ call ∈ calls, call.Keyed (·.length ≤ bound) := by
  induction calls with
  | nil => exact ⟨0, by simp⟩
  | cons call calls ih =>
      obtain ⟨bound, within⟩ := ih fun call member => keyed call (List.mem_cons_of_mem _ member)
      have own : ∃ length, call.Keyed (·.length ≤ length) := by
        cases call with
        | insert key value hashTarget size => exact ⟨key.length, le_rfl⟩
        | delete key => exact ⟨key.length, le_rfl⟩
        | commit recalculate => exact ⟨0, trivial⟩
        | prove key => exact ⟨key.length, le_rfl⟩
        | verify key proofs => exact ⟨key.length, le_rfl⟩
      obtain ⟨length, isLength⟩ := own
      have weaker : ∀ (call : TreeCall) (low : Nat), low ≤ max length bound → call.Keyed (·.length ≤ low) → call.Keyed (·.length ≤ max length bound) := by
        intro call low isLow holds
        cases call with
        | commit recalculate => trivial
        | insert key value hashTarget size => exact le_trans holds isLow
        | delete key => exact le_trans holds isLow
        | prove key => exact le_trans holds isLow
        | verify key proofs => exact le_trans holds isLow
      refine ⟨max length bound, fun other member => ?_⟩
      cases List.mem_cons.mp member with
      | inl same => exact weaker other length (le_max_left _ _) (same ▸ isLength)
      | inr later => exact weaker other bound (le_max_right _ _) (within other later)

theorem inserts_apart_acts (keyed : ∀ call ∈ calls, call.Keyed (· ≠ [])) (apart : InsertsApart calls) : ActsAsMap prims calls := by
  obtain ⟨bound, within⟩ := keys_bounded calls keyed
  refine ⟨2 * bound, fun front rest isCalls => ?_⟩
  have member_front : ∀ call ∈ front, call ∈ calls := fun call member => by simp [isCalls, member]
  have apartFront := inserts_apart_front front rest (isCalls ▸ apart)
  obtain ⟨t, ran⟩ := run_returns leafValue prims (2 * bound) front (fun call member => keyed call (member_front call member))
    (fun earlier key value hashTarget size later isFront k there different => by
      have kShort : k.length ≤ bound := map_after_key leafValue (·.length ≤ bound) earlier
        (fun call member => within call (member_front call (by simp [isFront, member]))) k there
      have keyShort : key.length ≤ bound := within (.insert key value hashTarget size) (member_front _ (by simp [isFront]))
      have notPadded := (apartFront earlier key value hashTarget size later isFront).2 k different there
      exact digits_part k key _ (by omega) (by omega) notPadded)
  refine ⟨t, ran, (gets_as_mapped_iff t _ (run_represents leafValue prims _ front t ran).1).mpr fun key _ => ?_⟩
  exact inserts_apart_values front apartFront key

theorem acts_inserts_apart (keyed : ∀ call ∈ calls, call.Keyed (· ≠ [])) (acts : ActsAsMap prims calls) : InsertsApart calls := by
  obtain ⟨fuel, each⟩ := acts
  intro front key value hashTarget size rest isCalls
  have some_key : key ≠ [] := keyed (.insert key value hashTarget size) (by simp [isCalls])
  obtain ⟨after, ranAfter, gets⟩ := each (front ++ [.insert key value hashTarget size]) rest (by simp [isCalls])
  obtain ⟨before, ran, ranCall⟩ := run_tree_append.mp ranAfter
  constructor
  · have present := (gets_as_mapped_iff after _ (run_represents leafValue prims fuel _ after ranAfter).1).mp gets key some_key
    rw [map_after_append] at present
    simpa [TreeCall.mapped, leafValue] using present
  · intro k different there padded
    obtain ⟨represents, -⟩ := run_represents leafValue prims fuel front before ran
    obtain ⟨v, isStored⟩ := Option.ne_none_iff_exists'.mp there
    have endless := insert_endless leafValue fuel key k value hashTarget size v before.root 0 represents.sized represents.formed
      ((represents.stored k v).mpr isStored) different ((digits_same_iff k key).mpr padded)
    rw [TreeCall.on, VectorCommitmentTree.insert, failIf, if_neg (by simpa using some_key), ok_bind] at ranCall
    rw [Nat.mul_zero] at endless
    rw [endless] at ranCall
    cases ranCall

theorem tree_acts_as_map_iff (prims : TreePrimitives) (calls : List TreeCall) (keyed : ∀ call ∈ calls, call.Keyed (· ≠ [])) :
    ActsAsMap prims calls ↔ InsertsApart calls :=
  ⟨acts_inserts_apart keyed, inserts_apart_acts keyed⟩

theorem tree_acts_as_map_byte_prefix :
    ActsAsMap plainPrimitives [.insert [1] (some [5]) [] 1, .insert [1, 2] (some [6]) [] 1, .delete [1]] := by
  rw [tree_acts_as_map_iff plainPrimitives _ (by simp [TreeCall.Keyed])]
  change InsertsApart ([] ++ [.insert [1] (some [5]) [] 1] ++ [.insert [1, 2] (some [6]) [] 1] ++ [.delete [1]])
  have apart : ¬ ZeroPadded [1] [1, 2] := fun padded => absurd ((digits_same_iff [1] [1, 2]).mpr padded 2) (by decide)
  rw [inserts_apart_append, inserts_apart_append, inserts_apart_append]
  refine ⟨⟨⟨fun front key value hashTarget size rest empty => by simp at empty, ?_⟩, ?_⟩, ?_⟩
  · intro key value hashTarget size isCall
    cases isCall
    exact ⟨by simp, fun k _ there => absurd rfl there⟩
  · intro key value hashTarget size isCall
    cases isCall
    refine ⟨by simp, fun k _ there => ?_⟩
    have isOne : k = [1] := by
      by_contra other
      simp [mapAfter, TreeCall.mapped, other] at there
    rw [isOne]
    exact apart
  · intro key value hashTarget size isCall
    cases isCall

theorem padded_keys_not_a_map :
    (∀ fuel, runTree plainPrimitives fuel [.insert [1] (some [5]) [] 1, .insert [1, 0] (some [6]) [] 1] emptyTree = .error .outOfFuel) ∧
      ¬ ActsAsMap plainPrimitives [.insert [1] (some [5]) [] 1, .insert [1, 0] (some [6]) [] 1] := by
  have same : ∀ n, keyDigit [1] n = keyDigit [1, 0] n := (digits_same_iff [1] [1, 0]).mpr ⟨1, .inr rfl⟩
  constructor
  · intro fuel
    have endless := until_diverge_endless fuel [1] [1, 0] 0 fun n _ => same n
    rw [Nat.mul_zero] at endless
    have first : TreeCall.on plainPrimitives fuel emptyTree (.insert [1] (some [5]) [] 1) = .ok ⟨.leaf [1] (some [5]) [] none (some 1)⟩ := rfl
    rw [runTree, List.foldlM_cons, first, ok_bind, List.foldlM_cons, TreeCall.on, VectorCommitmentTree.insert, VectorCommitmentNode.insert,
      if_neg (by decide), endless]
    rfl
  · intro acts
    have apart := acts_inserts_apart (by simp [TreeCall.Keyed]) acts [.insert [1] (some [5]) [] 1] [1, 0] (some [6]) [] 1 [] rfl
    exact apart.2 [1] (by simp) (by simp [mapAfter, TreeCall.mapped]) ⟨1, .inr rfl⟩

end Ceremony
