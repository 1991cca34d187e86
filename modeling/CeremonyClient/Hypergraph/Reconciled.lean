import CeremonyClient.Hypergraph.Persistence
import CeremonyClient.Lib.Runs

set_option autoImplicit false

namespace Ceremony

open GoSem

variable {t : AtomType} {p : PhaseType}

def KeyedHypergraph (hg : Hypergraph) : Prop := ∀ t p shard set, (hg.sets t p).lookup shard = some set → ∃ values, SetKeyed t set values

section Steps

variable (env : HypergraphEnv)

theorem with_set_keyed {hg : Hypergraph} {shard : ShardKey} {set : IdSet} (keyed : KeyedHypergraph hg)
    (setKeyed : ∃ values, SetKeyed t set values) : KeyedHypergraph (hg.withSet t p shard set) := by
  intro t' p' shard' set' found
  rw [with_set_lookup] at found
  by_cases here : t' = t ∧ p' = p ∧ shard' = shard
  · rw [if_pos here] at found
    rw [← Option.some.inj found, here.1]
    exact setKeyed
  · rw [if_neg here] at found
    exact keyed t' p' shard' set' found

theorem create_keyed {hg : Hypergraph} {shard : ShardKey} (keyed : KeyedHypergraph hg) : KeyedHypergraph (hg.createIdSet t p shard) := by
  rw [Hypergraph.createIdSet]
  by_cases there : shard ∈ hg.sets t p
  · rw [if_pos there]
    exact keyed
  · rw [if_neg there]
    exact with_set_keyed keyed ⟨_, new_keyed⟩

theorem get_or_create_keyed (hg : Hypergraph) (t : AtomType) (shard : ShardKey) (keyed : KeyedHypergraph hg) :
    KeyedHypergraph (hg.getOrCreateIdSet t shard) := create_keyed (create_keyed keyed)

theorem add_to_keyed (hg : Hypergraph) (p : PhaseType) (atom : Atom) (keyed : KeyedHypergraph hg) :
    KeyedHypergraph (hg.addTo env atom.getAtomType p atom).2 := by
  rw [Hypergraph.addTo]
  cases found : (hg.sets atom.getAtomType p).lookup (Hypergraph.getShardKey env atom.getId) with
  | none => exact keyed
  | some set =>
      obtain ⟨values, setKeyed⟩ := keyed _ _ _ set found
      obtain ⟨tree, added, keyedAfter⟩ := add_keyed env setKeyed rfl
      simp only [added]
      exact with_set_keyed keyed ⟨_, keyedAfter⟩

mutual
theorem lookup_atom_keyed (atom : Atom) (hg : Hypergraph) (keyed : KeyedHypergraph hg) :
    KeyedHypergraph (Hypergraph.lookupAtom env atom hg).2 := by
  cases atom with
  | vertex v =>
      rw [Hypergraph.lookupAtom]
      exact get_or_create_keyed hg .vertex _ keyed
  | hyperedge id extrinsics extTree =>
      rw [Hypergraph.lookupAtom]
      exact lookup_atom_set_keyed extrinsics _ (get_or_create_keyed hg .hyperedge _ keyed)
theorem lookup_atom_set_keyed (extrinsics : List (AtomId × Atom)) (hg : Hypergraph) (keyed : KeyedHypergraph hg) :
    KeyedHypergraph (Hypergraph.lookupAtomSet env extrinsics hg).2 := by
  cases extrinsics with
  | nil =>
      rw [Hypergraph.lookupAtomSet]
      exact keyed
  | cons e rest =>
      obtain ⟨key, atom⟩ := e
      have first := lookup_atom_keyed atom hg keyed
      rw [Hypergraph.lookupAtomSet]
      by_cases found : (Hypergraph.lookupAtom env atom hg).1 = true
      · simp only [found, if_true]
        exact lookup_atom_set_keyed rest _ first
      · simp only [found]
        exact first
end

theorem remove_keyed (hg : Hypergraph) (atom : Atom) (text : String) (live : Bool) (keyed : KeyedHypergraph hg) :
    KeyedHypergraph (hg.remove env atom text live).2 := by
  have created := get_or_create_keyed hg atom.getAtomType (Hypergraph.getShardKey env atom.getId) keyed
  rw [Hypergraph.remove]
  by_cases isLive : live = false
  · have added := add_to_keyed env _ .adds atom created
    simp only [isLive, if_true]
    cases (Hypergraph.addTo env atom.getAtomType .adds atom (hg.getOrCreateIdSet atom.getAtomType (Hypergraph.getShardKey env atom.getId))).1 with
    | error fault => exact added
    | ok _ => exact add_to_keyed env _ .removes atom added
  · simp only [isLive]
    by_cases extrinsic : hg.isExtrinsic atom.getId = true
    · rw [if_pos extrinsic]
      exact keyed
    · rw [if_neg extrinsic]
      exact add_to_keyed env _ .removes atom created

theorem call_keyed (hg : Hypergraph) (call : HypergraphCall) (keyed : KeyedHypergraph hg) : KeyedHypergraph (call.on env hg).2 := by
  cases call with
  | addVertex v => exact add_to_keyed env _ .adds (.vertex v) (get_or_create_keyed hg .vertex _ keyed)
  | addHyperedge h =>
      have looked := lookup_atom_set_keyed env h.extrinsics hg keyed
      rw [HypergraphCall.on, Hypergraph.addHyperedge]
      by_cases found : (Hypergraph.lookupAtomSet env h.extrinsics hg).1 = false
      · rw [if_pos found]
        exact looked
      · rw [if_neg found]
        have created := get_or_create_keyed _ .hyperedge (Hypergraph.getShardKey env h.id) looked
        dsimp only
        split
        · exact created
        · exact add_to_keyed env _ .adds h.atom created
  | removeVertex v => exact remove_keyed env _ _ _ _ (lookup_atom_keyed env (.vertex v) hg keyed)
  | removeHyperedge h => exact remove_keyed env _ _ _ _ (lookup_atom_keyed env h.atom hg keyed)

end Steps

-- A node with its store: calls on the hypergraph, saves with their commits, and loads.
inductive HypergraphAction where
  | call (made : HypergraphCall)
  | save
  | load

def HypergraphAction.on (env : HypergraphEnv) (action : HypergraphAction) (state : Table Bytes Bytes × Hypergraph) : Table Bytes Bytes × Hypergraph :=
  match action with
  | .call made => (state.1, (made.on env state.2).2)
  | .save => (committed env state.2 state.1, state.2)
  | .load =>
      match loadHypergraph env state.1 with
      | .ok hg => (state.1, hg)
      | .error _ => state

def afterActions (env : HypergraphEnv) (actions : List HypergraphAction) : Table Bytes Bytes × Hypergraph :=
  runActions (HypergraphAction.on env) actions (∅, Hypergraph.new)

section Sessions

variable (env : HypergraphEnv) (inverts : ∀ tree, env.gob.InvertsTree tree)

def KeyedStore (db : Table Bytes Bytes) : Prop :=
  ∀ key bytes, db.lookup key = some bytes →
    ∃ t p shard set values, key = hypergraphKey (kindOf t p) shard ∧ bytes = (IdSet.toBytes env set).getD [] ∧ SetKeyed t set values

structure KeyedSession (state : Table Bytes Bytes × Hypergraph) : Prop where
  store : KeyedStore env state.1
  hypergraph : KeyedHypergraph state.2

theorem save_keyed {hg : Hypergraph} {db : Table Bytes Bytes} (keyed : KeyedHypergraph hg) (store : KeyedStore env db) :
    KeyedStore env (committed env hg db) := by
  intro key bytes found
  cases (committed_lookup env).mp found with
  | inl saved =>
      obtain ⟨t, p, inside⟩ := (mem_all_saved env).mp saved
      obtain ⟨shard, set, isSet, -, isKey, isBytes⟩ := (mem_saved env hg t p key bytes).mp inside
      obtain ⟨values, setKeyed⟩ := keyed t p shard set isSet
      exact ⟨t, p, shard, set, values, isKey, isBytes, setKeyed⟩
  | inr old => exact store key bytes old.2

include inverts in
theorem load_keyed {db : Table Bytes Bytes} {hg : Hypergraph} (store : KeyedStore env db) (loaded : loadHypergraph env db = .ok hg) :
    KeyedHypergraph hg := by
  have stored (t : AtomType) (p : PhaseType) (entry : Bytes × Bytes) (scanned : entry ∈ scan db t p) :=
    store entry.1 entry.2 ((Table.mem_range db _ _ entry.1 entry.2).mp scanned).1
  obtain ⟨importable, isLoaded⟩ := (load_ok_iff env (fun t p entry scanned => by
    obtain ⟨t', p', shard, set, values, isKey, -⟩ := stored t p entry scanned
    rw [isKey, shard_of_key, shard_key_read]) hg).mp loaded
  intro t p shard set found
  rw [isLoaded] at found
  cases Table.foldl_insert_source found with
  | inl nothing =>
      rw [AList.lookup_empty] at nothing
      cases nothing
  | inr source =>
      obtain ⟨entry, scanned, isSet⟩ := source
      obtain ⟨t', p', shard', saved, values, -, isBytes, setKeyed⟩ := stored t p entry scanned
      obtain ⟨loadedSet, size, ran, -⟩ := importable t p entry scanned
      rw [importedSet, ran] at isSet
      rw [isBytes] at ran
      rw [← isSet]
      exact ⟨values, (from_bytes_keyed env setKeyed (inverts saved.tree) ran).1⟩

include inverts in
theorem action_keyed (action : HypergraphAction) (state : Table Bytes Bytes × Hypergraph) (keyed : KeyedSession env state) :
    KeyedSession env (action.on env state) := by
  cases action with
  | call made => exact ⟨keyed.store, call_keyed env state.2 made keyed.hypergraph⟩
  | save => exact ⟨save_keyed env keyed.hypergraph keyed.store, keyed.hypergraph⟩
  | load =>
      rw [HypergraphAction.on]
      cases loaded : loadHypergraph env state.1 with
      | error fault => exact keyed
      | ok hg => exact ⟨keyed.store, load_keyed env inverts keyed.store loaded⟩

include inverts in
theorem session_keyed {actions : List HypergraphAction} : KeyedSession env (afterActions env actions) := by
  apply run_invariant (HypergraphAction.on env) (KeyedSession env) (action_keyed env inverts) actions
  exact ⟨fun key bytes found => (by cases found), fun t p shard set found => (by cases found)⟩

end Sessions

def reconciledSet (env : HypergraphEnv) (t : AtomType) (shard : ShardKey) (hg : Hypergraph) : Go IdSet :=
  match t with
  | .vertex => hg.getReconciledVertexSetForShard env shard
  | .hyperedge => hg.getReconciledHyperedgeSetForShard env shard

def ReconciledRight (env : HypergraphEnv) (hg : Hypergraph) (t : AtomType) (shard : ShardKey) : Prop :=
  ∃ set, reconciledSet env t shard hg = .ok set ∧ (∀ id, set.has id = true ↔ hg.HasAt t .adds shard id ∧ ¬ hg.HasAt t .removes shard id) ∧
    ∀ id a, set.atoms.lookup id = some a → ∃ addSet, (hg.sets t .adds).lookup shard = some addSet ∧ addSet.atoms.lookup id = some a

-- Hyperedges are asked for their identifiers, so they must not be nil even when they are removed.
def Reconcilable (hg : Hypergraph) (t : AtomType) (shard : ShardKey) : Prop :=
  ∀ addSet id atom, (hg.sets t .adds).lookup shard = some addSet → addSet.atoms.lookup id = some atom →
    (hg.sets t .removes).lookup shard ≠ none ∧ (t = .hyperedge → atom ≠ none) ∧
      (¬ hg.HasAt t .removes shard id → ∃ a, atom = some a ∧ a.getAtomType = t)

section Reconciling

variable (env : HypergraphEnv) (hg : Hypergraph) (t : AtomType) (shard : ShardKey)

def askedId : AtomType → AtomId → Option Atom → Go AtomId
  | .vertex, id, _ => .ok id
  | .hyperedge, _, atom => do return (← deref atom).getId

def reconcileStep (result : IdSet) (entry : (_ : AtomId) × Option Atom) : Go IdSet := do
  let id ← askedId t entry.1 entry.2
  let removeSet ← deref ((hg.sets t .removes).lookup shard)
  if removeSet.has id then return result
  else
    let atom ← deref entry.2
    let added := result.add env atom
    let _ ← attempt added.1
    return added.2

theorem reconciled_set_eq : reconciledSet env t shard hg =
    match (hg.sets t .adds).lookup shard with
    | none => .ok (IdSet.new t)
    | some addSet => addSet.atoms.entries.foldlM (reconcileStep env hg t shard) (IdSet.new t) := by
  cases t <;> rfl

theorem asked_id_iff {id found : AtomId} {atom : Option Atom} (keyed : ∀ a, atom = some a → a.getId = id) :
    askedId t id atom = .ok found ↔ (t = .hyperedge → atom ≠ none) ∧ found = id := by
  cases t with
  | vertex => simp [askedId, eq_comm]
  | hyperedge =>
      cases atom with
      | none => simp [askedId, deref, crash, bind, Except.bind]
      | some a => simp [askedId, deref, bind, Except.bind, pure, Except.pure, keyed a rfl, eq_comm]

-- The atom of an entry is entered when it has the set's type, and Add's error is dropped otherwise.
def entered (result : IdSet) (a : Atom) : IdSet := if a.getAtomType = t then (result.add env a).2 else result

variable {values : Bytes → Option (Option Bytes)}

variable {result : IdSet}

theorem add_entered (keyed : SetKeyed t result values) (a : Atom) :
    (do let _ ← attempt (result.add env a).1
        return (result.add env a).2 : Go IdSet) = .ok (entered env t result a) := by
  rw [entered]
  by_cases typed : a.getAtomType = t
  · obtain ⟨tree, added, -⟩ := add_keyed env keyed typed
    rw [added, if_pos typed]
    rfl
  · have refused : result.add env a = (raise errInvalidAtomType, result) := by
      rw [IdSet.add, if_pos (by rw [keyed.atomType]; exact typed)]
    rw [refused, if_neg typed]
    rfl

variable {entry : (_ : AtomId) × Option Atom}

theorem reconcile_step_iff {result next : IdSet} (keyed : SetKeyed t result values)
    (entryKeyed : ∀ a, entry.2 = some a → a.getId = entry.1) :
    reconcileStep env hg t shard result entry = .ok next ↔
      (t = .hyperedge → entry.2 ≠ none) ∧ (hg.sets t .removes).lookup shard ≠ none ∧
        ((hg.HasAt t .removes shard entry.1 ∧ next = result) ∨
          (¬ hg.HasAt t .removes shard entry.1 ∧ ∃ a, entry.2 = some a ∧ next = entered env t result a)) := by
  rw [reconcileStep, bind_ok_iff]
  simp only [asked_id_iff t entryKeyed, bind_ok_iff, deref_ok_iff]
  constructor
  · intro ran
    obtain ⟨id, ⟨asked, isId⟩, removeSet, found, rest⟩ := ran
    refine ⟨asked, by rw [found]; exact Option.some_ne_none _, ?_⟩
    rw [isId] at rest
    by_cases has : removeSet.has entry.1 = true
    · rw [if_pos has] at rest
      exact .inl ⟨⟨removeSet, found, has⟩, (Except.ok.inj rest).symm⟩
    · rw [if_neg has, bind_ok_iff] at rest
      obtain ⟨a, isAtom, ran⟩ := rest
      rw [add_entered env t keyed a] at ran
      refine .inr ⟨?_, a, deref_ok_iff.mp isAtom, (Except.ok.inj ran).symm⟩
      intro removed
      obtain ⟨other, otherFound, otherHas⟩ := removed
      rw [found] at otherFound
      rw [← Option.some.inj otherFound] at otherHas
      exact has otherHas
  · intro conditions
    obtain ⟨asked, there, either⟩ := conditions
    obtain ⟨removeSet, found⟩ := Option.ne_none_iff_exists'.mp there
    refine ⟨entry.1, ⟨asked, rfl⟩, removeSet, found, ?_⟩
    cases either with
    | inl removed =>
        obtain ⟨⟨other, otherFound, otherHas⟩, isNext⟩ := removed
        rw [found] at otherFound
        rw [← Option.some.inj otherFound] at otherHas
        rw [if_pos otherHas, isNext]
        rfl
    | inr kept =>
        obtain ⟨notRemoved, a, isAtom, isNext⟩ := kept
        rw [if_neg fun has => notRemoved ⟨removeSet, found, has⟩, isAtom]
        exact (add_entered env t keyed a).trans (by rw [isNext])

theorem entered_keyed (keyed : SetKeyed t result values) {a : Atom} :
    (∃ values', SetKeyed t (entered env t result a) values') ∧
      ∀ id, (entered env t result a).atoms.lookup id =
        if a.getAtomType = t ∧ id = a.getId then some (some a) else result.atoms.lookup id := by
  rw [entered]
  by_cases typed : a.getAtomType = t
  · obtain ⟨tree, added, keyedAfter⟩ := add_keyed env keyed typed
    rw [added, if_pos typed]
    refine ⟨⟨_, keyedAfter⟩, fun id => ?_⟩
    by_cases same : id = a.getId
    · rw [if_pos ⟨typed, same⟩, same, AList.lookup_insert]
    · rw [if_neg fun both => same both.2, AList.lookup_insert_ne same]
  · rw [if_neg typed]
    exact ⟨⟨values, keyed⟩, fun id => by rw [if_neg fun both => typed both.1]⟩

-- An entry that the loop gets past, and one that it takes over.
def EntryPassed (entry : (_ : AtomId) × Option Atom) : Prop :=
  (t = .hyperedge → entry.2 ≠ none) ∧ (hg.sets t .removes).lookup shard ≠ none ∧ (¬ hg.HasAt t .removes shard entry.1 → entry.2 ≠ none)

def EntryTaken (entry : (_ : AtomId) × Option Atom) : Prop :=
  ¬ hg.HasAt t .removes shard entry.1 ∧ ∃ a, entry.2 = some a ∧ a.getAtomType = t

theorem reconcile_step_taken {result next : IdSet} (keyed : SetKeyed t result values)
    (entryKeyed : ∀ a, entry.2 = some a → a.getId = entry.1)
    (ran : reconcileStep env hg t shard result entry = .ok next) :
    EntryPassed hg t shard entry ∧ (∃ values', SetKeyed t next values') ∧
      ∀ id a, next.atoms.lookup id = some a ↔ (EntryTaken hg t shard entry ∧ id = entry.1 ∧ a = entry.2) ∨
        (¬ (EntryTaken hg t shard entry ∧ id = entry.1) ∧ result.atoms.lookup id = some a) := by
  obtain ⟨asked, there, either⟩ := (reconcile_step_iff env hg t shard keyed entryKeyed).mp ran
  cases either with
  | inl removed =>
      obtain ⟨isRemoved, isNext⟩ := removed
      have notTaken : ¬ EntryTaken hg t shard entry := fun taken => taken.1 isRemoved
      rw [isNext]
      exact ⟨⟨asked, there, fun kept => absurd isRemoved kept⟩, ⟨values, keyed⟩, fun id a => by simp [notTaken]⟩
  | inr kept =>
      obtain ⟨notRemoved, a, isAtom, isNext⟩ := kept
      obtain ⟨nextKeyed, lookups⟩ := entered_keyed env t keyed
      rw [← isNext] at nextKeyed lookups
      have takenIff : EntryTaken hg t shard entry ↔ a.getAtomType = t := by
        simp [EntryTaken, notRemoved, isAtom]
      refine ⟨⟨asked, there, fun _ => by rw [isAtom]; exact Option.some_ne_none a⟩, nextKeyed, fun id b => ?_⟩
      rw [lookups, takenIff, entryKeyed a isAtom, isAtom]
      by_cases here : a.getAtomType = t ∧ id = entry.1
      · simp [here, eq_comm]
      · rw [if_neg here]
        constructor
        · exact fun found => .inr ⟨here, found⟩
        · intro either
          cases either with
          | inl taken => exact absurd ⟨taken.1, taken.2.1⟩ here
          | inr other => exact other.2

theorem reconcile_step_returns (keyed : SetKeyed t result values)
    (entryKeyed : ∀ a, entry.2 = some a → a.getId = entry.1) (passed : EntryPassed hg t shard entry) :
    ∃ next, reconcileStep env hg t shard result entry = .ok next := by
  obtain ⟨asked, there, some_kept⟩ := passed
  by_cases removed : hg.HasAt t .removes shard entry.1
  · exact ⟨result, (reconcile_step_iff env hg t shard keyed entryKeyed).mpr ⟨asked, there, .inl ⟨removed, rfl⟩⟩⟩
  · obtain ⟨a, isAtom⟩ := Option.ne_none_iff_exists'.mp (some_kept removed)
    exact ⟨_, (reconcile_step_iff env hg t shard keyed entryKeyed).mpr ⟨asked, there, .inr ⟨removed, a, isAtom, rfl⟩⟩⟩

variable {entries : List ((_ : AtomId) × Option Atom)}

theorem reconcile_fold
    (entriesKeyed : ∀ entry ∈ entries, ∀ a, entry.2 = some a → a.getId = entry.1)
    (keyed : SetKeyed t result values) {final : IdSet} (ran : entries.foldlM (reconcileStep env hg t shard) result = .ok final) :
    (∀ entry ∈ entries, EntryPassed hg t shard entry) ∧
      (∀ id, final.has id = true ↔ result.has id = true ∨ ∃ entry ∈ entries, entry.1 = id ∧ EntryTaken hg t shard entry) ∧
      ∀ id a, final.atoms.lookup id = some a → result.atoms.lookup id = some a ∨ ∃ entry ∈ entries, entry.1 = id ∧ entry.2 = a := by
  induction entries generalizing result values with
  | nil =>
      cases ran
      exact ⟨by simp, by simp, fun id a found => .inl found⟩
  | cons entry rest ih =>
      obtain ⟨firstKeyed, restKeyed⟩ := List.forall_mem_cons.mp entriesKeyed
      rw [List.foldlM_cons] at ran
      obtain ⟨next, ranFirst, ranRest⟩ := (bind_ok_iff _ _ _).mp ran
      obtain ⟨passed, ⟨nextValues, nextKeyed⟩, lookups⟩ := reconcile_step_taken env hg t shard keyed firstKeyed ranFirst
      obtain ⟨restPassed, restHas, restFrom⟩ := ih restKeyed nextKeyed ranRest
      refine ⟨List.forall_mem_cons.mpr ⟨passed, restPassed⟩, fun id => ?_, fun id a found => ?_⟩
      · have nextHas : next.has id = true ↔ result.has id = true ∨ (entry.1 = id ∧ EntryTaken hg t shard entry) := by
          rw [IdSet.has, IdSet.has, Option.isSome_iff_exists, Option.isSome_iff_exists]
          simp only [lookups]
          by_cases taken : EntryTaken hg t shard entry ∧ id = entry.1
          · simp [taken]
          · have other : ¬ (entry.1 = id ∧ EntryTaken hg t shard entry) := fun both => taken ⟨both.2, both.1.symm⟩
            have notHere (a : Option Atom) : ¬ (EntryTaken hg t shard entry ∧ id = entry.1 ∧ a = entry.2) := fun all => taken ⟨all.1, all.2.1⟩
            simp only [notHere, taken, other, not_false_eq_true, true_and, false_or, or_false]
        simp only [restHas, nextHas, List.mem_cons, exists_eq_or_imp, or_assoc]
      · cases restFrom id a found with
        | inl inNext =>
            cases (lookups id a).mp inNext with
            | inl taken => exact .inr ⟨entry, List.mem_cons_self, taken.2.1.symm, taken.2.2.symm⟩
            | inr before => exact .inl before.2
        | inr later =>
            obtain ⟨other, inside, isOther⟩ := later
            exact .inr ⟨other, List.mem_cons_of_mem _ inside, isOther⟩

theorem reconcile_fold_returns
    (entriesKeyed : ∀ entry ∈ entries, ∀ a, entry.2 = some a → a.getId = entry.1) (passed : ∀ entry ∈ entries, EntryPassed hg t shard entry)
    (keyed : SetKeyed t result values) :
    ∃ final, entries.foldlM (reconcileStep env hg t shard) result = .ok final := by
  induction entries generalizing result values with
  | nil => exact ⟨result, rfl⟩
  | cons entry rest ih =>
      obtain ⟨firstKeyed, restKeyed⟩ := List.forall_mem_cons.mp entriesKeyed
      obtain ⟨firstPassed, restPassed⟩ := List.forall_mem_cons.mp passed
      obtain ⟨next, ranFirst⟩ := reconcile_step_returns env hg t shard keyed firstKeyed firstPassed
      obtain ⟨-, ⟨nextValues, nextKeyed⟩, -⟩ := reconcile_step_taken env hg t shard keyed firstKeyed ranFirst
      obtain ⟨final, ranRest⟩ := ih restKeyed restPassed nextKeyed
      exact ⟨final, by rw [List.foldlM_cons, ranFirst, ok_bind, ranRest]⟩

theorem reconciled_iff (keyed : KeyedHypergraph hg) : ReconciledRight env hg t shard ↔ Reconcilable hg t shard := by
  rw [ReconciledRight, reconciled_set_eq]
  cases found : (hg.sets t .adds).lookup shard with
  | none =>
      have nothing (id : AtomId) : ¬ hg.HasAt t .adds shard id := by
        rw [Hypergraph.HasAt, found]
        simp
      constructor
      · intro _ addSet id atom isSet
        rw [found] at isSet
        cases isSet
      · intro _
        exact ⟨IdSet.new t, rfl, fun id => by simp [IdSet.new, IdSet.has, nothing], fun id a isAtom => (by simp [IdSet.new] at isAtom)⟩
  | some addSet =>
      obtain ⟨values, setKeyed⟩ := keyed t .adds shard addSet found
      have entriesKeyed : ∀ entry ∈ addSet.atoms.entries, ∀ a, entry.2 = some a → a.getId = entry.1 := by
        intro entry inside a isAtom
        apply setKeyed.atoms
        rw [← isAtom]
        exact AList.mem_lookup_iff.mpr inside
      have added (id : AtomId) : hg.HasAt t .adds shard id ↔ ∃ entry ∈ addSet.atoms.entries, entry.1 = id := by
        rw [Hypergraph.HasAt, found]
        simp only [Option.some.injEq, exists_eq_left']
        rw [IdSet.has, Option.isSome_iff_exists]
        constructor
        · intro some_atom
          obtain ⟨atom, isAtom⟩ := some_atom
          exact ⟨⟨id, atom⟩, AList.mem_lookup_iff.mp isAtom, rfl⟩
        · intro some_entry
          obtain ⟨⟨key, atom⟩, inside, isKey⟩ := some_entry
          rw [← isKey]
          exact ⟨atom, AList.mem_lookup_iff.mpr inside⟩
      constructor
      · intro right addSet' id atom isSet isAtom
        rw [found] at isSet
        rw [← Option.some.inj isSet] at isAtom
        obtain ⟨set, ran, has, -⟩ := right
        obtain ⟨passed, hasIff, -⟩ := reconcile_fold env hg t shard entriesKeyed new_keyed ran
        have inside : (⟨id, atom⟩ : (_ : AtomId) × Option Atom) ∈ addSet.atoms.entries := AList.mem_lookup_iff.mp isAtom
        obtain ⟨asked, there, -⟩ := passed _ inside
        refine ⟨there, asked, fun notRemoved => ?_⟩
        -- The identifier is in the result, so it was taken over from its own entry.
        have taken := (hasIff id).mp ((has id).mpr ⟨(added id).mpr ⟨_, inside, rfl⟩, notRemoved⟩)
        cases taken with
        | inl start => simp [IdSet.new, IdSet.has] at start
        | inr fromEntry =>
            obtain ⟨⟨key, other⟩, otherInside, isKey, -, a, isOther, typed⟩ := fromEntry
            have sameAtom : addSet.atoms.lookup id = some other := by
              rw [← isKey]
              exact AList.mem_lookup_iff.mpr otherInside
            rw [isAtom] at sameAtom
            exact ⟨a, (Option.some.inj sameAtom).trans isOther, typed⟩
      · intro reconcilable
        have conditions (entry : (_ : AtomId) × Option Atom) (inside : entry ∈ addSet.atoms.entries) :=
          reconcilable addSet entry.1 entry.2 found (AList.mem_lookup_iff.mpr inside)
        obtain ⟨set, ran⟩ := reconcile_fold_returns env hg t shard entriesKeyed (fun entry inside => by
          obtain ⟨there, asked, typed⟩ := conditions entry inside
          refine ⟨asked, there, fun notRemoved => ?_⟩
          obtain ⟨a, isAtom, -⟩ := typed notRemoved
          rw [isAtom]
          exact Option.some_ne_none a) new_keyed
        obtain ⟨-, hasIff, sources⟩ := reconcile_fold env hg t shard entriesKeyed new_keyed ran
        refine ⟨set, ran, fun id => ?_, fun id a isAtom => ⟨addSet, rfl, ?_⟩⟩
        · rw [hasIff, added]
          constructor
          · intro either
            cases either with
            | inl start => simp [IdSet.new, IdSet.has] at start
            | inr fromEntry =>
                obtain ⟨entry, inside, isKey, notRemoved, -⟩ := fromEntry
                exact ⟨⟨entry, inside, isKey⟩, by rw [← isKey]; exact notRemoved⟩
          · intro both
            obtain ⟨⟨entry, inside, isKey⟩, notRemoved⟩ := both
            rw [← isKey] at notRemoved
            exact .inr ⟨entry, inside, isKey, notRemoved, (conditions entry inside).2.2 notRemoved⟩
        · cases sources id a isAtom with
          | inl start => simp [IdSet.new] at start
          | inr fromEntry =>
              obtain ⟨⟨key, other⟩, inside, isKey, isOther⟩ := fromEntry
              rw [← isKey, ← isOther]
              exact AList.mem_lookup_iff.mpr inside

end Reconciling

theorem built_keyed {env : HypergraphEnv} {hg : Hypergraph} (built : Built env hg) : KeyedHypergraph hg := by
  intro t p shard set found
  obtain ⟨values, keyed, -⟩ := (built.sets t p shard set found).keyed
  exact ⟨values, keyed⟩

theorem built_reconcilable {env : HypergraphEnv} {hg : Hypergraph} (built : Built env hg) {t : AtomType} {shard : ShardKey} :
    Reconcilable hg t shard := by
  intro addSet id atom isSet isAtom
  obtain ⟨a, isSome, typed, -⟩ := (built.sets t .adds shard addSet isSet).atoms id atom isAtom
  have there : shard ∈ hg.sets t .removes := (built.paired t shard).mp (AList.lookup_isSome.mp (by rw [isSet]; rfl))
  refine ⟨fun absent => AList.lookup_eq_none.mp absent there, fun _ => ?_, fun _ => ⟨a, isSome, typed⟩⟩
  rw [isSome]
  exact Option.some_ne_none a

theorem reconciled_sets_iff (env : HypergraphEnv) (inverts : ∀ tree, env.gob.InvertsTree tree) :
    (∀ calls t shard, ReconciledRight env (afterCalls env calls) t shard) ∧
      ∀ actions t shard, ReconciledRight env (afterActions env actions).2 t shard ↔ Reconcilable (afterActions env actions).2 t shard := by
  constructor
  · intro calls t shard
    have built := (after_calls_refined env calls).1
    exact (reconciled_iff env _ t shard (built_keyed built)).mpr (built_reconcilable built)
  · intro actions t shard
    exact reconciled_iff env _ t shard (session_keyed env inverts).hypergraph

theorem reconciled_sets_plain :
    ∃ gob : Gob, (∀ tree, gob.InvertsTree tree) ∧
      ∀ t shard, ReconciledRight { plainEnv with gob := gob } (afterCalls { plainEnv with gob := gob } [.addVertex plainVertex]) t shard := by
  obtain ⟨gob, inverts, -⟩ := exists_gob
  exact ⟨gob, inverts, (reconciled_sets_iff { plainEnv with gob := gob } inverts).1 [.addVertex plainVertex]⟩

theorem no_remove_set_panics {env : HypergraphEnv} (hg : Hypergraph) {shard : ShardKey} (id : AtomId)
    (there : hg.HasAt .vertex .adds shard id) (absent : (hg.sets .vertex .removes).lookup shard = none) :
    hg.getReconciledVertexSetForShard env shard = crash := by
  obtain ⟨addSet, found, has⟩ := there
  have isSet := reconciled_set_eq env hg .vertex shard
  rw [found] at isSet
  refine isSet.trans ?_
  have some_entry : addSet.atoms.entries ≠ [] := by
    intro empty
    obtain ⟨atom, isAtom⟩ := Option.isSome_iff_exists.mp has
    have inside := AList.mem_lookup_iff.mp isAtom
    rw [empty] at inside
    cases inside
  cases entries : addSet.atoms.entries with
  | nil => exact absurd entries some_entry
  | cons entry rest =>
      change addSet.atoms.entries.foldlM _ _ = _
      rw [entries, List.foldlM_cons, reconcileStep, absent]
      rfl

theorem loaded_vertex_shard_panics :
    ∃ gob : Gob, (∀ tree, gob.InvertsTree tree) ∧ ∃ hg, loadHypergraph { plainEnv with gob := gob }
        (committed { plainEnv with gob := gob } (afterCalls { plainEnv with gob := gob } [.addVertex plainVertex]) ∅) = .ok hg ∧
      hg.getReconciledVertexSetForShard { plainEnv with gob := gob } (Hypergraph.getShardKey plainEnv plainVertex.id) = crash := by
  obtain ⟨gob, inverts, -⟩ := exists_gob
  refine ⟨gob, inverts, ?_⟩
  have built := (after_calls_refined { plainEnv with gob := gob } [.addVertex plainVertex]).1
  have unused : Unused ∅ := fun key bytes found => (by cases found)
  obtain ⟨hg, loaded, preserved⟩ := (persists_iff inverts ∅ unused _ built).mpr (one_vertex_separable gob)
  refine ⟨hg, loaded, ?_⟩
  obtain ⟨-, isLoaded⟩ := (load_ok_iff _ (scan_keyed _ ∅ unused) hg).mp loaded
  apply no_remove_set_panics hg plainVertex.id
  · exact (preserved.members _ _ _ _).mpr ⟨_, rfl, rfl⟩
  · rw [isLoaded]
    apply loaded_none _ _ ∅ unused
    intro t p set found dirty inScan
    have isRemoves : t = .vertex ∧ p = .removes := by
      revert inScan
      cases t <;> cases p <;> decide
    rw [isRemoves.1, isRemoves.2] at found
    cases Option.some.inj found
    cases dirty

end Ceremony
