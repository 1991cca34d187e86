import CeremonyClient.Hypergraph.Loading
import Mathlib.Data.W.Basic

set_option autoImplicit false

namespace Ceremony

open GoSem PrefixTrie

variable {id : AtomId} {other : Hypergraph}

def Hypergraph.HasAt (hg : Hypergraph) (t : AtomType) (p : PhaseType) (shard : ShardKey) (id : AtomId) : Prop :=
  ∃ set, (hg.sets t p).lookup shard = some set ∧ set.has id = true

section Lookups

variable (env : HypergraphEnv)

variable {hg : Hypergraph}

theorem has_at_iff {t : AtomType} {p : PhaseType} :
    hg.has env t p id = true ↔ hg.HasAt t p (Hypergraph.getShardKey env id) id := by
  rw [Hypergraph.has, Hypergraph.HasAt]
  cases (hg.sets t p).lookup (Hypergraph.getShardKey env id) with
  | none => simp
  | some set => simp

theorem create_has_at {t t' : AtomType} {p p' : PhaseType} {shard shard' : ShardKey} :
    (hg.createIdSet t p shard).HasAt t' p' shard' id ↔ hg.HasAt t' p' shard' id := by
  rw [Hypergraph.createIdSet]
  by_cases there : shard ∈ hg.sets t p
  · rw [if_pos there]
  · rw [if_neg there, Hypergraph.HasAt, with_set_lookup]
    by_cases here : t' = t ∧ p' = p ∧ shard' = shard
    · have absent : (hg.sets t' p').lookup shard' = none := by
        rw [here.1, here.2.1, here.2.2]
        exact AList.lookup_eq_none.mpr there
      rw [if_pos here, Hypergraph.HasAt, absent]
      simp [IdSet.new, IdSet.has]
    · rw [if_neg here, Hypergraph.HasAt]

theorem get_or_create_has_at (hg : Hypergraph) (t t' : AtomType) (p' : PhaseType) {shard : ShardKey} (shard' : ShardKey) (id : AtomId) :
    (hg.getOrCreateIdSet t shard).HasAt t' p' shard' id ↔ hg.HasAt t' p' shard' id := by
  rw [Hypergraph.getOrCreateIdSet, create_has_at, create_has_at]

structure SameLookup (hg other : Hypergraph) (found foundOther : Bool × Hypergraph) : Prop where
  answer : found.1 = foundOther.1
  kept : ∀ t p shard id, found.2.HasAt t p shard id ↔ hg.HasAt t p shard id
  keptOther : ∀ t p shard id, foundOther.2.HasAt t p shard id ↔ other.HasAt t p shard id

theorem has_same (same : ∀ t p shard id, hg.HasAt t p shard id ↔ other.HasAt t p shard id) (t : AtomType) (p : PhaseType)
    (id : AtomId) : hg.has env t p id = other.has env t p id := by
  rw [Bool.eq_iff_iff, has_at_iff, has_at_iff, same]

theorem lookup_vertex_same {v : Vertex} (same : ∀ t p shard id, hg.HasAt t p shard id ↔ other.HasAt t p shard id) :
    SameLookup hg other (hg.lookupVertex env v) (other.lookupVertex env v) := by
  have created : ∀ t p shard id, (hg.getOrCreateIdSet .vertex (Hypergraph.getShardKey env v.id)).HasAt t p shard id ↔
      (other.getOrCreateIdSet .vertex (Hypergraph.getShardKey env v.id)).HasAt t p shard id := by
    intro t p shard id
    rw [get_or_create_has_at, get_or_create_has_at, same]
  refine ⟨?_, fun t p shard id => get_or_create_has_at hg _ _ _ _ _, fun t p shard id => get_or_create_has_at other _ _ _ _ _⟩
  rw [Hypergraph.lookupVertex, Hypergraph.lookupVertex]
  simp only [has_same env created]

mutual
theorem lookup_atom_same (atom : Atom) (hg other : Hypergraph) (same : ∀ t p shard id, hg.HasAt t p shard id ↔ other.HasAt t p shard id) :
    SameLookup hg other (Hypergraph.lookupAtom env atom hg) (Hypergraph.lookupAtom env atom other) := by
  cases atom with
  | vertex v =>
      rw [Hypergraph.lookupAtom, Hypergraph.lookupAtom]
      exact lookup_vertex_same env same
  | hyperedge id extrinsics extTree =>
      have inner := lookup_atom_set_same extrinsics (hg.getOrCreateIdSet .hyperedge (Hypergraph.getShardKey env id))
        (other.getOrCreateIdSet .hyperedge (Hypergraph.getShardKey env id)) fun t p shard id => by
          rw [get_or_create_has_at, get_or_create_has_at, same]
      have keptHere := fun t p shard id' => (inner.kept t p shard id').trans (get_or_create_has_at hg .hyperedge t p shard id')
      have keptThere := fun t p shard id' => (inner.keptOther t p shard id').trans (get_or_create_has_at other .hyperedge t p shard id')
      rw [Hypergraph.lookupAtom, Hypergraph.lookupAtom]
      refine ⟨?_, keptHere, keptThere⟩
      have after := has_same env fun t p shard id' => (keptHere t p shard id').trans ((same t p shard id').trans (keptThere t p shard id').symm)
      simp only [inner.answer, after]
theorem lookup_atom_set_same (extrinsics : List (AtomId × Atom)) (hg other : Hypergraph)
    (same : ∀ t p shard id, hg.HasAt t p shard id ↔ other.HasAt t p shard id) :
    SameLookup hg other (Hypergraph.lookupAtomSet env extrinsics hg) (Hypergraph.lookupAtomSet env extrinsics other) := by
  cases extrinsics with
  | nil =>
      rw [Hypergraph.lookupAtomSet, Hypergraph.lookupAtomSet]
      exact ⟨rfl, fun _ _ _ _ => Iff.rfl, fun _ _ _ _ => Iff.rfl⟩
  | cons e rest =>
      obtain ⟨key, atom⟩ := e
      have first := lookup_atom_same atom hg other same
      rw [Hypergraph.lookupAtomSet, Hypergraph.lookupAtomSet]
      simp only [← first.answer]
      by_cases found : (Hypergraph.lookupAtom env atom hg).1 = true
      · have next := lookup_atom_set_same rest _ _ fun t p shard id =>
          (first.kept t p shard id).trans ((same t p shard id).trans (first.keptOther t p shard id).symm)
        rw [if_pos found, if_pos found]
        exact ⟨next.answer, fun t p shard id => (next.kept t p shard id).trans (first.kept t p shard id),
          fun t p shard id => (next.keptOther t p shard id).trans (first.keptOther t p shard id)⟩
      · rw [if_neg found, if_neg found]
        exact ⟨rfl, first.kept, first.keptOther⟩
end

end Lookups

section Reloading

variable (env : HypergraphEnv) (inverts : ∀ tree, env.gob.InvertsTree tree)

theorem measured_iff {set : IdSet} : (∃ size, set.getSize = .ok size) ↔ set.tree.root ≠ .nil := by
  obtain ⟨dirty, atomType, atoms, ⟨root⟩⟩ := set
  rw [IdSet.getSize]
  cases root with
  | nil => simp [VectorCommitmentTree.getSize, crash, bind, Except.bind]
  | leaf key value hashTarget commitment size => simp [VectorCommitmentTree.getSize, bind, Except.bind, pure, Except.pure]
  | branch pre children commitment size leafCount longestBranch => simp [VectorCommitmentTree.getSize, bind, Except.bind, pure, Except.pure]

theorem keyed_root {t : AtomType} {set : IdSet} {values : Bytes → Option (Option Bytes)} (keyed : SetKeyed t set values) :
    set.tree.root ≠ .nil ↔ ∃ id, set.has id = true := by
  constructor
  · intro there
    obtain ⟨k, value, stored⟩ := formed_stored keyDigit keyed.tree.formed (mt (trie_nil_iff leafValue).mp there)
    have isValue := (keyed.tree.stored k value).mp stored
    obtain ⟨id, isId⟩ := keyed.keys k (by rw [isValue]; exact Option.some_ne_none _)
    exact ⟨id, (keyed.same id).mpr (by rw [← isId, isValue]; exact Option.some_ne_none _)⟩
  · intro member isNil
    obtain ⟨id, has⟩ := member
    obtain ⟨value, isValue⟩ := Option.ne_none_iff_exists'.mp ((keyed.same id).mp has)
    have stored := (keyed.tree.stored _ _).mpr isValue
    rw [isNil] at stored
    exact stored

theorem clean_size (t : AtomType) (shard : ShardKey) (set : IdSet) (built : SetBuilt env t shard set) (clean : ¬ set.dirty = true) :
    listedSize set = 0 := by
  obtain ⟨values, keyed, -⟩ := built.keyed
  have unmeasured := measured_iff.not.mpr ((keyed_root keyed).not.mpr (mt built.dirty.mpr clean))
  rw [listedSize]
  cases measured : set.getSize with
  | ok size => exact absurd ⟨size, measured⟩ unmeasured
  | error fault => rfl

include inverts in
theorem built_importable (t t' : AtomType) (shard : ShardKey) (set : IdSet) (built : SetBuilt env t' shard set) (dirty : set.dirty = true) :
    Importable env t ((set.toBytes env).getD []) ↔ ∀ id a, set.atoms.lookup id = some (some a) → a.toBytes env ≠ none := by
  obtain ⟨values, keyed, isValues⟩ := built.keyed
  constructor
  · intro importable id a found
    obtain ⟨loaded, size, ran, -⟩ := importable
    have coded := (from_bytes_keyed env keyed (inverts set.tree) ran).2.2 id.bytes
    intro isNil
    rw [isValues, found] at coded
    exact coded (by rw [Option.map_some, Option.bind_some, isNil])
  · intro encoded
    obtain ⟨loaded, ran⟩ := from_bytes_returns env keyed (inverts set.tree) (by
      intro k isNil
      obtain ⟨id, isId⟩ := keyed.keys k (by rw [isNil]; exact Option.some_ne_none _)
      rw [isId, isValues] at isNil
      obtain ⟨atom, found, isNone⟩ := Option.map_eq_some_iff.mp isNil
      obtain ⟨a, isAtom, -⟩ := built.atoms id atom found
      rw [isAtom] at found isNone
      exact encoded id a found isNone)
    obtain ⟨loadedKeyed, sameTree, -⟩ := from_bytes_keyed env keyed (inverts set.tree) ran
    obtain ⟨size, measured⟩ := measured_iff.mpr (by
      rw [sameTree]
      exact (keyed_root keyed).mpr (built.dirty.mp dirty))
    exact ⟨loaded, size, ran, measured⟩

include inverts in
theorem imported_same (t t' : AtomType) (shard : ShardKey) (set : IdSet) (built : SetBuilt env t' shard set)
    (importable : Importable env t ((set.toBytes env).getD [])) :
    (∀ id, (importedSet env t ((set.toBytes env).getD [])).has id = set.has id) ∧
      listedSize (importedSet env t ((set.toBytes env).getD [])) = listedSize set := by
  obtain ⟨values, keyed, -⟩ := built.keyed
  obtain ⟨loaded, size, ran, -⟩ := importable
  obtain ⟨loadedKeyed, sameTree, -⟩ := from_bytes_keyed env keyed (inverts set.tree) ran
  rw [importedSet, ran]
  refine ⟨fun id => by rw [Bool.eq_iff_iff, loadedKeyed.same, keyed.same], ?_⟩
  rw [listedSize, listedSize, IdSet.getSize, IdSet.getSize, sameTree]

def AllEncoded (hg : Hypergraph) : Prop :=
  ∀ t p shard set, (hg.sets t p).lookup shard = some set → ∀ id a, set.atoms.lookup id = some (some a) → a.toBytes env ≠ none

theorem sum_filter_map {α β : Type} (items : List α) (keep : α → Option β) (weight : β → Int) (total : α → Int)
    (same : ∀ item ∈ items, ((keep item).map weight).getD 0 = total item) : ((items.filterMap keep).map weight).sum = (items.map total).sum := by
  induction items with
  | nil => rfl
  | cons item rest ih =>
      obtain ⟨first, others⟩ := List.forall_mem_cons.mp same
      rw [List.map_cons, List.sum_cons, ← first, ← ih others, List.filterMap_cons]
      cases keep item with
      | none => simp
      | some kept => simp

theorem in_scan_self {t : AtomType} {p : PhaseType} : InScan t p t p := by cases t <;> cases p <;> decide

variable {hg : Hypergraph} {db : Table Bytes Bytes} {shard : ShardKey} (built : Built env hg) (encoded : AllEncoded env hg) (unused : Unused db)

include inverts built unused in
theorem all_importable_iff :
    (∀ t p, ∀ entry ∈ scan (committed env hg db) t p, Importable env t entry.2) ↔ AllEncoded env hg := by
  constructor
  · intro importable t p shard set found id a isAtom
    have setBuilt := built.sets t p shard set found
    have dirty : set.dirty = true := setBuilt.dirty.mpr ⟨id, by rw [IdSet.has, isAtom]; rfl⟩
    have saved := (mem_scan env hg db unused t p (hypergraphKey (kindOf t p) shard, (set.toBytes env).getD [])).mpr
      ⟨t, p, in_scan_self, (mem_saved env hg t p _ _).mpr ⟨shard, set, found, dirty, rfl, rfl⟩⟩
    exact (built_importable env inverts t t shard set setBuilt dirty).mp (importable t p _ saved) id a isAtom
  · intro encoded t p entry scanned
    obtain ⟨t', p', -, inside⟩ := (mem_scan env hg db unused t p entry).mp scanned
    obtain ⟨shard, set, found, dirty, -, isBytes⟩ := (mem_saved env hg t' p' entry.1 entry.2).mp inside
    rw [isBytes]
    exact (built_importable env inverts t t' shard set (built.sets t' p' shard set found) dirty).mpr (encoded t' p' shard set found)

include built in
theorem dirty_members (t : AtomType) (p : PhaseType) :
    (∃ set, (hg.sets t p).lookup shard = some set ∧ set.dirty = true) ↔ ∃ id, hg.HasAt t p shard id := by
  constructor
  · intro saved
    obtain ⟨set, found, dirty⟩ := saved
    obtain ⟨id, has⟩ := (built.sets t p shard set found).dirty.mp dirty
    exact ⟨id, set, found, has⟩
  · intro member
    obtain ⟨id, set, found, has⟩ := member
    exact ⟨set, found, (built.sets t p shard set found).dirty.mpr ⟨id, has⟩⟩

include inverts built encoded unused

theorem loaded_has {t t' : AtomType} {p p' : PhaseType} (there : ∃ id, hg.HasAt t' p' shard id) (inScan : InScan t p t' p')
    (top : ∀ t'' p'', (∃ id, hg.HasAt t'' p'' shard id) → InScan t p t'' p'' → ¬ kindOf t' p' < kindOf t'' p'') (id : AtomId) :
    (loadedFrom env (committed env hg db)).HasAt t p shard id ↔ hg.HasAt t' p' shard id := by
  obtain ⟨set, found, dirty⟩ := (dirty_members env built t' p').mpr there
  have setBuilt := built.sets t' p' shard set found
  have importable := (built_importable env inverts t t' shard set setBuilt dirty).mpr (encoded t' p' shard set found)
  have kept := loaded_top env hg db unused t t' p p' shard set found dirty inScan fun t'' p'' other otherFound otherDirty =>
    top t'' p'' ((dirty_members env built t'' p'').mp ⟨other, otherFound, otherDirty⟩)
  rw [Hypergraph.HasAt, Hypergraph.HasAt, kept, found]
  simp [(imported_same env inverts t t' shard set setBuilt importable).1]

omit inverts encoded in
theorem loaded_has_none (t : AtomType) (p : PhaseType) (nothing : ∀ t' p', InScan t p t' p' → ¬ ∃ id, hg.HasAt t' p' shard id) (id : AtomId) :
    ¬ (loadedFrom env (committed env hg db)).HasAt t p shard id := by
  have absent := loaded_none env hg db unused t p shard fun t' p' set found dirty inScan =>
    nothing t' p' inScan ((dirty_members env built t' p').mp ⟨set, found, dirty⟩)
  rw [Hypergraph.HasAt, absent]
  simp

theorem loaded_single (t : AtomType) (p : PhaseType) (shard : ShardKey) (only : ∀ t' p', InScan t p t' p' → (∃ id, hg.HasAt t' p' shard id) → t' = t ∧ p' = p) (id : AtomId) :
    (loadedFrom env (committed env hg db)).HasAt t p shard id ↔ hg.HasAt t p shard id := by
  by_cases there : ∃ id, hg.HasAt t p shard id
  · apply loaded_has env inverts built encoded unused there in_scan_self
    intro t'' p'' alsoThere inScan
    obtain ⟨sameType, samePhase⟩ := only t'' p'' inScan alsoThere
    rw [sameType, samePhase]
    exact UInt8.lt_irrefl _
  · have absent := loaded_has_none env built unused t p (fun t' p' inScan alsoThere => by
      obtain ⟨sameType, samePhase⟩ := only t' p' inScan alsoThere
      rw [sameType, samePhase] at alsoThere
      exact there alsoThere) id
    exact ⟨fun loaded => absurd loaded absent, fun stored => absurd ⟨id, stored⟩ there⟩

def setsSize (hg : Hypergraph) (t : AtomType) (p : PhaseType) : Int := ((hg.sets t p).entries.map fun entry => listedSize entry.2).sum

omit unused in
theorem saved_sum (t t' : AtomType) (p' : PhaseType) :
    ((savedEntries env hg t' p').map fun entry => listedSize (importedSet env t entry.2)).sum = setsSize hg t' p' := by
  apply sum_filter_map
  intro entry inside
  have found : (hg.sets t' p').lookup entry.1 = some entry.2 := AList.mem_lookup_iff.mpr inside
  have setBuilt := built.sets t' p' entry.1 entry.2 found
  by_cases dirty : entry.2.dirty = true
  · have importable := (built_importable env inverts t t' entry.1 entry.2 setBuilt dirty).mpr (encoded t' p' entry.1 entry.2 found)
    rw [if_pos dirty]
    exact (imported_same env inverts t t' entry.1 entry.2 setBuilt importable).2
  · rw [if_neg dirty, clean_size env t' entry.1 entry.2 setBuilt dirty]
    rfl

omit inverts built encoded in
theorem scan_perm {t : AtomType} {p : PhaseType}
    {kinds : List (AtomType × PhaseType)} (distinct : kinds.Nodup) (isScan : ∀ t' p', (t', p') ∈ kinds ↔ InScan t p t' p') :
    (scan (committed env hg db) t p).Perm (kinds.flatMap fun kind => savedEntries env hg kind.1 kind.2) := by
  have scanned : (scan (committed env hg db) t p).Nodup := Table.range_nodup _ _ _
  rw [List.perm_ext_iff_of_nodup scanned]
  · intro entry
    rw [mem_scan env hg db unused, List.mem_flatMap]
    constructor
    · intro saved
      obtain ⟨t', p', inScan, inside⟩ := saved
      exact ⟨(t', p'), (isScan t' p').mpr inScan, inside⟩
    · intro saved
      obtain ⟨⟨t', p'⟩, member, inside⟩ := saved
      exact ⟨t', p', (isScan t' p').mp member, inside⟩
  · rw [List.nodup_flatMap]
    refine ⟨fun kind _ => (saved_keys_nodup env hg kind.1 kind.2).of_map, distinct.imp fun different => ?_⟩
    apply List.Disjoint.of_map
    exact saved_apart env hg _ _ _ _ fun same => different (Prod.ext same.1 same.2)

theorem scan_sum (t : AtomType) (p : PhaseType) (kinds : List (AtomType × PhaseType)) (distinct : kinds.Nodup)
    (isScan : ∀ t' p', (t', p') ∈ kinds ↔ InScan t p t' p') :
    ((scan (committed env hg db) t p).map fun entry => listedSize (importedSet env t entry.2)).sum =
      (kinds.map fun kind => setsSize hg kind.1 kind.2).sum := by
  rw [((scan_perm env unused distinct isScan).map _).sum_eq, List.map_flatMap, List.flatMap_def, List.sum_flatten, List.map_map]
  apply congrArg
  apply List.map_congr_left
  intro kind _
  exact saved_sum env inverts built encoded t kind.1 kind.2

-- Hyperedge adds count twice, as the scan of the vertex adds meets them too. Vertex removes cancel out likewise.
theorem loaded_size : (loadedFrom env (committed env hg db)).size =
      setsSize hg .vertex .adds + 2 * setsSize hg .hyperedge .adds - setsSize hg .hyperedge .removes := by
  have sum := scan_sum env inverts built encoded unused
  have vertexAddsScan := sum .vertex .adds [(.vertex, .adds), (.hyperedge, .adds)] (by decide) (by intro t p; cases t <;> cases p <;> decide)
  have vertexRemovesScan := sum .vertex .removes [(.vertex, .removes)] (by decide) (by intro t p; cases t <;> cases p <;> decide)
  have hyperedgeAddsScan := sum .hyperedge .adds [(.hyperedge, .adds), (.vertex, .removes)] (by decide) (by intro t p; cases t <;> cases p <;> decide)
  have hyperedgeRemovesScan := sum .hyperedge .removes [(.hyperedge, .removes)] (by decide) (by intro t p; cases t <;> cases p <;> decide)
  rw [loadedFrom]
  simp only [vertexAddsScan, vertexRemovesScan, hyperedgeAddsScan, hyperedgeRemovesScan, phaseSign, List.map_cons, List.map_nil, List.sum_cons, List.sum_nil]
  ring

theorem loaded_pair (t t' : AtomType) (p p' : PhaseType) (pair : ∀ t'' p'', InScan t p t'' p'' → (t'' = t ∧ p'' = p) ∨ (t'' = t' ∧ p'' = p'))
    (above : InScan t p t' p') (higher : kindOf t p < kindOf t' p') (shard : ShardKey) (id : AtomId) :
    (loadedFrom env (committed env hg db)).HasAt t p shard id ↔
      ((∃ other, hg.HasAt t' p' shard other) → hg.HasAt t' p' shard id) ∧ ((¬ ∃ other, hg.HasAt t' p' shard other) → hg.HasAt t p shard id) := by
  by_cases there : ∃ other, hg.HasAt t' p' shard other
  · rw [loaded_has env inverts built encoded unused there above (fun t'' p'' _ inScan => by
      cases pair t'' p'' inScan with
      | inl isLow =>
          rw [isLow.1, isLow.2]
          exact UInt8.lt_asymm higher
      | inr isHigh =>
          rw [isHigh.1, isHigh.2]
          exact UInt8.lt_irrefl _)]
    exact ⟨fun has => ⟨fun _ => has, fun nothing => absurd there nothing⟩, fun both => both.1 there⟩
  · rw [loaded_single env inverts built encoded unused t p shard (fun t'' p'' inScan alsoThere => by
      cases pair t'' p'' inScan with
      | inl isLow => exact isLow
      | inr isHigh =>
          rw [isHigh.1, isHigh.2] at alsoThere
          exact absurd alsoThere there)]
    exact ⟨fun has => ⟨fun some => absurd some there, fun _ => has⟩, fun both => both.2 there⟩

end Reloading

structure Preserved (env : HypergraphEnv) (hg after : Hypergraph) : Prop where
  members : ∀ t p shard id, after.HasAt t p shard id ↔ hg.HasAt t p shard id
  vertices : ∀ v, (after.lookupVertex env v).1 = (hg.lookupVertex env v).1
  hyperedges : ∀ h, (after.lookupHyperedge env h).1 = (hg.lookupHyperedge env h).1
  size : after.size = hg.size

def Persists (env : HypergraphEnv) (hg : Hypergraph) (db : Table Bytes Bytes) : Prop :=
  ∃ after, loadHypergraph env (committed env hg db) = .ok after ∧ Preserved env hg after

structure Separable (env : HypergraphEnv) (hg : Hypergraph) : Prop where
  encoded : ∀ p shard set, (hg.sets .hyperedge p).lookup shard = some set → ∀ id a, set.atoms.lookup id = some (some a) → a.toBytes env ≠ none
  vertexAdds : ∀ shard, (∃ id, hg.HasAt .hyperedge .adds shard id) → ∀ id, hg.HasAt .vertex .adds shard id ↔ hg.HasAt .hyperedge .adds shard id
  hyperedgeAdds : ∀ shard, (∃ id, hg.HasAt .vertex .removes shard id) → ∀ id, hg.HasAt .hyperedge .adds shard id ↔ hg.HasAt .vertex .removes shard id
  size : hg.size = setsSize hg .vertex .adds + 2 * setsSize hg .hyperedge .adds - setsSize hg .hyperedge .removes

theorem preserved_iff {env : HypergraphEnv} {hg after : Hypergraph} :
    Preserved env hg after ↔ (∀ t p shard id, after.HasAt t p shard id ↔ hg.HasAt t p shard id) ∧ after.size = hg.size := by
  constructor
  · exact fun preserved => ⟨preserved.members, preserved.size⟩
  · intro both
    obtain ⟨members, size⟩ := both
    exact ⟨members, fun v => (lookup_vertex_same env members).answer, fun h => (lookup_atom_same env h.atom after hg members).answer, size⟩

theorem loaded_members_iff (env : HypergraphEnv) (inverts : ∀ tree, env.gob.InvertsTree tree) (hg : Hypergraph) (built : Built env hg)
    (encoded : AllEncoded env hg) (db : Table Bytes Bytes) (unused : Unused db) :
    (∀ t p shard id, (loadedFrom env (committed env hg db)).HasAt t p shard id ↔ hg.HasAt t p shard id) ↔
      (∀ shard, (∃ id, hg.HasAt .hyperedge .adds shard id) → ∀ id, hg.HasAt .vertex .adds shard id ↔ hg.HasAt .hyperedge .adds shard id) ∧
        ∀ shard, (∃ id, hg.HasAt .vertex .removes shard id) → ∀ id, hg.HasAt .hyperedge .adds shard id ↔ hg.HasAt .vertex .removes shard id := by
  have vertexAddsLoaded := loaded_pair env inverts built encoded unused .vertex .hyperedge .adds .adds
    (by intro t p; cases t <;> cases p <;> decide) (by decide) (by decide)
  have hyperedgeAddsLoaded := loaded_pair env inverts built encoded unused .hyperedge .vertex .adds .removes
    (by intro t p; cases t <;> cases p <;> decide) (by decide) (by decide)
  have removesLoaded (t : AtomType) (shard : ShardKey) := loaded_single env inverts built encoded unused t .removes shard fun t' p' inScan _ => by
    revert inScan
    cases t <;> cases t' <;> cases p' <;> decide
  constructor
  · intro same
    refine ⟨fun shard there id => ?_, fun shard there id => ?_⟩
    · rw [← same .vertex .adds, vertexAddsLoaded]
      exact ⟨fun both => both.1 there, fun has => ⟨fun _ => has, fun nothing => absurd there nothing⟩⟩
    · rw [← same .hyperedge .adds, hyperedgeAddsLoaded]
      exact ⟨fun both => both.1 there, fun has => ⟨fun _ => has, fun nothing => absurd there nothing⟩⟩
  · intro both t p shard id
    have pair (low high : Prop) (some_high : Prop) (agree : some_high → (low ↔ high)) :
        ((some_high → high) ∧ (¬ some_high → low)) ↔ low := by
      by_cases there : some_high
      · simp [there, agree there]
      · simp [there]
    cases p with
    | removes => exact removesLoaded t shard id
    | adds =>
        cases t with
        | vertex => rw [vertexAddsLoaded, pair _ _ _ fun there => both.1 shard there id]
        | hyperedge => rw [hyperedgeAddsLoaded, pair _ _ _ fun there => both.2 shard there id]

theorem all_encoded_iff {env : HypergraphEnv} (inverts : ∀ tree, env.gob.InvertsTree tree) {hg : Hypergraph} (built : Built env hg) :
    AllEncoded env hg ↔
      ∀ p shard set, (hg.sets .hyperedge p).lookup shard = some set → ∀ id a, set.atoms.lookup id = some (some a) → a.toBytes env ≠ none := by
  constructor
  · exact fun encoded p => encoded .hyperedge p
  · intro encoded t p shard set found id a isAtom
    cases t with
    | hyperedge => exact encoded p shard set found id a isAtom
    | vertex =>
        obtain ⟨other, same, isVertex, -⟩ := (built.sets .vertex p shard set found).atoms id _ isAtom
        cases Option.some.inj same
        cases a with
        | hyperedge id extrinsics extTree => cases isVertex
        | vertex v =>
            obtain ⟨bytes, encodes, -⟩ := inverts v.dataTree
            rw [Atom.toBytes, encodes]
            exact Option.some_ne_none _

theorem persists_iff {env : HypergraphEnv} (inverts : ∀ tree, env.gob.InvertsTree tree) (db : Table Bytes Bytes) (unused : Unused db)
    (hg : Hypergraph) (built : Built env hg) : Persists env hg db ↔ Separable env hg := by
  rw [Persists]
  simp only [load_ok_iff env (scan_keyed env db unused), all_importable_iff env inverts built unused, preserved_iff]
  have encodedIff := all_encoded_iff inverts built
  constructor
  · intro persists
    obtain ⟨after, ⟨encoded, isAfter⟩, members, size⟩ := persists
    rw [isAfter] at members size
    obtain ⟨vertexAdds, hyperedgeAdds⟩ := (loaded_members_iff env inverts hg built encoded db unused).mp members
    exact ⟨encodedIff.mp encoded, vertexAdds, hyperedgeAdds, size.symm.trans (loaded_size env inverts built encoded unused)⟩
  · intro separable
    have encoded := encodedIff.mpr separable.encoded
    exact ⟨_, ⟨encoded, rfl⟩, (loaded_members_iff env inverts hg built encoded db unused).mpr ⟨separable.vertexAdds, separable.hyperedgeAdds⟩,
      (loaded_size env inverts built encoded unused).trans separable.size.symm⟩

theorem hypergraph_persistence_iff (env : HypergraphEnv) (inverts : ∀ tree, env.gob.InvertsTree tree) (db : Table Bytes Bytes) (unused : Unused db)
    (calls : List HypergraphCall) : Persists env (afterCalls env calls) db ↔ Separable env (afterCalls env calls) :=
  persists_iff inverts db unused _ (after_calls_refined env calls).1

abbrev NodeShape := Option (Bytes × Option Bytes × Bytes × Option Bytes × Option Int) ⊕ (List (Fin 64) × Option Bytes × Option Int × Nat × Nat)

abbrev NodeArity : NodeShape → Type
  | .inl _ => Fin 0
  | .inr _ => Fin 64

def VectorCommitmentNode.shaped : VectorCommitmentNode → WType NodeArity
  | .nil => ⟨.inl none, Fin.elim0⟩
  | .leaf key value hashTarget commitment size => ⟨.inl (some (key, value, hashTarget, commitment, size)), Fin.elim0⟩
  | .branch pre children commitment size leafCount longestBranch =>
      ⟨.inr (pre, commitment, size, leafCount, longestBranch), fun i => (children i).shaped⟩

theorem shaped_injective : Function.Injective VectorCommitmentNode.shaped := by
  intro a
  induction a with
  | nil =>
      intro b same
      cases b <;> simp_all [VectorCommitmentNode.shaped]
  | leaf key value hashTarget commitment size =>
      intro b same
      cases b <;> simp_all [VectorCommitmentNode.shaped]
  | branch pre children commitment size leafCount longestBranch ih =>
      intro b same
      cases b with
      | nil => simp [VectorCommitmentNode.shaped] at same
      | leaf key value hashTarget otherCommitment otherSize => simp [VectorCommitmentNode.shaped] at same
      | branch otherPre others otherCommitment otherSize otherCount otherLongest =>
          simp only [VectorCommitmentNode.shaped, WType.mk.injEq, Sum.inr.injEq, Prod.mk.injEq] at same
          obtain ⟨⟨rfl, rfl, rfl, rfl, rfl⟩, sameChildren⟩ := same
          have each : children = others := funext fun i => ih i (congrFun (eq_of_heq sameChildren) i)
          rw [each]

theorem exists_gob : ∃ gob : Gob, (∀ tree, gob.InvertsTree tree) ∧ gob.TellsTypes := by
  classical
  have countableBytes : Countable UInt8 := Function.Injective.countable (f := UInt8.toNat) fun a b => UInt8.toNat_inj.mp
  have encodable : Encodable NodeShape := Encodable.ofCountable NodeShape
  have finiteArity : ∀ shape, Fintype (NodeArity shape) := fun shape => by cases shape <;> exact inferInstance
  have encodableArity : ∀ shape, Encodable (NodeArity shape) := fun shape => by cases shape <;> exact inferInstance
  have countable : Countable VectorCommitmentNode := shaped_injective.countable
  obtain ⟨number, injective⟩ := Countable.exists_injective_nat VectorCommitmentNode
  refine ⟨⟨fun tree => some (List.replicate (number tree.root) 0),
    fun bytes => if coded : ∃ tree : VectorCommitmentTree, List.replicate (number tree.root) 0 = bytes then some coded.choose else none,
    fun extrinsics => if extrinsics.isEmpty then some [1] else none⟩, fun tree => ⟨_, rfl, ?_⟩, fun extrinsics bytes encoded => ?_⟩
  · have coded : ∃ other : VectorCommitmentTree, List.replicate (number other.root) (0 : UInt8) = List.replicate (number tree.root) 0 := ⟨tree, rfl⟩
    have same : coded.choose = tree := by
      have lengths := congrArg List.length coded.choose_spec
      rw [List.length_replicate, List.length_replicate] at lengths
      exact congrArg VectorCommitmentTree.mk (injective lengths)
    dsimp only
    rw [dif_pos coded, same]
  · cases extrinsics with
    | cons e rest => cases encoded
    | nil =>
        rw [← Option.some.inj encoded]
        apply dif_neg
        intro coded
        obtain ⟨tree, isCode⟩ := coded
        have zero := List.eq_of_mem_replicate (by rw [isCode]; exact List.mem_singleton_self 1)
        exact absurd zero (by decide)

theorem one_vertex_separable (gob : Gob) :
    Separable { plainEnv with gob := gob } (afterCalls { plainEnv with gob := gob } [.addVertex plainVertex]) := by
  have hyperedges (p : PhaseType) : (afterCalls { plainEnv with gob := gob } [.addVertex plainVertex]).sets .hyperedge p = ∅ := by
    cases p <;> rfl
  have removes : ((afterCalls { plainEnv with gob := gob } [.addVertex plainVertex]).sets .vertex .removes).entries =
      [⟨Hypergraph.getShardKey plainEnv plainVertex.id, IdSet.new .vertex⟩] := rfl
  refine ⟨fun p shard set found => ?_, fun shard there => ?_, fun shard there => ?_, rfl⟩
  · rw [hyperedges] at found
    cases found
  · obtain ⟨id, set, found, -⟩ := there
    rw [hyperedges] at found
    cases found
  · obtain ⟨id, set, found, has⟩ := there
    have inside := AList.mem_lookup_iff.mp found
    rw [removes] at inside
    cases List.mem_singleton.mp inside
    cases has

theorem hypergraph_persistence_one_vertex :
    ∃ gob : Gob, (∀ tree, gob.InvertsTree tree) ∧
      Persists { plainEnv with gob := gob } (afterCalls { plainEnv with gob := gob } [.addVertex plainVertex]) ∅ := by
  obtain ⟨gob, inverts, -⟩ := exists_gob
  refine ⟨gob, inverts, ?_⟩
  exact (hypergraph_persistence_iff { plainEnv with gob := gob } inverts ∅ (fun key bytes found => (by cases found)) [.addVertex plainVertex]).mpr
    (one_vertex_separable gob)

theorem removed_vertex_reloaded_as_hyperedge :
    ∃ gob : Gob, (∀ tree, gob.InvertsTree tree) ∧ gob.TellsTypes ∧
      ¬ Persists { plainEnv with gob := gob } (afterCalls { plainEnv with gob := gob } [.addVertex plainVertex, .removeVertex plainVertex]) ∅ := by
  obtain ⟨gob, inverts, tells⟩ := exists_gob
  refine ⟨gob, inverts, tells, ?_⟩
  rw [persists_iff inverts ∅ (fun key bytes found => (by cases found)) _ (after_calls_refined _ _).1]
  intro separable
  have removed : (afterCalls { plainEnv with gob := gob } [.addVertex plainVertex, .removeVertex plainVertex]).HasAt .vertex .removes
      (Hypergraph.getShardKey plainEnv plainVertex.id) plainVertex.id := ⟨_, rfl, rfl⟩
  obtain ⟨set, found, -⟩ := (separable.hyperedgeAdds _ ⟨_, removed⟩ plainVertex.id).mpr removed
  have hyperedges : (afterCalls { plainEnv with gob := gob } [.addVertex plainVertex, .removeVertex plainVertex]).sets .hyperedge .adds = ∅ := rfl
  rw [hyperedges] at found
  cases found

end Ceremony
