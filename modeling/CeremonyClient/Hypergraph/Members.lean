import CeremonyClient.Crypto.TreeHistory
import CeremonyClient.Hypergraph.TwoPhase

set_option autoImplicit false

namespace Ceremony

open GoSem

variable {t : AtomType} {set : IdSet} {atom : Atom} {shard : ShardKey} {hg : Hypergraph} {t' : AtomType} {p p' : PhaseType}
  {shard' : ShardKey}

theorem atom_id_bytes_injective {a b : AtomId} (same : a.bytes = b.bytes) : a = b := by
  obtain ⟨app, data⟩ := List.append_inj same (a.appAddress.size.trans b.appAddress.size.symm)
  cases a
  cases b
  simp only [AtomId.mk.injEq]
  exact ⟨address_ext _ _ app, address_ext _ _ data⟩

section Sets

variable (env : HypergraphEnv)

-- The tree has a leaf for each member, under its identifier, with bytes that start with a type and that identifier.
structure SetKeyed (t : AtomType) (set : IdSet) (values : Bytes → Option (Option Bytes)) : Prop where
  atomType : set.atomType = t
  atoms : ∀ id a, set.atoms.lookup id = some (some a) → a.getId = id
  tree : Represents leafValue set.tree values
  keys : ∀ k, values k ≠ none → ∃ id, k = AtomId.bytes id
  same : ∀ id, set.has id = true ↔ values id.bytes ≠ none
  encoded : ∀ (id : AtomId) (bytes : Bytes), values id.bytes = some (some bytes) → ∃ first rest, bytes = first :: id.bytes ++ rest

theorem new_keyed : SetKeyed t (IdSet.new t) fun _ => none where
  atomType := rfl
  atoms id a found := by simp [IdSet.new] at found
  tree := empty_represents leafValue
  keys k there := absurd rfl there
  same id := by simp [IdSet.new, IdSet.has]
  encoded id bytes found := by cases found

theorem to_bytes_encoded (atom : Atom) (bytes : Bytes) (encoded : atom.toBytes env = some bytes) :
    ∃ first rest, bytes = first :: atom.getId.bytes ++ rest := by
  cases atom with
  | vertex v =>
      obtain ⟨tree, -, isBytes⟩ := Option.bind_eq_some_iff.mp encoded
      exact ⟨0, tree, (Option.some.inj isBytes).symm⟩
  | hyperedge id extrinsics extTree =>
      obtain ⟨tree, -, isBytes⟩ := Option.bind_eq_some_iff.mp encoded
      exact ⟨1, tree, (Option.some.inj isBytes).symm⟩

theorem has_insert (set : IdSet) (key id : AtomId) (atom : Option Atom) {atoms : Table AtomId (Option Atom)}
    (isAtoms : atoms = set.atoms.insert key atom) : (atoms.lookup id).isSome = (set.has id || decide (id = key)) := by
  rw [isAtoms, IdSet.has]
  by_cases same : id = key
  · rw [same, AList.lookup_insert]
    simp
  · rw [AList.lookup_insert_ne same]
    simp [same]

theorem add_keyed {values : Bytes → Option (Option Bytes)} (keyed : SetKeyed t set values) (typed : atom.getAtomType = t) :
    ∃ tree, set.add env atom = (.ok (), ⟨true, set.atomType, set.atoms.insert atom.getId (some atom), tree⟩) ∧
      SetKeyed t ⟨true, set.atomType, set.atoms.insert atom.getId (some atom), tree⟩
        (Function.update values atom.getId.bytes (some (atom.toBytes env))) := by
  have keys : ∀ k, values k ≠ none → k.length = 64 := by
    intro k there
    obtain ⟨id, isId⟩ := keyed.keys k there
    rw [isId]
    exact id.bytes_length
  obtain ⟨tree, inserted, represents⟩ := insert_same_length leafValue treeFuel 64 set.tree atom.getId.bytes (atom.toBytes env)
    (atom.commit env) atom.getSize values keyed.tree keys atom.getId.bytes_length (by decide) (by decide)
  refine ⟨tree, ?_, keyed.atomType, fun id a found => ?_, represents, fun k there => ?_, fun id => ?_, fun id bytes found => ?_⟩
  · rw [IdSet.add, if_neg (by rw [typed, keyed.atomType]; simp), inserted]
  · by_cases same : id = atom.getId
    · rw [same, AList.lookup_insert] at found
      rw [same, Option.some.inj (Option.some.inj found)]
    · rw [AList.lookup_insert_ne same] at found
      exact keyed.atoms id a found
  · by_cases same : k = atom.getId.bytes
    · exact ⟨atom.getId, same⟩
    · rw [Function.update_of_ne same] at there
      exact keyed.keys k there
  · change (AList.lookup id (set.atoms.insert atom.getId (some atom))).isSome = true ↔ _
    rw [has_insert set atom.getId id (some atom) rfl, Bool.or_eq_true, decide_eq_true_iff, keyed.same]
    by_cases same : id = atom.getId
    · simp [same]
    · rw [Function.update_of_ne (fun isBytes => same (atom_id_bytes_injective isBytes))]
      simp [same]
  · by_cases same : id = atom.getId
    · rw [same, Function.update_self] at found
      rw [same]
      exact to_bytes_encoded env atom bytes (Option.some.inj found)
    · rw [Function.update_of_ne (fun isBytes => same (atom_id_bytes_injective isBytes))] at found
      exact keyed.encoded id bytes found

-- A set of a hypergraph that was built by calls; it is dirty when it has members.
structure SetBuilt (t : AtomType) (shard : ShardKey) (set : IdSet) : Prop where
  keyed : ∃ values, SetKeyed t set values ∧ ∀ id : AtomId, values id.bytes = (set.atoms.lookup id).map fun atom => atom.bind (Atom.toBytes env)
  atoms : ∀ id atom, set.atoms.lookup id = some atom → ∃ a, atom = some a ∧ a.getAtomType = t ∧ Hypergraph.getShardKey env id = shard
  dirty : set.dirty = true ↔ ∃ id, set.has id = true

structure Built (hg : Hypergraph) : Prop where
  sets : ∀ t p shard set, (hg.sets t p).lookup shard = some set → SetBuilt env t shard set
  paired : ∀ t shard, shard ∈ hg.sets t .adds ↔ shard ∈ hg.sets t .removes

def view (hg : Hypergraph) : TwoPhase :=
  ⟨hg.size, fun t p id => (((hg.sets t p).lookup (Hypergraph.getShardKey env id)).bind fun set => set.atoms.lookup id).join⟩

theorem new_set_built : SetBuilt env t shard (IdSet.new t) where
  keyed := ⟨_, new_keyed, fun id => by simp [IdSet.new]⟩
  atoms id atom found := by simp [IdSet.new] at found
  dirty := by simp [IdSet.new, IdSet.has]

theorem new_built : Built env Hypergraph.new where
  sets t p shard set found := by simp [Hypergraph.new] at found
  paired t shard := by simp [Hypergraph.new]

theorem with_set_lookup :
    ((hg.withSet t p shard set).sets t' p').lookup shard' =
      if t' = t ∧ p' = p ∧ shard' = shard then some set else (hg.sets t' p').lookup shard' := by
  rw [Hypergraph.withSet]
  by_cases table : t' = t ∧ p' = p
  · by_cases same : shard' = shard
    · rw [if_pos ⟨table.1, table.2, same⟩, same]
      simp [table]
    · rw [if_neg fun all => same all.2.2]
      simp [table, AList.lookup_insert_ne same]
  · rw [if_neg fun all => table ⟨all.1, all.2.1⟩]
    simp [table]

theorem with_set_mem : shard' ∈ (hg.withSet t p shard set).sets t' p' ↔ (t' = t ∧ p' = p ∧ shard' = shard) ∨ shard' ∈ hg.sets t' p' := by
  rw [← AList.lookup_isSome, with_set_lookup, ← AList.lookup_isSome]
  by_cases here : t' = t ∧ p' = p ∧ shard' = shard
  · simp [here]
  · simp [here]

theorem create_view : view env (hg.createIdSet t p shard) = view env hg := by
  rw [Hypergraph.createIdSet]
  by_cases there : shard ∈ hg.sets t p
  · rw [if_pos there]
  · rw [if_neg there, view, view]
    congr 1
    funext t' p' id
    rw [with_set_lookup]
    by_cases here : t' = t ∧ p' = p ∧ Hypergraph.getShardKey env id = shard
    · obtain ⟨isType, isPhase, isShard⟩ := here
      have nothing : (hg.sets t' p').lookup (Hypergraph.getShardKey env id) = none := by
        rw [AList.lookup_eq_none, isType, isPhase, isShard]
        exact there
      rw [if_pos ⟨isType, isPhase, isShard⟩, nothing]
      simp [IdSet.new]
    · rw [if_neg here]

theorem get_or_create_view (hg : Hypergraph) (t : AtomType) (shard : ShardKey) : view env (hg.getOrCreateIdSet t shard) = view env hg := by
  rw [Hypergraph.getOrCreateIdSet, create_view, create_view]

theorem create_mem : shard' ∈ (hg.createIdSet t p shard).sets t' p' ↔ (t' = t ∧ p' = p ∧ shard' = shard) ∨ shard' ∈ hg.sets t' p' := by
  rw [Hypergraph.createIdSet]
  by_cases there : shard ∈ hg.sets t p
  · rw [if_pos there]
    refine ⟨.inr, fun either => either.elim (fun here => ?_) fun found => found⟩
    rw [here.1, here.2.1, here.2.2]
    exact there
  · rw [if_neg there, with_set_mem]

theorem create_sets (sets : ∀ t p shard set, (hg.sets t p).lookup shard = some set → SetBuilt env t shard set)
    (found : ((hg.createIdSet t p shard).sets t' p').lookup shard' = some set) : SetBuilt env t' shard' set := by
  rw [Hypergraph.createIdSet] at found
  by_cases there : shard ∈ hg.sets t p
  · rw [if_pos there] at found
    exact sets t' p' shard' set found
  · rw [if_neg there, with_set_lookup] at found
    by_cases here : t' = t ∧ p' = p ∧ shard' = shard
    · rw [if_pos here] at found
      rw [← Option.some.inj found, here.1]
      exact new_set_built env
    · rw [if_neg here] at found
      exact sets t' p' shard' set found

theorem get_or_create_built (hg : Hypergraph) (t : AtomType) (shard : ShardKey) (built : Built env hg) :
    Built env (hg.getOrCreateIdSet t shard) where
  sets t' p' shard' set found := create_sets env
    (fun t'' p'' shard'' set' found' => create_sets env built.sets found') found
  paired t' shard' := by
    rw [Hypergraph.getOrCreateIdSet, create_mem, create_mem, create_mem, create_mem, built.paired]
    simp

theorem get_or_create_mem (hg : Hypergraph) (t : AtomType) (p : PhaseType) (shard : ShardKey) :
    shard ∈ (hg.getOrCreateIdSet t shard).sets t p := by
  rw [Hypergraph.getOrCreateIdSet, create_mem, create_mem]
  cases p <;> simp

theorem set_size_built (hg : Hypergraph) (size : Int) (built : Built env hg) : Built env { hg with size := size } :=
  ⟨built.sets, built.paired⟩

theorem add_built (built : SetBuilt env t shard set) (typed : atom.getAtomType = t)
    (isShard : Hypergraph.getShardKey env atom.getId = shard) :
    ∃ tree, set.add env atom = (.ok (), ⟨true, set.atomType, set.atoms.insert atom.getId (some atom), tree⟩) ∧
      SetBuilt env t shard ⟨true, set.atomType, set.atoms.insert atom.getId (some atom), tree⟩ := by
  obtain ⟨values, keyed, encodings⟩ := built.keyed
  obtain ⟨tree, added, keyedAfter⟩ := add_keyed env keyed typed
  refine ⟨tree, added, ⟨_, keyedAfter, fun id => ?_⟩, fun id stored found => ?_, ?_⟩
  · by_cases same : id = atom.getId
    · rw [same, Function.update_self, AList.lookup_insert]
      rfl
    · rw [Function.update_of_ne (fun isBytes => same (atom_id_bytes_injective isBytes)), AList.lookup_insert_ne same]
      exact encodings id
  · by_cases same : id = atom.getId
    · rw [same, AList.lookup_insert] at found
      exact ⟨atom, (Option.some.inj found).symm, typed, same ▸ isShard⟩
    · rw [AList.lookup_insert_ne same] at found
      exact built.atoms id stored found
  · simp only [true_iff]
    exact ⟨atom.getId, by rw [IdSet.has, AList.lookup_insert]; rfl⟩

theorem add_to_built (hg : Hypergraph) (t : AtomType) (p : PhaseType) (atom : Atom) (built : Built env hg) (typed : atom.getAtomType = t)
    (there : Hypergraph.getShardKey env atom.getId ∈ hg.sets t p) :
    ∃ after, hg.addTo env t p atom = (.ok (), after) ∧ Built env after ∧ view env after = (view env hg).put t p atom ∧
      ∀ t' p' shard, shard ∈ after.sets t' p' ↔ shard ∈ hg.sets t' p' := by
  obtain ⟨set, found⟩ := Option.isSome_iff_exists.mp (AList.lookup_isSome.mpr there)
  obtain ⟨tree, added, setBuilt⟩ := add_built env (built.sets t p _ set found) typed rfl
  have sameShards : ∀ t' p' shard, shard ∈ (hg.withSet t p (Hypergraph.getShardKey env atom.getId)
      ⟨true, set.atomType, set.atoms.insert atom.getId (some atom), tree⟩).sets t' p' ↔ shard ∈ hg.sets t' p' := by
    intro t' p' shard
    rw [with_set_mem]
    refine ⟨fun either => either.elim (fun here => ?_) fun found => found, .inr⟩
    rw [here.1, here.2.1, here.2.2]
    exact there
  refine ⟨_, by rw [Hypergraph.addTo, found]; simp only [added], ⟨fun t' p' shard set' found' => ?_, fun t' shard => ?_⟩, ?_, sameShards⟩
  · rw [with_set_lookup] at found'
    by_cases here : t' = t ∧ p' = p ∧ shard = Hypergraph.getShardKey env atom.getId
    · rw [if_pos here] at found'
      rw [← Option.some.inj found', here.1, here.2.2]
      exact setBuilt
    · rw [if_neg here] at found'
      exact built.sets t' p' shard set' found'
  · rw [sameShards, sameShards]
    exact built.paired t' shard
  · rw [view, view, TwoPhase.put]
    congr 1
    funext t' p' id
    rw [with_set_lookup]
    by_cases here : t' = t ∧ p' = p ∧ Hypergraph.getShardKey env id = Hypergraph.getShardKey env atom.getId
    · obtain ⟨isType, isPhase, isShard⟩ := here
      rw [if_pos ⟨isType, isPhase, isShard⟩]
      by_cases same : id = atom.getId
      · rw [if_pos ⟨isType, isPhase, same⟩, same]
        simp
      · have here : (hg.sets t p).lookup (Hypergraph.getShardKey env id) = some set := by rw [isShard, found]
        rw [if_neg fun all => same all.2.2]
        simp only [isType, isPhase, here, Option.bind_some, AList.lookup_insert_ne same]
    · have other : ¬ (t' = t ∧ p' = p ∧ id = atom.getId) := fun all => here ⟨all.1, all.2.1, by rw [all.2.2]⟩
      rw [if_neg here, if_neg other]

theorem view_member {id : AtomId} (built : Built env hg) (found : (view env hg).member t p id = some atom) :
    atom.getId = id ∧ atom.getAtomType = t := by
  obtain ⟨set, isSet, isAtom⟩ := Option.bind_eq_some_iff.mp (Option.join_eq_some_iff.mp found)
  have setBuilt := built.sets t p _ set isSet
  obtain ⟨a, isSome, typed, -⟩ := setBuilt.atoms id _ isAtom
  obtain ⟨values, keyed, -⟩ := setBuilt.keyed
  rw [Option.some.inj isSome]
  refine ⟨keyed.atoms id a ?_, typed⟩
  rw [isAtom, isSome]

theorem has_iff (hg : Hypergraph) (t : AtomType) (p : PhaseType) (id : AtomId) (built : Built env hg) :
    hg.has env t p id = true ↔ (view env hg).member t p id ≠ none := by
  rw [Hypergraph.has, view]
  simp only []
  cases isSet : (hg.sets t p).lookup (Hypergraph.getShardKey env id) with
  | none => simp
  | some set =>
      simp only [IdSet.has, Option.bind_some]
      cases isAtom : set.atoms.lookup id with
      | none => simp
      | some atom =>
          obtain ⟨a, isSome, -⟩ := (built.sets t p _ set isSet).atoms id atom isAtom
          simp [isSome]

theorem live_iff (t : AtomType) (id : AtomId) (built : Built env hg) :
    (hg.has env t .adds id && !hg.has env t .removes id) = true ↔ (view env hg).Live t id := by
  rw [Bool.and_eq_true, Bool.not_eq_true', ← Bool.not_eq_true, has_iff env hg t .adds id built, has_iff env hg t .removes id built, not_not]
  rfl

structure Looked (hg : Hypergraph) (answer : Prop) (found : Bool × Hypergraph) : Prop where
  answer : found.1 = true ↔ answer
  built : Built env found.2
  view : view env found.2 = view env hg

theorem lookup_vertex_looked (v : Vertex) (hg : Hypergraph) (built : Built env hg) :
    Looked env hg ((view env hg).AtomLive (.vertex v)) (hg.lookupVertex env v) where
  answer := by
    rw [Hypergraph.lookupVertex, TwoPhase.AtomLive, ← get_or_create_view env hg .vertex (Hypergraph.getShardKey env v.id)]
    exact live_iff env .vertex v.id (get_or_create_built env hg _ _ built)
  built := get_or_create_built env hg _ _ built
  view := get_or_create_view env hg _ _

mutual
theorem lookup_atom_looked (atom : Atom) (hg : Hypergraph) (built : Built env hg) :
    Looked env hg ((view env hg).AtomLive atom) (Hypergraph.lookupAtom env atom hg) := by
  cases atom with
  | vertex v =>
      rw [Hypergraph.lookupAtom]
      exact lookup_vertex_looked env v hg built
  | hyperedge id extrinsics extTree =>
      have created := get_or_create_built env hg .hyperedge (Hypergraph.getShardKey env id) built
      have inner := lookup_atom_set_looked extrinsics _ created
      have sameView := inner.view.trans (get_or_create_view env hg _ _)
      rw [Hypergraph.lookupAtom]
      refine ⟨?_, inner.built, sameView⟩
      rw [TwoPhase.AtomLive, Bool.and_assoc, Bool.and_eq_true, inner.answer, live_iff env .hyperedge id inner.built, sameView,
        get_or_create_view]
theorem lookup_atom_set_looked (extrinsics : List (AtomId × Atom)) (hg : Hypergraph) (built : Built env hg) :
    Looked env hg ((view env hg).AllLive extrinsics) (Hypergraph.lookupAtomSet env extrinsics hg) := by
  cases extrinsics with
  | nil =>
      rw [Hypergraph.lookupAtomSet]
      exact ⟨by simp [TwoPhase.AllLive], built, rfl⟩
  | cons e rest =>
      obtain ⟨key, atom⟩ := e
      have first := lookup_atom_looked atom hg built
      have others := lookup_atom_set_looked rest _ first.built
      rw [Hypergraph.lookupAtomSet]
      by_cases found : (Hypergraph.lookupAtom env atom hg).1 = true
      · simp only [found, if_true]
        refine ⟨?_, others.built, others.view.trans first.view⟩
        rw [others.answer, first.view, TwoPhase.AllLive, iff_and_self]
        exact fun _ => first.answer.mp found
      · simp only [found]
        refine ⟨?_, first.built, first.view⟩
        rw [TwoPhase.AllLive]
        simpa using fun live => absurd (first.answer.mpr live) found
end

theorem is_extrinsic_iff (hg : Hypergraph) (id : AtomId) (built : Built env hg) :
    hg.isExtrinsic id = true ↔ (view env hg).IsExtrinsic id := by
  rw [Hypergraph.isExtrinsic, List.any_eq_true]
  constructor
  · intro found
    obtain ⟨⟨shard, set⟩, inSets, found⟩ := found
    obtain ⟨⟨other, stored⟩, inAtoms, found⟩ := List.any_eq_true.mp found
    have isSet : (hg.sets .hyperedge .adds).lookup shard = some set := AList.mem_lookup_iff.mpr inSets
    have isAtom : set.atoms.lookup other = some stored := AList.mem_lookup_iff.mpr inAtoms
    obtain ⟨a, isSome, typed, isShard⟩ := (built.sets _ _ _ set isSet).atoms other stored isAtom
    have here : (hg.sets .hyperedge .adds).lookup (Hypergraph.getShardKey env other) = some set := by rw [isShard, isSet]
    have member : (view env hg).member .hyperedge .adds other = some a := by
      simp only [view, here, Option.bind_some, isAtom, isSome, Option.join_some]
    obtain ⟨isId, -⟩ := view_member env built member
    rw [isSome] at found
    cases a with
    | vertex v => cases typed
    | hyperedge own extrinsics extTree =>
        obtain ⟨e, inside, isKey⟩ := List.any_eq_true.mp found
        refine ⟨other, extrinsics, extTree, ?_, e, inside, of_decide_eq_true isKey⟩
        rw [member, ← isId]
        rfl
  · intro found
    obtain ⟨other, extrinsics, extTree, member, e, inside, isKey⟩ := found
    obtain ⟨set, isSet, isAtom⟩ := Option.bind_eq_some_iff.mp (Option.join_eq_some_iff.mp member)
    refine ⟨⟨_, set⟩, AList.mem_lookup_iff.mp isSet, List.any_eq_true.mpr ⟨⟨other, _⟩, AList.mem_lookup_iff.mp isAtom, ?_⟩⟩
    exact List.any_eq_true.mpr ⟨e, inside, decide_eq_true isKey⟩

structure Refined (m : TwoPhase) (done : Go Unit × Hypergraph) : Prop where
  built : Built env done.2
  view : view env done.2 = m

theorem add_vertex_refined (v : Vertex) (hg : Hypergraph) (built : Built env hg) :
    Refined env ((view env hg).step (.addVertex v)) (hg.addVertex env v) := by
  have created := get_or_create_built env hg .vertex (Hypergraph.getShardKey env v.id) built
  obtain ⟨after, added, afterBuilt, isView, -⟩ := add_to_built env
    { hg.getOrCreateIdSet .vertex (Hypergraph.getShardKey env v.id) with
      size := (hg.getOrCreateIdSet .vertex (Hypergraph.getShardKey env v.id)).size + (Atom.vertex v).getSize } .vertex .adds (.vertex v)
    (set_size_built env _ _ created) rfl (get_or_create_mem hg .vertex .adds _)
  have sameView := get_or_create_view env hg .vertex (Hypergraph.getShardKey env v.id)
  rw [Hypergraph.addVertex]
  simp only [added]
  refine ⟨afterBuilt, ?_⟩
  rw [isView, ← sameView]
  rfl

theorem add_hyperedge_refined (h : Hyperedge) (hg : Hypergraph) (built : Built env hg) :
    Refined env ((view env hg).step (.addHyperedge h)) (hg.addHyperedge env h) := by
  have looked := lookup_atom_set_looked env h.extrinsics hg built
  rw [Hypergraph.addHyperedge, TwoPhase.step]
  by_cases found : (Hypergraph.lookupAtomSet env h.extrinsics hg).1 = false
  · rw [if_pos found, if_neg (fun both => by rw [looked.answer.mpr both.1] at found; cases found)]
    exact ⟨looked.built, looked.view⟩
  · rw [if_neg found]
    have live := looked.answer.mp (by simpa using found)
    have created := get_or_create_built env _ .hyperedge (Hypergraph.getShardKey env h.id) looked.built
    have sameView := (get_or_create_view env (Hypergraph.lookupAtomSet env h.extrinsics hg).2 .hyperedge
      (Hypergraph.getShardKey env h.id)).trans looked.view
    have removed := has_iff env _ .hyperedge .removes h.id created
    rw [sameView] at removed
    generalize isCreated : (Hypergraph.lookupAtomSet env h.extrinsics hg).2.getOrCreateIdSet .hyperedge (Hypergraph.getShardKey env h.id) =
      present at created sameView removed
    dsimp only
    by_cases gone : present.has env .hyperedge .removes h.id = true
    · rw [if_pos gone, if_neg fun both => removed.mp gone both.2]
      exact ⟨created, sameView⟩
    · rw [if_neg gone, if_pos ⟨live, by_contra fun there => gone (removed.mpr there)⟩]
      obtain ⟨after, added, afterBuilt, isView, -⟩ := add_to_built env { present with size := present.size + h.atom.getSize } .hyperedge .adds
        h.atom (set_size_built env _ _ created) rfl (isCreated ▸ get_or_create_mem _ .hyperedge .adds _)
      simp only [added]
      refine ⟨afterBuilt, ?_⟩
      rw [isView, ← sameView]
      rfl

theorem remove_answered (atom : Atom) (text : String) (live : Bool) (hg : Hypergraph) (built : Built env hg)
    (isLive : live = true ↔ (view env hg).AtomLive atom) :
    Refined env ((view env hg).remove atom) (Hypergraph.remove env atom text live hg) ∧
      ((Hypergraph.remove env atom text live hg).1 = .ok () ↔ ¬ ((view env hg).AtomLive atom ∧ (view env hg).IsExtrinsic atom.getId)) := by
  have created := get_or_create_built env hg atom.getAtomType (Hypergraph.getShardKey env atom.getId) built
  have sameView := get_or_create_view env hg atom.getAtomType (Hypergraph.getShardKey env atom.getId)
  rw [Hypergraph.remove, TwoPhase.remove]
  by_cases absent : live = false
  · have notLive : ¬ (view env hg).AtomLive atom := fun there => by
      rw [isLive.mpr there] at absent
      cases absent
    obtain ⟨first, added, firstBuilt, firstView, sameShards⟩ := add_to_built env _ _ .adds atom created rfl (get_or_create_mem hg _ .adds _)
    obtain ⟨second, removed, secondBuilt, secondView, -⟩ := add_to_built env first _ .removes atom firstBuilt rfl
      ((sameShards _ _ _).mpr (get_or_create_mem hg _ .removes _))
    simp only [if_pos absent, if_pos notLive, added, removed]
    refine ⟨⟨secondBuilt, ?_⟩, iff_of_true rfl fun both => notLive both.1⟩
    rw [secondView, firstView, sameView]
  · have there : (view env hg).AtomLive atom := isLive.mp (by simpa using absent)
    simp only [if_neg absent, if_neg (not_not.mpr there)]
    by_cases extrinsic : hg.isExtrinsic atom.getId = true
    · have isExtrinsic := (is_extrinsic_iff env hg atom.getId built).mp extrinsic
      rw [if_pos extrinsic, if_pos isExtrinsic]
      exact ⟨⟨built, rfl⟩, iff_of_false (fun accepted => by cases accepted) (not_not.mpr ⟨there, isExtrinsic⟩)⟩
    · have isFree := mt (is_extrinsic_iff env hg atom.getId built).mpr extrinsic
      rw [if_neg extrinsic, if_neg isFree]
      obtain ⟨after, added, afterBuilt, isView, -⟩ := add_to_built env
        { hg.getOrCreateIdSet atom.getAtomType (Hypergraph.getShardKey env atom.getId) with
          size := (hg.getOrCreateIdSet atom.getAtomType (Hypergraph.getShardKey env atom.getId)).size - atom.getSize } _ .removes atom
        (set_size_built env _ _ created) rfl (get_or_create_mem hg _ .removes _)
      rw [added]
      refine ⟨⟨afterBuilt, ?_⟩, iff_of_true rfl fun both => isFree both.2⟩
      rw [isView, ← sameView]
      rfl

theorem call_refined (call : HypergraphCall) (hg : Hypergraph) (built : Built env hg) : Refined env ((view env hg).step call) (call.on env hg) := by
  cases call with
  | addVertex v => exact add_vertex_refined env v hg built
  | addHyperedge h => exact add_hyperedge_refined env h hg built
  | removeVertex v =>
      have looked := lookup_vertex_looked env v hg built
      have removed := (remove_answered env (.vertex v) "remove vertex" _ _ looked.built (looked.view ▸ looked.answer)).1
      rw [looked.view] at removed
      exact removed
  | removeHyperedge h =>
      have looked := lookup_atom_looked env h.atom hg built
      have removed := (remove_answered env h.atom "remove hyperedge" _ _ looked.built (looked.view ▸ looked.answer)).1
      rw [looked.view] at removed
      exact removed

def afterCalls (calls : List HypergraphCall) : Hypergraph := calls.foldl (fun hg call => (call.on env hg).2) Hypergraph.new

noncomputable def abstractAfter (calls : List HypergraphCall) : TwoPhase := calls.foldl TwoPhase.step TwoPhase.empty

theorem after_calls_refined (calls : List HypergraphCall) :
    Built env (afterCalls env calls) ∧ view env (afterCalls env calls) = abstractAfter calls := by
  induction calls using List.reverseRecOn with
  | nil => exact ⟨new_built env, by simp [view, afterCalls, abstractAfter, Hypergraph.new, TwoPhase.empty]⟩
  | append_singleton calls call ih =>
      have refined := call_refined env call (afterCalls env calls) ih.1
      rw [ih.2] at refined
      rw [afterCalls, abstractAfter, List.foldl_append, List.foldl_append]
      exact ⟨refined.built, refined.view⟩

end Sets

end Ceremony
