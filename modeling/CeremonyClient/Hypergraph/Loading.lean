import CeremonyClient.Hypergraph.Encoding
import CeremonyClient.Store.Hypergraph

set_option autoImplicit false

namespace Ceremony

open GoSem PrefixTrie

variable {key : Bytes} {value : Option Bytes} {bytes : Bytes} {t : AtomType} {set : IdSet} {values : Bytes → Option (Option Bytes)}
  {t' : AtomType} {p : PhaseType} {shard : ShardKey} {hg after : Hypergraph} {entry : Bytes × Bytes} {kind kind' : UInt8}
  {db : Table Bytes Bytes}

theorem mem_leaf_list {node : VectorCommitmentNode} : (key, value) ∈ node.leafList ↔ Stored (node.trie leafValue) key value := by
  induction node with
  | nil => simp [VectorCommitmentNode.leafList, VectorCommitmentNode.trie, Stored]
  | leaf stored storedValue hashTarget commitment size =>
      simp [VectorCommitmentNode.leafList, VectorCommitmentNode.trie, Stored, leafValue]
  | branch pre children commitment size leafCount longestBranch ih =>
      simp [VectorCommitmentNode.leafList, VectorCommitmentNode.trie, Stored, ih]

section Sets

variable (env : HypergraphEnv)

theorem load_leaves {leaves : List (Bytes × Option Bytes)} (keyed : ∀ leaf ∈ leaves, ∃ id, leaf.1 = AtomId.bytes id)
    (start : Table AtomId (Option Atom)) {atoms : Table AtomId (Option Atom)}
    (loaded : leaves.foldlM (fun (atoms : Table AtomId (Option Atom)) leaf => do
      let key ← toAtomId leaf.1
      return atoms.insert key (← atomFromBytes env 1 (leaf.2.getD []))) start = .ok atoms) :
    (∀ leaf ∈ leaves, ∃ a, atomFromBytes env 1 (leaf.2.getD []) = .ok a) ∧
      ∀ id, ((atoms.lookup id).isSome = true ↔ (start.lookup id).isSome = true ∨ ∃ leaf ∈ leaves, leaf.1 = id.bytes) ∧
        ∀ a, atoms.lookup id = some a → start.lookup id = some a ∨
          ∃ leaf ∈ leaves, leaf.1 = id.bytes ∧ atomFromBytes env 1 (leaf.2.getD []) = .ok a := by
  induction leaves generalizing start with
  | nil =>
      cases loaded
      exact ⟨by simp, fun id => ⟨by simp, fun a found => .inl found⟩⟩
  | cons leaf rest ih =>
      obtain ⟨⟨key, isKey⟩, restKeyed⟩ := List.forall_mem_cons.mp keyed
      have readKey : toAtomId leaf.1 = .ok key := by
        have read := to_atom_id_bytes key []
        rwa [List.append_nil, ← isKey] at read
      rw [List.foldlM_cons, readKey, ok_bind] at loaded
      obtain ⟨next, decoded, restLoaded⟩ := (bind_ok_iff _ _ _).mp loaded
      obtain ⟨atom, isAtom, isNext⟩ := (bind_ok_iff _ _ _).mp decoded
      have isTable : next = start.insert key atom := (Except.ok.inj isNext).symm
      obtain ⟨all, each⟩ := ih restKeyed next restLoaded
      refine ⟨List.forall_mem_cons.mpr ⟨⟨atom, isAtom⟩, all⟩, fun id => ?_⟩
      obtain ⟨there, from_⟩ := each id
      by_cases same : id = key
      · have isNextAtom : next.lookup id = some atom := by rw [isTable, same, AList.lookup_insert]
        constructor
        · rw [there, isNextAtom]
          exact ⟨fun _ => .inr ⟨leaf, List.mem_cons_self, by rw [isKey, same]⟩, fun _ => .inl rfl⟩
        · intro a found
          cases from_ a found with
          | inl isNext =>
              rw [isNextAtom] at isNext
              exact .inr ⟨leaf, List.mem_cons_self, by rw [isKey, same], by rw [isAtom, Option.some.inj isNext]⟩
          | inr later =>
              obtain ⟨other, member, isOther⟩ := later
              exact .inr ⟨other, List.mem_cons_of_mem _ member, isOther⟩
      · have unchanged : next.lookup id = start.lookup id := by rw [isTable, AList.lookup_insert_ne same]
        have notFirst : leaf.1 ≠ id.bytes := fun isId => same (atom_id_bytes_injective (isId.symm.trans isKey))
        rw [unchanged] at there from_
        constructor
        · rw [there]
          simp [notFirst]
        · intro a found
          cases from_ a found with
          | inl isStart => exact .inl isStart
          | inr later =>
              obtain ⟨other, member, isOther⟩ := later
              exact .inr ⟨other, List.mem_cons_of_mem _ member, isOther⟩

theorem load_leaves_returns (leaves : List (Bytes × Option Bytes)) (keyed : ∀ leaf ∈ leaves, ∃ id, leaf.1 = AtomId.bytes id)
    (decodes : ∀ leaf ∈ leaves, ∃ a, atomFromBytes env 1 (leaf.2.getD []) = .ok a) (start : Table AtomId (Option Atom)) :
    ∃ atoms, leaves.foldlM (fun (atoms : Table AtomId (Option Atom)) leaf => do
      let key ← toAtomId leaf.1
      return atoms.insert key (← atomFromBytes env 1 (leaf.2.getD []))) start = .ok atoms := by
  induction leaves generalizing start with
  | nil => exact ⟨start, rfl⟩
  | cons leaf rest ih =>
      obtain ⟨⟨key, isKey⟩, restKeyed⟩ := List.forall_mem_cons.mp keyed
      obtain ⟨⟨atom, isAtom⟩, restDecodes⟩ := List.forall_mem_cons.mp decodes
      have readKey : toAtomId leaf.1 = .ok key := by
        have read := to_atom_id_bytes key []
        rwa [List.append_nil, ← isKey] at read
      obtain ⟨atoms, finished⟩ := ih restKeyed restDecodes (start.insert key atom)
      refine ⟨atoms, ?_⟩
      rw [List.foldlM_cons, readKey, ok_bind, isAtom, ok_bind]
      exact finished

theorem decoded_value (id : AtomId) (value : Option Bytes) (coded : ∀ bytes, value = some bytes → ∃ first rest, bytes = first :: id.bytes ++ rest) :
    (∃ a, atomFromBytes env 1 (value.getD []) = .ok a) ↔ value ≠ none := by
  cases value with
  | none =>
      have panics : atomFromBytes env 1 [] = crash := rfl
      simp [panics, crash]
  | some bytes =>
      obtain ⟨first, rest, isBytes⟩ := coded bytes rfl
      rw [Option.getD_some, isBytes, atom_from_bytes_coded]
      simp

theorem decoded_id {id : AtomId} (coded : ∃ first rest, bytes = first :: id.bytes ++ rest) {a : Atom}
    (decoded : atomFromBytes env 1 bytes = .ok (some a)) : a.getId = id := by
  obtain ⟨first, rest, isBytes⟩ := coded
  rw [isBytes, atom_from_bytes_coded] at decoded
  obtain ⟨tree, -, isAtom⟩ := Option.map_eq_some_iff.mp (Except.ok.inj decoded)
  rw [← isAtom]
  by_cases isVertex : first = 0
  · rw [if_pos isVertex]
    rfl
  · rw [if_neg isVertex]
    rfl

theorem keyed_leaves (keyed : SetKeyed t set values) : (key, value) ∈ set.tree.root.leafList ↔ values key = some value := by
  rw [mem_leaf_list, keyed.tree.stored]

theorem from_bytes_keyed {loaded : IdSet} (keyed : SetKeyed t set values) (inverts : env.gob.InvertsTree set.tree)
    (ran : IdSet.fromBytes env (IdSet.new t') ((set.toBytes env).getD []) = .ok loaded) :
    SetKeyed t' loaded values ∧ loaded.tree = set.tree ∧ ∀ k, values k ≠ some none := by
  obtain ⟨bytes, encodes, decodes⟩ := inverts
  rw [IdSet.toBytes, encodes, Option.getD_some, IdSet.fromBytes, decodes] at ran
  obtain ⟨atoms, ranLeaves, isLoaded⟩ := (bind_ok_iff _ _ _).mp ran
  have isSet : loaded = ⟨false, t', atoms, set.tree⟩ := (Except.ok.inj isLoaded).symm
  have leafKeys : ∀ leaf ∈ getAllLeaves (.node set.tree.root), ∃ id, leaf.1 = AtomId.bytes id := by
    intro leaf inside
    apply keyed.keys
    rw [(keyed_leaves keyed).mp inside]
    exact Option.some_ne_none _
  obtain ⟨all, each⟩ := load_leaves env leafKeys _ ranLeaves
  have coded (id : AtomId) (value : Option Bytes) (inside : values id.bytes = some value) (bytes : Bytes) (isBytes : value = some bytes) :
      ∃ first rest, bytes = first :: id.bytes ++ rest := keyed.encoded id bytes (by rw [inside, isBytes])
  refine ⟨⟨?_, fun id a found => ?_, ?_, keyed.keys, fun id => ?_, keyed.encoded⟩, by rw [isSet], fun k isNil => ?_⟩
  · rw [isSet]
  · rw [isSet] at found
    cases (each id).2 _ found with
    | inl start => simp [IdSet.new] at start
    | inr fromLeaf =>
        obtain ⟨leaf, inside, isId, decoded⟩ := fromLeaf
        have stored := (keyed_leaves keyed).mp inside
        rw [isId] at stored
        cases isValue : leaf.2 with
        | none =>
            rw [isValue] at decoded
            cases decoded
        | some leafBytes =>
            rw [isValue] at decoded
            exact decoded_id env (coded id leaf.2 stored leafBytes isValue) decoded
  · rw [isSet]
    exact keyed.tree
  · rw [IdSet.has, isSet]
    simp only [(each id).1]
    constructor
    · intro there
      cases there with
      | inl start => simp [IdSet.new] at start
      | inr fromLeaf =>
          obtain ⟨leaf, inside, isId⟩ := fromLeaf
          rw [← isId, (keyed_leaves keyed).mp inside]
          exact Option.some_ne_none _
    · intro there
      obtain ⟨value, isValue⟩ := Option.ne_none_iff_exists'.mp there
      exact .inr ⟨(id.bytes, value), (keyed_leaves keyed).mpr isValue, rfl⟩
  · obtain ⟨id, isId⟩ := keyed.keys k (by rw [isNil]; exact Option.some_ne_none _)
    rw [isId] at isNil
    have decodes := all (id.bytes, none) ((keyed_leaves keyed).mpr isNil)
    exact (decoded_value env id none fun bytes isBytes => (by cases isBytes)).mp decodes rfl

theorem from_bytes_returns (keyed : SetKeyed t set values) (inverts : env.gob.InvertsTree set.tree) (coded : ∀ k, values k ≠ some none) :
    ∃ loaded, IdSet.fromBytes env (IdSet.new t') ((set.toBytes env).getD []) = .ok loaded := by
  obtain ⟨bytes, encodes, decodes⟩ := inverts
  rw [IdSet.toBytes, encodes, Option.getD_some, IdSet.fromBytes, decodes]
  obtain ⟨atoms, ran⟩ := load_leaves_returns env (getAllLeaves (.node set.tree.root))
    (fun leaf inside => keyed.keys leaf.1 (by
      rw [(keyed_leaves keyed).mp inside]
      exact Option.some_ne_none _))
    (fun leaf inside => by
      have stored := (keyed_leaves keyed).mp inside
      obtain ⟨id, isId⟩ := keyed.keys leaf.1 (by rw [stored]; exact Option.some_ne_none _)
      apply (decoded_value env id leaf.2 fun bytes isBytes => keyed.encoded id bytes (by rw [← isId, stored, isBytes])).mpr
      intro isNil
      exact coded leaf.1 (by rw [stored, isNil])) (IdSet.new t').atoms
  exact ⟨_, by simp only [ran, ok_bind]; rfl⟩

def importedSet (t : AtomType) (bytes : Bytes) : IdSet :=
  match IdSet.fromBytes env (IdSet.new t) bytes with
  | .ok set => set
  | .error _ => IdSet.new t

-- The size that GetSize has for a set, and zero for one without members, for which it panics.
def listedSize (set : IdSet) : Int :=
  match set.getSize with
  | .ok size => size
  | .error _ => 0

def Importable (t : AtomType) (bytes : Bytes) : Prop :=
  ∃ set size, IdSet.fromBytes env (IdSet.new t) bytes = .ok set ∧ set.getSize = .ok size

def phaseSign : PhaseType → Int
  | .adds => 1
  | .removes => -1

def imported (t : AtomType) (p : PhaseType) (shard : ShardKey) (bytes : Bytes) (hg : Hypergraph) : Hypergraph :=
  { hg.withSet t p shard (importedSet env t bytes) with size := hg.size + phaseSign p * listedSize (importedSet env t bytes) }

theorem import_ok_iff :
    wrapErr "load hypergraph" (hg.importFromBytes env t p shard bytes) = .ok after ↔
      Importable env t bytes ∧ after = imported env t p shard bytes hg := by
  rw [wrap_err_ok_iff, Hypergraph.importFromBytes, imported, bind_ok_iff]
  simp only [wrap_err_ok_iff, bind_ok_iff]
  constructor
  · intro ran
    obtain ⟨set, decoded, size, measured, isAfter⟩ := ran
    refine ⟨⟨set, size, decoded, measured⟩, ?_⟩
    simp only [importedSet, decoded, listedSize, measured]
    cases p with
    | adds => simpa [phaseSign, pure, Except.pure, eq_comm] using isAfter
    | removes => simpa [phaseSign, pure, Except.pure, eq_comm, sub_eq_add_neg] using isAfter
  · intro both
    obtain ⟨⟨set, size, decoded, measured⟩, isAfter⟩ := both
    refine ⟨set, decoded, size, measured, ?_⟩
    simp only [importedSet, decoded, listedSize, measured] at isAfter
    cases p with
    | adds => simp [isAfter, phaseSign, pure, Except.pure]
    | removes => simp [isAfter, phaseSign, pure, Except.pure, sub_eq_add_neg]

instance : Inhabited ShardKey := ⟨⟨List.replicate 3 0, rfl⟩, ⟨List.replicate 32 0, rfl⟩⟩

def shardOf (key : Bytes) : ShardKey :=
  match shardKeyFromKey key with
  | .ok shard => shard
  | .error _ => default

def importedAll (t : AtomType) (p : PhaseType) (entries : List (Bytes × Bytes)) (hg : Hypergraph) : Hypergraph where
  size := hg.size + phaseSign p * (entries.map fun entry => listedSize (importedSet env t entry.2)).sum
  sets t' p' :=
    if t' = t ∧ p' = p then entries.foldl (fun sets entry => sets.insert (shardOf entry.1) (importedSet env t entry.2)) (hg.sets t p)
    else hg.sets t' p'

theorem imported_all_cons {rest : List (Bytes × Bytes)} :
    importedAll env t p (entry :: rest) hg = importedAll env t p rest (imported env t p (shardOf entry.1) entry.2 hg) := by
  simp only [importedAll, imported, Hypergraph.withSet, Hypergraph.mk.injEq, List.map_cons, List.sum_cons, List.foldl_cons]
  refine ⟨by ring, ?_⟩
  funext t' p'
  by_cases here : t' = t ∧ p' = p
  · simp [here]
  · simp [here]

theorem import_all_ok_iff {entries : List (Bytes × Bytes)} (keyed : ∀ entry ∈ entries, shardKeyFromKey entry.1 = .ok (shardOf entry.1)) :
    entries.foldlM (fun hg entry => do
      let shardKey ← shardKeyFromKey entry.1
      wrapErr "load hypergraph" (Hypergraph.importFromBytes env t p shardKey entry.2 hg)) hg = .ok after ↔
      (∀ entry ∈ entries, Importable env t entry.2) ∧ after = importedAll env t p entries hg := by
  induction entries generalizing hg with
  | nil =>
      have nothing : importedAll env t p [] hg = hg := by
        simp only [importedAll, List.map_nil, List.sum_nil, mul_zero, add_zero, List.foldl_nil]
        congr
        funext t' p'
        by_cases here : t' = t ∧ p' = p
        · rw [if_pos here, here.1, here.2]
        · rw [if_neg here]
      rw [nothing]
      simp [pure, Except.pure, eq_comm]
  | cons entry rest ih =>
      obtain ⟨readKey, restKeyed⟩ := List.forall_mem_cons.mp keyed
      rw [List.foldlM_cons, readKey, ok_bind, bind_ok_iff, List.forall_mem_cons, imported_all_cons]
      simp only [import_ok_iff, ih restKeyed]
      constructor
      · intro ran
        obtain ⟨between, ⟨first, isBetween⟩, others, isAfter⟩ := ran
        exact ⟨⟨first, others⟩, by rw [isAfter, isBetween]⟩
      · intro all
        exact ⟨_, ⟨all.1.1, rfl⟩, all.1.2, all.2⟩

end Sets

def kindOf : AtomType → PhaseType → UInt8
  | .vertex, .adds => vertexAdds
  | .vertex, .removes => vertexRemoves
  | .hyperedge, .adds => hyperedgeAdds
  | .hyperedge, .removes => hyperedgeRemoves

theorem kind_injective (t t' : AtomType) (p p' : PhaseType) (same : kindOf t p = kindOf t' p') : t = t' ∧ p = p' := by
  revert same
  cases t <;> cases p <;> cases t' <;> cases p' <;> decide

theorem shard_key_read (kind : UInt8) (shard : ShardKey) : shardKeyFromKey (hypergraphKey kind shard) = .ok shard := by
  obtain ⟨⟨l1, size⟩, l2⟩ := shard
  have long : 5 ≤ (hypergraphKey kind ⟨⟨l1, size⟩, l2⟩).length := by
    simp [hypergraphKey, size]
  have first : ((hypergraphKey kind ⟨⟨l1, size⟩, l2⟩).drop 2).take (5 - 2) = l1 := List.take_left' size
  have second : (hypergraphKey kind ⟨⟨l1, size⟩, l2⟩).drop 5 = l2.bytes := by
    change (l1 ++ l2.bytes).drop 3 = l2.bytes
    exact List.drop_left' size
  have read := to_address_bytes l2 []
  rw [List.append_nil] at read
  rw [shardKeyFromKey, slice, if_pos ⟨by decide, long⟩, first, ok_bind, sliceFrom, if_pos long, ok_bind, second, read, ok_bind, dif_pos size]
  rfl

theorem shard_of_key (kind : UInt8) (shard : ShardKey) : shardOf (hypergraphKey kind shard) = shard := by
  rw [shardOf, shard_key_read]

theorem hypergraph_key_injective (shard shard' : ShardKey) (same : hypergraphKey kind shard = hypergraphKey kind' shard') :
    kind = kind' ∧ shard = shard' := by
  refine ⟨?_, ?_⟩
  · simp only [hypergraphKey, List.cons.injEq] at same
    exact same.2.1
  · rw [← shard_of_key kind shard, same, shard_of_key]

-- The bounds of the iterators are two bytes long, so they compare the kind only.
theorem key_below {bound : UInt8} {rest : Bytes} : hypergraphShard :: kind :: rest < [hypergraphShard, bound] ↔ kind < bound := by
  simp [List.cons_lt_cons_iff]

theorem key_ordered : hypergraphKey kind shard < hypergraphKey kind' shard ↔ kind < kind' := by
  simp [hypergraphKey, List.cons_lt_cons_iff]

theorem key_between {lower upper : UInt8} (above : ¬ key < [hypergraphShard, lower]) (below : key < [hypergraphShard, upper]) :
    key.head? = some hypergraphShard := by
  cases key with
  | nil => exact absurd (by simp) above
  | cons first rest =>
      rw [List.cons_lt_cons_iff] at above below
      cases below with
      | inl less => exact absurd (.inl less) above
      | inr same => rw [List.head?_cons, same.1]

section Saves

variable (env : HypergraphEnv)

def savedEntries (hg : Hypergraph) (t : AtomType) (p : PhaseType) : List (Bytes × Bytes) :=
  (hg.sets t p).entries.filterMap fun entry =>
    if entry.2.dirty then some (hypergraphKey (kindOf t p) entry.1, (entry.2.toBytes env).getD []) else none

theorem mem_saved (hg : Hypergraph) (t : AtomType) (p : PhaseType) (key bytes : Bytes) :
    (key, bytes) ∈ savedEntries env hg t p ↔ ∃ shard set, (hg.sets t p).lookup shard = some set ∧ set.dirty = true ∧
      key = hypergraphKey (kindOf t p) shard ∧ bytes = (set.toBytes env).getD [] := by
  rw [savedEntries, List.mem_filterMap]
  constructor
  · intro saved
    obtain ⟨⟨shard, set⟩, inside, written⟩ := saved
    by_cases dirty : set.dirty = true
    · rw [if_pos dirty] at written
      obtain ⟨isKey, isBytes⟩ := Prod.mk.inj (Option.some.inj written)
      exact ⟨shard, set, AList.mem_lookup_iff.mpr inside, dirty, isKey.symm, isBytes.symm⟩
    · rw [if_neg dirty] at written
      cases written
  · intro found
    obtain ⟨shard, set, found, dirty, isKey, isBytes⟩ := found
    exact ⟨⟨shard, set⟩, AList.mem_lookup_iff.mp found, by rw [if_pos dirty, isKey, isBytes]⟩

theorem saved_keys_nodup (hg : Hypergraph) (t : AtomType) (p : PhaseType) : ((savedEntries env hg t p).map Prod.fst).Nodup := by
  have distinct : (hg.sets t p).entries.Pairwise fun a b => a.1 ≠ b.1 := List.nodupKeys_iff_pairwise.mp (hg.sets t p).nodupKeys
  rw [List.Nodup, List.pairwise_map, savedEntries, List.pairwise_filterMap]
  apply distinct.imp
  intro a b different x isX y isY same
  by_cases dirty : a.2.dirty = true
  · by_cases dirty' : b.2.dirty = true
    · rw [if_pos dirty] at isX
      rw [if_pos dirty'] at isY
      rw [← Option.some.inj isX, ← Option.some.inj isY] at same
      exact different (hypergraph_key_injective _ _ same).2
    · rw [if_neg dirty'] at isY
      cases isY
  · rw [if_neg dirty] at isX
    cases isX

def allSaved (hg : Hypergraph) : List (Bytes × Bytes) :=
  savedEntries env hg .vertex .adds ++ savedEntries env hg .vertex .removes ++ savedEntries env hg .hyperedge .adds ++
    savedEntries env hg .hyperedge .removes

theorem mem_all_saved : entry ∈ allSaved env hg ↔ ∃ t p, entry ∈ savedEntries env hg t p := by
  rw [allSaved, List.mem_append, List.mem_append, List.mem_append]
  constructor
  · rintro (((first | second) | third) | fourth)
    · exact ⟨_, _, first⟩
    · exact ⟨_, _, second⟩
    · exact ⟨_, _, third⟩
    · exact ⟨_, _, fourth⟩
  · intro some_entry
    obtain ⟨t, p, inside⟩ := some_entry
    cases t <;> cases p <;> simp [inside]

theorem saved_apart (hg : Hypergraph) (t t' : AtomType) (p p' : PhaseType) (different : ¬ (t = t' ∧ p = p')) :
    List.Disjoint ((savedEntries env hg t p).map Prod.fst) ((savedEntries env hg t' p').map Prod.fst) := by
  intro key first second
  obtain ⟨⟨_, bytes⟩, inside, rfl⟩ := List.mem_map.mp first
  obtain ⟨⟨_, bytes'⟩, inside', same⟩ := List.mem_map.mp second
  obtain ⟨shard, set, -, -, isKey, -⟩ := (mem_saved env hg t p _ _).mp inside
  obtain ⟨shard', set', -, -, isKey', -⟩ := (mem_saved env hg t' p' _ _).mp inside'
  apply different
  apply kind_injective
  apply (hypergraph_key_injective shard shard' _).1
  rw [← isKey, ← isKey']
  exact same.symm

theorem all_saved_nodup (hg : Hypergraph) : ((allSaved env hg).map Prod.fst).Nodup := by
  simp only [allSaved, List.map_append]
  have nodup := saved_keys_nodup env hg
  have apart := saved_apart env hg
  refine List.Nodup.append (List.Nodup.append (List.Nodup.append (nodup _ _) (nodup _ _) (apart _ _ _ _ (by simp))) (nodup _ _) ?_) (nodup _ _) ?_
  · rw [List.disjoint_append_left]
    exact ⟨apart _ _ _ _ (by simp), apart _ _ _ _ (by simp)⟩
  · rw [List.disjoint_append_left, List.disjoint_append_left]
    exact ⟨⟨apart _ _ _ _ (by simp), apart _ _ _ _ (by simp)⟩, apart _ _ _ _ (by simp)⟩

theorem save_sets_writes (hg : Hypergraph) (t : AtomType) (p : PhaseType) :
    Table.writes (saveSets env (hypergraphKey (kindOf t p)) (hg.sets t p)) = savedEntries env hg t p ∧
      Table.erasures (saveSets env (hypergraphKey (kindOf t p)) (hg.sets t p)) = [] := by
  rw [Table.writes, Table.erasures, saveSets, savedEntries, List.filterMap_filterMap, List.filterMap_filterMap]
  constructor
  · congr
    funext entry
    by_cases dirty : entry.2.dirty = true
    · simp [dirty, Table.Change.written]
    · simp [dirty]
  · rw [List.filterMap_eq_nil_iff]
    intro entry inside
    by_cases dirty : entry.2.dirty = true
    · simp [dirty, Table.Change.erased]
    · simp [dirty]

theorem save_writes (hg : Hypergraph) : Table.writes (saveHypergraph env [] hg) = allSaved env hg ∧ Table.erasures (saveHypergraph env [] hg) = [] := by
  have each := save_sets_writes env hg
  rw [saveHypergraph, allSaved, ← (each .vertex .adds).1, ← (each .vertex .removes).1, ← (each .hyperedge .adds).1, ← (each .hyperedge .removes).1]
  constructor
  · simp only [Table.writes, List.filterMap_append, List.nil_append]
    rfl
  · have nothing := fun t p => (each t p).2
    simp only [Table.erasures, List.filterMap_append, List.nil_append] at nothing ⊢
    rw [List.append_eq_nil_iff, List.append_eq_nil_iff, List.append_eq_nil_iff]
    exact ⟨⟨⟨nothing .vertex .adds, nothing .vertex .removes⟩, nothing .hyperedge .adds⟩, nothing .hyperedge .removes⟩

def committed (hg : Hypergraph) (db : Table Bytes Bytes) : Table Bytes Bytes := Table.run (saveHypergraph env [] hg) db

theorem committed_lookup :
    (committed env hg db).lookup key = some bytes ↔
      (key, bytes) ∈ allSaved env hg ∨ (key ∉ (allSaved env hg).map Prod.fst ∧ db.lookup key = some bytes) := by
  obtain ⟨isWrites, isErasures⟩ := save_writes env hg
  by_cases written : key ∈ (allSaved env hg).map Prod.fst
  · obtain ⟨⟨storedKey, stored⟩, inside, isKey⟩ := List.mem_map.mp written
    rw [show storedKey = key from isKey] at inside
    have read (value : Bytes) (saved : (key, value) ∈ allSaved env hg) : (committed env hg db).lookup key = some value :=
      Table.lookup_run_written (by rw [isWrites]; exact all_saved_nodup env hg) isErasures (by rwa [isWrites])
    constructor
    · intro found
      rw [read stored inside] at found
      rw [← Option.some.inj found]
      exact .inl inside
    · intro either
      cases either with
      | inl saved => exact read bytes saved
      | inr old => exact absurd written old.1
  · rw [committed, Table.lookup_run_other _ db key (by rwa [isWrites]) (by rw [isErasures]; simp)]
    constructor
    · exact fun found => .inr ⟨written, found⟩
    · intro either
      cases either with
      | inl saved => exact absurd (List.mem_map_of_mem saved) written
      | inr old => exact old.2

end Saves

section Scans

variable (env : HypergraphEnv)

def scanUpper : AtomType → PhaseType → UInt8
  | .vertex, .adds => vertexRemoves
  | .vertex, .removes => vertexRemoves + 1
  | .hyperedge, .adds => hyperedgeRemoves
  | .hyperedge, .removes => hyperedgeRemoves + 1

def scan (db : Table Bytes Bytes) (t : AtomType) (p : PhaseType) : List (Bytes × Bytes) :=
  db.range [hypergraphShard, kindOf t p] [hypergraphShard, scanUpper t p]

def loadedFrom (db : Table Bytes Bytes) : Hypergraph where
  size := phaseSign .adds * ((scan db .vertex .adds).map fun entry => listedSize (importedSet env .vertex entry.2)).sum +
    phaseSign .removes * ((scan db .vertex .removes).map fun entry => listedSize (importedSet env .vertex entry.2)).sum +
    phaseSign .adds * ((scan db .hyperedge .adds).map fun entry => listedSize (importedSet env .hyperedge entry.2)).sum +
    phaseSign .removes * ((scan db .hyperedge .removes).map fun entry => listedSize (importedSet env .hyperedge entry.2)).sum
  sets t p := (scan db t p).foldl (fun sets entry => sets.insert (shardOf entry.1) (importedSet env t entry.2)) ∅

theorem load_ok_iff (keyed : ∀ t p, ∀ entry ∈ scan db t p, shardKeyFromKey entry.1 = .ok (shardOf entry.1)) (after : Hypergraph) :
    loadHypergraph env db = .ok after ↔ (∀ t p, ∀ entry ∈ scan db t p, Importable env t entry.2) ∧ after = loadedFrom env db := by
  have loop (t : AtomType) (p : PhaseType) (hg next : Hypergraph) : loadSets env db t p (kindOf t p) (scanUpper t p) hg = .ok next ↔
      (∀ entry ∈ scan db t p, Importable env t entry.2) ∧ next = importedAll env t p (scan db t p) hg :=
    import_all_ok_iff env (keyed t p)
  have isLoaded : importedAll env .hyperedge .removes (scan db .hyperedge .removes) (importedAll env .hyperedge .adds (scan db .hyperedge .adds)
      (importedAll env .vertex .removes (scan db .vertex .removes) (importedAll env .vertex .adds (scan db .vertex .adds) Hypergraph.new))) =
        loadedFrom env db := by
    simp only [importedAll, loadedFrom, Hypergraph.new, zero_add, Hypergraph.mk.injEq, true_and]
    funext t p
    cases t <;> cases p <;> simp
  rw [loadHypergraph]
  change (loadSets env db .vertex .adds (kindOf .vertex .adds) (scanUpper .vertex .adds) _ >>= fun hg =>
    loadSets env db .vertex .removes (kindOf .vertex .removes) (scanUpper .vertex .removes) hg >>= fun hg =>
      loadSets env db .hyperedge .adds (kindOf .hyperedge .adds) (scanUpper .hyperedge .adds) hg >>= fun hg =>
        loadSets env db .hyperedge .removes (kindOf .hyperedge .removes) (scanUpper .hyperedge .removes) hg) = _ ↔ _
  simp only [bind_ok_iff, loop]
  constructor
  · intro ran
    obtain ⟨first, ⟨firstAll, isFirst⟩, second, ⟨secondAll, isSecond⟩, third, ⟨thirdAll, isThird⟩, fourthAll, isAfter⟩ := ran
    rw [← isLoaded, ← isFirst, ← isSecond, ← isThird]
    refine ⟨fun t p => ?_, isAfter⟩
    cases t with
    | vertex =>
        cases p with
        | adds => exact firstAll
        | removes => exact secondAll
    | hyperedge =>
        cases p with
        | adds => exact thirdAll
        | removes => exact fourthAll
  · intro both
    obtain ⟨all, isAfter⟩ := both
    exact ⟨_, ⟨all _ _, rfl⟩, _, ⟨all _ _, rfl⟩, _, ⟨all _ _, rfl⟩, all _ _, by rw [isLoaded, isAfter]⟩

def InScan (t : AtomType) (p : PhaseType) (t' : AtomType) (p' : PhaseType) : Prop := ¬ kindOf t' p' < kindOf t p ∧ kindOf t' p' < scanUpper t p

instance (t : AtomType) (p : PhaseType) (t' : AtomType) (p' : PhaseType) : Decidable (InScan t p t' p') :=
  inferInstanceAs (Decidable (_ ∧ _))

def Unused (db : Table Bytes Bytes) : Prop := ∀ key bytes, db.lookup key = some bytes → key.head? ≠ some hypergraphShard

theorem mem_scan (hg : Hypergraph) (db : Table Bytes Bytes) (unused : Unused db) (t : AtomType) (p : PhaseType) (entry : Bytes × Bytes) :
    entry ∈ scan (committed env hg db) t p ↔ ∃ t' p', InScan t p t' p' ∧ entry ∈ savedEntries env hg t' p' := by
  obtain ⟨key, bytes⟩ := entry
  rw [scan, Table.mem_range, committed_lookup]
  constructor
  · intro scanned
    obtain ⟨stored, above, below⟩ := scanned
    cases stored with
    | inl saved =>
        obtain ⟨t', p', inside⟩ := (mem_all_saved env).mp saved
        obtain ⟨shard, set, -, -, isKey, -⟩ := (mem_saved env hg t' p' key bytes).mp inside
        rw [isKey, hypergraphKey, key_below] at above below
        exact ⟨t', p', ⟨above, below⟩, inside⟩
    | inr old => exact absurd (key_between above below) (unused key bytes old.2)
  · intro saved
    obtain ⟨t', p', inScan, inside⟩ := saved
    obtain ⟨shard, set, -, -, isKey, -⟩ := (mem_saved env hg t' p' key bytes).mp inside
    refine ⟨.inl ((mem_all_saved env).mpr ⟨t', p', inside⟩), ?_⟩
    rw [isKey, hypergraphKey, key_below, key_below]
    exact inScan

theorem scan_keyed (db : Table Bytes Bytes) (unused : Unused db) (t : AtomType) (p : PhaseType) (entry : Bytes × Bytes)
    (scanned : entry ∈ scan (committed env hg db) t p) : shardKeyFromKey entry.1 = .ok (shardOf entry.1) := by
  obtain ⟨t', p', -, inside⟩ := (mem_scan env hg db unused t p entry).mp scanned
  obtain ⟨shard, set, -, -, isKey, -⟩ := (mem_saved env hg t' p' entry.1 entry.2).mp inside
  rw [isKey, shard_of_key, shard_key_read]

theorem loaded_top (hg : Hypergraph) (db : Table Bytes Bytes) (unused : Unused db) (t t' : AtomType) (p p' : PhaseType) (shard : ShardKey) (set : IdSet)
    (found : (hg.sets t' p').lookup shard = some set) (dirty : set.dirty = true) (inScan : InScan t p t' p')
    (top : ∀ t'' p'' other, (hg.sets t'' p'').lookup shard = some other → other.dirty = true → InScan t p t'' p'' → ¬ kindOf t' p' < kindOf t'' p'') :
    ((loadedFrom env (committed env hg db)).sets t p).lookup shard = some (importedSet env t ((set.toBytes env).getD [])) := by
  have last : (hypergraphKey (kindOf t' p') shard, (set.toBytes env).getD []) ∈ scan (committed env hg db) t p :=
    (mem_scan env hg db unused t p _).mpr ⟨t', p', inScan, (mem_saved env hg t' p' _ _).mpr ⟨shard, set, found, dirty, rfl, rfl⟩⟩
  have folded := Table.foldl_insert_last (fun entry : Bytes × Bytes => shardOf entry.1) (fun entry => importedSet env t entry.2)
    (fun left right => ¬ right.1 < left.1) (scan (committed env hg db) t p)
    (Table.range_ordered (fun a b => List.le_total a b) fun _ _ _ => List.le_trans) ∅ _ last (by
      intro item inside sameShard after
      obtain ⟨t'', p'', alsoScanned, saved⟩ := (mem_scan env hg db unused t p item).mp inside
      obtain ⟨otherShard, other, otherFound, otherDirty, isKey, isBytes⟩ := (mem_saved env hg t'' p'' item.1 item.2).mp saved
      rw [isKey, shard_of_key, shard_of_key] at sameShard
      rw [sameShard] at otherFound isKey
      rw [isKey, key_ordered] at after
      have notAbove := top t'' p'' other otherFound otherDirty alsoScanned
      have sameKind : kindOf t'' p'' = kindOf t' p' := UInt8.le_antisymm (UInt8.not_lt.mp notAbove) (UInt8.not_lt.mp after)
      obtain ⟨sameType, samePhase⟩ := kind_injective _ _ _ _ sameKind
      rw [sameType, samePhase, found] at otherFound
      apply Prod.ext
      · rw [isKey, sameKind]
      · rw [isBytes, Option.some.inj otherFound])
  rw [shard_of_key] at folded
  exact folded

theorem loaded_none (hg : Hypergraph) (db : Table Bytes Bytes) (unused : Unused db) (t : AtomType) (p : PhaseType) (shard : ShardKey)
    (nothing : ∀ t' p' set, (hg.sets t' p').lookup shard = some set → set.dirty = true → ¬ InScan t p t' p') :
    ((loadedFrom env (committed env hg db)).sets t p).lookup shard = none := by
  have folded := Table.foldl_insert_other (fun entry : Bytes × Bytes => shardOf entry.1) (fun entry => importedSet env t entry.2)
    (scan (committed env hg db) t p) ∅ shard (by
      intro item inside sameShard
      obtain ⟨t', p', inScan, saved⟩ := (mem_scan env hg db unused t p item).mp inside
      obtain ⟨otherShard, set, found, dirty, isKey, -⟩ := (mem_saved env hg t' p' item.1 item.2).mp saved
      rw [isKey, shard_of_key] at sameShard
      rw [sameShard] at found
      exact nothing t' p' set found dirty inScan)
  rw [AList.lookup_empty] at folded
  exact folded

end Scans

end Ceremony
