import CeremonyClient.Hypergraph.Convergence

set_option autoImplicit false

namespace Ceremony

open GoSem

variable {env : HypergraphEnv} {id : AtomId} {tree : VectorCommitmentTree}

def Gob.InvertsTree (gob : Gob) (tree : VectorCommitmentTree) : Prop :=
  ∃ bytes, gob.encodeTree tree = some bytes ∧ gob.decodeTree bytes = some tree

def Gob.TellsTypes (gob : Gob) : Prop := ∀ extrinsics bytes, gob.encodeExtrinsics extrinsics = some bytes → gob.decodeTree bytes = none

theorem to_address_bytes (address : Address) (rest : Bytes) : toAddress (address.bytes ++ rest) = .ok address := by
  have long : 32 ≤ (address.bytes ++ rest).length := by
    rw [List.length_append, address.size]
    omega
  rw [toAddress, dif_pos long]
  apply congrArg Except.ok
  apply address_ext
  exact List.take_left' address.size

theorem to_atom_id_bytes (id : AtomId) (rest : Bytes) : toAtomId (id.bytes ++ rest) = .ok id := by
  have long : ¬ (id.bytes ++ rest).length < 64 := by
    rw [List.length_append, id.bytes_length]
    omega
  have second : (id.bytes ++ rest).drop 32 = id.dataAddress.bytes ++ rest := by
    rw [AtomId.bytes, List.append_assoc]
    exact List.drop_left' id.appAddress.size
  rw [toAtomId, if_neg long, second, to_address_bytes, AtomId.bytes, List.append_assoc, to_address_bytes]
  rfl

theorem atom_from_bytes_coded {fuel : Nat} {first : UInt8} {encoded : Bytes} :
    atomFromBytes env (fuel + 1) (first :: id.bytes ++ encoded) =
      .ok ((env.gob.decodeTree encoded).map fun tree => if first = 0 then .vertex ⟨id, [], tree⟩ else .hyperedge id [] tree) := by
  have long : 65 ≤ (first :: id.bytes ++ encoded).length := by
    simp only [List.cons_append, List.length_cons, List.length_append, id.bytes_length]
    omega
  have tail : (first :: id.bytes ++ encoded).drop 65 = encoded := by
    rw [List.cons_append, List.drop_succ_cons]
    exact List.drop_left' id.bytes_length
  rw [atomFromBytes, sliceFrom, if_pos long, ok_bind, tail]
  cases env.gob.decodeTree encoded with
  | none => rfl
  | some tree =>
      have isId : toAtomId ((first :: id.bytes ++ encoded).drop 1) = .ok id := to_atom_id_bytes id encoded
      simp only [isId, ok_bind]
      change (if first = 0 then _ else _) = _
      by_cases isVertex : first = 0
      · simp [isVertex, getAllLeaves, pure, Except.pure]
      · simp [isVertex, getAllLeaves, pure, Except.pure, bind, Except.bind]

theorem atom_from_bytes_short (env : HypergraphEnv) (fuel : Nat) (data : Bytes) (short : data.length < 65) (atom : Atom) :
    atomFromBytes env fuel data ≠ .ok (some atom) := by
  cases fuel with
  | zero => simp [atomFromBytes]
  | succ fuel =>
      rw [atomFromBytes, sliceFrom, if_neg (by omega)]
      simp [crash, bind, Except.bind]

def Atom.SameContents : Atom → Atom → Prop
  | .vertex v, .vertex other => v.data.Perm other.data
  | .hyperedge _ extrinsics _, .hyperedge _ others _ => ∀ id, id ∈ extrinsics.map Prod.fst ↔ id ∈ others.map Prod.fst
  | _, _ => False

structure SameAtom (env : HypergraphEnv) (a b : Atom) : Prop where
  id : b.getId = a.getId
  size : b.getSize = a.getSize
  commitment : b.commit env = a.commit env
  contents : a.SameContents b

-- A nil encoding is the empty slice.
def RoundTrips (env : HypergraphEnv) (a : Atom) : Prop :=
  ∃ fuel b, atomFromBytes env fuel ((a.toBytes env).getD []) = .ok (some b) ∧ SameAtom env a b

-- Vertices that NewVertex builds from values with an encoding of their own that round trips, and all hyperedges.
inductive BuiltAtom (env : HypergraphEnv) : Atom → Prop where
  | vertex (id : AtomId) (data : List Encrypted) (v : Vertex) (inverted : ∀ d ∈ data, env.verEncFromBytes d.toBytes = d)
      (made : newVertex env id data = .ok v) : BuiltAtom env (.vertex v)
  | hyperedge (h : Hyperedge) : BuiltAtom env h.atom

theorem new_vertex_returns {data : List Encrypted} : ∃ v, newVertex env id data = .ok v ∧ v.id = id ∧ v.data = data := by
  have inserted (size : Int) (items : List Encrypted) (tree : VectorCommitmentTree) (values : Bytes → Option (Option Bytes))
      (represents : Represents leafValue tree values) (keys : ∀ k, values k ≠ none → k.length = 64) :
      ∃ after, items.foldlM (fun tree d => tree.insert treeFuel (env.tree.sha512 d.toBytes) (some d.toBytes) d.getStatement (some size)) tree = .ok after := by
    induction items generalizing tree values with
    | nil => exact ⟨tree, rfl⟩
    | cons d rest ih =>
        obtain ⟨next, ran, nextRepresents⟩ := insert_same_length leafValue treeFuel 64 tree (env.tree.sha512 d.toBytes) (some d.toBytes)
          d.getStatement size values represents keys (env.tree.sha512_size _) (by decide) (by decide)
        obtain ⟨after, finished⟩ := ih next _ nextRepresents fun k there => by
          by_cases same : k = env.tree.sha512 d.toBytes
          · rw [same]
            exact env.tree.sha512_size _
          · rw [Function.update_of_ne same] at there
            exact keys k there
        exact ⟨after, by rw [List.foldlM_cons, ran, ok_bind, finished]⟩
  obtain ⟨dataTree, ran⟩ := inserted (data.length * 54) data emptyTree _ (empty_represents leafValue) fun k there => absurd rfl there
  exact ⟨⟨id, data, dataTree⟩, by rw [newVertex, ran]; rfl, rfl, rfl⟩

theorem vertex_round_trip {v : Vertex} (inverts : env.gob.InvertsTree v.dataTree) : RoundTrips env (.vertex v) ↔ v.data = [] := by
  obtain ⟨bytes, encodes, decodes⟩ := inverts
  have isEncoded : (Atom.vertex v).toBytes env = some (0 :: v.id.bytes ++ bytes) := by
    rw [Atom.toBytes, encodes]
    rfl
  rw [RoundTrips, isEncoded, Option.getD_some]
  constructor
  · intro trip
    obtain ⟨fuel, b, decoded, same⟩ := trip
    cases fuel with
    | zero => cases decoded
    | succ fuel =>
        rw [atom_from_bytes_coded, decodes] at decoded
        have isAtom := Option.some.inj (Except.ok.inj decoded)
        have contents := same.contents
        rw [← isAtom] at contents
        exact List.perm_nil.mp contents
  · intro empty
    refine ⟨1, .vertex ⟨v.id, [], v.dataTree⟩, by rw [atom_from_bytes_coded, decodes]; rfl, rfl, ?_, rfl, ?_⟩
    · simp [Atom.getSize, empty]
    · change v.data.Perm []
      rw [empty]

theorem hyperedge_no_round_trip (tells : env.gob.TellsTypes) {h : Hyperedge} : ¬ RoundTrips env h.atom := by
  intro trip
  obtain ⟨fuel, b, decoded, -⟩ := trip
  rw [Hyperedge.atom, Atom.toBytes] at decoded
  cases encoded : env.gob.encodeExtrinsics h.extrinsics with
  | none =>
      rw [encoded] at decoded
      exact atom_from_bytes_short env fuel [] (by decide) b decoded
  | some bytes =>
      rw [encoded] at decoded
      change atomFromBytes env fuel (1 :: h.id.bytes ++ bytes) = _ at decoded
      cases fuel with
      | zero => cases decoded
      | succ fuel =>
          rw [atom_from_bytes_coded, tells h.extrinsics bytes encoded] at decoded
          cases decoded

theorem atom_round_trip_iff (env : HypergraphEnv) (tells : env.gob.TellsTypes) (a : Atom) (built : BuiltAtom env a)
    (inverts : ∀ v, a = .vertex v → env.gob.InvertsTree v.dataTree) : RoundTrips env a ↔ ∃ v, a = .vertex v ∧ v.data = [] := by
  cases built with
  | vertex id data v inverted made =>
      rw [vertex_round_trip (inverts v rfl)]
      constructor
      · exact fun empty => ⟨v, rfl, empty⟩
      · intro other
        obtain ⟨w, same, empty⟩ := other
        rw [Atom.vertex.inj same]
        exact empty
  | hyperedge h =>
      constructor
      · exact fun trip => absurd trip (hyperedge_no_round_trip tells)
      · intro vertex
        obtain ⟨v, same, -⟩ := vertex
        cases same

def gobOf (tree : VectorCommitmentTree) : Gob where
  encodeTree _ := some [0]
  decodeTree bytes := if bytes = [0] then some tree else none
  encodeExtrinsics extrinsics := if extrinsics.isEmpty then some [1] else none

theorem gob_of_inverts : (gobOf tree).InvertsTree tree := ⟨[0], rfl, rfl⟩

theorem gob_of_tells : (gobOf tree).TellsTypes := by
  intro extrinsics bytes encoded
  cases extrinsics with
  | nil =>
      rw [← Option.some.inj encoded]
      rfl
  | cons e rest => cases encoded

def codedEnv (tree : VectorCommitmentTree) : HypergraphEnv := { plainEnv with gob := gobOf tree }

theorem atom_round_trip_no_data :
    RoundTrips (codedEnv emptyTree) (.vertex ⟨plainVertex.id, [], emptyTree⟩) ∧
      ¬ RoundTrips (codedEnv emptyTree) aliasHyperedge.atom := by
  constructor
  · apply (atom_round_trip_iff (codedEnv emptyTree) gob_of_tells (.vertex ⟨plainVertex.id, [], emptyTree⟩)
      (.vertex plainVertex.id [] _ (by simp) rfl) ?_).mpr ⟨_, rfl, rfl⟩
    intro v same
    rw [← Atom.vertex.inj same]
    exact gob_of_inverts
  · exact hyperedge_no_round_trip gob_of_tells

def loneTree : VectorCommitmentTree := ⟨.leaf (plainPrimitives.sha512 [7]) (some [7]) [8] none (some 54)⟩

theorem vertex_data_lost :
    newVertex (codedEnv loneTree) plainVertex.id plainVertex.data = .ok ⟨plainVertex.id, plainVertex.data, loneTree⟩ ∧
      atomFromBytes (codedEnv loneTree) 1
        (((Atom.vertex ⟨plainVertex.id, plainVertex.data, loneTree⟩).toBytes (codedEnv loneTree)).getD []) =
          .ok (some (.vertex ⟨plainVertex.id, [], loneTree⟩)) ∧
      ¬ RoundTrips (codedEnv loneTree) (.vertex ⟨plainVertex.id, plainVertex.data, loneTree⟩) := by
  refine ⟨rfl, rfl, ?_⟩
  rw [vertex_round_trip gob_of_inverts]
  simp [plainVertex]

end Ceremony
