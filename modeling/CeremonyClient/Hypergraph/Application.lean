import CeremonyClient.Crypto.ProofTree
import CeremonyClient.Lib.Table

set_option autoImplicit false

namespace Ceremony

open GoSem

structure Address where
  bytes : Bytes
  size : bytes.length = 32

theorem address_ext (a b : Address) (same : a.bytes = b.bytes) : a = b := by
  cases a
  cases b
  simp only [Address.mk.injEq]
  exact same

theorem address_eq_iff {a b : Address} : a.bytes = b.bytes ↔ a = b := ⟨address_ext a b, congrArg Address.bytes⟩

instance : DecidableEq Address := fun a b => decidable_of_iff (a.bytes = b.bytes) address_eq_iff

-- The 64 bytes of an identifier: the address of the application and that of the data.
structure AtomId where
  appAddress : Address
  dataAddress : Address
deriving DecidableEq

def AtomId.bytes (id : AtomId) : Bytes := id.appAddress.bytes ++ id.dataAddress.bytes

theorem AtomId.bytes_length (id : AtomId) : id.bytes.length = 64 := by
  rw [AtomId.bytes, List.length_append, id.appAddress.size, id.dataAddress.size]

-- The conversion of a slice to an array panics when the slice is too short, and takes its front otherwise.
def toAddress (bytes : Bytes) : Go Address :=
  if long : 32 ≤ bytes.length then .ok ⟨bytes.take 32, by rw [List.length_take]; omega⟩ else crash

def toAtomId (bytes : Bytes) : Go AtomId :=
  if bytes.length < 64 then crash else do return ⟨← toAddress bytes, ← toAddress (bytes.drop 32)⟩

inductive AtomType where
  | vertex
  | hyperedge
deriving DecidableEq

inductive PhaseType where
  | adds
  | removes
deriving DecidableEq

structure Encrypted where
  toBytes : Bytes
  getStatement : Bytes
deriving DecidableEq

structure Vertex where
  id : AtomId
  data : List Encrypted
  dataTree : VectorCommitmentTree

-- The extrinsics of a hyperedge are a map by identifier, in the order of some iteration over it.
inductive Atom where
  | vertex (v : Vertex)
  | hyperedge (id : AtomId) (extrinsics : List (AtomId × Atom)) (extTree : VectorCommitmentTree)

structure Hyperedge where
  id : AtomId
  extrinsics : List (AtomId × Atom)
  extTree : VectorCommitmentTree

def Hyperedge.atom (h : Hyperedge) : Atom := .hyperedge h.id h.extrinsics h.extTree

-- encoding/gob for the two types of values that are encoded here. Encoding fails for types that gob does not support.
structure Gob where
  encodeTree : VectorCommitmentTree → Option Bytes
  decodeTree : Bytes → Option VectorCommitmentTree
  encodeExtrinsics : List (AtomId × Atom) → Option Bytes

-- What the code calls, with the three bytes that p2p.GetBloomFilterIndices takes from a hash.
structure HypergraphEnv where
  tree : TreePrimitives
  gob : Gob
  verEncFromBytes : Bytes → Encrypted
  bloomFilterIndices : Address → { indices : Bytes // indices.length = 3 }

structure ShardKey where
  l1 : { indices : Bytes // indices.length = 3 }
  l2 : Address
deriving DecidableEq

-- 64-byte keys part within 86 nibbles.
def treeFuel : Nat := 86

namespace Atom

def getId : Atom → AtomId
  | .vertex v => v.id
  | .hyperedge id _ _ => id

def getAtomType : Atom → AtomType
  | .vertex _ => .vertex
  | .hyperedge _ _ _ => .hyperedge

def getSize : Atom → Int
  | .vertex v => v.data.length * 54
  | .hyperedge _ extrinsics _ => extrinsics.length

def commit (env : HypergraphEnv) : Atom → Bytes
  | .vertex v => (v.dataTree.commit env.tree false).2
  | .hyperedge _ _ extTree => (extTree.commit env.tree false).2

-- Nil when the encoder fails.
def toBytes (env : HypergraphEnv) : Atom → Option Bytes
  | .vertex v => do return 0 :: v.id.bytes ++ (← env.gob.encodeTree v.dataTree)
  | .hyperedge id extrinsics _ => do return 1 :: id.bytes ++ (← env.gob.encodeExtrinsics extrinsics)

end Atom

-- The values that an argument of the interface type VectorCommitmentNode can have: the tree has its methods too.
inductive NodeValue where
  | node (n : VectorCommitmentNode)
  | tree (t : VectorCommitmentTree)

def VectorCommitmentNode.leafList : VectorCommitmentNode → List (Bytes × Option Bytes)
  | .nil => []
  | .leaf key value _ _ _ => [(key, value)]
  | .branch _ children _ _ _ _ => (List.finRange 64).flatMap fun i => leafList (children i)

-- The type switch has a case for leaves and one for branches.
def getAllLeaves : NodeValue → List (Bytes × Option Bytes)
  | .node n => n.leafList
  | .tree _ => []

-- The leaves are asked of the tree itself, not of its root. The result is nil when the decoder fails.
def atomFromBytes (env : HypergraphEnv) : (fuel : Nat) → (data : Bytes) → Go (Option Atom)
  | 0, _ => .error .outOfFuel
  | fuel + 1, data => do
      let encoded ← sliceFrom data 65
      match env.gob.decodeTree encoded with
      | none => return none
      | some tree =>
          let first ← index data 0
          let id ← toAtomId (data.drop 1)
          if first = 0 then
            let encData := (getAllLeaves (.tree tree)).map fun d => env.verEncFromBytes (d.2.getD [])
            return some (.vertex ⟨id, encData, tree⟩)
          else
            -- There are no leaves, so this loop never gets to an atom.
            let extrinsics ← (getAllLeaves (.tree tree)).mapM fun a => do
              let key ← toAtomId a.1
              let atom ← atomFromBytes env fuel (a.2.getD [])
              return (key, ← deref atom)
            return some (.hyperedge id extrinsics tree)

def newVertex (env : HypergraphEnv) (id : AtomId) (data : List Encrypted) : Go Vertex := do
  let dataTree ← data.foldlM (fun tree d =>
    tree.insert treeFuel (env.tree.sha512 d.toBytes) (some d.toBytes) d.getStatement (some (data.length * 54))) emptyTree
  return ⟨id, data, dataTree⟩

def newHyperedge (id : AtomId) : Hyperedge := ⟨id, [], emptyTree⟩

def setExtrinsic (id : AtomId) (a : Atom) : List (AtomId × Atom) → List (AtomId × Atom)
  | [] => [(id, a)]
  | (other, atom) :: rest => if other = id then (id, a) :: rest else (other, atom) :: setExtrinsic id a rest

def Hyperedge.addExtrinsic (h : Hyperedge) (a : Atom) : Go Hyperedge := do
  let atomType := if a.getAtomType = .hyperedge then 1 else 0
  let extTree ← h.extTree.insert treeFuel a.getId.bytes (some (atomType :: a.getId.bytes)) [] (some a.getSize)
  return ⟨h.id, setExtrinsic a.getId a h.extrinsics, extTree⟩

-- An atom of a loaded set may be nil.
structure IdSet where
  dirty : Bool
  atomType : AtomType
  atoms : Table AtomId (Option Atom)
  tree : VectorCommitmentTree

def errInvalidAtomType : GoError := errorsNew "invalid atom type for set"
def errMissingExtrinsics : GoError := errorsNew "missing extrinsics"
def errIsExtrinsic : GoError := errorsNew "is extrinsic"

namespace IdSet

def new (atomType : AtomType) : IdSet := ⟨false, atomType, ∅, emptyTree⟩

def fromBytes (env : HypergraphEnv) (set : IdSet) (treeData : Bytes) : Go IdSet := do
  match env.gob.decodeTree treeData with
  | none => raise ((errorsNew "gob").wrap "load set")
  | some tree =>
      let atoms ← (getAllLeaves (.node tree.root)).foldlM (fun (atoms : Table AtomId (Option Atom)) leaf => do
        let key ← toAtomId leaf.1
        return atoms.insert key (← atomFromBytes env 1 (leaf.2.getD []))) set.atoms
      return { set with atoms := atoms, tree := tree }

def toBytes (env : HypergraphEnv) (set : IdSet) : Option Bytes := env.gob.encodeTree set.tree

def add (env : HypergraphEnv) (set : IdSet) (atom : Atom) : Go Unit × IdSet :=
  if atom.getAtomType ≠ set.atomType then (raise errInvalidAtomType, set)
  else
    let changed := { set with atoms := set.atoms.insert atom.getId (some atom), dirty := true }
    match set.tree.insert treeFuel atom.getId.bytes (atom.toBytes env) (atom.commit env) (some atom.getSize) with
    | .ok tree => (.ok (), { changed with tree := tree })
    | .error fault => (.error fault, changed)

def getSize (set : IdSet) : Go Int := do return (← set.tree.getSize).getD 0

def has (set : IdSet) (key : AtomId) : Bool := (set.atoms.lookup key).isSome

end IdSet

-- The four maps of sets by shard: vertexAdds is sets .vertex .adds, and so on.
structure Hypergraph where
  size : Int
  sets : AtomType → PhaseType → Table ShardKey IdSet

namespace Hypergraph

variable (env : HypergraphEnv)

def new : Hypergraph := ⟨0, fun _ _ => ∅⟩

def getShardKey (id : AtomId) : ShardKey := ⟨env.bloomFilterIndices id.appAddress, id.appAddress⟩

def withSet (hg : Hypergraph) (t : AtomType) (p : PhaseType) (shard : ShardKey) (set : IdSet) : Hypergraph :=
  { hg with sets := fun t' p' => if t' = t ∧ p' = p then (hg.sets t p).insert shard set else hg.sets t' p' }

def createIdSet (t : AtomType) (p : PhaseType) (shard : ShardKey) (hg : Hypergraph) : Hypergraph :=
  if shard ∈ hg.sets t p then hg else hg.withSet t p shard (IdSet.new t)

-- The pointers that the source returns are those under the shard key afterwards.
def getOrCreateIdSet (t : AtomType) (shard : ShardKey) (hg : Hypergraph) : Hypergraph :=
  (hg.createIdSet t .adds shard).createIdSet t .removes shard

def has (hg : Hypergraph) (t : AtomType) (p : PhaseType) (id : AtomId) : Bool :=
  match (hg.sets t p).lookup (getShardKey env id) with
  | none => false
  | some set => set.has id

def addTo (t : AtomType) (p : PhaseType) (atom : Atom) (hg : Hypergraph) : Go Unit × Hypergraph :=
  match (hg.sets t p).lookup (getShardKey env atom.getId) with
  | none => (crash, hg)
  | some set =>
      let added := set.add env atom
      (added.1, hg.withSet t p (getShardKey env atom.getId) added.2)

def importFromBytes (t : AtomType) (p : PhaseType) (shardKey : ShardKey) (data : Bytes) (hg : Hypergraph) : Go Hypergraph := do
  let set ← wrapErr "import from bytes" (IdSet.fromBytes env (IdSet.new t) data)
  let size ← set.getSize
  let changed := hg.withSet t p shardKey set
  match p with
  | .adds => return { changed with size := hg.size + size }
  | .removes => return { changed with size := hg.size - size }

def lookupVertex (v : Vertex) (hg : Hypergraph) : Bool × Hypergraph :=
  let hg := hg.getOrCreateIdSet .vertex (getShardKey env v.id)
  (hg.has env .vertex .adds v.id && !hg.has env .vertex .removes v.id, hg)

mutual
def lookupAtom : Atom → Hypergraph → Bool × Hypergraph
  | .vertex v, hg => lookupVertex env v hg
  | .hyperedge id extrinsics _, hg =>
      let created := hg.getOrCreateIdSet .hyperedge (getShardKey env id)
      let found := lookupAtomSet extrinsics created
      (found.1 && found.2.has env .hyperedge .adds id && !found.2.has env .hyperedge .removes id, found.2)
-- The order of the iteration decides which empty sets are created on the way, and nothing else.
def lookupAtomSet : List (AtomId × Atom) → Hypergraph → Bool × Hypergraph
  | [], hg => (true, hg)
  | (_, atom) :: rest, hg =>
      let found := lookupAtom atom hg
      if found.1 then lookupAtomSet rest found.2 else (false, found.2)
end

def lookupHyperedge (h : Hyperedge) (hg : Hypergraph) : Bool × Hypergraph := lookupAtom env h.atom hg

def isExtrinsic (hg : Hypergraph) (id : AtomId) : Bool :=
  (hg.sets .hyperedge .adds).entries.any fun shard => shard.2.atoms.entries.any fun entry =>
    match entry.2 with
    | some (.hyperedge _ extrinsics _) => extrinsics.any fun e => e.1 = id
    | _ => false

def addVertex (v : Vertex) (hg : Hypergraph) : Go Unit × Hypergraph :=
  let created := hg.getOrCreateIdSet .vertex (getShardKey env v.id)
  let counted := { created with size := created.size + (Atom.vertex v).getSize }
  let added := counted.addTo env .vertex .adds (.vertex v)
  (wrapErr "add vertex" added.1, added.2)

def addHyperedge (h : Hyperedge) (hg : Hypergraph) : Go Unit × Hypergraph :=
  let found := lookupAtomSet env h.extrinsics hg
  if found.1 = false then (raise errMissingExtrinsics, found.2)
  else
    let created := found.2.getOrCreateIdSet .hyperedge (getShardKey env h.id)
    if created.has env .hyperedge .removes h.id then (.ok (), created)
    else
      let counted := { created with size := created.size + h.atom.getSize }
      let added := counted.addTo env .hyperedge .adds h.atom
      (wrapErr "add hyperedge" added.1, added.2)

-- RemoveVertex and RemoveHyperedge after their lookups.
def remove (atom : Atom) (text : String) (live : Bool) (hg : Hypergraph) : Go Unit × Hypergraph :=
  let t := atom.getAtomType
  if live = false then
    let created := hg.getOrCreateIdSet t (getShardKey env atom.getId)
    let added := created.addTo env t .adds atom
    match added.1 with
    | .error fault => (wrapErr text (.error fault), added.2)
    | .ok _ =>
        let removed := added.2.addTo env t .removes atom
        (wrapErr text removed.1, removed.2)
  else if hg.isExtrinsic atom.getId then (raise errIsExtrinsic, hg)
  else
    let created := hg.getOrCreateIdSet t (getShardKey env atom.getId)
    let counted := { created with size := created.size - atom.getSize }
    counted.addTo env t .removes atom

def removeVertex (v : Vertex) (hg : Hypergraph) : Go Unit × Hypergraph :=
  let found := lookupVertex env v hg
  remove env (.vertex v) "remove vertex" found.1 found.2

def removeHyperedge (h : Hyperedge) (hg : Hypergraph) : Go Unit × Hypergraph :=
  let found := lookupHyperedge env h hg
  remove env h.atom "remove hyperedge" found.1 found.2

-- A nil remove set panics when it is asked, and an error of Add is dropped.
def reconcile (t : AtomType) (asked : AtomId → Option Atom → Go AtomId) (shardKey : ShardKey) (hg : Hypergraph) : Go IdSet :=
  match (hg.sets t .adds).lookup shardKey with
  | none => .ok (IdSet.new t)
  | some addSet =>
      addSet.atoms.entries.foldlM (fun result entry => do
        let id ← asked entry.1 entry.2
        let removeSet ← deref ((hg.sets t .removes).lookup shardKey)
        if removeSet.has id then return result
        else
          let atom ← deref entry.2
          let added := result.add env atom
          let _ ← attempt added.1
          return added.2) (IdSet.new t)

def getReconciledVertexSetForShard (shardKey : ShardKey) (hg : Hypergraph) : Go IdSet :=
  hg.reconcile env .vertex (fun id _ => .ok id) shardKey

def getReconciledHyperedgeSetForShard (shardKey : ShardKey) (hg : Hypergraph) : Go IdSet :=
  hg.reconcile env .hyperedge (fun _ atom => do return (← deref atom).getId) shardKey

end Hypergraph

inductive HypergraphCall where
  | addVertex (v : Vertex)
  | addHyperedge (h : Hyperedge)
  | removeVertex (v : Vertex)
  | removeHyperedge (h : Hyperedge)

def HypergraphCall.on (env : HypergraphEnv) (hg : Hypergraph) : HypergraphCall → Go Unit × Hypergraph
  | .addVertex v => hg.addVertex env v
  | .addHyperedge h => hg.addHyperedge env h
  | .removeVertex v => hg.removeVertex env v
  | .removeHyperedge h => hg.removeHyperedge env h

end Ceremony
