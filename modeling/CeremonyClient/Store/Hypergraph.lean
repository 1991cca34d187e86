import CeremonyClient.Hypergraph.Application

set_option autoImplicit false

namespace Ceremony

open GoSem

def hypergraphShard : UInt8 := 0x09
def vertexAdds : UInt8 := 0x00
def vertexRemoves : UInt8 := 0x10
def hyperedgeAdds : UInt8 := 0x01
def hyperedgeRemoves : UInt8 := 0x11

def hypergraphKey (kind : UInt8) (shardKey : ShardKey) : Bytes := hypergraphShard :: kind :: (shardKey.l1.val ++ shardKey.l2.bytes)

def hypergraphVertexAddsKey (shardKey : ShardKey) : Bytes := hypergraphKey vertexAdds shardKey
def hypergraphVertexRemovesKey (shardKey : ShardKey) : Bytes := hypergraphKey vertexRemoves shardKey
def hypergraphHyperedgeAddsKey (shardKey : ShardKey) : Bytes := hypergraphKey hyperedgeAdds shardKey
def hypergraphHyperedgeRemovesKey (shardKey : ShardKey) : Bytes := hypergraphKey hyperedgeRemoves shardKey

def shardKeyFromKey (key : Bytes) : Go ShardKey := do
  let l1 ← slice key 2 5
  let l2 ← toAddress (← sliceFrom key 5)
  if size : l1.length = 3 then return ⟨⟨l1, size⟩, l2⟩ else crash

-- One of the four loops: every key from the lower bound on and below the upper one is taken for a set of the type and phase.
def loadSets (env : HypergraphEnv) (db : Table Bytes Bytes) (t : AtomType) (p : PhaseType) (lower upper : UInt8) (hg : Hypergraph) : Go Hypergraph :=
  (db.range [hypergraphShard, lower] [hypergraphShard, upper]).foldlM (fun hg entry => do
    let shardKey ← shardKeyFromKey entry.1
    wrapErr "load hypergraph" (hg.importFromBytes env t p shardKey entry.2)) hg

def loadHypergraph (env : HypergraphEnv) (db : Table Bytes Bytes) : Go Hypergraph := do
  let hg ← loadSets env db .vertex .adds vertexAdds vertexRemoves Hypergraph.new
  let hg ← loadSets env db .vertex .removes vertexRemoves (vertexRemoves + 1) hg
  let hg ← loadSets env db .hyperedge .adds hyperedgeAdds hyperedgeRemoves hg
  loadSets env db .hyperedge .removes hyperedgeRemoves (hyperedgeRemoves + 1) hg

-- The writes of one loop over a map of sets; their keys differ, so the order of the iteration does not matter.
def saveSets (env : HypergraphEnv) (key : ShardKey → Bytes) (sets : Table ShardKey IdSet) : List (Table.Change Bytes Bytes) :=
  sets.entries.filterMap fun entry => if entry.2.dirty then some (.put (key entry.1) ((entry.2.toBytes env).getD [])) else none

def saveHypergraph (env : HypergraphEnv) (txn : List (Table.Change Bytes Bytes)) (hg : Hypergraph) : List (Table.Change Bytes Bytes) :=
  txn ++ saveSets env hypergraphVertexAddsKey (hg.sets .vertex .adds) ++ saveSets env hypergraphVertexRemovesKey (hg.sets .vertex .removes) ++
    saveSets env hypergraphHyperedgeAddsKey (hg.sets .hyperedge .adds) ++ saveSets env hypergraphHyperedgeRemovesKey (hg.sets .hyperedge .removes)

end Ceremony
