import CeremonyClient.Lib.Bytes
import CeremonyClient.Lib.Go
import CeremonyClient.Lib.CritBit
import CeremonyClient.Lib.State
import CeremonyClient.Lib.Panics
import CeremonyClient.Lib.Returns
import CeremonyClient.Lib.Chunks
import CeremonyClient.Lib.Locks
import CeremonyClient.Lib.Passes
import CeremonyClient.Lib.Table
import CeremonyClient.Lib.Runs
import CeremonyClient.Lib.PrefixTrie
import CeremonyClient.Lib.KeyOrder
import CeremonyClient.Lib.Batch
import CeremonyClient.Lib.OptionLoops
import CeremonyClient.Lib.Sharing
import CeremonyClient.Protobufs.Messages
import CeremonyClient.Protobufs.Primitives
import CeremonyClient.Protobufs.Validation
import CeremonyClient.Protobufs.ValidationSafety
import CeremonyClient.Tries.MinHeap
import CeremonyClient.Tries.Critbit
import CeremonyClient.Tries.RollingFrecency
import CeremonyClient.Tries.ProofLeaf
import CeremonyClient.Tries.Unpacking
import CeremonyClient.Tries.TrieMap
import CeremonyClient.Tries.Nearest
import CeremonyClient.Token.Application
import CeremonyClient.Store.Coin
import CeremonyClient.Store.CoinIndex
import CeremonyClient.Store.DataProof
import CeremonyClient.Store.Clock
import CeremonyClient.Store.ClockTries
import CeremonyClient.Store.Inclusions
import CeremonyClient.Store.AggregateProofs
import CeremonyClient.Token.Coins
import CeremonyClient.Token.Provers
import CeremonyClient.Token.Mint
import CeremonyClient.Token.Rings
import CeremonyClient.Token.RingCapacity
import CeremonyClient.Token.Eviction
import CeremonyClient.Token.Promotion
import CeremonyClient.Token.ProcessFrame
import CeremonyClient.Token.Transitions
import CeremonyClient.Token.Slots
import CeremonyClient.Token.Selection
import CeremonyClient.Token.Replay
import CeremonyClient.Token.Accounting
import CeremonyClient.Token.Ledger
import CeremonyClient.Token.Emission
import CeremonyClient.Token.SignatureBinding
import CeremonyClient.Token.MintChain
import CeremonyClient.Token.ProofAgreement
import CeremonyClient.Token.MintBounds
import CeremonyClient.Crypto.FrameProver
import CeremonyClient.Store.Staging
import CeremonyClient.Time.DataTimeReel
import CeremonyClient.Time.Linkage
import CeremonyClient.Time.Pending
import CeremonyClient.Time.Wakeup
import CeremonyClient.Time.Signals
import CeremonyClient.Time.MasterTimeReel
import CeremonyClient.Consensus.Gossip
import CeremonyClient.Consensus.RemoteInput
import CeremonyClient.Consensus.Sync
import CeremonyClient.Consensus.ProverSigned
import CeremonyClient.Consensus.CircularBuffer
import CeremonyClient.Consensus.FragmentBuffer
import CeremonyClient.Consensus.Fragmentation
import CeremonyClient.Consensus.Reassembly
import CeremonyClient.Consensus.Consistency
import CeremonyClient.Crypto.Nibbles
import CeremonyClient.Crypto.ProofTree
import CeremonyClient.Crypto.TreeShape
import CeremonyClient.Crypto.TreeCommit
import CeremonyClient.Crypto.TreeHistory
import CeremonyClient.Crypto.TreeBinding
import CeremonyClient.Crypto.TreeMembership
import CeremonyClient.Crypto.TreeMetadata
import CeremonyClient.Crypto.VerifiableEncryption
import CeremonyClient.Verenc.Rdkgith
import CeremonyClient.Verenc.Expansion
import CeremonyClient.Verenc.Recovery
import CeremonyClient.Verenc.Verification
import CeremonyClient.Verenc.Untrusted
import CeremonyClient.Hypergraph.Application
import CeremonyClient.Hypergraph.TwoPhase
import CeremonyClient.Hypergraph.Members
import CeremonyClient.Hypergraph.Removal
import CeremonyClient.Hypergraph.Accounting
import CeremonyClient.Hypergraph.Integrity
import CeremonyClient.Hypergraph.Convergence
import CeremonyClient.Hypergraph.Encoding
import CeremonyClient.Store.Hypergraph
import CeremonyClient.Hypergraph.Loading
import CeremonyClient.Hypergraph.Persistence
import CeremonyClient.Hypergraph.Reconciled
import CeremonyClient.Rpm.Sketch
import CeremonyClient.Lib.Rows
import CeremonyClient.Rpm.Shares
import CeremonyClient.Rpm.Shuffle
import CeremonyClient.Rpm.ShuffleRun
import CeremonyClient.Lib.ImplicitHeap
import CeremonyClient.Tries.HeapOrder
import CeremonyClient.Tries.Unbiased
import CeremonyClient.Verenc.ChunkCodec
import CeremonyClient.Rpm.DotProduct
import CeremonyClient.BlossomSub.Peers
import CeremonyClient.Feldman.Redistribution
