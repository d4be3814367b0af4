import Waglayla.TxScript.Opcodes
import Waglayla.TxScript.SigOpCount
import Waglayla.Bits.Regroup
import Waglayla.Addresses.Address
import Waglayla.Addresses.Bech32
import Waglayla.Addresses.Codec
import Waglayla.Maps.AListFold
import Waglayla.Maps.IndexMap
import Waglayla.Trees.Finite
import Waglayla.Trees.Labelling
import Waglayla.Consensus.Utxo.Collection
import Waglayla.Consensus.Utxo.Diff
import Waglayla.Consensus.Utxo.DiffFrom
import Waglayla.Consensus.PruningProof
import Waglayla.Consensus.Ghostdag.Data
import Waglayla.Consensus.Ghostdag.Protocol
import Waglayla.Graph.Past
import Waglayla.Graph.Acyclic
import Waglayla.Lists.MergeJoin
import Waglayla.Lists.TopK
import Waglayla.Lists.MinMax
import Waglayla.Lists.BinarySearch
import Waglayla.Numbers.Mantissa
import Waglayla.Numbers.Word
import Waglayla.Numbers.Limbs
import Waglayla.Math.Uint
import Waglayla.Math.UintDiv
import Waglayla.Math.UintCodec
import Waglayla.Consensus.Ghostdag.Blues
import Waglayla.Consensus.Ghostdag.Coloring
import Waglayla.Consensus.Ghostdag.Mergeset
import Waglayla.Consensus.Ghostdag.Run
import Waglayla.Consensus.Ghostdag.Ordering
import Waglayla.Consensus.Pipeline.HeaderProcessor
import Waglayla.Consensus.Pipeline.Commit
import Waglayla.Consensus.Pipeline.Built
import Waglayla.Bytes.LittleEndian
import Waglayla.Bytes.PrefixCode
import Waglayla.Consensus.Coinbase
import Waglayla.Consensus.Tx
import Waglayla.Consensus.Hashing.Sighash
import Waglayla.Consensus.Hashing.Tx
import Waglayla.Consensus.Hashing.Header
import Waglayla.Consensus.Mass
import Waglayla.Wallet.Mass
import Waglayla.Wallet.Mnemonic
import Waglayla.Consensus.Window.Heap
import Waglayla.Consensus.Window.Manager
import Waglayla.Consensus.Window.Chain
import Waglayla.Consensus.Window.Full
import Waglayla.Consensus.Window.Sampled
import Waglayla.Consensus.Pipeline.Windows
import Waglayla.Consensus.BlockDepth
import Waglayla.Consensus.Traversal
import Waglayla.Consensus.Reachability.Interval
import Waglayla.Consensus.Reachability.Reindex
import Waglayla.Consensus.Reachability.Inquirer
import Waglayla.Consensus.Reachability.ReindexIntervals
import Waglayla.Consensus.Reachability.Reclaim
import Waglayla.Consensus.Reachability.ReindexAtRoot
import Waglayla.Consensus.Reachability.Tree
import Waglayla.Consensus.Reachability.Dag
import Waglayla.Consensus.Difficulty.Compact
import Waglayla.Consensus.Difficulty.Retarget
import Waglayla.Mining.TopologicalIndex
import Waglayla.Mining.TopologicalDfs
import Waglayla.Mining.TopologicalSort
import Waglayla.Mining.Mempool.Model
import Waglayla.Mining.Mempool.TransactionsPool
import Waglayla.Mining.Mempool.OrphanPool
import Waglayla.Mining.Mempool.Mempool
import Waglayla.Mining.Mempool.Redeemers
import Waglayla.Mining.Mempool.OrphanInv
import Waglayla.TxScript.DataStack
import Waglayla.TxScript.Engine
import Waglayla.TxScript.ScriptBuilder
import Waglayla.TxScript.CheckMultiSig
import Waglayla.TxScript.Standard
import Waglayla.Notify.Tracker
import Waglayla.Notify.Counts
import Waglayla.Notify.Stability
import Waglayla.Consensus.Reachability.Concentrate
