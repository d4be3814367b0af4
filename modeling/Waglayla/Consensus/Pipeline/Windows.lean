import Waglayla.Consensus.Pipeline.Built
import Waglayla.Consensus.Window.Sampled

-- Block windows over a DAG the pipeline built, for both window managers.

namespace Waglayla.Consensus.HeaderProcessor

open GhostdagManager TopK

-- Managers over the node that holds genesis only, with the legacy and the sampled window
-- sizes and sample rates of a network of one block per second.
def genesis_full_manager : FullWindowManager :=
  ⟨genesis_node.genesis_hash, genesis_node.ghostdag_store, ∅, ∅, 2641, 263⟩

def genesis_sampled_manager : SampledWindowManager :=
  ⟨genesis_node.genesis_hash, genesis_node.ghostdag_store,
    (∅ : AList fun _ : Hash => Nat).insert [1] 0,
    ∅, ∅, 661, 4, 27, 10⟩

-- Managers over the forked DAG with empty caches and the DAA scores of its blocks: [5]
-- merges three blocks and [6] extends it.
def fork_full_manager : FullWindowManager :=
  ⟨[1], fork_node_6.ghostdag_store, ∅, ∅, 2641, 263⟩

def fork_sampled_manager : SampledWindowManager :=
  ⟨[1], fork_node_6.ghostdag_store,
    ((((((∅ : AList fun _ : Hash => Nat).insert [1] 0).insert [2] 1).insert [3] 1).insert [4] 1).insert
      [5] 4).insert [6] 5, ∅, ∅, 661, 4, 27, 10⟩

end Waglayla.Consensus.HeaderProcessor
