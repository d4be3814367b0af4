import Waglayla.Graph.Acyclic
import Waglayla.Mining.Mempool.OrphanPool
import Waglayla.Mining.Mempool.Redeemers

-- The owner index of the orphan pool under `add_orphan` and `remove_single_orphan`.

namespace Waglayla.Mining

open Waglayla.Consensus

-- Every chained set lists each id once.
def EdgesNodup (chained : TransactionsEdges) : Prop :=
  ∀ x cs, chained.lookup x = some cs → cs.Nodup

namespace OrphanPool

section OwnerIndex

variable {f : OutpointIndex × Option RuleError → TransactionInput × Nat →
    OutpointIndex × Option RuleError} {g : TransactionInput → Nat → RuleError}

-- The owner loop of `remove_single_orphan`, one input: the entry is removed, or reported
-- missing.
section EraseOwner

variable (hf : ∀ owner error input i, f (owner, error) (input, i) =
  if input.previous_outpoint ∈ owner then (owner.erase input.previous_outpoint, error)
  else (owner, some (g input i)))
include hf

end EraseOwner

end OwnerIndex

end OrphanPool

end Waglayla.Mining
