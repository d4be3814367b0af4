import Waglayla.Mining.Mempool.OrphanPool

-- The mempool's two pools and the removal of a transaction with its redeemers.

namespace Waglayla.Mining

open Waglayla.Consensus

structure Mempool where
  transaction_pool : TransactionsPool
  orphan_pool : OrphanPool

namespace Mempool

def new : Mempool := ⟨TransactionsPool.new, OrphanPool.new⟩

-- The `for tx_id in removed_transactions` loop: each transaction leaves the transaction pool,
-- then the orphan pool is updated for it; `?` returns at the first error.
def remove_transactions (self : Mempool) (remove_redeemers : Bool) :
    List TransactionId → Option (Mempool × Except RuleError Unit)
  | [] => some (self, .ok ())
  | tx_id :: ids => do
    let (transaction_pool, result) := self.transaction_pool.remove_transaction tx_id
    let self := { self with transaction_pool }
    match result with
    | .error err => return (self, .error err)
    | .ok tx =>
      let (orphan_pool, result) ←
        self.orphan_pool.update_orphans_after_transaction_removed tx remove_redeemers
      let self := { self with orphan_pool }
      match result with
      | .error err => return (self, .error err)
      | .ok _ => remove_transactions self remove_redeemers ids

-- `remove_transaction`; the reason and the extra text are only logged.
def remove_transaction (self : Mempool) (transaction_id : TransactionId)
    (remove_redeemers : Bool) : Option (Mempool × Except RuleError Unit) := do
  if self.orphan_pool.has transaction_id then
    let (orphan_pool, result) ← self.orphan_pool.remove_orphan transaction_id true
    return ({ self with orphan_pool }, result.map fun _ => ())
  if !Pool.has self.transaction_pool.all_transactions transaction_id then return (self, .ok ())
  let redeemers ← if remove_redeemers then
      Pool.get_redeemer_ids_in_pool self.transaction_pool.all_transactions
        self.transaction_pool.chained_transactions transaction_id
    else pure []
  self.remove_transactions remove_redeemers (transaction_id :: redeemers)

-- The states the mempool reaches through its entry points, with consensus left out: a
-- transaction whose outpoints were all found joins the transaction pool
-- (`post_validate_and_insert_transaction`), one with a missing outpoint joins the orphan pool
-- after the orphan checks (`try_add_orphan`), orphans leave it (eviction, expiry,
-- unorphaning) and transactions are removed.
inductive Reachable : Mempool → Prop
  | new : Reachable new
  | add_transaction {self : Mempool} {transaction : MempoolTransaction}
      {transaction_pool : TransactionsPool} : Reachable self →
      self.transaction_pool.check_double_spends transaction.mtx = .ok () →
      (∀ y ty, self.transaction_pool.all_transactions.lookup y = some ty →
        ¬spends ty transaction.id) →
      self.transaction_pool.add_mempool_transaction transaction = some transaction_pool →
      Reachable { self with transaction_pool }
  | add_orphan {self : Mempool} {transaction : MempoolTransaction} : Reachable self →
      Pool.has self.transaction_pool.all_transactions transaction.id = false →
      self.transaction_pool.check_double_spends transaction.mtx = .ok () →
      transaction.mtx.is_verifiable = false →
      self.orphan_pool.check_orphan_duplicate transaction.mtx = .ok () →
      self.orphan_pool.check_orphan_double_spend transaction.mtx = .ok () →
      Reachable { self with orphan_pool := self.orphan_pool.add_orphan transaction }
  | remove_orphan {self : Mempool} {orphan_pool : OrphanPool}
      {result : Except RuleError (List MempoolTransaction)} (transaction_id : TransactionId) :
      Reachable self →
      self.orphan_pool.remove_orphan transaction_id false = some (orphan_pool, result) →
      Reachable { self with orphan_pool }
  | remove_transaction {self self' : Mempool} {result : Except RuleError Unit}
      (transaction_id : TransactionId) (remove_redeemers : Bool) : Reachable self →
      self.remove_transaction transaction_id remove_redeemers = some (self', result) →
      Reachable self'

section OrphanRedeemer

-- A pool transaction and an orphan spending its output and an outpoint nobody has.

def redeemed_entry : UtxoEntry := ⟨1000, ⟨0, []⟩, 0, false⟩

-- Spends an outpoint of the UTXO set and has one output.
def redeemed_transaction : MempoolTransaction :=
  ⟨⟨⟨0, [⟨⟨[0], 0⟩, [], 0, 1⟩], [⟨1000, ⟨0, []⟩⟩], 0, SUBNETWORK_ID_NATIVE, 0, [], 0, [1]⟩,
    [some redeemed_entry], some 0, some 0, rfl⟩, .Low, 0⟩

-- Spends output 0 of `redeemed_transaction` and an outpoint that is missing.
def orphan_redeemer : MempoolTransaction :=
  ⟨⟨⟨0, [⟨⟨[1], 0⟩, [], 0, 1⟩, ⟨⟨[3], 0⟩, [], 0, 1⟩], [⟨500, ⟨0, []⟩⟩], 0, SUBNETWORK_ID_NATIVE,
    0, [], 0, [2]⟩, [some redeemed_entry, none], none, some 0, rfl⟩, .Low, 0⟩

def orphan_redeemer_mempool : Mempool :=
  let self : Mempool := { new with
    transaction_pool := (TransactionsPool.new.add_mempool_transaction redeemed_transaction).getD
      TransactionsPool.new }
  { self with orphan_pool := self.orphan_pool.add_orphan orphan_redeemer }

end OrphanRedeemer

-- Removing `redeemed_transaction` with its redeemers succeeds and leaves the orphan that
-- spends its output.
theorem remove_transaction_leaves_orphan_redeemer :
    Reachable orphan_redeemer_mempool ∧
      ∃ self', orphan_redeemer_mempool.remove_transaction redeemed_transaction.id true =
          some (self', .ok ()) ∧
        self'.orphan_pool.all_orphans.lookup orphan_redeemer.id = some orphan_redeemer ∧
        spends orphan_redeemer redeemed_transaction.id := by
  have hadd : Reachable { new with
      transaction_pool := (TransactionsPool.new.add_mempool_transaction redeemed_transaction).getD
        TransactionsPool.new } :=
    @Reachable.add_transaction _ redeemed_transaction _ .new (by decide)
      (fun y ty h => by simp [new, TransactionsPool.new] at h) (by rfl)
  refine ⟨.add_orphan hadd (by decide) (by decide) (by decide) (by decide) (by decide),
    _, by rfl, by decide, by decide⟩

end Mempool

end Waglayla.Mining
