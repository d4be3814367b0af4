import Waglayla.Mining.Mempool.TransactionsPool

-- The mempool's orphan pool. An eviction picks the first low-priority orphan in the map's order,
-- where the source's `HashMap` gives an arbitrary one; `u64` overflow and `unwrap` are `none`.

namespace Waglayla.Mining

open Waglayla.Consensus

-- The orphan pool's part of the mempool `Config`.
structure Config where
  orphan_expire_interval_daa_score : UInt64
  orphan_expire_scan_interval_daa_score : UInt64
  maximum_orphan_transaction_mass : UInt64
  maximum_orphan_transaction_count : UInt64

-- `a + b` on `u64`, which panics on overflow.
def u64_add (a b : UInt64) : Option UInt64 :=
  if a.toNat + b.toNat < 2 ^ 64 then some (a + b) else none

structure OrphanPool where
  all_orphans : MempoolTransactionCollection
  chained_orphans : TransactionsEdges
  outpoint_owner_id : OutpointIndex
  last_expire_scan : UInt64

-- `orphan.mtx.entries[i] = None` for every input spending from `transaction_id`.
def MutableTransaction.clear_entries (self : MutableTransaction) (transaction_id : TransactionId) :
    MutableTransaction :=
  { self with
    entries := (self.tx.inputs.zip self.entries).map fun (input, entry) =>
      if input.previous_outpoint.transaction_id = transaction_id then none else entry
    entries_length := by simp [self.entries_length] }

namespace OrphanPool

def new : OrphanPool := ⟨∅, ∅, ∅, 0⟩

def has (self : OrphanPool) (transaction_id : TransactionId) : Bool :=
  Pool.has self.all_orphans transaction_id

def outpoint_orphan (self : OrphanPool) (outpoint : TransactionOutpoint) :
    Option MempoolTransaction :=
  (self.outpoint_owner_id.lookup outpoint).bind fun id => self.all_orphans.lookup id

def check_orphan_duplicate (self : OrphanPool) (transaction : MutableTransaction) :
    Except RuleError Unit :=
  if self.has transaction.id then .error (.RejectDuplicateOrphan transaction.id) else pure ()

def check_orphan_double_spend (self : OrphanPool) (transaction : MutableTransaction) :
    Except RuleError Unit :=
  transaction.tx.inputs.forM fun input =>
    match self.outpoint_orphan input.previous_outpoint with
    | some double_spend_orphan =>
      if double_spend_orphan.id ≠ transaction.id then
        .error (.RejectDoubleSpendOrphan transaction.id double_spend_orphan.id)
      else pure ()
    | none => pure ()

-- The owner entries of the inputs first, then the incoming edges from orphan parents, then
-- the outgoing edges to orphans already spending an output, found through the updated owner
-- index; the transaction itself is stored last.
def add_orphan (self : OrphanPool) (transaction : MempoolTransaction) : OrphanPool :=
  let id := transaction.id
  let outpoint_owner_id := transaction.mtx.tx.inputs.foldl
    (fun owner input => owner.insert input.previous_outpoint id) self.outpoint_owner_id
  let chained := TransactionsPool.add_chained self.chained_orphans
    (Pool.get_parent_transaction_ids_in_pool self.all_orphans transaction.mtx) id
  let indexed : OrphanPool := { self with outpoint_owner_id }
  let chained := (List.range transaction.mtx.tx.outputs.length).foldl (fun chained i =>
    match indexed.outpoint_orphan ⟨id, i.toUInt32⟩ with
    | some orphan => chained.insert id (((chained.lookup id).getD []).insert orphan.id)
    | none => chained) chained
  { self with
    all_orphans := self.all_orphans.insert id transaction
    chained_orphans := chained
    outpoint_owner_id }

-- `entry.remove(transaction_id)` in the chained set of a parent, dropping a set left empty.
def erase_chained_orphan (chained : TransactionsEdges) (transaction_id parent_id : TransactionId) :
    TransactionsEdges :=
  match chained.lookup parent_id with
  | some entry =>
    if (entry.erase transaction_id).isEmpty then chained.erase parent_id
    else chained.insert parent_id (entry.erase transaction_id)
  | none => chained

-- The maps are updated before the result is known: a missing owner entry is reported after
-- all of them are removed, the one of the last such input.
def remove_single_orphan (self : OrphanPool) (transaction_id : TransactionId) :
    OrphanPool × Except RuleError MempoolTransaction :=
  match self.all_orphans.lookup transaction_id with
  | some transaction =>
    let all_orphans := self.all_orphans.erase transaction_id
    let parents := Pool.get_parent_transaction_ids_in_pool all_orphans transaction.mtx
    let chained := (parents.foldl (fun chained parent_id =>
      erase_chained_orphan chained transaction_id parent_id) self.chained_orphans).erase
        transaction_id
    let (owner, error) := transaction.mtx.tx.inputs.zipIdx.foldl (fun (owner, error) (input, i) =>
      if input.previous_outpoint ∈ owner then (owner.erase input.previous_outpoint, error)
      else (owner, some (RuleError.RejectMissingOrphanOutpoint i transaction.id
        input.previous_outpoint))) (self.outpoint_owner_id, none)
    ({ self with all_orphans, chained_orphans := chained, outpoint_owner_id := owner },
      match error with
        | none => .ok transaction
        | some err => .error err)
  | none => (self, .error (.RejectMissingOrphanTransaction transaction_id))

-- `ids.iter().map(|x| self.remove_single_orphan(x)).collect::<RuleResult<Vec<_>>>()`: the
-- removals run in order and stop at the first error.
def remove_orphans (self : OrphanPool) :
    List TransactionId → OrphanPool × Except RuleError (List MempoolTransaction)
  | [] => (self, .ok [])
  | transaction_id :: ids =>
    match self.remove_single_orphan transaction_id with
    | (self, .ok transaction) =>
      match remove_orphans self ids with
      | (self, .ok transactions) => (self, .ok (transaction :: transactions))
      | (self, .error err) => (self, .error err)
    | (self, .error err) => (self, .error err)

def remove_orphan (self : OrphanPool) (transaction_id : TransactionId) (remove_redeemers : Bool) :
    Option (OrphanPool × Except RuleError (List MempoolTransaction)) := do
  if !self.has transaction_id then return (self, .ok [])
  let redeemers ← if remove_redeemers then
      Pool.get_redeemer_ids_in_pool self.all_orphans self.chained_orphans transaction_id
    else pure []
  return self.remove_orphans (transaction_id :: redeemers)

def remove_redeemers_of (self : OrphanPool) (transaction_id : TransactionId) :
    Option (OrphanPool × Except RuleError (List MempoolTransaction)) := do
  let redeemers ← Pool.get_redeemer_ids_in_pool self.all_orphans self.chained_orphans transaction_id
  return self.remove_orphans redeemers

-- Without redeemer removal, the orphan owning each output of the removed transaction loses
-- the entries its inputs took from that transaction.
def update_orphans_after_transaction_removed (self : OrphanPool)
    (removed_transaction : MempoolTransaction) (remove_redeemers : Bool) :
    Option (OrphanPool × Except RuleError (List MempoolTransaction)) :=
  let removed_transaction_id := removed_transaction.id
  if remove_redeemers then self.remove_redeemers_of removed_transaction_id
  else
    some ((List.range removed_transaction.mtx.tx.outputs.length).foldl (fun self i =>
      match self.outpoint_owner_id.lookup ⟨removed_transaction_id, i.toUInt32⟩ with
      | some id =>
        match self.all_orphans.lookup id with
        | some orphan =>
          { self with
            all_orphans := self.all_orphans.insert id
              { orphan with mtx := orphan.mtx.clear_entries removed_transaction_id } }
        | none => self
      | none => self) self, .ok [])

variable (config : Config)

def check_orphan_mass (transaction : MutableTransaction) : Option (Except RuleError Unit) :=
  transaction.calculated_compute_mass.map fun mass =>
    if mass > config.maximum_orphan_transaction_mass then
      .error (.RejectBadOrphanMass mass config.maximum_orphan_transaction_mass)
    else pure ()

def get_random_low_priority_orphan (self : OrphanPool) : Option MempoolTransaction :=
  (self.all_orphans.entries.map (·.2)).find? fun x => x.priority == .Low

-- The `while` loop of `limit_orphan_pool_size`. Each round that goes on removes the orphan it
-- picked, so the loop ends within one round per orphan and one more; `fuel` is that count.
def limit_orphan_pool_size_loop (free_slots : Nat) : Nat → OrphanPool →
    Option (OrphanPool × Except RuleError Unit)
  | fuel, self =>
    if self.all_orphans.entries.length + free_slots >
        config.maximum_orphan_transaction_count.toNat then
      match fuel with
      | 0 => none
      | fuel + 1 =>
        match self.get_random_low_priority_orphan with
        | none => some (self, .error (.RejectOrphanPoolIsFull self.all_orphans.entries.length
            config.maximum_orphan_transaction_count))
        | some orphan_to_remove => do
          let (self, result) ← self.remove_orphan orphan_to_remove.id false
          match result with
          | .error err => return (self, .error err)
          | .ok _ => limit_orphan_pool_size_loop free_slots fuel self
    else some (self, .ok ())

def limit_orphan_pool_size (self : OrphanPool) (free_slots : Nat) :
    Option (OrphanPool × Except RuleError Unit) :=
  limit_orphan_pool_size_loop config free_slots (self.all_orphans.entries.length + 1) self

-- The checks run in order and the first error returns; the mass is read only when the
-- transaction is not a duplicate.
def try_add_orphan (self : OrphanPool) (virtual_daa_score : UInt64)
    (transaction : MutableTransaction) (priority : Priority) :
    Option (OrphanPool × Except RuleError Unit) :=
  if config.maximum_orphan_transaction_count = 0 then some (self, .ok ())
  else match self.check_orphan_duplicate transaction with
  | .error err => some (self, .error err)
  | .ok () => do
    match ← check_orphan_mass config transaction with
    | .error err => return (self, .error err)
    | .ok () =>
      match self.check_orphan_double_spend transaction with
      | .error err => return (self, .error err)
      | .ok () =>
        let (self, result) ← self.limit_orphan_pool_size config 1
        match result with
        | .error err => return (self, .error err)
        | .ok () => return (self.add_orphan ⟨transaction, priority, virtual_daa_score⟩, .ok ())

-- The orphans of low priority added more than the expiry interval before; the deadline is
-- computed only for those of low priority.
def expired_low_priority_transactions (self : OrphanPool) (virtual_daa_score : UInt64) :
    Option (List TransactionId) :=
  (self.all_orphans.entries.map (·.2)).filterMapM fun x =>
    if x.priority = .Low then
      (u64_add x.added_at_daa_score config.orphan_expire_interval_daa_score).map fun deadline =>
        if virtual_daa_score > deadline then some x.id else none
    else some none

-- The `for` loop of `expire_low_priority_transactions`, which returns at the first error.
def remove_expired (self : OrphanPool) : List TransactionId →
    Option (OrphanPool × Except RuleError Unit)
  | [] => some (self, .ok ())
  | transaction_id :: ids => do
    let (self, result) ← self.remove_orphan transaction_id false
    match result with
    | .error err => return (self, .error err)
    | .ok _ => remove_expired self ids

def expire_low_priority_transactions (self : OrphanPool) (virtual_daa_score : UInt64) :
    Option (OrphanPool × Except RuleError Unit) := do
  let next_scan ← u64_add self.last_expire_scan config.orphan_expire_scan_interval_daa_score
  if virtual_daa_score < next_scan then return (self, .ok ())
  let expired ← self.expired_low_priority_transactions config virtual_daa_score
  let (self, result) ← self.remove_expired expired
  match result with
  | .error err => return (self, .error err)
  | .ok () => return ({ self with last_expire_scan := virtual_daa_score }, .ok ())

end OrphanPool

-- The orphan pool's entry points, as the mempool calls them.
inductive OrphanCall
  | try_add_orphan (virtual_daa_score : UInt64) (transaction : MutableTransaction)
      (priority : Priority)
  | remove_orphan (transaction_id : TransactionId) (remove_redeemers : Bool)
  | remove_redeemers_of (transaction_id : TransactionId)
  | update_orphans_after_transaction_removed (removed_transaction : MempoolTransaction)
      (remove_redeemers : Bool)
  | expire_low_priority_transactions (virtual_daa_score : UInt64)

namespace OrphanPool

variable (config : Config)

-- The pool after a call, whatever the call returns: an error leaves the updates made before it.
def apply (self : OrphanPool) : OrphanCall → Option OrphanPool
  | .try_add_orphan virtual_daa_score transaction priority =>
    (self.try_add_orphan config virtual_daa_score transaction priority).map Prod.fst
  | .remove_orphan transaction_id remove_redeemers =>
    (self.remove_orphan transaction_id remove_redeemers).map Prod.fst
  | .remove_redeemers_of transaction_id => (self.remove_redeemers_of transaction_id).map Prod.fst
  | .update_orphans_after_transaction_removed removed_transaction remove_redeemers =>
    (self.update_orphans_after_transaction_removed removed_transaction remove_redeemers).map
      Prod.fst
  | .expire_low_priority_transactions virtual_daa_score =>
    (self.expire_low_priority_transactions config virtual_daa_score).map Prod.fst

def run (self : OrphanPool) : List OrphanCall → Option OrphanPool
  | [] => some self
  | call :: calls => (self.apply config call).bind fun self => run self calls

end OrphanPool

end Waglayla.Mining
