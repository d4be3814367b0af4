import Waglayla.Consensus.Tx

-- What both pools of the mempool store. A `HashSet` of ids is a list without repetitions,
-- and a `HashMap` is iterated in the insertion order of its association list.

namespace Waglayla.Mining

open Waglayla.Consensus

-- `MutableTransaction`: one entry slot per input, as every constructor builds it and every
-- write by index keeps it.
structure MutableTransaction where
  tx : Transaction
  entries : List (Option UtxoEntry)
  calculated_fee : Option UInt64
  calculated_compute_mass : Option UInt64
  entries_length : entries.length = tx.inputs.length
  deriving DecidableEq

namespace MutableTransaction

def id (self : MutableTransaction) : TransactionId := self.tx.id

def is_verifiable (self : MutableTransaction) : Bool := self.entries.all Option.isSome

def is_fully_populated (self : MutableTransaction) : Bool :=
  self.is_verifiable && self.calculated_fee.isSome && self.calculated_compute_mass.isSome

end MutableTransaction

inductive Priority
  | Low
  | High
  deriving DecidableEq, Repr

-- `MempoolTransaction`: the orphan pool reads the priority and the DAA score it was added at
-- when it evicts and expires.
structure MempoolTransaction where
  mtx : MutableTransaction
  priority : Priority
  added_at_daa_score : UInt64
  deriving DecidableEq

def MempoolTransaction.id (self : MempoolTransaction) : TransactionId := self.mtx.id

abbrev MempoolTransactionCollection := AList fun _ : TransactionId => MempoolTransaction

abbrev TransactionsEdges := AList fun _ : TransactionId => List TransactionId

abbrev OutpointIndex := AList fun _ : TransactionOutpoint => TransactionId

-- The errors the modelled functions return.
inductive RuleError
  | RejectMissingTransaction (transaction_id : TransactionId)
  | RejectDoubleSpendInMempool (outpoint : TransactionOutpoint) (transaction_id : TransactionId)
  | RejectDuplicateOrphan (transaction_id : TransactionId)
  | RejectDoubleSpendOrphan (transaction_id double_spend_id : TransactionId)
  | RejectMissingOrphanOutpoint (index : Nat) (transaction_id : TransactionId)
      (outpoint : TransactionOutpoint)
  | RejectMissingOrphanTransaction (transaction_id : TransactionId)
  | RejectBadOrphanMass (mass maximum : UInt64)
  | RejectOrphanPoolIsFull (len : Nat) (maximum : UInt64)
  deriving DecidableEq, Repr

-- The transaction `y` spends an output of the transaction with id `x`.
def spends (y : MempoolTransaction) (x : TransactionId) : Prop :=
  ∃ input ∈ y.mtx.tx.inputs, input.previous_outpoint.transaction_id = x

instance (y : MempoolTransaction) (x : TransactionId) : Decidable (spends y x) :=
  inferInstanceAs (Decidable (∃ input ∈ y.mtx.tx.inputs, _))

namespace Pool

variable (all : MempoolTransactionCollection)

def has (transaction_id : TransactionId) : Bool := (all.lookup transaction_id).isSome

-- `get_parent_transaction_ids_in_pool`: the transactions of the pool whose outputs the
-- inputs spend.
def get_parent_transaction_ids_in_pool (transaction : MutableTransaction) : List TransactionId :=
  transaction.tx.inputs.foldl (fun parents input =>
    if has all input.previous_outpoint.transaction_id then
      parents.insert input.previous_outpoint.transaction_id
    else parents) []

theorem has_eq_true {transaction_id : TransactionId} :
    has all transaction_id = true ↔ transaction_id ∈ all := by
  simp [has, AList.lookup_isSome]

theorem mem_foldl_parents (inputs : List TransactionInput) (parents : List TransactionId)
    (x : TransactionId) :
    x ∈ inputs.foldl (fun parents input =>
        if has all input.previous_outpoint.transaction_id then
          parents.insert input.previous_outpoint.transaction_id
        else parents) parents ↔
      x ∈ parents ∨ x ∈ all ∧ ∃ input ∈ inputs, input.previous_outpoint.transaction_id = x := by
  induction inputs generalizing parents with
  | nil => simp
  | cons input inputs ih =>
    rw [List.foldl_cons, ih]
    by_cases hhas : has all input.previous_outpoint.transaction_id = true
    · rw [if_pos hhas, List.mem_insert_iff]
      rw [has_eq_true] at hhas
      constructor
      · rintro ((rfl | h) | ⟨hx, i, hi, rfl⟩)
        · exact .inr ⟨hhas, input, List.mem_cons_self, rfl⟩
        · exact .inl h
        · exact .inr ⟨hx, i, List.mem_cons_of_mem _ hi, rfl⟩
      · rintro (h | ⟨hx, i, hi, rfl⟩)
        · exact .inl (.inr h)
        · rcases List.mem_cons.mp hi with rfl | hi
          · exact .inl (.inl rfl)
          · exact .inr ⟨hx, i, hi, rfl⟩
    · rw [if_neg hhas]
      rw [has_eq_true] at hhas
      constructor
      · rintro (h | ⟨hx, i, hi, rfl⟩)
        · exact .inl h
        · exact .inr ⟨hx, i, List.mem_cons_of_mem _ hi, rfl⟩
      · rintro (h | ⟨hx, i, hi, rfl⟩)
        · exact .inl h
        · rcases List.mem_cons.mp hi with rfl | hi
          · exact absurd hx hhas
          · exact .inr ⟨hx, i, hi, rfl⟩

-- The parents found are the pool's transactions the inputs spend from, each listed once.
theorem mem_get_parent_transaction_ids_in_pool (transaction : MutableTransaction)
    (x : TransactionId) :
    x ∈ get_parent_transaction_ids_in_pool all transaction ↔
      x ∈ all ∧ ∃ input ∈ transaction.tx.inputs, input.previous_outpoint.transaction_id = x := by
  simp [get_parent_transaction_ids_in_pool, mem_foldl_parents]

theorem nodup_get_parent_transaction_ids_in_pool (transaction : MutableTransaction) :
    (get_parent_transaction_ids_in_pool all transaction).Nodup := by
  unfold get_parent_transaction_ids_in_pool
  generalize hparents : ([] : List TransactionId) = parents
  have hnodup : parents.Nodup := hparents ▸ List.nodup_nil
  clear hparents
  induction transaction.tx.inputs generalizing parents with
  | nil => exact hnodup
  | cons input inputs ih =>
    rw [List.foldl_cons]
    apply ih
    split_ifs
    · exact hnodup.insert
    · exact hnodup

variable (chained : TransactionsEdges)

-- One redeemer id of the dequeued transaction: a pool transaction not yet visited is
-- recorded and queued.
def visit_redeemer (state : List TransactionId × List TransactionId × List MempoolTransaction)
    (redeemer_id : TransactionId) : List TransactionId × List TransactionId × List MempoolTransaction :=
  let (visited, descendants, queue) := state
  match all.lookup redeemer_id with
  | some redeemer =>
    if redeemer_id ∈ visited then state
    else (visited.insert redeemer_id, descendants ++ [redeemer_id], queue ++ [redeemer])
  | none => state

-- The `while let Some(transaction) = queue.pop_front()` loop. Every queued transaction is a
-- pool transaction visited once, so the loop runs at most once per pool transaction and once
-- more for the start; `fuel` is that count.
def redeemers_loop : Nat → List TransactionId → List TransactionId → List MempoolTransaction →
    Option (List TransactionId)
  | _, _, descendants, [] => some descendants
  | 0, _, _, _ :: _ => none
  | fuel + 1, visited, descendants, transaction :: queue =>
    let (visited, descendants, queue) :=
      ((chained.lookup transaction.id).getD []).foldl (visit_redeemer all) (visited, descendants, queue)
    redeemers_loop fuel visited descendants queue

-- `get_redeemer_ids_in_pool`: the pool transactions reached from `transaction_id` along the
-- chained edges, in breadth-first order; none when `transaction_id` is not in the pool.
def get_redeemer_ids_in_pool (transaction_id : TransactionId) : Option (List TransactionId) :=
  match all.lookup transaction_id with
  | some transaction => redeemers_loop all chained (all.keys.length + 1) [] [] [transaction]
  | none => some []

end Pool

end Waglayla.Mining
