import Waglayla.Mining.Mempool.Redeemers
import Waglayla.Mining.TopologicalIndex

-- The mempool's transaction pool and its UTXO set. Additions and removals keep its maps in step.

namespace Waglayla.Mining

open Waglayla.Consensus

-- `UNACCEPTED_DAA_SCORE`: `u64::MAX`.
def UNACCEPTED_DAA_SCORE : UInt64 := 18446744073709551615

structure MempoolUtxoSet where
  pool_unspent_outputs : UtxoCollection
  outpoint_owner_id : OutpointIndex

namespace MempoolUtxoSet

def new : MempoolUtxoSet := ⟨∅, ∅⟩

-- The outpoint removed for each input is the transaction's own at the input's index, as the
-- source builds it, not the one the input spends.
def add_transaction (self : MempoolUtxoSet) (transaction : MutableTransaction) :
    MempoolUtxoSet :=
  let transaction_id := transaction.id
  let self := transaction.tx.inputs.zipIdx.foldl (fun self (input, i) =>
    ⟨self.pool_unspent_outputs.erase ⟨transaction_id, i.toUInt32⟩,
      self.outpoint_owner_id.insert input.previous_outpoint transaction_id⟩) self
  transaction.tx.outputs.zipIdx.foldl (fun self (output, i) =>
    { self with
      pool_unspent_outputs := self.pool_unspent_outputs.insert ⟨transaction_id, i.toUInt32⟩
        ⟨output.value, output.script_public_key, UNACCEPTED_DAA_SCORE, false⟩ }) self

-- `entries[i]` is read along the inputs, one slot per input.
def remove_transaction (self : MempoolUtxoSet) (transaction : MutableTransaction)
    (parent_ids_in_pool : List TransactionId) : MempoolUtxoSet :=
  let transaction_id := transaction.id
  let self := (transaction.tx.inputs.zip transaction.entries).foldl (fun self (input, entry) =>
    let pool_unspent_outputs := match entry with
      | some entry =>
        if input.previous_outpoint.transaction_id ∈ parent_ids_in_pool then
          self.pool_unspent_outputs.insert input.previous_outpoint entry
        else self.pool_unspent_outputs
      | none => self.pool_unspent_outputs
    ⟨pool_unspent_outputs, self.outpoint_owner_id.erase input.previous_outpoint⟩) self
  (List.range transaction.tx.outputs.length).foldl (fun self i =>
    { self with
      pool_unspent_outputs := self.pool_unspent_outputs.erase ⟨transaction_id, i.toUInt32⟩ }) self

def get_outpoint_owner_id (self : MempoolUtxoSet) (outpoint : TransactionOutpoint) :
    Option TransactionId :=
  self.outpoint_owner_id.lookup outpoint

def check_double_spends (self : MempoolUtxoSet) (transaction : MutableTransaction) :
    Except RuleError Unit :=
  let transaction_id := transaction.id
  transaction.tx.inputs.forM fun input =>
    match self.get_outpoint_owner_id input.previous_outpoint with
    | some existing_transaction_id =>
      if existing_transaction_id ≠ transaction_id then
        .error (.RejectDoubleSpendInMempool input.previous_outpoint existing_transaction_id)
      else pure ()
    | none => pure ()

section Lemmas

theorem forM_except_eq_ok {α ε : Type} {xs : List α} {g : α → Except ε Unit} :
    xs.forM g = .ok () ↔ ∀ x ∈ xs, g x = .ok () := by
  induction xs with
  | nil => simp [pure, Except.pure]
  | cons x xs ih =>
    simp only [List.forM, List.forall_mem_cons, ← ih]
    cases g x with
    | error e => simp [bind, Except.bind]
    | ok u => simp [bind, Except.bind]

-- `check_double_spends` passes when every outpoint the inputs spend is unowned or owned by
-- the transaction itself.
theorem check_double_spends_eq_ok {self : MempoolUtxoSet} {transaction : MutableTransaction} :
    self.check_double_spends transaction = .ok () ↔
      ∀ input ∈ transaction.tx.inputs, ∀ e,
        self.outpoint_owner_id.lookup input.previous_outpoint = some e → e = transaction.id := by
  rw [check_double_spends, forM_except_eq_ok]
  refine forall₂_congr fun input _ => ?_
  simp only [get_outpoint_owner_id]
  cases self.outpoint_owner_id.lookup input.previous_outpoint with
  | none => simp [pure, Except.pure]
  | some e =>
    by_cases he : e = transaction.id
    · simp [he, pure, Except.pure]
    · simp [he]

theorem owner_foldl_inputs (transaction_id : TransactionId) (l : List (TransactionInput × Nat))
    (self : MempoolUtxoSet) (o : TransactionOutpoint) :
    (l.foldl (fun self (input, i) =>
      (⟨self.pool_unspent_outputs.erase ⟨transaction_id, i.toUInt32⟩,
        self.outpoint_owner_id.insert input.previous_outpoint transaction_id⟩ : MempoolUtxoSet))
        self).outpoint_owner_id.lookup o =
      if o ∈ l.map (·.1.previous_outpoint) then some transaction_id
      else self.outpoint_owner_id.lookup o := by
  induction l generalizing self with
  | nil => simp
  | cons e l ih =>
    obtain ⟨input, i⟩ := e
    rw [List.foldl_cons, ih, List.map_cons]
    dsimp only
    by_cases hl : o ∈ l.map (·.1.previous_outpoint)
    · rw [if_pos hl, if_pos (List.mem_cons_of_mem _ hl)]
    · rw [if_neg hl]
      by_cases ho : o = input.previous_outpoint
      · rw [if_pos (by rw [ho]; exact List.mem_cons_self), ho, AList.lookup_insert]
      · rw [if_neg (by rw [List.mem_cons]; exact fun h => h.elim ho hl), AList.lookup_insert_ne ho]

theorem owner_foldl_outputs {β : Type} (f : MempoolUtxoSet → β → UtxoCollection) (l : List β)
    (self : MempoolUtxoSet) :
    (l.foldl (fun self x => { self with pool_unspent_outputs := f self x }) self).outpoint_owner_id =
      self.outpoint_owner_id := by
  induction l generalizing self with
  | nil => rfl
  | cons x l ih => rw [List.foldl_cons, ih]

theorem map_fst_zipIdx {α : Type} (l : List α) (k : Nat) : (l.zipIdx k).map Prod.fst = l := by
  induction l generalizing k with
  | nil => rfl
  | cons a l ih => simp [List.zipIdx_cons, ih]

-- Adding a transaction makes it the owner of every outpoint its inputs spend.
theorem lookup_owner_add_transaction (self : MempoolUtxoSet) (transaction : MutableTransaction)
    (o : TransactionOutpoint) :
    (self.add_transaction transaction).outpoint_owner_id.lookup o =
      if o ∈ transaction.tx.inputs.map (·.previous_outpoint) then some transaction.id
      else self.outpoint_owner_id.lookup o := by
  unfold add_transaction
  rw [owner_foldl_outputs, owner_foldl_inputs]
  have hmap : transaction.tx.inputs.zipIdx.map (·.1.previous_outpoint) =
      transaction.tx.inputs.map (·.previous_outpoint) := by
    rw [show (fun x : TransactionInput × Nat => x.1.previous_outpoint) =
      (·.previous_outpoint) ∘ Prod.fst from rfl, ← List.map_map, map_fst_zipIdx]
  rw [hmap]

theorem owner_foldl_remove (l : List (TransactionInput × Option UtxoEntry))
    (g : MempoolUtxoSet → TransactionInput × Option UtxoEntry → UtxoCollection)
    (self : MempoolUtxoSet) (o : TransactionOutpoint) :
    (l.foldl (fun self e => (⟨g self e, self.outpoint_owner_id.erase e.1.previous_outpoint⟩ :
        MempoolUtxoSet)) self).outpoint_owner_id.lookup o =
      if o ∈ l.map (·.1.previous_outpoint) then none else self.outpoint_owner_id.lookup o := by
  induction l generalizing self with
  | nil => simp
  | cons e l ih =>
    rw [List.foldl_cons, ih, List.map_cons]
    dsimp only
    by_cases hl : o ∈ l.map (·.1.previous_outpoint)
    · rw [if_pos hl, if_pos (List.mem_cons_of_mem _ hl)]
    · rw [if_neg hl]
      by_cases ho : o = e.1.previous_outpoint
      · rw [if_pos (by rw [ho]; exact List.mem_cons_self), ho, AList.lookup_erase]
      · rw [if_neg (by rw [List.mem_cons]; exact fun h => h.elim ho hl), AList.lookup_erase_ne ho]

-- Removing a transaction frees every outpoint its inputs spend.
theorem lookup_owner_remove_transaction (self : MempoolUtxoSet)
    (transaction : MutableTransaction) (parent_ids : List TransactionId) (o : TransactionOutpoint) :
    (self.remove_transaction transaction parent_ids).outpoint_owner_id.lookup o =
      if o ∈ transaction.tx.inputs.map (·.previous_outpoint) then none
      else self.outpoint_owner_id.lookup o := by
  unfold remove_transaction
  rw [owner_foldl_outputs]
  rw [owner_foldl_remove (transaction.tx.inputs.zip transaction.entries)
    (fun self e => match e.2 with
      | some entry =>
        if e.1.previous_outpoint.transaction_id ∈ parent_ids then
          self.pool_unspent_outputs.insert e.1.previous_outpoint entry
        else self.pool_unspent_outputs
      | none => self.pool_unspent_outputs)]
  have hmap : (transaction.tx.inputs.zip transaction.entries).map (·.1.previous_outpoint) =
      transaction.tx.inputs.map (·.previous_outpoint) := by
    rw [show (fun x : TransactionInput × Option UtxoEntry => x.1.previous_outpoint) =
      (·.previous_outpoint) ∘ Prod.fst from rfl, ← List.map_map,
      List.map_fst_zip (by rw [transaction.entries_length])]
  rw [hmap]

-- The input loop of `add_transaction` erases the transaction's own outpoints at the input
-- indices; nothing else leaves the unspent outputs.
theorem mem_unspent_foldl_inputs (transaction_id : TransactionId) (l : List (TransactionInput × Nat))
    (self : MempoolUtxoSet) (o : TransactionOutpoint) :
    o ∈ (l.foldl (fun self (input, i) =>
      (⟨self.pool_unspent_outputs.erase ⟨transaction_id, i.toUInt32⟩,
        self.outpoint_owner_id.insert input.previous_outpoint transaction_id⟩ : MempoolUtxoSet))
        self).pool_unspent_outputs ↔
      o ∈ self.pool_unspent_outputs ∧ ∀ x ∈ l, o ≠ ⟨transaction_id, x.2.toUInt32⟩ := by
  induction l generalizing self with
  | nil => simp
  | cons e l ih =>
    rw [List.foldl_cons, ih]
    simp only [AList.mem_erase, List.mem_cons, forall_eq_or_imp]
    rw [and_assoc]
    exact and_left_comm

-- The output loop inserts the transaction's outpoints at the output indices.
theorem mem_unspent_foldl_outputs (transaction_id : TransactionId)
    (l : List (TransactionOutput × Nat)) (self : MempoolUtxoSet) (o : TransactionOutpoint) :
    o ∈ (l.foldl (fun self (output, i) =>
      { self with
        pool_unspent_outputs := self.pool_unspent_outputs.insert ⟨transaction_id, i.toUInt32⟩
          ⟨output.value, output.script_public_key, UNACCEPTED_DAA_SCORE, false⟩ }) self).pool_unspent_outputs ↔
      o ∈ self.pool_unspent_outputs ∨ ∃ x ∈ l, o = ⟨transaction_id, x.2.toUInt32⟩ := by
  induction l generalizing self with
  | nil => simp
  | cons e l ih =>
    rw [List.foldl_cons, ih]
    simp only [AList.mem_insert, List.mem_cons, exists_eq_or_imp]
    rw [or_assoc]
    exact or_left_comm

-- After `add_transaction`, an outpoint of another transaction is unspent exactly when it was
-- before: the outpoints the inputs spend are not removed.
theorem mem_unspent_add_transaction_of_ne (self : MempoolUtxoSet) (transaction : MutableTransaction)
    {o : TransactionOutpoint} (ho : o.transaction_id ≠ transaction.id) :
    o ∈ (self.add_transaction transaction).pool_unspent_outputs ↔ o ∈ self.pool_unspent_outputs := by
  unfold add_transaction
  rw [mem_unspent_foldl_outputs, mem_unspent_foldl_inputs]
  -- every outpoint the two loops touch belongs to the added transaction
  have hother : ∀ i : Nat, o ≠ ⟨transaction.id, i.toUInt32⟩ := fun i h => ho (by rw [h])
  simp only [hother, ne_eq, not_false_eq_true, implies_true, and_true, exists_false, or_false,
    and_false]

theorem mem_unspent_add_transaction_output (self : MempoolUtxoSet)
    (transaction : MutableTransaction) {i : Nat} (hi : i < transaction.tx.outputs.length) :
    ⟨transaction.id, i.toUInt32⟩ ∈ (self.add_transaction transaction).pool_unspent_outputs := by
  unfold add_transaction
  rw [mem_unspent_foldl_outputs]
  refine .inr ⟨(transaction.tx.outputs[i], i), ?_, rfl⟩
  rw [List.mem_zipIdx_iff_getElem?]
  simp [hi]

end Lemmas

end MempoolUtxoSet

structure TransactionsPool where
  all_transactions : MempoolTransactionCollection
  parent_transactions : TransactionsEdges
  chained_transactions : TransactionsEdges
  ready_transactions : List TransactionId
  utxo_set : MempoolUtxoSet

namespace TransactionsPool

def new : TransactionsPool := ⟨∅, ∅, ∅, [], MempoolUtxoSet.new⟩

-- `chained_transactions.entry(parent_id).or_default().insert(id)` for every parent.
def add_chained (chained : TransactionsEdges) (parents : List TransactionId)
    (id : TransactionId) : TransactionsEdges :=
  parents.foldl (fun chained parent_id =>
    chained.insert parent_id (((chained.lookup parent_id).getD []).insert id)) chained

-- The two assertions panic: the transaction is new and fully populated.
def add_mempool_transaction (self : TransactionsPool) (transaction : MempoolTransaction) :
    Option TransactionsPool :=
  let id := transaction.id
  if Pool.has self.all_transactions id then none
  else if !transaction.mtx.is_fully_populated then none
  else
    let parents := Pool.get_parent_transaction_ids_in_pool self.all_transactions transaction.mtx
    some
      { all_transactions := self.all_transactions.insert id transaction
        parent_transactions := self.parent_transactions.insert id parents
        chained_transactions := add_chained self.chained_transactions parents id
        ready_transactions :=
          if parents.isEmpty then self.ready_transactions.insert id else self.ready_transactions
        utxo_set := self.utxo_set.add_transaction transaction.mtx }

-- `chains.remove(transaction_id)` in the chained set of each parent that has one.
def erase_chained (chained : TransactionsEdges) (parents : List TransactionId)
    (transaction_id : TransactionId) : TransactionsEdges :=
  parents.foldl (fun chained parent =>
    match chained.lookup parent with
    | some chains => chained.insert parent (chains.erase transaction_id)
    | none => chained) chained

-- `parents.remove(transaction_id)` in the parent set of each chained transaction that has
-- one; a transaction left without parents becomes ready.
def release_chains (parent_transactions : TransactionsEdges) (ready : List TransactionId)
    (chains : List TransactionId) (transaction_id : TransactionId) :
    TransactionsEdges × List TransactionId :=
  chains.foldl (fun (parent_transactions, ready) chain =>
    match parent_transactions.lookup chain with
    | some parents =>
      let parents := parents.erase transaction_id
      (parent_transactions.insert chain parents,
        if parents.isEmpty then ready.insert chain else ready)
    | none => (parent_transactions, ready)) (parent_transactions, ready)

-- The edges and the ready set are updated before the transaction is looked up, so a missing
-- transaction returns its error from the updated pool.
def remove_transaction (self : TransactionsPool) (transaction_id : TransactionId) :
    TransactionsPool × Except RuleError MempoolTransaction :=
  let chained_transactions :=
    match self.parent_transactions.lookup transaction_id with
    | some parents => erase_chained self.chained_transactions parents transaction_id
    | none => self.chained_transactions
  let (parent_transactions, ready_transactions) :=
    match chained_transactions.lookup transaction_id with
    | some chains =>
      release_chains self.parent_transactions self.ready_transactions chains transaction_id
    | none => (self.parent_transactions, self.ready_transactions)
  let self := { self with
    parent_transactions := parent_transactions.erase transaction_id
    chained_transactions := chained_transactions.erase transaction_id
    ready_transactions := ready_transactions.erase transaction_id }
  match self.all_transactions.lookup transaction_id with
  | none => (self, .error (.RejectMissingTransaction transaction_id))
  | some removed_tx =>
    let all_transactions := self.all_transactions.erase transaction_id
    let parent_ids := Pool.get_parent_transaction_ids_in_pool all_transactions removed_tx.mtx
    ({ self with
      all_transactions
      utxo_set := self.utxo_set.remove_transaction removed_tx.mtx parent_ids }, .ok removed_tx)

def check_double_spends (self : TransactionsPool) (transaction : MutableTransaction) :
    Except RuleError Unit :=
  self.utxo_set.check_double_spends transaction

-- The `TopologicalIndex` of the pool: its transactions' ids, and the chained ones of each.
def topological_index (self : TransactionsPool) :
    Option (Except TopologicalIndexError (List TransactionId)) :=
  Waglayla.Mining.topological_index (fun key => self.chained_transactions.lookup key)
    self.all_transactions.keys

section Edges

theorem lookup_add_chained (chained : TransactionsEdges) (parents : List TransactionId)
    (id k : TransactionId) :
    (add_chained chained parents id).lookup k =
      if k ∈ parents then some (((chained.lookup k).getD []).insert id)
      else chained.lookup k := by
  induction parents generalizing chained with
  | nil => simp [add_chained]
  | cons p ps ih =>
    simp only [add_chained, List.foldl_cons] at ih ⊢
    rw [ih]
    by_cases hk : k = p
    · subst hk
      rw [AList.lookup_insert, if_pos List.mem_cons_self]
      split_ifs
      · rw [Option.getD_some, List.insert_of_mem List.mem_insert_self]
      · rfl
    · rw [AList.lookup_insert_ne hk]
      by_cases hps : k ∈ ps
      · rw [if_pos hps, if_pos (List.mem_cons_of_mem _ hps)]
      · rw [if_neg hps, if_neg (by rw [List.mem_cons]; exact fun h => h.elim hk hps)]

theorem lookup_erase_step (chained : TransactionsEdges) (p id k : TransactionId) :
    (match chained.lookup p with
      | some chains => chained.insert p (chains.erase id)
      | none => chained).lookup k =
      if k = p then (chained.lookup p).map (·.erase id) else chained.lookup k := by
  cases hp : chained.lookup p with
  | none =>
    split_ifs with hk
    · rw [hk, hp]
      rfl
    · rfl
  | some chains =>
    split_ifs with hk
    · rw [hk, AList.lookup_insert]
      rfl
    · rw [AList.lookup_insert_ne hk]

theorem lookup_erase_chained (chained : TransactionsEdges) {parents : List TransactionId}
    (hnodup : parents.Nodup) (id k : TransactionId) :
    (erase_chained chained parents id).lookup k =
      if k ∈ parents then (chained.lookup k).map (·.erase id) else chained.lookup k := by
  induction parents generalizing chained with
  | nil => simp [erase_chained]
  | cons p ps ih =>
    obtain ⟨hp, hps⟩ := List.nodup_cons.mp hnodup
    simp only [erase_chained, List.foldl_cons] at ih ⊢
    rw [ih _ hps, lookup_erase_step]
    by_cases hk : k = p
    · subst hk
      rw [if_neg hp, if_pos rfl, if_pos List.mem_cons_self]
    · rw [if_neg hk]
      by_cases hkps : k ∈ ps
      · rw [if_pos hkps, if_pos (List.mem_cons_of_mem _ hkps)]
      · rw [if_neg hkps, if_neg (by rw [List.mem_cons]; exact fun h => h.elim hk hkps)]

-- Releasing the chained transactions takes the removed one out of each one's parent set, and
-- makes ready each one whose parent set becomes empty.
theorem release_chains_spec (P : TransactionsEdges) (R : List TransactionId)
    {chains : List TransactionId} (hnodup : chains.Nodup) (id : TransactionId) :
    (∀ k, (release_chains P R chains id).1.lookup k =
      if k ∈ chains then (P.lookup k).map (·.erase id) else P.lookup k) ∧
    (∀ y, y ∈ (release_chains P R chains id).2 ↔
      y ∈ R ∨ y ∈ chains ∧ ∃ ps, P.lookup y = some ps ∧ ps.erase id = []) ∧
    (R.Nodup → (release_chains P R chains id).2.Nodup) := by
  induction chains generalizing P R with
  | nil => simp [release_chains]
  | cons c cs ih =>
    obtain ⟨hc, hcs⟩ := List.nodup_cons.mp hnodup
    simp only [release_chains, List.foldl_cons] at ih ⊢
    cases hP : P.lookup c with
    | none =>
      obtain ⟨hlookup, hmem, hnd⟩ := ih P R hcs
      refine ⟨fun k => ?_, fun y => ?_, hnd⟩
      · rw [hlookup]
        by_cases hk : k = c
        · subst hk
          rw [if_neg hc, if_pos List.mem_cons_self, hP]
          rfl
        · by_cases hkcs : k ∈ cs
          · rw [if_pos hkcs, if_pos (List.mem_cons_of_mem _ hkcs)]
          · rw [if_neg hkcs, if_neg (by rw [List.mem_cons]; exact fun h => h.elim hk hkcs)]
      · rw [hmem, List.mem_cons]
        constructor
        · rintro (h | ⟨h, ps, hps, he⟩)
          · exact .inl h
          · exact .inr ⟨.inr h, ps, hps, he⟩
        · rintro (h | ⟨rfl | h, ps, hps, he⟩)
          · exact .inl h
          · rw [hP] at hps
            cases hps
          · exact .inr ⟨h, ps, hps, he⟩
    | some ps =>
      obtain ⟨hlookup, hmem, hnd⟩ := ih (P.insert c (ps.erase id))
        (if (ps.erase id).isEmpty then R.insert c else R) hcs
      refine ⟨fun k => ?_, fun y => ?_, fun hR => hnd (by split_ifs <;> simp [hR.insert, hR])⟩
      · rw [hlookup]
        by_cases hk : k = c
        · subst hk
          rw [if_neg hc, if_pos List.mem_cons_self, AList.lookup_insert, hP]
          rfl
        · rw [AList.lookup_insert_ne hk]
          by_cases hkcs : k ∈ cs
          · rw [if_pos hkcs, if_pos (List.mem_cons_of_mem _ hkcs)]
          · rw [if_neg hkcs, if_neg (by rw [List.mem_cons]; exact fun h => h.elim hk hkcs)]
      · rw [hmem, List.mem_cons]
        by_cases hy : y = c
        · subst hy
          split_ifs with hempty
          · have he : ps.erase id = [] := List.isEmpty_iff.mp hempty
            exact ⟨fun _ => .inr ⟨.inl rfl, ps, hP, he⟩, fun _ => .inl List.mem_insert_self⟩
          · constructor
            · rintro (h | ⟨h, -⟩)
              · exact .inl h
              · exact absurd h hc
            · rintro (h | ⟨-, qs, hqs, he⟩)
              · exact .inl h
              · rw [hP, Option.some_inj] at hqs
                subst hqs
                exact absurd (List.isEmpty_iff.mpr he) hempty
        · rw [AList.lookup_insert_ne hy]
          have hRy : y ∈ (if (ps.erase id).isEmpty then R.insert c else R) ↔ y ∈ R := by
            split_ifs
            · rw [List.mem_insert_iff]
              exact ⟨fun h => h.resolve_left hy, .inr⟩
            · rfl
          rw [hRy]
          constructor
          · rintro (h | ⟨h, qs, hqs, he⟩)
            · exact .inl h
            · exact .inr ⟨.inr h, qs, hqs, he⟩
          · rintro (h | ⟨h | h, qs, hqs, he⟩)
            · exact .inl h
            · exact absurd h hy
            · exact .inr ⟨h, qs, hqs, he⟩

end Edges

-- The relations the pool's maps keep with its transactions: every stored transaction is
-- keyed by its id; the parent set of a transaction lists the pool transactions it spends
-- from, and the chained set of a transaction the pool transactions spending from it; the
-- ready set holds the transactions with an empty parent set; the owner index maps exactly
-- the outpoints pool transactions spend, each to a spender; and a rank grows along every
-- edge.
structure PoolInv (pool : TransactionsPool) : Prop where
  id_eq : ∀ id t, pool.all_transactions.lookup id = some t → t.id = id
  parent_keys : ∀ y, y ∈ pool.parent_transactions ↔ y ∈ pool.all_transactions
  parents : ∀ y ty ps, pool.all_transactions.lookup y = some ty →
    pool.parent_transactions.lookup y = some ps →
      ps.Nodup ∧ ∀ x, x ∈ ps ↔ x ∈ pool.all_transactions ∧ x ≠ y ∧ spends ty x
  chained_keys : ∀ x, x ∈ pool.chained_transactions → x ∈ pool.all_transactions
  chained_nodup : ∀ x cs, pool.chained_transactions.lookup x = some cs → cs.Nodup
  chained : ∀ x ∈ pool.all_transactions, ∀ y,
    y ∈ (pool.chained_transactions.lookup x).getD [] ↔
      ∃ ty, pool.all_transactions.lookup y = some ty ∧ y ≠ x ∧ spends ty x
  ready : ∀ y, y ∈ pool.ready_transactions ↔ pool.parent_transactions.lookup y = some []
  ready_nodup : pool.ready_transactions.Nodup
  owner : ∀ o y, pool.utxo_set.outpoint_owner_id.lookup o = some y ↔
    ∃ ty, pool.all_transactions.lookup y = some ty ∧
      o ∈ ty.mtx.tx.inputs.map (·.previous_outpoint)
  ranked : ∃ rank : TransactionId → Nat, ∀ x y ty, x ∈ pool.all_transactions →
    pool.all_transactions.lookup y = some ty → x ≠ y → spends ty x → rank x < rank y

theorem PoolInv.new : PoolInv new := by
  refine ⟨fun _ _ h => ?_, fun _ => ?_, fun _ _ _ h => ?_, fun _ h => ?_, fun _ _ h => ?_,
    fun _ h => ?_, fun _ => ?_, List.nodup_nil, fun _ _ => ?_, ⟨fun _ => 0, fun _ _ _ h => ?_⟩⟩ <;>
    simp_all [TransactionsPool.new, MempoolUtxoSet.new]

-- A pool transaction has a parent set.
theorem PoolInv.parent_lookup {self : TransactionsPool} (hinv : PoolInv self) {y : TransactionId}
    (hy : y ∈ self.all_transactions) : ∃ ps, self.parent_transactions.lookup y = some ps :=
  Option.isSome_iff_exists.mp (AList.lookup_isSome.mpr ((hinv.parent_keys y).mpr hy))

-- What an addition does to each map.
theorem add_mempool_transaction_spec {self self' : TransactionsPool}
    {transaction : MempoolTransaction} (h : self.add_mempool_transaction transaction = some self') :
    let parents := Pool.get_parent_transaction_ids_in_pool self.all_transactions transaction.mtx
    transaction.id ∉ self.all_transactions ∧
      self'.all_transactions = self.all_transactions.insert transaction.id transaction ∧
      self'.parent_transactions = self.parent_transactions.insert transaction.id parents ∧
      self'.chained_transactions = add_chained self.chained_transactions parents transaction.id ∧
      self'.ready_transactions = (if parents.isEmpty then
        self.ready_transactions.insert transaction.id else self.ready_transactions) ∧
      self'.utxo_set = self.utxo_set.add_transaction transaction.mtx := by
  unfold add_mempool_transaction at h
  dsimp only at h
  by_cases hhas : Pool.has self.all_transactions transaction.id = true
  · rw [if_pos hhas] at h
    cases h
  rw [if_neg hhas] at h
  by_cases hpop : (!transaction.mtx.is_fully_populated) = true
  · rw [if_pos hpop] at h
    cases h
  rw [if_neg hpop, Option.some_inj] at h
  subst h
  exact ⟨fun hmem => hhas ((Pool.has_eq_true _).mpr hmem), rfl, rfl, rfl, rfl, rfl⟩

-- A new, fully populated transaction passes both assertions.
theorem add_mempool_transaction_isSome {self : TransactionsPool}
    {transaction : MempoolTransaction} (hnew : transaction.id ∉ self.all_transactions)
    (hpop : transaction.mtx.is_fully_populated = true) :
    ∃ self', self.add_mempool_transaction transaction = some self' := by
  unfold add_mempool_transaction
  dsimp only
  rw [if_neg (mt (Pool.has_eq_true _).mp hnew), if_neg (by simp [hpop])]
  exact ⟨_, rfl⟩

section Add

-- An addition, field by field. The lemmas that need it also assume that the new transaction
-- passed `check_double_spends`, or that no pool transaction spends its outputs.

variable {self self' : TransactionsPool} {transaction : MempoolTransaction} (hinv : PoolInv self)
  (hadd : self.add_mempool_transaction transaction = some self')
include hinv hadd

-- The outpoints a transaction passing `check_double_spends` spends have no owner yet.
theorem PoolInv.owner_eq_none_of_add (hdouble : self.check_double_spends transaction.mtx = .ok ()) :
    ∀ o ∈ transaction.mtx.tx.inputs.map (·.previous_outpoint),
      self.utxo_set.outpoint_owner_id.lookup o = none := by
  have hnew := (add_mempool_transaction_spec hadd).1
  intro o ho
  obtain ⟨input, hinput, rfl⟩ := List.mem_map.mp ho
  cases hown : self.utxo_set.outpoint_owner_id.lookup input.previous_outpoint with
  | none => rfl
  | some e =>
    -- its owner could only be the new transaction, which the pool does not hold
    have he := MempoolUtxoSet.check_double_spends_eq_ok.mp hdouble input hinput e hown
    obtain ⟨te, hte, -⟩ := (hinv.owner _ e).mp hown
    have hmem : e ∈ self.all_transactions := AList.lookup_isSome.mp (Option.isSome_of_eq_some hte)
    rw [he] at hmem
    exact absurd hmem hnew

theorem PoolInv.id_eq_of_add : ∀ k t, self'.all_transactions.lookup k = some t → t.id = k := by
  intro k t hk
  rw [(add_mempool_transaction_spec hadd).2.1] at hk
  by_cases hki : k = transaction.id
  · rw [hki, AList.lookup_insert, Option.some_inj] at hk
    rw [← hk, hki]
  · rw [AList.lookup_insert_ne hki] at hk
    exact hinv.id_eq k t hk

theorem PoolInv.parent_keys_of_add :
    ∀ y, y ∈ self'.parent_transactions ↔ y ∈ self'.all_transactions := by
  obtain ⟨-, hall, hparent, -⟩ := add_mempool_transaction_spec hadd
  intro y
  rw [hparent, hall, AList.mem_insert, AList.mem_insert, hinv.parent_keys]

theorem PoolInv.parents_of_add
    (hunspent : ∀ y ty, self.all_transactions.lookup y = some ty → ¬spends ty transaction.id) :
    ∀ y ty ps, self'.all_transactions.lookup y = some ty →
      self'.parent_transactions.lookup y = some ps →
        ps.Nodup ∧ ∀ x, x ∈ ps ↔ x ∈ self'.all_transactions ∧ x ≠ y ∧ spends ty x := by
  obtain ⟨hnew, hall, hparent, -⟩ := add_mempool_transaction_spec hadd
  intro y ty ps hy hps
  rw [hall] at hy ⊢
  rw [hparent] at hps
  by_cases hyi : y = transaction.id
  · -- the new transaction's parent set lists the pool transactions it spends from
    subst hyi
    rw [AList.lookup_insert, Option.some_inj] at hy hps
    subst hy hps
    refine ⟨Pool.nodup_get_parent_transaction_ids_in_pool _ _, fun x => ?_⟩
    rw [Pool.mem_get_parent_transaction_ids_in_pool, AList.mem_insert]
    constructor
    · rintro ⟨hx, hsp⟩
      exact ⟨.inr hx, fun h => hnew (h ▸ hx), hsp⟩
    · rintro ⟨hx | hx, hxy, hsp⟩
      · exact absurd hx hxy
      · exact ⟨hx, hsp⟩
  · -- an older transaction keeps its parent set: it spends nothing of the new one
    rw [AList.lookup_insert_ne hyi] at hy hps
    obtain ⟨hnd, hmem⟩ := hinv.parents y ty ps hy hps
    refine ⟨hnd, fun x => ?_⟩
    rw [hmem, AList.mem_insert]
    constructor
    · rintro ⟨hx, hxy, hsp⟩
      exact ⟨.inr hx, hxy, hsp⟩
    · rintro ⟨hx | hx, hxy, hsp⟩
      · exact absurd (hx ▸ hsp) (hunspent y ty hy)
      · exact ⟨hx, hxy, hsp⟩

theorem PoolInv.chained_keys_of_add :
    ∀ x, x ∈ self'.chained_transactions → x ∈ self'.all_transactions := by
  obtain ⟨-, hall, -, hchained, -⟩ := add_mempool_transaction_spec hadd
  intro x hx
  rw [hchained, ← AList.lookup_isSome, lookup_add_chained] at hx
  rw [hall, AList.mem_insert]
  split_ifs at hx with hxp
  · exact .inr ((Pool.mem_get_parent_transaction_ids_in_pool _ _ x).mp hxp).1
  · exact .inr (hinv.chained_keys x (AList.lookup_isSome.mp hx))

theorem PoolInv.chained_nodup_of_add :
    ∀ x cs, self'.chained_transactions.lookup x = some cs → cs.Nodup := by
  obtain ⟨-, -, -, hchained, -⟩ := add_mempool_transaction_spec hadd
  intro x cs hx
  rw [hchained, lookup_add_chained] at hx
  split_ifs at hx
  · rw [Option.some_inj] at hx
    rw [← hx]
    cases hcs : self.chained_transactions.lookup x with
    | none => exact List.nodup_singleton _
    | some cs => exact (hinv.chained_nodup x cs hcs).insert
  · exact hinv.chained_nodup x cs hx

theorem PoolInv.chained_of_add
    (hunspent : ∀ y ty, self.all_transactions.lookup y = some ty → ¬spends ty transaction.id) :
    ∀ x ∈ self'.all_transactions, ∀ y, y ∈ (self'.chained_transactions.lookup x).getD [] ↔
      ∃ ty, self'.all_transactions.lookup y = some ty ∧ y ≠ x ∧ spends ty x := by
  obtain ⟨hnew, hall, -, hchained, -⟩ := add_mempool_transaction_spec hadd
  have hparents : ∀ x, x ∈ Pool.get_parent_transaction_ids_in_pool self.all_transactions
      transaction.mtx ↔ x ∈ self.all_transactions ∧ spends transaction x :=
    Pool.mem_get_parent_transaction_ids_in_pool _ _
  intro x hx y
  rw [hall, AList.mem_insert] at hx
  rw [hchained, lookup_add_chained, hall]
  rcases hx with rfl | hx
  · -- no pool transaction spends the new one, so it has no chained transactions
    have hxp := fun h => hnew ((hparents transaction.id).mp h).1
    rw [if_neg hxp, AList.lookup_eq_none.mpr fun h => hnew (hinv.chained_keys _ h)]
    simp only [Option.getD_none, List.not_mem_nil, false_iff, not_exists, not_and]
    intro ty hty hne hsp
    rw [AList.lookup_insert_ne hne] at hty
    exact hunspent y ty hty hsp
  · have hxi : x ≠ transaction.id := fun h => hnew (h ▸ hx)
    have hold := hinv.chained x hx y
    by_cases hyi : y = transaction.id
    · -- the new transaction joins the chained set of each transaction it spends from
      subst hyi
      rw [AList.lookup_insert]
      have hnot : transaction.id ∉ (self.chained_transactions.lookup x).getD [] := fun h => by
        obtain ⟨ty, hty, -⟩ := hold.mp h
        rw [AList.lookup_eq_none.mpr hnew] at hty
        cases hty
      split_ifs with hxp
      · simp only [Option.getD_some, List.mem_insert_iff, true_or, true_iff]
        exact ⟨transaction, rfl, Ne.symm hxi, ((hparents x).mp hxp).2⟩
      · simp only [hnot, false_iff, not_exists, not_and]
        rintro ty hty - hsp
        rw [Option.some_inj] at hty
        subst hty
        exact hxp ((hparents x).mpr ⟨hx, hsp⟩)
    · rw [AList.lookup_insert_ne hyi, ← hold]
      split_ifs
      · rw [Option.getD_some, List.mem_insert_iff]
        exact ⟨fun h => h.resolve_left hyi, .inr⟩
      · rfl

theorem PoolInv.ready_of_add :
    ∀ y, y ∈ self'.ready_transactions ↔ self'.parent_transactions.lookup y = some [] := by
  obtain ⟨hnew, -, hparent, -, hready, -⟩ := add_mempool_transaction_spec hadd
  intro y
  rw [hready, hparent]
  by_cases hyi : y = transaction.id
  · -- the new transaction is ready exactly when it has no parent in the pool
    subst hyi
    rw [AList.lookup_insert]
    have hnot : transaction.id ∉ self.ready_transactions := fun h => by
      rw [hinv.ready, AList.lookup_eq_none.mpr fun h => hnew ((hinv.parent_keys _).mp h)] at h
      cases h
    split_ifs with hempty
    · simp [List.isEmpty_iff.mp hempty]
    · exact iff_of_false hnot fun h => hempty (List.isEmpty_iff.mpr (Option.some_inj.mp h))
  · rw [AList.lookup_insert_ne hyi, ← hinv.ready]
    split_ifs
    · rw [List.mem_insert_iff]
      exact ⟨fun h => h.resolve_left hyi, .inr⟩
    · rfl

theorem PoolInv.ready_nodup_of_add : self'.ready_transactions.Nodup := by
  rw [(add_mempool_transaction_spec hadd).2.2.2.2.1]
  split_ifs
  · exact hinv.ready_nodup.insert
  · exact hinv.ready_nodup

theorem PoolInv.owner_of_add (hdouble : self.check_double_spends transaction.mtx = .ok ()) :
    ∀ o y, self'.utxo_set.outpoint_owner_id.lookup o = some y ↔
      ∃ ty, self'.all_transactions.lookup y = some ty ∧
        o ∈ ty.mtx.tx.inputs.map (·.previous_outpoint) := by
  obtain ⟨hnew, hall, -, -, -, hutxo⟩ := add_mempool_transaction_spec hadd
  have hfree := hinv.owner_eq_none_of_add hadd hdouble
  intro o y
  rw [hutxo, MempoolUtxoSet.lookup_owner_add_transaction, hall]
  split_ifs with ho
  · -- the new transaction is the only spender of its outpoints
    rw [Option.some_inj]
    constructor
    · rintro rfl
      exact ⟨transaction, AList.lookup_insert _, ho⟩
    · rintro ⟨ty, hty, hoy⟩
      by_contra hyi
      have hne : y ≠ transaction.id := fun h => hyi h.symm
      rw [AList.lookup_insert_ne hne] at hty
      have := (hinv.owner o y).mpr ⟨ty, hty, hoy⟩
      rw [hfree o ho] at this
      cases this
  · rw [hinv.owner]
    constructor
    · rintro ⟨ty, hty, hoy⟩
      have hyi : y ≠ transaction.id := fun h =>
        hnew (h ▸ AList.lookup_isSome.mp (Option.isSome_of_eq_some hty))
      exact ⟨ty, by rw [AList.lookup_insert_ne hyi]; exact hty, hoy⟩
    · rintro ⟨ty, hty, hoy⟩
      by_cases hyi : y = transaction.id
      · subst hyi
        rw [AList.lookup_insert, Option.some_inj] at hty
        subst hty
        exact absurd hoy ho
      · rw [AList.lookup_insert_ne hyi] at hty
        exact ⟨ty, hty, hoy⟩

theorem PoolInv.ranked_of_add
    (hunspent : ∀ y ty, self.all_transactions.lookup y = some ty → ¬spends ty transaction.id) :
    ∃ rank : TransactionId → Nat, ∀ x y ty, x ∈ self'.all_transactions →
      self'.all_transactions.lookup y = some ty → x ≠ y → spends ty x → rank x < rank y := by
  obtain ⟨hnew, hall, -⟩ := add_mempool_transaction_spec hadd
  obtain ⟨rank, hrank⟩ := hinv.ranked
  -- the new transaction ranks above every transaction already in the pool
  refine ⟨fun k => if k = transaction.id then (self.all_transactions.keys.map rank).sum + 1
    else rank k, fun x y ty hx hy hxy hsp => ?_⟩
  rw [hall, AList.mem_insert] at hx
  rw [hall] at hy
  by_cases hyi : y = transaction.id
  · subst hyi
    rw [AList.lookup_insert, Option.some_inj] at hy
    subst hy
    have hx' : x ∈ self.all_transactions := hx.resolve_left hxy
    show (if x = transaction.id then _ else rank x) <
      (if transaction.id = transaction.id then _ else rank transaction.id)
    rw [if_neg hxy, if_pos rfl]
    have := List.le_sum_of_mem (List.mem_map_of_mem (f := rank) (AList.mem_keys.mp hx'))
    omega
  · rw [AList.lookup_insert_ne hyi] at hy
    rcases hx with rfl | hx
    · exact absurd hsp (hunspent y ty hy)
    · have hxi : x ≠ transaction.id := fun h => hnew (h ▸ hx)
      simp only [if_neg hyi, if_neg hxi]
      exact hrank x y ty hx hy hxy hsp

end Add

-- An addition keeps the invariant when the new transaction passed `check_double_spends` and
-- no pool transaction spends its outputs.
theorem PoolInv.add {self self' : TransactionsPool} {transaction : MempoolTransaction}
    (hinv : PoolInv self) (hdouble : self.check_double_spends transaction.mtx = .ok ())
    (hunspent : ∀ y ty, self.all_transactions.lookup y = some ty → ¬spends ty transaction.id)
    (hadd : self.add_mempool_transaction transaction = some self') : PoolInv self' :=
  ⟨hinv.id_eq_of_add hadd, hinv.parent_keys_of_add hadd, hinv.parents_of_add hadd hunspent,
    hinv.chained_keys_of_add hadd, hinv.chained_nodup_of_add hadd,
    hinv.chained_of_add hadd hunspent, hinv.ready_of_add hadd, hinv.ready_nodup_of_add hadd,
    hinv.owner_of_add hadd hdouble, hinv.ranked_of_add hadd hunspent⟩

theorem erase_of_not_mem {β : Type} {s : AList fun _ : TransactionId => β} {a : TransactionId}
    (h : a ∉ s) : s.erase a = s :=
  AList.ext (List.kerase_of_notMem_keys (AList.mem_keys.not.mp h))

theorem lookup_erase_eq_some_iff {β : Type} {s : AList fun _ : TransactionId => β}
    {a b : TransactionId} {v : β} :
    (s.erase a).lookup b = some v ↔ b ≠ a ∧ s.lookup b = some v := by
  by_cases hb : b = a
  · subst hb
    simp [AList.lookup_erase]
  · rw [AList.lookup_erase_ne hb]
    simp [hb]

-- A removal of a stored transaction whose parent set is `ps`.
theorem remove_transaction_of_lookup {self : TransactionsPool} {id : TransactionId}
    {t : MempoolTransaction} {ps : List TransactionId}
    (ht : self.all_transactions.lookup id = some t)
    (hps : self.parent_transactions.lookup id = some ps) :
    let chained := erase_chained self.chained_transactions ps id
    let released := release_chains self.parent_transactions self.ready_transactions
      ((chained.lookup id).getD []) id
    self.remove_transaction id =
      ({ all_transactions := self.all_transactions.erase id
         parent_transactions := released.1.erase id
         chained_transactions := chained.erase id
         ready_transactions := released.2.erase id
         utxo_set := self.utxo_set.remove_transaction t.mtx
          (Pool.get_parent_transaction_ids_in_pool (self.all_transactions.erase id) t.mtx) },
        .ok t) := by
  unfold remove_transaction
  simp only [hps, ht]
  cases (erase_chained self.chained_transactions ps id).lookup id <;> rfl

-- Removing a transaction the pool does not hold changes nothing.
theorem remove_transaction_of_not_mem {self : TransactionsPool} (hinv : PoolInv self)
    {id : TransactionId} (hid : id ∉ self.all_transactions) :
    self.remove_transaction id = (self, .error (.RejectMissingTransaction id)) := by
  have hparent : self.parent_transactions.lookup id = none :=
    AList.lookup_eq_none.mpr fun h => hid ((hinv.parent_keys id).mp h)
  have hchained : self.chained_transactions.lookup id = none :=
    AList.lookup_eq_none.mpr fun h => hid (hinv.chained_keys id h)
  have hready : id ∉ self.ready_transactions := fun h => by
    rw [hinv.ready, hparent] at h
    cases h
  unfold remove_transaction
  simp only [hparent, hchained, AList.lookup_eq_none.mpr hid]
  rw [erase_of_not_mem fun h => hid ((hinv.parent_keys id).mp h),
    erase_of_not_mem fun h => hid (hinv.chained_keys id h), List.erase_of_not_mem hready]

theorem PoolInv.chained_getD_nodup {self : TransactionsPool} (hinv : PoolInv self)
    (x : TransactionId) : ((self.chained_transactions.lookup x).getD []).Nodup := by
  cases hc : self.chained_transactions.lookup x with
  | none => exact List.nodup_nil
  | some cs => exact hinv.chained_nodup x cs hc

section Remove

-- The removal of a stored transaction `id`, of parent set `ps`, field by field.

variable {self : TransactionsPool} (hinv : PoolInv self) {id : TransactionId}
  {t : MempoolTransaction} {ps : List TransactionId}
  (ht : self.all_transactions.lookup id = some t)
  (hps : self.parent_transactions.lookup id = some ps)
include hinv ht hps

-- What the removal does to each map. A transaction is not among its own parents, so the
-- chained set it releases is the one the pool held.
theorem PoolInv.remove_transaction_spec :
    let released := release_chains self.parent_transactions self.ready_transactions
      ((self.chained_transactions.lookup id).getD []) id
    (self.remove_transaction id).1.all_transactions = self.all_transactions.erase id ∧
      (self.remove_transaction id).1.parent_transactions = released.1.erase id ∧
      (self.remove_transaction id).1.chained_transactions =
        (erase_chained self.chained_transactions ps id).erase id ∧
      (self.remove_transaction id).1.ready_transactions = released.2.erase id ∧
      (self.remove_transaction id).1.utxo_set = self.utxo_set.remove_transaction t.mtx
        (Pool.get_parent_transaction_ids_in_pool (self.all_transactions.erase id) t.mtx) := by
  obtain ⟨hps_nodup, hps_mem⟩ := hinv.parents id t ps ht hps
  have hchains : ((erase_chained self.chained_transactions ps id).lookup id).getD [] =
      (self.chained_transactions.lookup id).getD [] := by
    rw [lookup_erase_chained _ hps_nodup, if_neg fun h => ((hps_mem id).mp h).2.1 rfl]
  rw [remove_transaction_of_lookup ht hps]
  dsimp only
  rw [hchains]
  exact ⟨rfl, rfl, rfl, rfl, rfl⟩

theorem PoolInv.id_eq_of_remove :
    ∀ k u, (self.remove_transaction id).1.all_transactions.lookup k = some u → u.id = k := by
  intro k u hk
  rw [(hinv.remove_transaction_spec ht hps).1, lookup_erase_eq_some_iff] at hk
  exact hinv.id_eq k u hk.2

theorem PoolInv.parent_keys_of_remove :
    ∀ y, y ∈ (self.remove_transaction id).1.parent_transactions ↔
      y ∈ (self.remove_transaction id).1.all_transactions := by
  obtain ⟨hall, hparent, -⟩ := hinv.remove_transaction_spec ht hps
  obtain ⟨hP, -⟩ := release_chains_spec self.parent_transactions self.ready_transactions
    (hinv.chained_getD_nodup id) id
  intro y
  rw [hparent, hall, AList.mem_erase, AList.mem_erase, ← AList.lookup_isSome, hP,
    ← hinv.parent_keys, ← AList.lookup_isSome]
  split_ifs <;> simp

theorem PoolInv.parents_of_remove :
    ∀ y ty qs, (self.remove_transaction id).1.all_transactions.lookup y = some ty →
      (self.remove_transaction id).1.parent_transactions.lookup y = some qs →
        qs.Nodup ∧ ∀ x, x ∈ qs ↔
          x ∈ (self.remove_transaction id).1.all_transactions ∧ x ≠ y ∧ spends ty x := by
  obtain ⟨hall, hparent, -⟩ := hinv.remove_transaction_spec ht hps
  obtain ⟨hP, -⟩ := release_chains_spec self.parent_transactions self.ready_transactions
    (hinv.chained_getD_nodup id) id
  have hmem : id ∈ self.all_transactions := AList.lookup_isSome.mp (Option.isSome_of_eq_some ht)
  intro y ty qs hy hqs
  rw [hall, lookup_erase_eq_some_iff] at hy
  obtain ⟨hyi, hy⟩ := hy
  rw [hall]
  rw [hparent, AList.lookup_erase_ne hyi, hP] at hqs
  obtain ⟨ps_y, hps_y⟩ := hinv.parent_lookup (AList.lookup_isSome.mp (Option.isSome_of_eq_some hy))
  obtain ⟨hnd_y, hmem_y⟩ := hinv.parents y ty ps_y hy hps_y
  rw [hps_y] at hqs
  split_ifs at hqs with hy_chains
  · -- the parent set of a chained transaction loses the removed one
    rw [Option.map_some, Option.some_inj] at hqs
    subst hqs
    refine ⟨hnd_y.erase id, fun x => ?_⟩
    rw [hnd_y.mem_erase_iff, hmem_y, AList.mem_erase]
    exact and_assoc.symm
  · -- the others keep theirs, which never held the removed one
    rw [Option.some_inj] at hqs
    subst hqs
    refine ⟨hnd_y, fun x => ?_⟩
    rw [hmem_y, AList.mem_erase]
    constructor
    · rintro ⟨hx, hxy, hsp⟩
      refine ⟨⟨fun hxi => hy_chains ?_, hx⟩, hxy, hsp⟩
      exact (hinv.chained id hmem y).mpr ⟨ty, hy, hyi, hxi ▸ hsp⟩
    · rintro ⟨⟨-, hx⟩, hxy, hsp⟩
      exact ⟨hx, hxy, hsp⟩

theorem PoolInv.chained_keys_of_remove :
    ∀ x, x ∈ (self.remove_transaction id).1.chained_transactions →
      x ∈ (self.remove_transaction id).1.all_transactions := by
  obtain ⟨hall, -, hchained, -⟩ := hinv.remove_transaction_spec ht hps
  intro x hx
  rw [hchained, AList.mem_erase] at hx
  rw [hall, AList.mem_erase]
  refine ⟨hx.1, hinv.chained_keys x ?_⟩
  rw [← AList.lookup_isSome, lookup_erase_chained _ (hinv.parents id t ps ht hps).1] at hx
  rw [← AList.lookup_isSome]
  split_ifs at hx <;> simpa using hx.2

theorem PoolInv.chained_nodup_of_remove :
    ∀ x cs, (self.remove_transaction id).1.chained_transactions.lookup x = some cs → cs.Nodup := by
  obtain ⟨-, -, hchained, -⟩ := hinv.remove_transaction_spec ht hps
  intro x cs hx
  rw [hchained, lookup_erase_eq_some_iff,
    lookup_erase_chained _ (hinv.parents id t ps ht hps).1] at hx
  split_ifs at hx
  · obtain ⟨cs₀, hcs₀, rfl⟩ := Option.map_eq_some_iff.mp hx.2
    exact (hinv.chained_nodup x cs₀ hcs₀).erase id
  · exact hinv.chained_nodup x cs hx.2

theorem PoolInv.chained_of_remove :
    ∀ x ∈ (self.remove_transaction id).1.all_transactions, ∀ y,
      y ∈ ((self.remove_transaction id).1.chained_transactions.lookup x).getD [] ↔
        ∃ ty, (self.remove_transaction id).1.all_transactions.lookup y = some ty ∧ y ≠ x ∧
          spends ty x := by
  obtain ⟨hall, -, hchained, -⟩ := hinv.remove_transaction_spec ht hps
  obtain ⟨hps_nodup, hps_mem⟩ := hinv.parents id t ps ht hps
  intro x hx y
  rw [hall, AList.mem_erase] at hx
  obtain ⟨hxi, hx⟩ := hx
  have hold := hinv.chained x hx y
  rw [hchained, hall, AList.lookup_erase_ne hxi, lookup_erase_chained _ hps_nodup]
  simp only [lookup_erase_eq_some_iff]
  split_ifs with hxps
  · -- the removed transaction spent from `x`: it leaves `x`'s chained set
    cases hcx : self.chained_transactions.lookup x with
    | none =>
      rw [hcx, Option.getD_none] at hold
      rw [Option.map_none, Option.getD_none]
      constructor
      · intro h
        cases h
      · rintro ⟨ty, ⟨-, hty⟩, hyx, hsp⟩
        exact absurd (hold.mpr ⟨ty, hty, hyx, hsp⟩) List.not_mem_nil
    | some cs =>
      rw [hcx, Option.getD_some] at hold
      rw [Option.map_some, Option.getD_some, (hinv.chained_nodup x cs hcx).mem_erase_iff, hold]
      simp only [and_assoc, exists_and_left]
  · -- the removed transaction did not spend from `x`
    have hnot : id ∉ (self.chained_transactions.lookup x).getD [] := fun h => by
      obtain ⟨ty, hty, hix, hsp⟩ := (hinv.chained x hx id).mp h
      rw [ht, Option.some_inj] at hty
      subst hty
      exact hxps ((hps_mem x).mpr ⟨hx, Ne.symm hix, hsp⟩)
    rw [hold]
    constructor
    · rintro ⟨ty, hty, hyx, hsp⟩
      exact ⟨ty, ⟨fun hyi => hnot (hyi ▸ hold.mpr ⟨ty, hty, hyx, hsp⟩), hty⟩, hyx, hsp⟩
    · rintro ⟨ty, ⟨-, hty⟩, hyx, hsp⟩
      exact ⟨ty, hty, hyx, hsp⟩

theorem PoolInv.ready_of_remove :
    ∀ y, y ∈ (self.remove_transaction id).1.ready_transactions ↔
      (self.remove_transaction id).1.parent_transactions.lookup y = some [] := by
  obtain ⟨-, hparent, -, hready, -⟩ := hinv.remove_transaction_spec ht hps
  obtain ⟨hP, hR, hR_nodup⟩ := release_chains_spec self.parent_transactions
    self.ready_transactions (hinv.chained_getD_nodup id) id
  have hmem : id ∈ self.all_transactions := AList.lookup_isSome.mp (Option.isSome_of_eq_some ht)
  intro y
  rw [hready, hparent]
  by_cases hyi : y = id
  · rw [hyi, AList.lookup_erase]
    simp only [reduceCtorEq, iff_false]
    exact List.Nodup.not_mem_erase (hR_nodup hinv.ready_nodup)
  rw [List.Nodup.mem_erase_iff (hR_nodup hinv.ready_nodup), AList.lookup_erase_ne hyi, hP, hR]
  simp only [hyi, ne_eq, not_false_eq_true, true_and]
  split_ifs with hy_chains
  · -- a chained transaction becomes ready when the removed one was its last parent
    have hnot_ready : y ∉ self.ready_transactions := fun h => by
      obtain ⟨ty, hty, -, hsp⟩ := (hinv.chained id hmem y).mp hy_chains
      rw [hinv.ready] at h
      have := ((hinv.parents y ty [] hty h).2 id).mpr ⟨hmem, Ne.symm hyi, hsp⟩
      cases this
    simp only [hnot_ready, hy_chains, true_and, false_or, Option.map_eq_some_iff]
  · simp only [hy_chains, false_and, or_false]
    exact hinv.ready y

theorem PoolInv.ready_nodup_of_remove :
    (self.remove_transaction id).1.ready_transactions.Nodup := by
  rw [(hinv.remove_transaction_spec ht hps).2.2.2.1]
  exact ((release_chains_spec self.parent_transactions self.ready_transactions
    (hinv.chained_getD_nodup id) id).2.2 hinv.ready_nodup).erase id

theorem PoolInv.owner_of_remove :
    ∀ o y, (self.remove_transaction id).1.utxo_set.outpoint_owner_id.lookup o = some y ↔
      ∃ ty, (self.remove_transaction id).1.all_transactions.lookup y = some ty ∧
        o ∈ ty.mtx.tx.inputs.map (·.previous_outpoint) := by
  obtain ⟨hall, -, -, -, hutxo⟩ := hinv.remove_transaction_spec ht hps
  intro o y
  rw [hutxo, MempoolUtxoSet.lookup_owner_remove_transaction, hall]
  simp only [lookup_erase_eq_some_iff]
  split_ifs with ho
  · -- the removed transaction was the only spender of its outpoints
    simp only [false_iff, not_exists, not_and]
    rintro ty ⟨hyi, hty⟩ hoy
    have h₁ := (hinv.owner o y).mpr ⟨ty, hty, hoy⟩
    have h₂ := (hinv.owner o id).mpr ⟨t, ht, ho⟩
    rw [h₁, Option.some_inj] at h₂
    exact hyi h₂
  · rw [hinv.owner]
    constructor
    · rintro ⟨ty, hty, hoy⟩
      refine ⟨ty, ⟨fun h => ?_, hty⟩, hoy⟩
      rw [h, ht, Option.some_inj] at hty
      subst hty
      exact ho hoy
    · rintro ⟨ty, ⟨-, hty⟩, hoy⟩
      exact ⟨ty, hty, hoy⟩

theorem PoolInv.ranked_of_remove :
    ∃ rank : TransactionId → Nat, ∀ x y ty, x ∈ (self.remove_transaction id).1.all_transactions →
      (self.remove_transaction id).1.all_transactions.lookup y = some ty → x ≠ y →
        spends ty x → rank x < rank y := by
  obtain ⟨hall, -⟩ := hinv.remove_transaction_spec ht hps
  obtain ⟨rank, hrank⟩ := hinv.ranked
  refine ⟨rank, fun x y ty hx hy hxy hsp => ?_⟩
  rw [hall, AList.mem_erase] at hx
  rw [hall, lookup_erase_eq_some_iff] at hy
  exact hrank x y ty hx.2 hy.2 hxy hsp

end Remove

-- A removal keeps the invariant.
theorem PoolInv.remove {self : TransactionsPool} (hinv : PoolInv self) (id : TransactionId) :
    PoolInv (self.remove_transaction id).1 := by
  cases ht : self.all_transactions.lookup id with
  | none =>
    rw [remove_transaction_of_not_mem hinv (AList.lookup_eq_none.mp ht)]
    exact hinv
  | some t =>
    -- a stored transaction has a parent set
    obtain ⟨ps, hps⟩ := hinv.parent_lookup (AList.lookup_isSome.mp (Option.isSome_of_eq_some ht))
    exact ⟨hinv.id_eq_of_remove ht hps, hinv.parent_keys_of_remove ht hps,
      hinv.parents_of_remove ht hps, hinv.chained_keys_of_remove ht hps,
      hinv.chained_nodup_of_remove ht hps, hinv.chained_of_remove ht hps,
      hinv.ready_of_remove ht hps, hinv.ready_nodup_of_remove ht hps,
      hinv.owner_of_remove ht hps, hinv.ranked_of_remove ht hps⟩

-- The states the pool reaches from an empty one by additions of new, fully populated
-- transactions that passed `check_double_spends` and whose outputs no pool transaction
-- spends, and by removals.
inductive Reachable : TransactionsPool → Prop
  | new : Reachable new
  | add {self self' : TransactionsPool} {transaction : MempoolTransaction} :
      Reachable self → self.check_double_spends transaction.mtx = .ok () →
      (∀ y ty, self.all_transactions.lookup y = some ty → ¬spends ty transaction.id) →
      self.add_mempool_transaction transaction = some self' → Reachable self'
  | remove {self : TransactionsPool} (transaction_id : TransactionId) :
      Reachable self → Reachable (self.remove_transaction transaction_id).1

theorem PoolInv.of_reachable {self : TransactionsPool} (h : Reachable self) : PoolInv self := by
  induction h with
  | new => exact PoolInv.new
  | add _ hdouble hunspent hadd ih => exact ih.add hdouble hunspent hadd
  | remove transaction_id _ ih => exact ih.remove transaction_id

section Consequences

variable {self : TransactionsPool} (hinv : PoolInv self)
include hinv

-- The parent and chained maps are the same relation, "spends an output of", read both ways.
theorem PoolInv.edges {x y : TransactionId} {ty : MempoolTransaction}
    (hx : x ∈ self.all_transactions) (hy : self.all_transactions.lookup y = some ty) :
    (y ∈ (self.chained_transactions.lookup x).getD [] ↔
      x ∈ (self.parent_transactions.lookup y).getD []) ∧
    (x ∈ (self.parent_transactions.lookup y).getD [] ↔ x ≠ y ∧ spends ty x) := by
  obtain ⟨ps, hps⟩ := hinv.parent_lookup (AList.lookup_isSome.mp (Option.isSome_of_eq_some hy))
  have hparent : x ∈ (self.parent_transactions.lookup y).getD [] ↔ x ≠ y ∧ spends ty x := by
    rw [hps, Option.getD_some, ((hinv.parents y ty ps hy hps).2 x)]
    exact and_iff_right hx
  refine ⟨?_, hparent⟩
  rw [hparent, hinv.chained x hx y]
  constructor
  · rintro ⟨ty', hty', hyx, hsp⟩
    rw [hy, Option.some_inj] at hty'
    exact ⟨Ne.symm hyx, hty' ▸ hsp⟩
  · rintro ⟨hxy, hsp⟩
    exact ⟨ty, hy, Ne.symm hxy, hsp⟩

-- From a pool transaction, the links the redeemer search follows are the pool transactions
-- spending from it.
theorem PoolInv.redeemer_edge_iff {x y : TransactionId} (hx : x ∈ self.all_transactions) :
    Pool.redeemer_edge self.all_transactions self.chained_transactions x y ↔
      ∃ ty, self.all_transactions.lookup y = some ty ∧ y ≠ x ∧ spends ty x := by
  unfold Pool.redeemer_edge
  rw [hinv.chained x hx y]
  constructor
  · exact fun h => h.1
  · rintro ⟨ty, hy, hyx, hsp⟩
    exact ⟨⟨ty, hy, hyx, hsp⟩, AList.lookup_isSome.mp (Option.isSome_of_eq_some hy)⟩

-- The ready transactions are the pool transactions with an empty parent set.
theorem PoolInv.ready_iff (y : TransactionId) :
    y ∈ self.ready_transactions ↔
      y ∈ self.all_transactions ∧ self.parent_transactions.lookup y = some [] := by
  rw [hinv.ready]
  constructor
  · intro h
    exact ⟨(hinv.parent_keys y).mp (AList.lookup_isSome.mp (Option.isSome_of_eq_some h)), h⟩
  · exact fun h => h.2

-- An outpoint has at most one spender in the pool.
theorem PoolInv.spender_unique {y z : TransactionId} {ty tz : MempoolTransaction}
    {o : TransactionOutpoint} (hy : self.all_transactions.lookup y = some ty)
    (hz : self.all_transactions.lookup z = some tz)
    (hoy : o ∈ ty.mtx.tx.inputs.map (·.previous_outpoint))
    (hoz : o ∈ tz.mtx.tx.inputs.map (·.previous_outpoint)) : y = z := by
  have h₁ := (hinv.owner o y).mpr ⟨ty, hy, hoy⟩
  rw [(hinv.owner o z).mpr ⟨tz, hz, hoz⟩, Option.some_inj] at h₁
  exact h₁.symm

-- `check_double_spends` rejects exactly the transactions one of whose spent outpoints
-- another pool transaction spends.
theorem PoolInv.check_double_spends_ne_ok (transaction : MutableTransaction) :
    self.check_double_spends transaction ≠ .ok () ↔
      ∃ input ∈ transaction.tx.inputs, ∃ y ty, self.all_transactions.lookup y = some ty ∧
        y ≠ transaction.id ∧
        input.previous_outpoint ∈ ty.mtx.tx.inputs.map (·.previous_outpoint) := by
  rw [check_double_spends, Ne, MempoolUtxoSet.check_double_spends_eq_ok]
  constructor
  · intro h
    push Not at h
    obtain ⟨input, hinput, e, hown, he⟩ := h
    obtain ⟨te, hte, hoe⟩ := (hinv.owner _ e).mp hown
    exact ⟨input, hinput, e, te, hte, he, hoe⟩
  · rintro ⟨input, hinput, y, ty, hy, hyi, hoy⟩ hall
    exact hyi (hall input hinput y ((hinv.owner _ y).mpr ⟨ty, hy, hoy⟩))

-- The in-degree of a pool transaction in the chained edges is the size of its parent set.
theorem PoolInv.in_degree_of_eq {y : TransactionId} {ty : MempoolTransaction}
    {ps : List TransactionId} (hy : self.all_transactions.lookup y = some ty)
    (hps : self.parent_transactions.lookup y = some ps) :
    in_degree_of (fun key => self.chained_transactions.lookup key) self.all_transactions.keys y =
      ps.length := by
  have hnodup : ∀ x ∈ self.all_transactions.keys,
      ((self.chained_transactions.lookup x).getD []).Nodup := by
    intro x _
    cases hx : self.chained_transactions.lookup x with
    | none => exact List.nodup_nil
    | some cs => exact hinv.chained_nodup x cs hx
  rw [in_degree_of_eq_length_filter _ hnodup]
  obtain ⟨hps_nodup, hps_mem⟩ := hinv.parents y ty ps hy hps
  refine ((List.perm_ext_iff_of_nodup (self.all_transactions.keys_nodup.filter _)
    hps_nodup).mpr fun x => ?_).length_eq
  simp only [List.mem_filter, decide_eq_true_eq]
  rw [← AList.mem_keys, hps_mem]
  constructor
  · rintro ⟨hx, hyx⟩
    obtain ⟨hxy, hsp⟩ := (hinv.edges hx hy).2.mp ((hinv.edges hx hy).1.mp hyx)
    exact ⟨hx, hxy, hsp⟩
  · rintro ⟨hx, hxy, hsp⟩
    refine ⟨hx, (hinv.edges hx hy).1.mpr ((hinv.edges hx hy).2.mpr ⟨hxy, hsp⟩)⟩

-- A transaction's parents are other pool transactions, each listed once.
theorem PoolInv.length_parents_lt {y : TransactionId} {ps : List TransactionId}
    (hps : self.parent_transactions.lookup y = some ps) :
    ps.length < self.all_transactions.keys.length := by
  have hy : y ∈ self.all_transactions :=
    (hinv.parent_keys y).mp (AList.lookup_isSome.mp (Option.isSome_iff_exists.mpr ⟨_, hps⟩))
  obtain ⟨ty, hty⟩ := Option.isSome_iff_exists.mp (AList.lookup_isSome.mpr hy)
  obtain ⟨hnodup, hmem⟩ := hinv.parents y ty ps hty hps
  have hsub : y :: ps ⊆ self.all_transactions.keys := by
    intro x hx
    rcases List.mem_cons.mp hx with rfl | hx
    · exact AList.mem_keys.mpr hy
    · exact AList.mem_keys.mpr ((hmem x).mp hx).1
  have hle := (List.nodup_cons.mpr ⟨fun h => ((hmem y).mp h).2.1 rfl, hnodup⟩).length_le_of_subset
    hsub
  rw [List.length_cons] at hle
  omega

-- With fewer than 2^32 parents per transaction, the topological index of the pool is `Ok`:
-- every pool transaction once, each after the pool transactions it spends from.
theorem PoolInv.topological_index_ok
    (hbound : ∀ y ps, self.parent_transactions.lookup y = some ps → ps.length < 2 ^ 32) :
    ∃ sorted, self.topological_index = some (.ok sorted) ∧
      sorted.Perm self.all_transactions.keys ∧
      ∀ l₁ y l₂, sorted = l₁ ++ y :: l₂ → ∀ x ∈ self.all_transactions.keys,
        y ∈ (self.chained_transactions.lookup x).getD [] → x ∈ l₁ := by
  obtain ⟨rank, hrank⟩ := hinv.ranked
  -- an edge of the index leads to a transaction of the pool spending from its source
  have hedge : ∀ x ∈ self.all_transactions.keys, ∀ y ∈ (self.chained_transactions.lookup x).getD [],
      ∃ ty, self.all_transactions.lookup y = some ty ∧ y ≠ x ∧ spends ty x :=
    fun x hx y hy => (hinv.chained x (AList.mem_keys.mpr hx) y).mp hy
  refine topological_index_spec _ _ self.all_transactions.keys_nodup (fun x hx y hy => ?_)
    (fun y hy => ?_) rank (fun x hx y hy => ?_)
  · obtain ⟨ty, hty, -⟩ := hedge x hx y hy
    exact AList.mem_keys.mp (AList.lookup_isSome.mp (Option.isSome_of_eq_some hty))
  · obtain ⟨ty, hty⟩ := Option.isSome_iff_exists.mp (AList.lookup_isSome.mpr (AList.mem_keys.mpr hy))
    obtain ⟨ps, hps⟩ := hinv.parent_lookup (AList.mem_keys.mpr hy)
    rw [hinv.in_degree_of_eq hty hps]
    exact hbound y ps hps
  · obtain ⟨ty, hty, hyx, hsp⟩ := hedge x hx y hy
    exact hrank x y ty (AList.mem_keys.mpr hx) hty (Ne.symm hyx) hsp

end Consequences

theorem reachable_pool_consistent (self : TransactionsPool) (hreach : Reachable self) :
    (∀ x y ty, x ∈ self.all_transactions → self.all_transactions.lookup y = some ty →
      (y ∈ (self.chained_transactions.lookup x).getD [] ↔
        x ∈ (self.parent_transactions.lookup y).getD []) ∧
      (x ∈ (self.parent_transactions.lookup y).getD [] ↔ x ≠ y ∧ spends ty x)) ∧
    (∀ y, y ∈ self.ready_transactions ↔
      y ∈ self.all_transactions ∧ self.parent_transactions.lookup y = some []) ∧
    (∀ o y, self.utxo_set.get_outpoint_owner_id o = some y ↔
      ∃ ty, self.all_transactions.lookup y = some ty ∧
        o ∈ ty.mtx.tx.inputs.map (·.previous_outpoint)) ∧
    (∀ y z ty tz o, self.all_transactions.lookup y = some ty →
      self.all_transactions.lookup z = some tz →
      o ∈ ty.mtx.tx.inputs.map (·.previous_outpoint) →
      o ∈ tz.mtx.tx.inputs.map (·.previous_outpoint) → y = z) ∧
    (∀ transaction : MutableTransaction, self.check_double_spends transaction ≠ .ok () ↔
      ∃ input ∈ transaction.tx.inputs, ∃ y ty, self.all_transactions.lookup y = some ty ∧
        y ≠ transaction.id ∧
        input.previous_outpoint ∈ ty.mtx.tx.inputs.map (·.previous_outpoint)) ∧
    ((∀ y ps, self.parent_transactions.lookup y = some ps → ps.length < 2 ^ 32) →
      ∃ sorted, self.topological_index = some (.ok sorted) ∧
        sorted.Perm self.all_transactions.keys ∧
        ∀ l₁ y l₂, sorted = l₁ ++ y :: l₂ → ∀ x ∈ self.all_transactions.keys,
          y ∈ (self.chained_transactions.lookup x).getD [] → x ∈ l₁) := by
  have hinv := PoolInv.of_reachable hreach
  exact ⟨fun x y ty hx hy => hinv.edges hx hy, hinv.ready_iff, hinv.owner,
    fun y z ty tz o hy hz hoy hoz => hinv.spender_unique hy hz hoy hoz,
    hinv.check_double_spends_ne_ok, hinv.topological_index_ok⟩

section FanIn

-- A transaction with 2^32 parents in the pool: its in-degree counter overflows.

-- The `j`-th parent spends an outpoint outside the pool and has one output.
def fan_in_parent (j : Nat) : MempoolTransaction :=
  ⟨⟨⟨0, [⟨⟨List.replicate (j + 1) 2, 0⟩, [], 0, 1⟩], [⟨1, ⟨0, []⟩⟩], 0, SUBNETWORK_ID_NATIVE, 0,
    [], 0, List.replicate (j + 1) 0⟩, [some ⟨1, ⟨0, []⟩, 0, false⟩], some 0, some 0, rfl⟩, .Low, 0⟩

-- The child spends output 0 of each of the first `n` parents.
def fan_in_child (n : Nat) : MempoolTransaction :=
  ⟨⟨⟨0, (List.range n).map (fun j => ⟨⟨List.replicate (j + 1) 0, 0⟩, [], 0, 1⟩), [], 0,
    SUBNETWORK_ID_NATIVE, 0, [], 0, [1]⟩, List.replicate n (some ⟨1, ⟨0, []⟩, 0, false⟩), some 0,
    some 0, by simp⟩, .Low, 0⟩

-- The pool after adding the first `k` parents, one after the other.
def fan_in_parents : Nat → TransactionsPool
  | 0 => new
  | k + 1 => ((fan_in_parents k).add_mempool_transaction (fan_in_parent k)).getD (fan_in_parents k)

def fan_in (n : Nat) : TransactionsPool :=
  ((fan_in_parents n).add_mempool_transaction (fan_in_child n)).getD (fan_in_parents n)

theorem replicate_succ_inj {a : UInt8} {j k : Nat}
    (h : List.replicate (j + 1) a = List.replicate (k + 1) a) : j = k := by
  have := congrArg List.length h
  simp only [List.length_replicate] at this
  omega

theorem fan_in_parents_spec (k : Nat) :
    Reachable (fan_in_parents k) ∧
      ∀ y ty, (fan_in_parents k).all_transactions.lookup y = some ty ↔
        ∃ j < k, y = List.replicate (j + 1) 0 ∧ ty = fan_in_parent j := by
  induction k with
  | zero => exact ⟨.new, by simp [fan_in_parents, new]⟩
  | succ k ih =>
    obtain ⟨hreach, hall⟩ := ih
    have hinv := PoolInv.of_reachable hreach
    have hnew : (fan_in_parent k).id ∉ (fan_in_parents k).all_transactions := by
      intro hmem
      obtain ⟨ty, hty⟩ := Option.isSome_iff_exists.mp (AList.lookup_isSome.mpr hmem)
      obtain ⟨j, hj, hrep, -⟩ := (hall _ ty).mp hty
      exact absurd (replicate_succ_inj hrep) (by omega)
    obtain ⟨self', hadd⟩ := add_mempool_transaction_isSome hnew rfl
    have hstep : fan_in_parents (k + 1) = self' := by
      rw [fan_in_parents, hadd, Option.getD_some]
    -- the only outpoint the new parent spends is its own, and no parent spends a parent
    have hdouble : (fan_in_parents k).check_double_spends (fan_in_parent k).mtx = .ok () := by
      by_contra h
      obtain ⟨input, hinput, y, ty, hy, -, hoy⟩ := (hinv.check_double_spends_ne_ok _).mp h
      obtain ⟨j, hj, -, rfl⟩ := (hall y ty).mp hy
      simp only [fan_in_parent, List.mem_cons, List.not_mem_nil, or_false] at hinput
      subst hinput
      simp only [fan_in_parent, List.map_cons, List.map_nil, List.mem_cons, List.not_mem_nil,
        or_false, TransactionOutpoint.mk.injEq, and_true] at hoy
      exact absurd (replicate_succ_inj hoy) (by omega)
    have hunspent : ∀ y ty, (fan_in_parents k).all_transactions.lookup y = some ty →
        ¬spends ty (fan_in_parent k).id := by
      rintro y ty hy ⟨input, hinput, hspent⟩
      obtain ⟨j, -, -, rfl⟩ := (hall y ty).mp hy
      simp only [fan_in_parent, List.mem_cons, List.not_mem_nil, or_false] at hinput
      subst hinput
      simp [fan_in_parent, MempoolTransaction.id, MutableTransaction.id,
        List.replicate_succ] at hspent
    refine ⟨hstep ▸ .add hreach hdouble hunspent hadd, fun y ty => ?_⟩
    rw [hstep, (add_mempool_transaction_spec hadd).2.1]
    by_cases hy : y = List.replicate (k + 1) 0
    · subst hy
      rw [show List.replicate (k + 1) 0 = (fan_in_parent k).id from rfl, AList.lookup_insert,
        Option.some_inj]
      constructor
      · rintro rfl
        exact ⟨k, by omega, rfl, rfl⟩
      · rintro ⟨j, -, hrep, rfl⟩
        rw [replicate_succ_inj hrep]
    · rw [AList.lookup_insert_ne (show y ≠ (fan_in_parent k).id from hy), hall]
      constructor
      · rintro ⟨j, hj, hrep, rfl⟩
        exact ⟨j, by omega, hrep, rfl⟩
      · rintro ⟨j, hj, rfl, rfl⟩
        have hjk : j ≠ k := fun h => hy (h ▸ rfl)
        exact ⟨j, by omega, rfl, rfl⟩

-- The child's parents in the pool are the `n` parents.
theorem length_fan_in_child_parents (n : Nat) :
    (Pool.get_parent_transaction_ids_in_pool (fan_in_parents n).all_transactions
      (fan_in_child n).mtx).length = n := by
  have hmap : ((List.range n).map fun j => List.replicate (j + 1) (0 : UInt8)).Nodup :=
    List.nodup_range.map fun j k h => replicate_succ_inj h
  refine ((List.perm_ext_iff_of_nodup (Pool.nodup_get_parent_transaction_ids_in_pool _ _)
    hmap).mpr fun x => ?_).length_eq.trans (by simp)
  rw [Pool.mem_get_parent_transaction_ids_in_pool]
  simp only [fan_in_child, List.mem_map, List.mem_range, exists_exists_and_eq_and]
  constructor
  · rintro ⟨-, j, hj, rfl⟩
    exact ⟨j, hj, rfl⟩
  · rintro ⟨j, hj, rfl⟩
    have hlookup := ((fan_in_parents_spec n).2 _ _).mpr ⟨j, hj, rfl, rfl⟩
    exact ⟨AList.lookup_isSome.mp (Option.isSome_of_eq_some hlookup), j, hj, rfl⟩

theorem fan_in_spec (n : Nat) :
    Reachable (fan_in n) ∧ (fan_in n).all_transactions.lookup [1] = some (fan_in_child n) ∧
      (fan_in n).parent_transactions.lookup [1] = some
        (Pool.get_parent_transaction_ids_in_pool (fan_in_parents n).all_transactions
          (fan_in_child n).mtx) := by
  obtain ⟨hreach, hall⟩ := fan_in_parents_spec n
  have hinv := PoolInv.of_reachable hreach
  -- the child's id `[1]` is no parent's, and no parent spends from it
  have hnew : (fan_in_child n).id ∉ (fan_in_parents n).all_transactions := by
    intro hmem
    obtain ⟨ty, hty⟩ := Option.isSome_iff_exists.mp (AList.lookup_isSome.mpr hmem)
    obtain ⟨j, -, hrep, -⟩ := (hall _ ty).mp hty
    simp [fan_in_child, MempoolTransaction.id, MutableTransaction.id, List.replicate_succ] at hrep
  obtain ⟨self', hadd⟩ := add_mempool_transaction_isSome hnew
    (by simp [fan_in_child, MutableTransaction.is_fully_populated,
      MutableTransaction.is_verifiable])
  have hfan : fan_in n = self' := by
    rw [fan_in, hadd, Option.getD_some]
  have hdouble : (fan_in_parents n).check_double_spends (fan_in_child n).mtx = .ok () := by
    by_contra h
    obtain ⟨input, hinput, y, ty, hy, -, hoy⟩ := (hinv.check_double_spends_ne_ok _).mp h
    obtain ⟨j, -, -, rfl⟩ := (hall y ty).mp hy
    simp only [fan_in_child, List.mem_map, List.mem_range] at hinput
    obtain ⟨i, -, rfl⟩ := hinput
    simp [fan_in_parent, List.replicate_succ] at hoy
  have hunspent : ∀ y ty, (fan_in_parents n).all_transactions.lookup y = some ty →
      ¬spends ty (fan_in_child n).id := by
    rintro y ty hy ⟨input, hinput, hspent⟩
    obtain ⟨j, -, -, rfl⟩ := (hall y ty).mp hy
    simp only [fan_in_parent, List.mem_cons, List.not_mem_nil, or_false] at hinput
    subst hinput
    simp [fan_in_child, MempoolTransaction.id, MutableTransaction.id,
      List.replicate_succ] at hspent
  obtain ⟨-, hall', hparent', -⟩ := add_mempool_transaction_spec hadd
  refine ⟨hfan ▸ .add hreach hdouble hunspent hadd, ?_, ?_⟩
  · rw [hfan, hall']
    exact AList.lookup_insert _
  · rw [hfan, hparent']
    exact AList.lookup_insert _

-- The child of `n ≥ 2^32` parents overflows its in-degree counter.
theorem fan_in_topological_index_eq_none {n : Nat} (hn : 2 ^ 32 ≤ n) :
    (fan_in n).topological_index = none := by
  obtain ⟨hreach, hchild, hparent⟩ := fan_in_spec n
  have hinv := PoolInv.of_reachable hreach
  have hmem : [1] ∈ (fan_in n).all_transactions.keys :=
    AList.mem_keys.mpr (AList.lookup_isSome.mp (Option.isSome_iff_exists.mpr ⟨_, hchild⟩))
  have hdeg := hinv.in_degree_of_eq hchild hparent
  rw [length_fan_in_child_parents] at hdeg
  exact Waglayla.Mining.topological_index_eq_none _ hmem (hdeg.symm ▸ hn)

end FanIn

theorem fan_in_two_consistent :
    Reachable (fan_in 2) ∧ ∃ sorted, (fan_in 2).topological_index = some (.ok sorted) ∧
      sorted.Perm (fan_in 2).all_transactions.keys ∧
      ∀ l₁ y l₂, sorted = l₁ ++ y :: l₂ → ∀ x ∈ (fan_in 2).all_transactions.keys,
        y ∈ ((fan_in 2).chained_transactions.lookup x).getD [] → x ∈ l₁ :=
  ⟨(fan_in_spec 2).1, (reachable_pool_consistent (fan_in 2) (fan_in_spec 2).1).2.2.2.2.2
    fun _ _ hps => lt_of_lt_of_le
      ((PoolInv.of_reachable (fan_in_spec 2).1).length_parents_lt hps) (by decide)⟩

-- With 2^32 parents, the child's in-degree counter overflows and the topological index of a
-- reachable pool panics. The pool is reached through a variable number of parents: Lean
-- must never unfold the 2^32 additions themselves.
theorem fan_in_topological_index_overflow :
    Reachable (fan_in (2 ^ 32)) ∧ (fan_in (2 ^ 32)).topological_index = none :=
  ⟨(fan_in_spec _).1, fan_in_topological_index_eq_none le_rfl⟩

-- In a reachable pool, `get_redeemer_ids_in_pool` returns, once each, the pool transactions
-- that spend from the start, directly or through other pool transactions.
theorem get_redeemer_ids_in_pool_of_reachable (self : TransactionsPool) (hreach : Reachable self)
    (root : TransactionId) :
    ∃ redeemers, Pool.get_redeemer_ids_in_pool self.all_transactions self.chained_transactions
        root = some redeemers ∧ redeemers.Nodup ∧
      ∀ y, y ∈ redeemers ↔ root ∈ self.all_transactions ∧ Relation.TransGen
        (fun x y => ∃ ty, self.all_transactions.lookup y = some ty ∧ y ≠ x ∧ spends ty x)
        root y := by
  have hinv := PoolInv.of_reachable hreach
  obtain ⟨redeemers, hget, hnodup, hmem⟩ := Pool.get_redeemer_ids_in_pool_spec hinv.id_eq root
  refine ⟨redeemers, hget, hnodup, fun y => ?_⟩
  rw [hmem]
  refine and_congr_right fun hroot => ?_
  -- both relations, cut down to links out of the pool, are the same; and neither leaves it
  have hlinks : (fun x y => x ∈ self.all_transactions ∧
        Pool.redeemer_edge self.all_transactions self.chained_transactions x y) =
      fun x y => x ∈ self.all_transactions ∧
        ∃ ty, self.all_transactions.lookup y = some ty ∧ y ≠ x ∧ spends ty x := by
    funext x y
    exact propext (and_congr_right fun hx => hinv.redeemer_edge_iff hx)
  rw [← DagPast.transGen_restrict_iff (fun _ _ _ h => h.2) hroot, hlinks,
    DagPast.transGen_restrict_iff
      (fun _ _ _ ⟨_, hy, _⟩ => AList.lookup_isSome.mp (Option.isSome_of_eq_some hy)) hroot]

-- A transaction spending the fan-in child, added to the pool of two parents and their child.
def fan_in_grandchild : MempoolTransaction :=
  ⟨⟨⟨0, [⟨⟨[1], 0⟩, [], 0, 1⟩], [], 0, SUBNETWORK_ID_NATIVE, 0, [], 0, [3]⟩,
    [some ⟨1, ⟨0, []⟩, 0, false⟩], some 0, some 0, rfl⟩, .Low, 0⟩

def fan_in_chain : TransactionsPool :=
  ((fan_in 2).add_mempool_transaction fan_in_grandchild).getD (fan_in 2)

theorem fan_in_chain_reachable : Reachable fan_in_chain := by
  obtain ⟨self', hadd⟩ := Option.isSome_iff_exists.mp
    (show ((fan_in 2).add_mempool_transaction fan_in_grandchild).isSome by decide)
  have hchain : fan_in_chain = self' := by
    rw [fan_in_chain, hadd, Option.getD_some]
  -- no pool transaction spends from the grandchild's id
  have hunspent : ∀ y ty, (fan_in 2).all_transactions.lookup y = some ty →
      ¬spends ty fan_in_grandchild.id :=
    AListFold.forall_lookup_of_forall_keys (by decide)
  exact hchain ▸ .add (fan_in_spec 2).1 (by decide) hunspent hadd

-- From the first parent, the search finds the child and, through it, the grandchild.
theorem get_redeemer_ids_in_pool_of_reachable_chain :
    Pool.get_redeemer_ids_in_pool fan_in_chain.all_transactions fan_in_chain.chained_transactions
        [0] = some [[1], [3]] ∧
      ∃ redeemers, Pool.get_redeemer_ids_in_pool fan_in_chain.all_transactions
          fan_in_chain.chained_transactions [0] = some redeemers ∧ redeemers.Nodup ∧
        ∀ y, y ∈ redeemers ↔ [0] ∈ fan_in_chain.all_transactions ∧ Relation.TransGen
          (fun x y => ∃ ty, fan_in_chain.all_transactions.lookup y = some ty ∧ y ≠ x ∧
            spends ty x) [0] y :=
  ⟨by decide, get_redeemer_ids_in_pool_of_reachable fan_in_chain fan_in_chain_reachable [0]⟩

end TransactionsPool

section SpentOutpoints

open TransactionsPool

-- The input loop of `add_transaction` removes the transaction's own outpoint at each input
-- index, not the outpoint the input spends (its comment: "Delete the output this input
-- spends"), so an output of a pool transaction stays unspent after a child spending it joins.
theorem MempoolUtxoSet.add_transaction_keeps_spent_outpoints (self : MempoolUtxoSet)
    (parent child : MutableTransaction) (hne : child.id ≠ parent.id) :
    ∀ input ∈ child.tx.inputs, input.previous_outpoint.transaction_id = parent.id →
      input.previous_outpoint.index.toNat < parent.tx.outputs.length →
      input.previous_outpoint ∈
        ((self.add_transaction parent).add_transaction child).pool_unspent_outputs := by
  intro input _ hid hindex
  have hspent : input.previous_outpoint =
      ⟨parent.id, input.previous_outpoint.index.toNat.toUInt32⟩ := by
    rw [← hid, Nat.toUInt32_eq, UInt32.ofNat_toNat]
  rw [MempoolUtxoSet.mem_unspent_add_transaction_of_ne _ _ (by rw [hid]; exact hne.symm), hspent]
  exact MempoolUtxoSet.mem_unspent_add_transaction_output _ _ hindex

-- A parent with one output and a child spending it, added to a new set in that order.
theorem add_transaction_keeps_spent_outpoints_fan_in :
    (fan_in_child 1).mtx.id ≠ (fan_in_parent 0).mtx.id ∧
      (⟨[0], 0⟩ : TransactionOutpoint) ∈ (fan_in_child 1).mtx.tx.inputs.map (·.previous_outpoint) ∧
      (⟨[0], 0⟩ : TransactionOutpoint) ∈ ((MempoolUtxoSet.new.add_transaction
        (fan_in_parent 0).mtx).add_transaction (fan_in_child 1).mtx).pool_unspent_outputs :=
  ⟨by decide, by decide, MempoolUtxoSet.add_transaction_keeps_spent_outpoints _ _ _ (by decide)
    ⟨⟨[0], 0⟩, [], 0, 1⟩ (by decide) rfl (by decide)⟩

end SpentOutpoints

end Waglayla.Mining
