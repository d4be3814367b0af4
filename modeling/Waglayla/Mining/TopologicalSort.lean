import Waglayla.Mining.TopologicalDfs
import Waglayla.Consensus.Tx

-- The topological sort of transactions and its two iterators: Kahn's algorithm over positions,
-- with `i32` in-degrees, simulated by the `u32` map of `TopologicalIndex`.

namespace Waglayla.Mining

open Waglayla.Consensus (Transaction TransactionId)

-- A `HashSet<usize>` of positions, each once. The model visits it newest first; the source
-- visits it in the hash set's order, and no result below depends on the order.
abbrev IndexSet := List Nat

section Build

variable {T : Type} (as_ref : T → Transaction)

-- `index.insert(tx.id(), idx)` at every position.
def build_index (txs : List T) : AList fun _ : TransactionId => Nat :=
  txs.zipIdx.foldl (fun index entry => index.insert (as_ref entry.1).id entry.2) ∅

-- `all_edges[origin_idx].get_or_insert_with(IndexSet::new).insert(destination_idx)`; the index
-- only holds positions of the list, so the slot exists.
def insert_edge (all_edges : List (Option IndexSet)) (origin destination : Nat) :
    List (Option IndexSet) :=
  all_edges.modify origin fun edges => some ((edges.getD []).insert destination)

-- The inputs of the transaction at `destination_idx`: an edge from the position the index gives
-- to the id each input spends.
def add_tx_edges (index : AList fun _ : TransactionId => Nat) (all_edges : List (Option IndexSet))
    (entry : T × Nat) : List (Option IndexSet) :=
  (as_ref entry.1).inputs.foldl (fun all_edges input =>
    match index.lookup input.previous_outpoint.transaction_id with
    | some origin_idx => insert_edge all_edges origin_idx entry.2
    | none => all_edges) all_edges

def build_edges (txs : List T) (index : AList fun _ : TransactionId => Nat) :
    List (Option IndexSet) :=
  txs.zipIdx.foldl (add_tx_edges as_ref index) (List.replicate txs.length none)

end Build

-- The edges of a position as the index of `TopologicalIndex` reads them.
def edge_fn (all_edges : List (Option IndexSet)) (origin : Nat) : Option (List Nat) :=
  (all_edges[origin]?).join

-- `in_degree[destination_idx] += 1` on an `i32`.
def increment_i32 (in_degree : List Int) (destination : Nat) : Option (List Int) := do
  let degree ← in_degree[destination]?
  if degree + 1 < 2 ^ 31 then some (in_degree.set destination (degree + 1)) else none

-- The degrees loop: every edge of every position adds one at its destination.
def count_degrees (all_edges : List (Option IndexSet)) (in_degree : List Int) :
    Option (List Int) :=
  all_edges.foldlM (fun in_degree edges => (edges.getD []).foldlM increment_i32 in_degree)
    in_degree

-- The positions without incoming edges, in increasing order.
def zero_degree_queue (in_degree : List Int) : List Nat :=
  (List.range in_degree.length).filter fun destination => in_degree[destination]? = some 0

-- `*degree -= 1` on an `i32`, and a count reaching zero joins the back of the queue.
def relax_i32 (state : List Int × List Nat) (destination : Nat) :
    Option (List Int × List Nat) := do
  let degree ← state.1[destination]?
  if degree - 1 < -2 ^ 31 then none
  else some (state.1.set destination (degree - 1),
    if degree - 1 = 0 then state.2 ++ [destination] else state.2)

-- The round after `queue.pop_front()`: `all_edges[current]` panics past the end.
def relax_edges (all_edges : List (Option IndexSet)) (in_degree : List Int) (current : Nat)
    (queue : List Nat) : Option (List Int × List Nat) := do
  let edges ← all_edges[current]?
  (edges.getD []).foldlM relax_i32 (in_degree, queue)

-- The `while` loop, returning the positions in the order they leave the queue. A position
-- enters the queue at most once, so the list's length is enough `fuel`.
def sort_loop (all_edges : List (Option IndexSet)) :
    Nat → List Int → List Nat → Option (List Nat)
  | _, _, [] => some []
  | 0, _, _ :: _ => none
  | fuel + 1, in_degree, current :: queue => do
    let (in_degree, queue) ← relax_edges all_edges in_degree current queue
    let sorted ← sort_loop all_edges fuel in_degree queue
    return current :: sorted

section Sorting

variable {T : Type} (as_ref : T → Transaction)

-- `sorted.push(self[current].clone())` in every round; `self` does not change, so taking the
-- transactions after the loop gives the same list.
def topological_sort (txs : List T) : Option (List T) := do
  let all_edges := build_edges as_ref txs (build_index as_ref txs)
  let in_degree ← count_degrees all_edges (List.replicate txs.length 0)
  let positions ← sort_loop all_edges txs.length in_degree (zero_degree_queue in_degree)
  let sorted ← positions.mapM fun current => txs[current]?
  -- `assert_eq!(sorted.len(), self.len(), ..)`
  if sorted.length = txs.length then some sorted else none

structure TopologicalIter (T : Type) where
  transactions : List T
  in_degree : List Int
  edges : List (Option IndexSet)
  queue : List Nat
  yields_count : Nat

def TopologicalIter.new (transactions : List T) : Option (TopologicalIter T) := do
  let edges := build_edges as_ref transactions (build_index as_ref transactions)
  let in_degree ← count_degrees edges (List.replicate transactions.length 0)
  return ⟨transactions, in_degree, edges, zero_degree_queue in_degree, 0⟩

def TopologicalIter.next (self : TopologicalIter T) : Option (Option T × TopologicalIter T) :=
  match self.queue with
  | [] => some (none, self)
  | current :: queue => do
    let (in_degree, queue) ← relax_edges self.edges self.in_degree current queue
    let tx ← self.transactions[current]?
    return (some tx, { self with in_degree := in_degree, queue := queue,
                                 yields_count := self.yields_count + 1 })

structure TopologicalIntoIter (T : Type) where
  transactions : List (Option T)
  in_degree : List Int
  edges : List (Option IndexSet)
  queue : List Nat
  yields_count : Nat

-- Every slot holds its transaction when the index and the edges are built, so
-- `tx.as_ref().unwrap()` is the transaction.
def TopologicalIntoIter.new (transactions : List T) : Option (TopologicalIntoIter T) := do
  let edges := build_edges as_ref transactions (build_index as_ref transactions)
  let in_degree ← count_degrees edges (List.replicate transactions.length 0)
  return ⟨transactions.map some, in_degree, edges, zero_degree_queue in_degree, 0⟩

-- `self.transactions[current].take()`: a slot yields its transaction once and `None` after.
def TopologicalIntoIter.next (self : TopologicalIntoIter T) :
    Option (Option T × TopologicalIntoIter T) :=
  match self.queue with
  | [] => some (none, self)
  | current :: queue => do
    let (in_degree, queue) ← relax_edges self.edges self.in_degree current queue
    let tx ← self.transactions[current]?
    return (tx, { self with transactions := self.transactions.set current none,
                            in_degree := in_degree, queue := queue,
                            yields_count := self.yields_count + 1 })

end Sorting

-- Collecting an iterator: `next` until it answers `None`, calling it at most `fuel` times.
def collect_iter {S T : Type} (next : S → Option (Option T × S)) : Nat → S → Option (List T)
  | 0, _ => none
  | fuel + 1, state => do
    match ← next state with
    | (none, _) => return []
    | (some tx, state) => return tx :: (← collect_iter next fuel state)

section Edges

theorem length_insert_edge (all_edges : List (Option IndexSet)) (origin destination : Nat) :
    (insert_edge all_edges origin destination).length = all_edges.length :=
  List.length_modify _ _ _

-- An edge joins the set of its origin, if the origin has a slot, and no other set.
theorem mem_insert_edge {all_edges : List (Option IndexSet)} {origin destination o j : Nat} :
    j ∈ (edge_fn (insert_edge all_edges origin destination) o).getD [] ↔
      (o = origin ∧ origin < all_edges.length ∧ j = destination) ∨
        j ∈ (edge_fn all_edges o).getD [] := by
  unfold edge_fn insert_edge
  rw [List.getElem?_modify]
  by_cases ho : o = origin
  · subst ho
    by_cases hlt : o < all_edges.length
    · rw [List.getElem?_eq_getElem hlt]
      simp [List.mem_insert_iff, hlt]
    · rw [List.getElem?_eq_none (by omega)]
      simp [hlt]
  · simp [Ne.symm ho, ho]

theorem nodup_insert_edge {all_edges : List (Option IndexSet)}
    (hnodup : ∀ o, ((edge_fn all_edges o).getD []).Nodup) (origin destination o : Nat) :
    ((edge_fn (insert_edge all_edges origin destination) o).getD []).Nodup := by
  have h := hnodup o
  unfold edge_fn insert_edge at *
  rw [List.getElem?_modify]
  by_cases ho : origin = o
  · cases hget : all_edges[o]? with
    | none => simp
    | some edges =>
      rw [hget] at h
      simpa [ho] using h.insert
  · simpa [ho] using h

variable {T : Type} (as_ref : T → Transaction) (index : AList fun _ : TransactionId => Nat)

-- The inner loop over the inputs of one transaction, for any inputs and any edges so far.
theorem foldl_inputs_spec (destination : Nat) : ∀ (inputs : List Consensus.TransactionInput)
    (all_edges : List (Option IndexSet)),
    let result := inputs.foldl (fun all_edges input =>
      match index.lookup input.previous_outpoint.transaction_id with
      | some origin_idx => insert_edge all_edges origin_idx destination
      | none => all_edges) all_edges
    result.length = all_edges.length ∧
      ((∀ o, ((edge_fn all_edges o).getD []).Nodup) → ∀ o, ((edge_fn result o).getD []).Nodup) ∧
      ∀ o j, j ∈ (edge_fn result o).getD [] ↔
        (o < all_edges.length ∧ j = destination ∧
          ∃ input ∈ inputs, index.lookup input.previous_outpoint.transaction_id = some o) ∨
        j ∈ (edge_fn all_edges o).getD []
  | [], all_edges => by simp
  | input :: inputs, all_edges => by
    intro result
    cases hlookup : index.lookup input.previous_outpoint.transaction_id with
    | none =>
      obtain ⟨hlen, hnodup, hmem⟩ := foldl_inputs_spec destination inputs all_edges
      simp only [result, List.foldl_cons, hlookup]
      refine ⟨hlen, hnodup, fun o j => ?_⟩
      rw [hmem o j]
      simp [hlookup]
    | some origin =>
      obtain ⟨hlen, hnodup, hmem⟩ :=
        foldl_inputs_spec destination inputs (insert_edge all_edges origin destination)
      simp only [result, List.foldl_cons, hlookup]
      refine ⟨hlen.trans (length_insert_edge _ _ _),
        fun h => hnodup (nodup_insert_edge h origin destination), fun o j => ?_⟩
      rw [hmem o j, length_insert_edge, mem_insert_edge]
      constructor
      · rintro (⟨ho, rfl, input', hinput', hl⟩ | ⟨rfl, ho, rfl⟩ | hj)
        · exact .inl ⟨ho, rfl, input', List.mem_cons_of_mem _ hinput', hl⟩
        · exact .inl ⟨ho, rfl, input, List.mem_cons_self, hlookup⟩
        · exact .inr hj
      · rintro (⟨ho, rfl, input', hinput', hl⟩ | hj)
        · rcases List.mem_cons.mp hinput' with rfl | hinput'
          · rw [hlookup, Option.some.injEq] at hl
            exact .inr (.inl ⟨hl.symm, hl ▸ ho, rfl⟩)
          · exact .inl ⟨ho, rfl, input', hinput', hl⟩
        · exact .inr (.inr hj)

theorem add_tx_edges_spec (all_edges : List (Option IndexSet)) (entry : T × Nat) :
    (add_tx_edges as_ref index all_edges entry).length = all_edges.length ∧
      ((∀ o, ((edge_fn all_edges o).getD []).Nodup) →
        ∀ o, ((edge_fn (add_tx_edges as_ref index all_edges entry) o).getD []).Nodup) ∧
      ∀ o j, j ∈ (edge_fn (add_tx_edges as_ref index all_edges entry) o).getD [] ↔
        (o < all_edges.length ∧ j = entry.2 ∧
          ∃ input ∈ (as_ref entry.1).inputs, index.lookup input.previous_outpoint.transaction_id = some o) ∨
        j ∈ (edge_fn all_edges o).getD [] :=
  foldl_inputs_spec index entry.2 (as_ref entry.1).inputs all_edges

-- The loop over the transactions, for any list of entries and any edges so far.
theorem foldl_add_tx_edges_spec : ∀ (entries : List (T × Nat)) (all_edges : List (Option IndexSet)),
    let result := entries.foldl (add_tx_edges as_ref index) all_edges
    result.length = all_edges.length ∧
      ((∀ o, ((edge_fn all_edges o).getD []).Nodup) → ∀ o, ((edge_fn result o).getD []).Nodup) ∧
      ∀ o j, j ∈ (edge_fn result o).getD [] ↔
        (o < all_edges.length ∧ ∃ entry ∈ entries, j = entry.2 ∧
          ∃ input ∈ (as_ref entry.1).inputs, index.lookup input.previous_outpoint.transaction_id = some o) ∨
        j ∈ (edge_fn all_edges o).getD []
  | [], all_edges => by simp
  | entry :: entries, all_edges => by
    intro result
    obtain ⟨hlen₁, hnodup₁, hmem₁⟩ := add_tx_edges_spec as_ref index all_edges entry
    obtain ⟨hlen, hnodup, hmem⟩ :=
      foldl_add_tx_edges_spec entries (add_tx_edges as_ref index all_edges entry)
    simp only [result, List.foldl_cons]
    refine ⟨hlen.trans hlen₁, fun h => hnodup (hnodup₁ h), fun o j => ?_⟩
    rw [hmem o j, hmem₁ o j, hlen₁]
    constructor
    · rintro (⟨ho, entry', hentry', rfl, hinput⟩ | ⟨ho, rfl, hinput⟩ | hj)
      · exact .inl ⟨ho, entry', List.mem_cons_of_mem _ hentry', rfl, hinput⟩
      · exact .inl ⟨ho, entry, List.mem_cons_self, rfl, hinput⟩
      · exact .inr hj
    · rintro (⟨ho, entry', hentry', rfl, hinput⟩ | hj)
      · rcases List.mem_cons.mp hentry' with rfl | hentry'
        · exact .inr (.inl ⟨ho, rfl, hinput⟩)
        · exact .inl ⟨ho, entry', hentry', rfl, hinput⟩
      · exact .inr (.inr hj)

-- The edge sets hold each position once, and an edge goes from `o` to `j` exactly when an input
-- of the transaction at `j` spends an id the index gives `o`.
theorem build_edges_spec (txs : List T) :
    (build_edges as_ref txs index).length = txs.length ∧
      (∀ o, ((edge_fn (build_edges as_ref txs index) o).getD []).Nodup) ∧
      ∀ o j, j ∈ (edge_fn (build_edges as_ref txs index) o).getD [] ↔
        o < txs.length ∧ ∃ tx, txs[j]? = some tx ∧
          ∃ input ∈ (as_ref tx).inputs, index.lookup input.previous_outpoint.transaction_id = some o := by
  -- every slot starts empty
  have hempty : ∀ o, edge_fn (List.replicate txs.length none) o = none := fun o => by
    simp only [edge_fn, List.getElem?_replicate]
    split <;> rfl
  obtain ⟨hlen, hnodup, hmem⟩ :=
    foldl_add_tx_edges_spec as_ref index txs.zipIdx (List.replicate txs.length none)
  refine ⟨hlen.trans List.length_replicate, fun o => hnodup (fun o => by simp [hempty]) o,
    fun o j => ?_⟩
  rw [build_edges, hmem o j, List.length_replicate, hempty]
  simp only [List.mem_zipIdx_iff_getElem?, Option.getD_none, List.not_mem_nil, or_false]
  constructor
  · rintro ⟨ho, ⟨tx, j'⟩, htx, rfl, hinput⟩
    exact ⟨ho, tx, htx, hinput⟩
  · rintro ⟨ho, tx, htx, hinput⟩
    exact ⟨ho, (tx, j), htx, rfl, hinput⟩

-- With distinct ids, the index gives every id the position of its transaction.
theorem lookup_build_index {txs : List T} (hids : (txs.map fun tx => (as_ref tx).id).Nodup)
    (id : TransactionId) (i : Nat) :
    (build_index as_ref txs).lookup id = some i ↔ ∃ tx, txs[i]? = some tx ∧ (as_ref tx).id = id := by
  induction txs using List.reverseRecOn generalizing i with
  | nil => simp [build_index]
  | append_singleton xs x ih =>
    rw [List.map_append, List.nodup_append] at hids
    have hx : ∀ tx ∈ xs, (as_ref tx).id ≠ (as_ref x).id := fun tx htx heq =>
      hids.2.2 _ (List.mem_map_of_mem htx) _ (by simp) heq
    have hbuild : build_index as_ref (xs ++ [x]) =
        (build_index as_ref xs).insert (as_ref x).id xs.length := by
      simp [build_index, List.zipIdx_append, List.foldl_append]
    rw [hbuild]
    by_cases hid : id = (as_ref x).id
    · subst hid
      rw [AList.lookup_insert, Option.some.injEq]
      constructor
      · rintro rfl
        exact ⟨x, List.getElem?_concat_length, rfl⟩
      · rintro ⟨tx, htx, hid⟩
        by_contra hne
        rcases Nat.lt_or_gt_of_ne (Ne.symm hne) with hlt | hgt
        · rw [List.getElem?_append_left hlt] at htx
          exact hx tx (List.mem_of_getElem? htx) hid
        · rw [List.getElem?_append_right (by omega), List.getElem?_eq_none (by simp; omega)] at htx
          cases htx
    · rw [AList.lookup_insert_ne hid, ih hids.1 i]
      constructor
      · rintro ⟨tx, htx, rfl⟩
        exact ⟨tx, by rw [List.getElem?_append_left (List.getElem?_eq_some_iff.mp htx).1, htx], rfl⟩
      · rintro ⟨tx, htx, rfl⟩
        rcases Nat.lt_or_ge i xs.length with hlt | hge
        · exact ⟨tx, by rwa [List.getElem?_append_left hlt] at htx, rfl⟩
        · rw [List.getElem?_append_right hge] at htx
          have hi : i - xs.length = 0 := by
            by_contra h0
            rw [List.getElem?_eq_none (by simp; omega)] at htx
            cases htx
          rw [hi] at htx
          simp only [List.getElem?_cons_zero, Option.some.injEq] at htx
          exact absurd (htx ▸ rfl) hid

end Edges

section Counters

-- `+= 1` below `i32::MAX` writes one more into the slot.
theorem increment_i32_eq {in_degree : List Int} {y : Nat} {c : Int} (hc : in_degree[y]? = some c)
    (hbound : c + 1 < 2 ^ 31) : increment_i32 in_degree y = some (in_degree.set y (c + 1)) := by
  simpa [increment_i32, hc] using hbound

theorem getElem?_set_of_getElem? {in_degree : List Int} {x y : Nat} {c v : Int}
    (hc : in_degree[x]? = some c) :
    (in_degree.set x v)[y]? = if x = y then some v else in_degree[y]? := by
  have hlt : x < in_degree.length := (List.getElem?_eq_some_iff.mp hc).1
  rw [List.getElem?_set]
  split_ifs <;> simp_all

-- One increment per occurrence of a destination in the list, none overflowing.
theorem foldlM_increment_i32 : ∀ (es : List Nat) (in_degree : List Int),
    (∀ y ∈ es, ∃ c, in_degree[y]? = some c ∧ c + es.count y < 2 ^ 31) →
    ∃ in_degree', es.foldlM increment_i32 in_degree = some in_degree' ∧
      ∀ y, in_degree'[y]? = (in_degree[y]?).map fun c : Int => c + es.count y
  | [], in_degree, _ => ⟨in_degree, rfl, fun y => by cases in_degree[y]? <;> simp⟩
  | x :: es, in_degree, hbound => by
    obtain ⟨c, hc, hcx⟩ := hbound x List.mem_cons_self
    rw [List.count_cons_self] at hcx
    rw [Int.natCast_add, Int.natCast_one] at hcx
    have hset := fun y => getElem?_set_of_getElem? (y := y) (v := c + 1) hc
    obtain ⟨in_degree', hfold, hlookup⟩ := foldlM_increment_i32 es (in_degree.set x (c + 1)) (by
      intro y hy
      obtain ⟨c', hc', hcy⟩ := hbound y (List.mem_cons_of_mem _ hy)
      by_cases hxy : x = y
      · subst hxy
        rw [hc, Option.some.injEq] at hc'
        subst hc'
        refine ⟨c + 1, by rw [hset, if_pos rfl], ?_⟩
        rw [List.count_cons_self] at hcy
        rw [Int.natCast_add, Int.natCast_one] at hcy
        omega
      · refine ⟨c', by rw [hset, if_neg hxy, hc'], ?_⟩
        rwa [List.count_cons_of_ne hxy] at hcy)
    refine ⟨in_degree', ?_, fun y => ?_⟩
    · simp only [List.foldlM_cons, increment_i32_eq hc (by omega), Option.bind_eq_bind,
        Option.bind_some, hfold]
    · rw [hlookup y, hset]
      by_cases hxy : x = y
      · subst hxy
        rw [if_pos rfl, hc, List.count_cons_self]
        simp only [Option.map_some, Option.some.injEq, Int.natCast_add, Int.natCast_one]
        omega
      · rw [if_neg hxy, List.count_cons_of_ne hxy]

-- The degrees loop adds at every position its occurrences in all the edge sets.
theorem count_degrees_spec : ∀ (all_edges : List (Option IndexSet)) (in_degree : List Int),
    (∀ y (c : Int), in_degree[y]? = some c →
      c + ((all_edges.map fun edges => (edges.getD []).count y).sum : Nat) < 2 ^ 31) →
    (∀ edges ∈ all_edges, ∀ y ∈ edges.getD [], y < in_degree.length) →
    ∃ in_degree', count_degrees all_edges in_degree = some in_degree' ∧
      ∀ y, in_degree'[y]? =
        (in_degree[y]?).map fun c : Int =>
          c + ((all_edges.map fun edges => (edges.getD []).count y).sum : Nat)
  | [], in_degree, _, _ => ⟨in_degree, rfl, fun y => by cases in_degree[y]? <;> simp⟩
  | edges :: all_edges, in_degree, hbound, hmem => by
    obtain ⟨in_degree₁, hfold, hlookup₁⟩ := foldlM_increment_i32 (edges.getD []) in_degree (by
      intro y hy
      obtain ⟨c, hc⟩ : ∃ c, in_degree[y]? = some c :=
        ⟨_, List.getElem?_eq_getElem (hmem edges List.mem_cons_self y hy)⟩
      have := hbound y c hc
      simp only [List.map_cons, List.sum_cons, Int.natCast_add] at this
      exact ⟨c, hc, by omega⟩)
    -- the first set's increments keep every slot, so the bound and the range carry over
    obtain ⟨in_degree', hcount, hlookup⟩ := count_degrees_spec all_edges in_degree₁
      (fun y c hc => by
        rw [hlookup₁ y] at hc
        obtain ⟨c₀, hc₀, rfl⟩ := Option.map_eq_some_iff.mp hc
        have := hbound y c₀ hc₀
        simp only [List.map_cons, List.sum_cons, Int.natCast_add] at this ⊢
        omega)
      (fun edges' hedges' y hy => by
        have hlt := hmem edges' (List.mem_cons_of_mem _ hedges') y hy
        have hy₁ := hlookup₁ y
        rw [List.getElem?_eq_getElem hlt, Option.map_some] at hy₁
        exact (List.getElem?_eq_some_iff.mp hy₁).1)
    refine ⟨in_degree', ?_, fun y => ?_⟩
    · simp only [count_degrees, List.foldlM_cons, hfold, Option.bind_eq_bind, Option.bind_some]
      exact hcount
    · rw [hlookup y, hlookup₁ y]
      cases in_degree[y]? with
      | none => rfl
      | some c =>
        simp only [Option.map_some, List.map_cons, List.sum_cons, Option.some.injEq, Int.natCast_add]
        omega

-- The occurrences of a position in all the edge sets are its in-degree in the graph of
-- positions.
theorem sum_count_eq_in_degree_of (all_edges : List (Option IndexSet)) (y : Nat) :
    (all_edges.map fun edges => (edges.getD []).count y).sum =
      in_degree_of (edge_fn all_edges) (List.range all_edges.length) y := by
  unfold in_degree_of
  congr 1
  refine List.ext_getElem (by simp) fun i h₁ _ => ?_
  have hi : i < all_edges.length := by simpa using h₁
  simp [edge_fn, List.getElem?_eq_getElem hi]

-- The `i32` vector holds, at every position, the count the `u32` map of `TopologicalIndex`
-- holds there.
def degrees_agree (d : InDegree Nat) (in_degree : List Int) : Prop :=
  ∀ y, in_degree[y]? = (d.lookup y).map fun c : Nat => (c : Int)

-- Where the `u32` step does not panic, the `i32` step does not either, and agrees with it.
theorem relax_i32_of_relax {d : InDegree Nat} {in_degree : List Int}
    (hagree : degrees_agree d in_degree) {queue : List Nat} {x : Nat} {s : InDegree Nat × List Nat}
    (h : relax (d, queue) x = some s) :
    ∃ in_degree', relax_i32 (in_degree, queue) x = some (in_degree', s.2) ∧
      degrees_agree s.1 in_degree' := by
  cases hc : d.lookup x with
  | none => simp [relax, hc] at h
  | some c =>
    have hpos : c ≠ 0 := fun h0 => by simp [relax, hc, h0] at h
    have hs : s = (d.insert x (c - 1), if c - 1 = 0 then queue ++ [x] else queue) := by
      simp only [relax, hc, Option.bind_eq_bind, Option.bind_some, if_neg hpos,
        Option.some.injEq] at h
      exact h.symm
    have hx : in_degree[x]? = some (c : Int) := by rw [hagree x, hc, Option.map_some]
    subst hs
    refine ⟨in_degree.set x ((c : Int) - 1), ?_, fun y => ?_⟩
    · simp only [relax_i32, hx, Option.bind_eq_bind, Option.bind_some]
      rw [if_neg (by omega)]
      congr 2
      by_cases hc1 : c - 1 = 0
      · rw [if_pos hc1, if_pos (by omega)]
      · rw [if_neg hc1, if_neg (by omega)]
    · rw [getElem?_set_of_getElem? hx]
      by_cases hxy : x = y
      · subst hxy
        rw [if_pos rfl, AList.lookup_insert, Option.map_some]
        congr 1
        omega
      · rw [if_neg hxy, AList.lookup_insert_ne (Ne.symm hxy), hagree y]

theorem foldlM_relax_i32 : ∀ (es : List Nat) (d : InDegree Nat) (in_degree : List Int)
    (queue : List Nat) (s : InDegree Nat × List Nat), degrees_agree d in_degree →
    es.foldlM relax (d, queue) = some s →
    ∃ in_degree', es.foldlM relax_i32 (in_degree, queue) = some (in_degree', s.2) ∧
      degrees_agree s.1 in_degree'
  | [], d, in_degree, queue, s, hagree, h => by
    simp only [List.foldlM_nil, pure, Option.some.injEq] at h
    subst h
    exact ⟨in_degree, rfl, hagree⟩
  | x :: es, d, in_degree, queue, s, hagree, h => by
    simp only [List.foldlM_cons, Option.bind_eq_bind, Option.bind_eq_some_iff] at h
    obtain ⟨s₁, hs₁, hfold⟩ := h
    obtain ⟨in_degree₁, hrelax, hagree₁⟩ := relax_i32_of_relax hagree hs₁
    obtain ⟨in_degree', hfold', hagree'⟩ :=
      foldlM_relax_i32 es s₁.1 in_degree₁ s₁.2 s hagree₁ hfold
    exact ⟨in_degree', by simp [List.foldlM_cons, hrelax, hfold'], hagree'⟩

end Counters

section Loop

variable (all_edges : List (Option IndexSet))
  (hclosed : ∀ x ∈ List.range all_edges.length, ∀ y ∈ (edge_fn all_edges x).getD [],
    y ∈ List.range all_edges.length)

include hclosed in
-- The `i32` loop runs as the loop of `TopologicalIndex` on positions: with the counters in
-- agreement and fuel for every position left, it does not panic and ends with that loop's
-- invariant. The induction is on the fuel, one round per step of `DrainInv.step`.
theorem sort_loop_spec : ∀ (fuel : Nat) (in_degree : List Int) (d : InDegree Nat)
    (queue sorted : List Nat),
    DrainInv (edge_fn all_edges) (List.range all_edges.length) d queue sorted →
    degrees_agree d in_degree → all_edges.length ≤ fuel + sorted.length →
    ∃ d' rest, sort_loop all_edges fuel in_degree queue = some rest ∧
      DrainInv (edge_fn all_edges) (List.range all_edges.length) d' [] (sorted ++ rest)
  | fuel, _, d, [], sorted, hinv, _, _ => ⟨d, [], by cases fuel <;> rfl, by simpa using hinv⟩
  | 0, _, _, current :: queue, sorted, hinv, _, hfuel => by
    have hle := hinv.nodup.length_le_of_subset fun y hy => hinv.mem y hy
    simp at hle
    omega
  | fuel + 1, in_degree, d, current :: queue, sorted, hinv, hagree, hfuel => by
    obtain ⟨d₁, new, hfold, hinv₁⟩ := hinv.step (edge_fn all_edges) List.nodup_range hclosed
    obtain ⟨in_degree₁, hfold', hagree₁⟩ := foldlM_relax_i32 _ d in_degree queue _ hagree hfold
    -- the popped position is a position of the list, so its slot exists
    have hcurrent : current < all_edges.length := List.mem_range.mp (hinv.mem current (by simp))
    have hrelax : relax_edges all_edges in_degree current queue =
        some (in_degree₁, queue ++ new) := by
      simpa [relax_edges, edge_fn, List.getElem?_eq_getElem hcurrent] using hfold'
    obtain ⟨d', rest, hloop, hinv'⟩ := sort_loop_spec fuel in_degree₁ d₁ (queue ++ new)
      (sorted ++ [current]) hinv₁ hagree₁ (by simp; omega)
    exact ⟨d', current :: rest, by simp [sort_loop, hrelax, hloop], by simpa using hinv'⟩

theorem mem_zero_degree_queue {in_degree : List Int} {y : Nat} :
    y ∈ zero_degree_queue in_degree ↔ in_degree[y]? = some 0 := by
  simp only [zero_degree_queue, List.mem_filter, List.mem_range, decide_eq_true_eq]
  exact ⟨fun h => h.2, fun h => ⟨(List.getElem?_eq_some_iff.mp h).1, h⟩⟩

include hclosed in
-- With edge sets listed once and fewer than 2^31 positions, the degrees loop does not
-- overflow, and the first queue starts the loop of `TopologicalIndex` with its invariant.
theorem sort_start (hnodup : ∀ o, ((edge_fn all_edges o).getD []).Nodup)
    (hlen : all_edges.length < 2 ^ 31) :
    ∃ in_degree d, count_degrees all_edges (List.replicate all_edges.length 0) = some in_degree ∧
      degrees_agree d in_degree ∧
      DrainInv (edge_fn all_edges) (List.range all_edges.length) d (zero_degree_queue in_degree) [] := by
  -- an in-degree counts the positions with an edge to it, so it is below the bound
  have hle : ∀ y, in_degree_of (edge_fn all_edges) (List.range all_edges.length) y ≤
      all_edges.length := fun y =>
    (in_degree_of_le_length (edge_fn all_edges)
      (fun x (_ : x ∈ List.range all_edges.length) => hnodup x) y).trans_eq List.length_range
  obtain ⟨in_degree, hcount, hlookup⟩ :=
    count_degrees_spec all_edges (List.replicate all_edges.length 0)
      (fun y c hc => by
        rw [List.getElem?_replicate] at hc
        split_ifs at hc
        cases hc
        rw [sum_count_eq_in_degree_of]
        have := hle y
        omega)
      (fun edges hedges y hy => by
        obtain ⟨o, ho, rfl⟩ := List.getElem_of_mem hedges
        have hmem := hclosed o (List.mem_range.mpr ho) y
          (by simpa [edge_fn, List.getElem?_eq_getElem ho] using hy)
        simpa using hmem)
  -- the counters as the `u32` map of `TopologicalIndex` would hold them
  let d : InDegree Nat := (List.range all_edges.length).foldl (fun s y =>
    s.insert y (in_degree_of (edge_fn all_edges) (List.range all_edges.length) y)) ∅
  have hd : ∀ y, d.lookup y = if y ∈ List.range all_edges.length then
      some (in_degree_of (edge_fn all_edges) (List.range all_edges.length) y) else none :=
    fun y => by simpa using AListFold.lookup_foldl_insert _ (List.range all_edges.length) ∅ y
  have hin : ∀ y, in_degree[y]? = if y < all_edges.length then
      some ((in_degree_of (edge_fn all_edges) (List.range all_edges.length) y : Nat) : Int)
      else none := fun y => by
    rw [hlookup y, List.getElem?_replicate, sum_count_eq_in_degree_of]
    split_ifs <;> simp
  refine ⟨in_degree, d, hcount, fun y => ?_, drain_inv_start _ _ hd ?_ fun y => ?_⟩
  · simp only [hin y, hd y, List.mem_range]
    split_ifs <;> rfl
  · exact (List.nodup_range).filter _
  · rw [mem_zero_degree_queue, hin y, List.mem_range]
    split_ifs with hy <;> simp [hy]

end Loop

section Iterators

theorem mapM_eq_some_filterMap {α β : Type} {f : α → Option β} :
    ∀ (l : List α), (∀ a ∈ l, (f a).isSome) → l.mapM f = some (l.filterMap f)
  | [], _ => rfl
  | a :: l, h => by
    obtain ⟨b, hb⟩ := Option.isSome_iff_exists.mp (h a List.mem_cons_self)
    rw [List.mapM_cons, List.filterMap_cons_some hb,
      mapM_eq_some_filterMap l fun a' ha' => h a' (List.mem_cons_of_mem _ ha')]
    simp [hb]

variable {T : Type}

-- Collecting `topological_iter` takes the transactions at the positions the loop pops, in
-- order; a panic of the loop or of an index is a panic of the collection.
theorem collect_iter_next : ∀ (fuel : Nat) (it : TopologicalIter T),
    collect_iter TopologicalIter.next (fuel + 1) it =
      (sort_loop it.edges fuel it.in_degree it.queue).bind
        fun positions => positions.mapM fun i => it.transactions[i]?
  | fuel, ⟨transactions, in_degree, edges, [], yields_count⟩ => by
    simp [collect_iter, TopologicalIter.next, sort_loop]
  | 0, ⟨transactions, in_degree, edges, current :: queue, yields_count⟩ => by
    simp only [collect_iter, TopologicalIter.next, sort_loop, Option.bind_eq_bind]
    cases relax_edges edges in_degree current queue with
    | none => rfl
    | some state => cases transactions[current]? <;> rfl
  | fuel + 1, ⟨transactions, in_degree, edges, current :: queue, yields_count⟩ => by
    rw [collect_iter.eq_2]
    simp only [TopologicalIter.next, sort_loop, Option.bind_eq_bind]
    cases relax_edges edges in_degree current queue with
    | none => rfl
    | some state =>
      cases htx : transactions[current]? with
      | none =>
        cases hloop : sort_loop edges fuel state.1 state.2 with
        | none => simp [hloop]
        | some rest => simp [htx, hloop, List.mapM_cons]
      | some tx =>
        simp only [Option.pure_def, Option.bind_some]
        rw [collect_iter_next fuel ⟨transactions, state.1, edges, state.2, yields_count + 1⟩]
        cases sort_loop edges fuel state.1 state.2 with
        | none => simp
        | some rest => simp [htx, List.mapM_cons]

-- Collecting `topological_into_iter` takes every slot once, so it yields the transactions at
-- the positions the loop pops as long as no position is popped twice.
theorem collect_iter_into_next : ∀ (fuel : Nat) (it : TopologicalIntoIter T) (positions : List Nat),
    sort_loop it.edges fuel it.in_degree it.queue = some positions → positions.Nodup →
    (∀ i ∈ positions, ∃ tx, it.transactions[i]? = some (some tx)) →
    collect_iter TopologicalIntoIter.next (fuel + 1) it =
      some (positions.filterMap fun i => (it.transactions[i]?).join)
  | fuel, ⟨transactions, in_degree, edges, [], yields_count⟩, positions, hloop, _, _ => by
    cases fuel <;> simp_all [collect_iter, TopologicalIntoIter.next, sort_loop]
  | 0, ⟨transactions, in_degree, edges, current :: queue, yields_count⟩, _, hloop, _, _ => by
    simp [sort_loop] at hloop
  | fuel + 1, ⟨transactions, in_degree, edges, current :: queue, yields_count⟩, positions, hloop,
      hnodup, hslots => by
    simp only [sort_loop, Option.bind_eq_bind, Option.bind_eq_some_iff] at hloop
    obtain ⟨state, hrelax, rest, hrest, hpositions⟩ := hloop
    cases Option.some.inj hpositions
    obtain ⟨tx, htx⟩ := hslots current List.mem_cons_self
    have hnot : current ∉ rest := (List.nodup_cons.mp hnodup).1
    -- taking the popped slot leaves the slots of the positions still to come
    have hkeep : ∀ i ∈ rest, (transactions.set current none)[i]? = transactions[i]? := by
      intro i hi
      rw [List.getElem?_set, if_neg (fun h : current = i => hnot (h ▸ hi))]
    have ih := collect_iter_into_next fuel
      ⟨transactions.set current none, state.1, edges, state.2, yields_count + 1⟩ rest hrest
      (List.nodup_cons.mp hnodup).2
      (fun i hi => by simpa [hkeep i hi] using hslots i (List.mem_cons_of_mem _ hi))
    rw [List.filterMap_congr fun i hi => by rw [hkeep i hi]] at ih
    rw [collect_iter.eq_2]
    simp only [TopologicalIntoIter.next, hrelax, htx, Option.bind_eq_bind, Option.pure_def,
      Option.bind_some]
    rw [ih]
    simp [htx]

end Iterators

section Spends

variable {T : Type} (as_ref : T → Transaction)

-- The spend relation of a list: `child` has an input spending an output of `parent`.
def spend_edge (txs : List T) (parent child : T) : Prop :=
  parent ∈ txs ∧ child ∈ txs ∧
    ∃ input ∈ (as_ref child).inputs, input.previous_outpoint.transaction_id = (as_ref parent).id

theorem filterMap_getElem?_range {α : Type} :
    ∀ l : List α, (List.range l.length).filterMap (fun i => l[i]?) = l := by
  intro l
  induction l using List.reverseRecOn with
  | nil => rfl
  | append_singleton xs x ih =>
    rw [List.length_append, List.length_singleton, List.range_succ, List.filterMap_append]
    have hinit : (List.range xs.length).filterMap (fun i => (xs ++ [x])[i]?) =
        (List.range xs.length).filterMap (fun i => xs[i]?) :=
      List.filterMap_congr fun i hi => List.getElem?_append_left (List.mem_range.mp hi)
    rw [hinit, ih]
    simp

-- With distinct ids, the edges of positions are the spends between the transactions there.
theorem edge_fn_build_edges_iff {txs : List T} (hids : (txs.map fun tx => (as_ref tx).id).Nodup)
    (o j : Nat) :
    j ∈ (edge_fn (build_edges as_ref txs (build_index as_ref txs)) o).getD [] ↔
      ∃ parent child, txs[o]? = some parent ∧ txs[j]? = some child ∧
        spend_edge as_ref txs parent child := by
  rw [(build_edges_spec as_ref (build_index as_ref txs) txs).2.2 o j]
  constructor
  · rintro ⟨ho, child, hchild, input, hinput, hlookup⟩
    obtain ⟨parent, hparent, hid⟩ := (lookup_build_index as_ref hids _ o).mp hlookup
    exact ⟨parent, child, hparent, hchild, List.mem_of_getElem? hparent,
      List.mem_of_getElem? hchild, input, hinput, hid.symm⟩
  · rintro ⟨parent, child, hparent, hchild, -, -, input, hinput, hid⟩
    exact ⟨(List.getElem?_eq_some_iff.mp hparent).1, child, hchild, input, hinput,
      (lookup_build_index as_ref hids _ o).mpr ⟨parent, hparent, hid.symm⟩⟩

-- A cycle of positions is a cycle of spends.
theorem trans_gen_spend_edge_of_positions {txs : List T} {all_edges : List (Option IndexSet)}
    (hedge : ∀ o j, j ∈ (edge_fn all_edges o).getD [] →
      ∃ parent child, txs[o]? = some parent ∧ txs[j]? = some child ∧
        spend_edge as_ref txs parent child)
    {nodes : List Nat} {i j : Nat} (h : Relation.TransGen (topology_edge (edge_fn all_edges) nodes) i j) :
    ∃ parent child, txs[i]? = some parent ∧ txs[j]? = some child ∧
      Relation.TransGen (spend_edge as_ref txs) parent child := by
  induction h with
  | single hij =>
    obtain ⟨parent, child, hparent, hchild, hspends⟩ := hedge _ _ hij.2
    exact ⟨parent, child, hparent, hchild, .single hspends⟩
  | tail _ hkj ih =>
    obtain ⟨parent, middle, hparent, hmiddle, hpath⟩ := ih
    obtain ⟨middle', child, hmiddle', hchild, hspends⟩ := hedge _ _ hkj.2
    rw [hmiddle, Option.some.injEq] at hmiddle'
    exact ⟨parent, child, hparent, hchild, hpath.tail (hmiddle' ▸ hspends)⟩

end Spends

-- With distinct ids, fewer than 2^31 transactions and no cycle of spends, the sort does not
-- panic and returns every transaction once, after every transaction of the list it spends;
-- both iterators yield the same list.
theorem topological_sort_spec {T : Type} (as_ref : T → Transaction) (txs : List T)
    (hids : (txs.map fun tx => (as_ref tx).id).Nodup)
    (hacyclic : GraphOrder.Acyclic (spend_edge as_ref txs)) (hlen : txs.length < 2 ^ 31) :
    ∃ sorted, topological_sort as_ref txs = some sorted ∧
      (TopologicalIter.new as_ref txs).bind
          (collect_iter TopologicalIter.next (txs.length + 1)) = some sorted ∧
      (TopologicalIntoIter.new as_ref txs).bind
          (collect_iter TopologicalIntoIter.next (txs.length + 1)) = some sorted ∧
      sorted.Perm txs ∧
      ∀ l₁ child l₂, sorted = l₁ ++ child :: l₂ → ∀ parent, spend_edge as_ref txs parent child →
        parent ∈ l₁ := by
  obtain ⟨hlen_edges, hnodup_edges, -⟩ :=
    build_edges_spec as_ref (build_index as_ref txs) txs
  set all_edges := build_edges as_ref txs (build_index as_ref txs) with hall
  have hedge := edge_fn_build_edges_iff as_ref hids
  rw [← hall] at hedge
  have hclosed : ∀ x ∈ List.range all_edges.length, ∀ y ∈ (edge_fn all_edges x).getD [],
      y ∈ List.range all_edges.length := fun x _ y hy => by
    obtain ⟨-, child, -, hchild, -⟩ := (hedge x y).mp hy
    exact List.mem_range.mpr (hlen_edges ▸ (List.getElem?_eq_some_iff.mp hchild).1)
  obtain ⟨in_degree, d, hcount, hagree, hinv⟩ :=
    sort_start all_edges hclosed hnodup_edges (hlen_edges ▸ hlen)
  obtain ⟨d', positions, hloop, hinv'⟩ :=
    sort_loop_spec all_edges hclosed all_edges.length in_degree d _ [] hinv hagree (by simp)
  rw [List.nil_append] at hinv'
  rw [hlen_edges] at hcount hloop
  -- no cycle of positions, so every position leaves the queue
  have hacyclic' : GraphOrder.Acyclic (topology_edge (edge_fn all_edges)
      (List.range all_edges.length)) := fun x hx => by
    obtain ⟨p, c, hp, hc, hpath⟩ :=
      trans_gen_spend_edge_of_positions as_ref (fun o j h => (hedge o j).mp h) hx
    rw [hp, Option.some.injEq] at hc
    exact hacyclic p (hc ▸ hpath)
  have hnodup : positions.Nodup := by simpa using hinv'.nodup
  have hrange : ∀ i ∈ positions, i < txs.length := fun i hi =>
    hlen_edges ▸ List.mem_range.mp (hinv'.mem i (by simpa using hi))
  have hperm : positions.Perm (List.range txs.length) :=
    (List.perm_ext_iff_of_nodup hnodup List.nodup_range).mpr fun i =>
      ⟨fun hi => List.mem_range.mpr (hrange i hi),
        fun hi => hinv'.all_sorted_of_acyclic (edge_fn all_edges) hacyclic' i (hlen_edges ▸ hi)⟩
  have hmapM : positions.mapM (fun i => txs[i]?) =
      some (positions.filterMap fun i => txs[i]?) :=
    mapM_eq_some_filterMap positions fun i hi => by simp [hrange i hi]
  have hsorted : (positions.filterMap fun i => txs[i]?).Perm txs := by
    have h := hperm.filterMap fun i => txs[i]?
    rwa [filterMap_getElem?_range] at h
  refine ⟨positions.filterMap fun i => txs[i]?, ?_, ?_, ?_, hsorted, ?_⟩
  · simp only [topological_sort, ← hall, hcount, hloop, hmapM, Option.bind_eq_bind,
      Option.bind_some, hsorted.length_eq, if_true]
  · simp only [TopologicalIter.new, ← hall, hcount, Option.bind_eq_bind, Option.bind_some,
      Option.pure_def]
    rw [collect_iter_next]
    simp [hloop, hmapM]
  · simp only [TopologicalIntoIter.new, ← hall, hcount, Option.bind_eq_bind, Option.bind_some,
      Option.pure_def]
    rw [collect_iter_into_next _ _ positions hloop hnodup
      fun i hi => by simp [hrange i hi]]
    simp only [List.getElem?_map, Option.some.injEq]
    exact List.filterMap_congr fun i _ => by cases txs[i]? <;> rfl
  · -- split the positions where the child stands: the parent's position is before it
    intro l₁ child l₂ hsplit parent hspends
    obtain ⟨p₁, p₂, rfl, hp₁, hp₂⟩ := List.filterMap_eq_append_iff.mp hsplit
    obtain ⟨q₁, j, q₂, rfl, hq₁, hj, -⟩ := List.filterMap_eq_cons_iff.mp hp₂
    obtain ⟨i, hi⟩ := List.mem_iff_getElem?.mp hspends.1
    have hij : j ∈ (edge_fn all_edges i).getD [] := (hedge i j).mpr ⟨parent, child, hi, hj, hspends⟩
    have hi_mem : i ∈ List.range all_edges.length :=
      List.mem_range.mpr (hlen_edges ▸ (List.getElem?_eq_some_iff.mp hi).1)
    have hbefore := hinv'.ordered (p₁ ++ q₁) j q₂ (by simp) i hi_mem hij
    rw [← hp₁]
    rcases List.mem_append.mp hbefore with hbefore | hbefore
    · exact List.mem_filterMap.mpr ⟨i, hbefore, hi⟩
    · rw [hq₁ i hbefore] at hi
      cases hi

section Correctness

-- Both indices are `Ok` exactly on the acyclic graphs, Kahn's as long as no key has 2^32
-- incoming edges; what either returns as `Ok` lists every key once with every edge going
-- forward, and passes the check; the check accepts exactly the orders of the keys in which no
-- edge goes backward. The sort and the iterators order every list of transactions with
-- distinct ids, fewer than 2^31 of them and no cycle of spends.
theorem topological_orders_correct :
    (∀ {K : Type} [DecidableEq K] (edges : K → Option (List K)) (nodes : List K), nodes.Nodup →
      (∀ x ∈ nodes, ∀ y ∈ (edges x).getD [], y ∈ nodes) →
      topological_index_dfs edges nodes ≠ none ∧
      ((∃ sorted, topological_index_dfs edges nodes = some (.ok sorted)) ↔
        GraphOrder.Acyclic (topology_edge edges nodes)) ∧
      ((∀ y ∈ nodes, in_degree_of edges nodes y < 2 ^ 32) →
        ((∃ sorted, topological_index edges nodes = some (.ok sorted)) ↔
          GraphOrder.Acyclic (topology_edge edges nodes))) ∧
      (∀ sorted, (topological_index_dfs edges nodes = some (.ok sorted) ∨
          topological_index edges nodes = some (.ok sorted)) →
        sorted.Perm nodes ∧
        (∀ x ∈ nodes, ∀ y ∈ (edges x).getD [], sorted.idxOf x < sorted.idxOf y) ∧
        check_topological_order edges nodes sorted = some (.ok ())) ∧
      ∀ sorted, check_topological_order edges nodes sorted = some (.ok ()) ↔
        sorted.Perm nodes ∧ ∀ x ∈ nodes, ∀ y ∈ (edges x).getD [], sorted.idxOf x ≤ sorted.idxOf y) ∧
    ∀ {T : Type} (as_ref : T → Transaction) (txs : List T),
      (txs.map fun tx => (as_ref tx).id).Nodup → GraphOrder.Acyclic (spend_edge as_ref txs) →
      txs.length < 2 ^ 31 →
      ∃ sorted, topological_sort as_ref txs = some sorted ∧
        (TopologicalIter.new as_ref txs).bind
            (collect_iter TopologicalIter.next (txs.length + 1)) = some sorted ∧
        (TopologicalIntoIter.new as_ref txs).bind
            (collect_iter TopologicalIntoIter.next (txs.length + 1)) = some sorted ∧
        sorted.Perm txs ∧
        ∀ (l₁ : List T) child l₂, sorted = l₁ ++ child :: l₂ →
          ∀ parent, spend_edge as_ref txs parent child → parent ∈ l₁ := by
  refine ⟨fun edges nodes hnodup hclosed => ?_, fun as_ref txs hids hacyclic hlen =>
    topological_sort_spec as_ref txs hids hacyclic hlen⟩
  have hcheck := fun sorted => (check_topological_order_eq_ok_iff edges nodes sorted hnodup hclosed).1
  -- an `Ok` of either index is a forward order, so the check passes on it
  have hforward : ∀ sorted, (topological_index_dfs edges nodes = some (.ok sorted) ∨
      topological_index edges nodes = some (.ok sorted)) →
      sorted.Perm nodes ∧ ∀ x ∈ nodes, ∀ y ∈ (edges x).getD [], sorted.idxOf x < sorted.idxOf y := by
    rintro sorted (hok | hok)
    · rcases topological_index_dfs_cases edges nodes hnodup hclosed with
        ⟨herr, -⟩ | ⟨sorted', hok', hperm, hlt⟩
      · rw [hok] at herr
        cases herr
      · rw [hok, Option.some.injEq, Except.ok.injEq] at hok'
        exact hok' ▸ ⟨hperm, hlt⟩
    · -- an `Ok` of Kahn's index means the counting did not overflow
      have hbound : ∀ y ∈ nodes, in_degree_of edges nodes y < 2 ^ 32 := fun y hy => by
        by_contra hge
        rw [topological_index_eq_none edges hy (by omega)] at hok
        cases hok
      rcases topological_index_cases edges nodes hnodup hclosed hbound with
        ⟨herr, -⟩ | ⟨sorted', hok', hperm, hlt⟩
      · rw [hok] at herr
        cases herr
      · rw [hok, Option.some.injEq, Except.ok.injEq] at hok'
        exact hok' ▸ ⟨hperm, hlt⟩
  -- the depth-first index reports a cycle or an order, and never panics
  have hdfs : topological_index_dfs edges nodes ≠ none := by
    rcases topological_index_dfs_cases edges nodes hnodup hclosed with
      ⟨herr, -⟩ | ⟨sorted, hok, -⟩
    · rw [herr]
      exact Option.some_ne_none _
    · rw [hok]
      exact Option.some_ne_none _
  refine ⟨hdfs, topological_index_dfs_ok_iff edges nodes hnodup hclosed,
    topological_index_ok_iff edges nodes hnodup hclosed, fun sorted hok => ?_, hcheck⟩
  obtain ⟨hperm, hlt⟩ := hforward sorted hok
  exact ⟨hperm, hlt, (hcheck sorted).mpr ⟨hperm, fun x hx y hy => (hlt x hx y hy).le⟩⟩

theorem topological_orders_correct_chain :
    topological_index_dfs (fun k : Nat => [[1], []][k]?) [0, 1] = some (.ok [0, 1]) ∧
      check_topological_order (fun k : Nat => [[1], []][k]?) [0, 1] [0, 1] = some (.ok ()) :=
  ⟨by decide, (((topological_orders_correct.1 (fun k : Nat => [[1], []][k]?) [0, 1] (by decide)
    (by decide)).2.2.2.1 [0, 1] (.inl (by decide))).2.2)⟩

-- A key with an edge to itself: the check accepts the order, though the edge does not go
-- forward in it, and both indices report a cycle.
theorem check_topological_order_self_loop :
    check_topological_order (fun _ : Nat => some [0]) [0] [0] = some (.ok ()) ∧
      topological_index (fun _ : Nat => some [0]) [0] = some (.error .HasCycle) ∧
      topological_index_dfs (fun _ : Nat => some [0]) [0] = some (.error .HasCycle) := by
  decide

end Correctness

end Waglayla.Mining
