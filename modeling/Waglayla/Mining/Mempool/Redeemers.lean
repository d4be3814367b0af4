import Waglayla.Graph.Past
import Waglayla.Mining.Mempool.Model

-- What `get_redeemer_ids_in_pool` returns. On a pool whose transactions are stored under
-- their ids, its breadth-first search never runs out of fuel, and it lists once each pool
-- transaction it reaches from the start along one chained link or more, and no other.

namespace Waglayla.Mining.Pool

open Waglayla.Consensus

-- The links the search follows: from `x` to a pool transaction in its chained set.
def redeemer_edge (all : MempoolTransactionCollection) (chained : TransactionsEdges)
    (x y : TransactionId) : Prop :=
  y ∈ (chained.lookup x).getD [] ∧ y ∈ all

variable {all : MempoolTransactionCollection} {chained : TransactionsEdges}

-- A visit leaves the state alone, when the id is no pool transaction's or was visited
-- before, or records a pool transaction not visited before.
theorem visit_redeemer_cases (visited descendants : List TransactionId)
    (queue : List MempoolTransaction) (redeemer_id : TransactionId) :
    ((redeemer_id ∈ all → redeemer_id ∈ visited) ∧
        visit_redeemer all (visited, descendants, queue) redeemer_id =
          (visited, descendants, queue)) ∨
      ∃ redeemer, all.lookup redeemer_id = some redeemer ∧ redeemer_id ∉ visited ∧
        visit_redeemer all (visited, descendants, queue) redeemer_id =
          (redeemer_id :: visited, descendants ++ [redeemer_id], queue ++ [redeemer]) := by
  unfold visit_redeemer
  cases hr : all.lookup redeemer_id with
  | none => exact .inl ⟨fun h => absurd h (AList.lookup_eq_none.mp hr), rfl⟩
  | some redeemer =>
    by_cases hv : redeemer_id ∈ visited
    · exact .inl ⟨fun _ => hv, if_pos hv⟩
    · refine .inr ⟨redeemer, rfl, hv, ?_⟩
      dsimp only
      rw [if_neg hv, List.insert_of_not_mem hv]

-- The search from `root`: the visited ids are the descendants found, each a pool transaction
-- reached from the root, and each queued transaction is the root or a descendant.
structure SearchInv (chained : TransactionsEdges) (root : TransactionId)
    (visited descendants : List TransactionId) (queue : List MempoolTransaction) : Prop where
  nodup : descendants.Nodup
  visited : ∀ y, y ∈ visited ↔ y ∈ descendants
  mem : ∀ y ∈ descendants, y ∈ all
  reached : ∀ y ∈ descendants, Relation.TransGen (redeemer_edge all chained) root y
  queued : ∀ t ∈ queue, t.id = root ∨ Relation.TransGen (redeemer_edge all chained) root t.id

-- The start and each transaction found is still queued, or each pool transaction in its
-- chained set has been found.
def Searched (all : MempoolTransactionCollection) (chained : TransactionsEdges)
    (root : TransactionId) (descendants : List TransactionId) (queue : List MempoolTransaction) :
    Prop :=
  ∀ x ∈ root :: descendants, (∃ t ∈ queue, t.id = x) ∨
    ∀ y, redeemer_edge all chained x y → y ∈ descendants

section Search

variable (hid : ∀ y t, all.lookup y = some t → t.id = y)
include hid

-- Visiting ids reached from the root keeps the invariant, and every recorded id is also
-- queued.
theorem SearchInv.visit {root : TransactionId} {ids : List TransactionId}
    (hids : ∀ y ∈ ids, y ∈ all → Relation.TransGen (redeemer_edge all chained) root y) :
    ∀ {visited descendants queue visited' descendants' queue'},
      @SearchInv all chained root visited descendants queue →
      ids.foldl (visit_redeemer all) (visited, descendants, queue) =
        (visited', descendants', queue') →
      @SearchInv all chained root visited' descendants' queue' ∧
        queue'.length + descendants.length = queue.length + descendants'.length := by
  induction ids with
  | nil =>
    intro visited descendants queue visited' descendants' queue' hinv hstate
    cases hstate
    exact ⟨hinv, rfl⟩
  | cons y ids ih =>
    intro visited descendants queue visited' descendants' queue' hinv hstate
    have hids' : ∀ z ∈ ids, z ∈ all → Relation.TransGen (redeemer_edge all chained) root z :=
      fun z hz => hids z (List.mem_cons_of_mem _ hz)
    rw [List.foldl_cons] at hstate
    rcases visit_redeemer_cases visited descendants queue y with ⟨-, hsame⟩ | ⟨redeemer, hr, hv, hnew⟩
    · rw [hsame] at hstate
      exact ih hids' hinv hstate
    rw [hnew] at hstate
    have hyall : y ∈ all := AList.lookup_isSome.mp (Option.isSome_of_eq_some hr)
    have hy := hids y List.mem_cons_self hyall
    have hnotin : y ∉ descendants := fun h => hv ((hinv.visited y).mpr h)
    -- `y` joins the descendants and its transaction the queue, both at the end
    have hinv' : @SearchInv all chained root (y :: visited) (descendants ++ [y])
        (queue ++ [redeemer]) := by
      refine ⟨hinv.nodup.append (List.nodup_singleton y) ?_, fun z => ?_,
        List.forall_mem_append.mpr ⟨hinv.mem, List.forall_mem_singleton.mpr hyall⟩,
        List.forall_mem_append.mpr ⟨hinv.reached, List.forall_mem_singleton.mpr hy⟩,
        List.forall_mem_append.mpr ⟨hinv.queued, List.forall_mem_singleton.mpr ?_⟩⟩
      · simpa using hnotin
      · simp [hinv.visited z, or_comm]
      · rw [hid y redeemer hr]
        exact .inr hy
    obtain ⟨hinv'', hlen⟩ := ih hids' hinv' hstate
    refine ⟨hinv'', ?_⟩
    simp only [List.length_append, List.length_singleton] at hlen
    omega

-- The visits of `ids` only add to the descendants and to the queue, queue each descendant
-- they add, and leave every pool transaction among `ids` a descendant.
theorem foldl_visit_redeemer_found {ids : List TransactionId} :
    ∀ {visited descendants queue visited' descendants' queue'},
      (∀ y, y ∈ visited ↔ y ∈ descendants) →
      ids.foldl (visit_redeemer all) (visited, descendants, queue) =
        (visited', descendants', queue') →
      (∀ y ∈ descendants, y ∈ descendants') ∧ (∀ t ∈ queue, t ∈ queue') ∧
        (∀ y ∈ descendants', y ∈ descendants ∨ ∃ t ∈ queue', t.id = y) ∧
        ∀ y ∈ ids, y ∈ all → y ∈ descendants' := by
  induction ids with
  | nil =>
    intro visited descendants queue visited' descendants' queue' _ hstate
    cases hstate
    exact ⟨fun _ h => h, fun _ h => h, fun _ h => .inl h, fun _ h => absurd h List.not_mem_nil⟩
  | cons y ids ih =>
    intro visited descendants queue visited' descendants' queue' hvisited hstate
    rw [List.foldl_cons] at hstate
    rcases visit_redeemer_cases visited descendants queue y with ⟨hseen, hsame⟩ |
      ⟨redeemer, hr, -, hnew⟩
    · -- `y` is no pool transaction's id, or a descendant already
      rw [hsame] at hstate
      obtain ⟨hD, hQ, hfound, hids⟩ := ih hvisited hstate
      refine ⟨hD, hQ, hfound, fun z hz hzall => ?_⟩
      rcases List.mem_cons.mp hz with rfl | hz
      · exact hD _ ((hvisited _).mp (hseen hzall))
      · exact hids z hz hzall
    · -- `y` becomes the last descendant, and its transaction the last queued
      rw [hnew] at hstate
      have hvisited' : ∀ z, z ∈ y :: visited ↔ z ∈ descendants ++ [y] := by
        simp [hvisited, or_comm]
      obtain ⟨hD, hQ, hfound, hids⟩ := ih hvisited' hstate
      have hqueued : redeemer ∈ queue' := hQ _ (List.mem_append_right _ List.mem_cons_self)
      refine ⟨fun z hz => hD z (List.mem_append_left _ hz),
        fun t ht => hQ t (List.mem_append_left _ ht), fun z hz => ?_, fun z hz hzall => ?_⟩
      · rcases hfound z hz with hz | hq
        · rcases List.mem_append.mp hz with hz | hz
          · exact .inl hz
          · exact .inr ⟨redeemer, hqueued, (List.mem_singleton.mp hz).symm ▸ hid y redeemer hr⟩
        · exact .inr hq
      · rcases List.mem_cons.mp hz with rfl | hz
        · exact hD _ (List.mem_append_right _ List.mem_cons_self)
        · exact hids z hz hzall

-- Searching the chained set of the first queued transaction keeps the record of what has been
-- searched.
theorem Searched.visit {root : TransactionId} {t : MempoolTransaction}
    {visited descendants : List TransactionId} {queue : List MempoolTransaction}
    {visited' descendants' : List TransactionId} {queue' : List MempoolTransaction}
    (hsearched : Searched all chained root descendants (t :: queue))
    (hvisited : ∀ y, y ∈ visited ↔ y ∈ descendants)
    (hstate : ((chained.lookup t.id).getD []).foldl (visit_redeemer all)
      (visited, descendants, queue) = (visited', descendants', queue')) :
    Searched all chained root descendants' queue' := by
  obtain ⟨hD, hQ, hfound, hids⟩ := foldl_visit_redeemer_found hid hvisited hstate
  -- what was recorded before: `t` is now searched, the rest still queued or searched
  have hold : ∀ x ∈ root :: descendants, (∃ t' ∈ queue', t'.id = x) ∨
      ∀ y, redeemer_edge all chained x y → y ∈ descendants' := by
    intro x hx
    rcases hsearched x hx with ⟨t', ht', rfl⟩ | hclosed
    · rcases List.mem_cons.mp ht' with rfl | ht'
      · exact .inr fun y hy => hids y hy.1 hy.2
      · exact .inl ⟨t', hQ t' ht', rfl⟩
    · exact .inr fun y hy => hD y (hclosed y hy)
  intro x hx
  rcases List.mem_cons.mp hx with rfl | hx
  · exact hold _ List.mem_cons_self
  · rcases hfound x hx with hx | hq
    · exact hold x (List.mem_cons_of_mem _ hx)
    · exact .inl hq

-- Each round pops one queued transaction and queues one per new descendant, and there are at
-- most as many descendants as pool transactions: a fuel covering the queue and the pool
-- transactions not yet found is enough. When the queue runs dry, the start and the
-- descendants have been searched, so the descendants are closed under the links.
theorem redeemers_loop_spec {root : TransactionId} :
    ∀ (fuel : Nat) {visited descendants queue},
      @SearchInv all chained root visited descendants queue →
      Searched all chained root descendants queue →
      queue.length + all.keys.length ≤ fuel + descendants.length →
      ∃ redeemers, redeemers_loop all chained fuel visited descendants queue = some redeemers ∧
        redeemers.Nodup ∧ (∀ y ∈ redeemers, Relation.TransGen (redeemer_edge all chained) root y) ∧
        ∀ x ∈ root :: redeemers, ∀ y, redeemer_edge all chained x y → y ∈ redeemers := by
  -- with nothing queued, the record says that everything found has been searched
  have hdone : ∀ {visited descendants}, @SearchInv all chained root visited descendants [] →
      Searched all chained root descendants [] →
      ∃ redeemers, redeemers_loop all chained 0 visited descendants [] = some redeemers ∧
        redeemers.Nodup ∧ (∀ y ∈ redeemers, Relation.TransGen (redeemer_edge all chained) root y) ∧
        ∀ x ∈ root :: redeemers, ∀ y, redeemer_edge all chained x y → y ∈ redeemers :=
    fun hinv hsearched => ⟨_, rfl, hinv.nodup, hinv.reached,
      fun x hx => (hsearched x hx).resolve_left fun ⟨_, ht, _⟩ => absurd ht List.not_mem_nil⟩
  intro fuel
  induction fuel with
  | zero =>
    intro visited descendants queue hinv hsearched hfuel
    have hle : descendants.length ≤ all.keys.length :=
      hinv.nodup.length_le_of_subset fun y hy => AList.mem_keys.mpr (hinv.mem y hy)
    have hqueue : queue = [] := List.eq_nil_of_length_eq_zero (by omega)
    subst hqueue
    exact hdone hinv hsearched
  | succ fuel ih =>
    intro visited descendants queue hinv hsearched hfuel
    cases queue with
    | nil => exact hdone hinv hsearched
    | cons t queue =>
      -- the chained set of a queued transaction is reached through it
      have hids : ∀ y ∈ (chained.lookup t.id).getD [], y ∈ all →
          Relation.TransGen (redeemer_edge all chained) root y := by
        intro y hy hyall
        rcases hinv.queued t List.mem_cons_self with ht | ht
        · exact .single (ht ▸ ⟨hy, hyall⟩)
        · exact .tail ht ⟨hy, hyall⟩
      have hpop : @SearchInv all chained root visited descendants queue :=
        ⟨hinv.nodup, hinv.visited, hinv.mem, hinv.reached,
          fun t' ht' => hinv.queued t' (List.mem_cons_of_mem _ ht')⟩
      rcases hstate : ((chained.lookup t.id).getD []).foldl (visit_redeemer all)
        (visited, descendants, queue) with ⟨visited', descendants', queue'⟩
      obtain ⟨hinv', hlen⟩ := SearchInv.visit hid hids hpop hstate
      have hsearched' := Searched.visit hid hsearched hinv.visited hstate
      have hloop : redeemers_loop all chained (fuel + 1) visited descendants (t :: queue) =
          redeemers_loop all chained fuel visited' descendants' queue' := by
        rw [redeemers_loop, hstate]
      rw [hloop]
      simp only [List.length_cons] at hfuel
      exact ih hinv' hsearched' (by omega)

-- `get_redeemer_ids_in_pool` returns, once each, the pool transactions the start reaches
-- along the links, and nothing when the start is not in the pool.
theorem get_redeemer_ids_in_pool_spec (root : TransactionId) :
    ∃ redeemers, get_redeemer_ids_in_pool all chained root = some redeemers ∧ redeemers.Nodup ∧
      ∀ y, y ∈ redeemers ↔ root ∈ all ∧ Relation.TransGen (redeemer_edge all chained) root y := by
  unfold get_redeemer_ids_in_pool
  cases ht : all.lookup root with
  | none =>
    exact ⟨[], rfl, List.nodup_nil, fun y => by simp [AList.lookup_eq_none.mp ht]⟩
  | some t =>
    have hroot : root ∈ all := AList.lookup_isSome.mp (Option.isSome_of_eq_some ht)
    have hstart : @SearchInv all chained root [] [] [t] :=
      ⟨List.nodup_nil, fun _ => Iff.rfl, fun _ h => absurd h List.not_mem_nil,
        fun _ h => absurd h List.not_mem_nil,
        fun t' ht' => .inl (by rw [List.mem_singleton.mp ht']; exact hid root t ht)⟩
    have hsearched : Searched all chained root [] [t] := fun x hx =>
      .inl ⟨t, List.mem_singleton_self t, by rw [List.mem_singleton.mp hx]; exact hid root t ht⟩
    have hfuel : [t].length + all.keys.length ≤
        all.keys.length + 1 + ([] : List TransactionId).length := by
      simp only [List.length_singleton, List.length_nil]
      omega
    obtain ⟨redeemers, hloop, hnodup, hreached, hclosed⟩ :=
      redeemers_loop_spec hid _ hstart hsearched hfuel
    exact ⟨redeemers, hloop, hnodup, fun y =>
      ⟨fun hy => ⟨hroot, hreached y hy⟩, fun hy => DagPast.mem_of_transGen_of_closed hclosed hy.2⟩⟩

end Search

end Waglayla.Mining.Pool
