import Waglayla.Consensus.Reachability.Inquirer
import Mathlib.Algebra.Order.BigOperators.Group.List
import Mathlib.Algebra.Order.Group.Nat

-- `reindex_intervals`, in `ExceptT ReachabilityError Option`: `throw` is an error, `none` a
-- panic or a loop out of fuel. Depth, slack and the rounding of the split are parameters.

namespace Waglayla.Consensus.Reachability

-- `split_children`: the children before `pivot` and those after it.
def split_children (children : List Hash) (pivot : Hash) :
    Except ReachabilityError (List Hash × List Hash) :=
  match children.findIdx? (· == pivot) with
  | some index => .ok (children.take index, children.drop (index + 1))
  | none => .error .data_inconsistency

section Run

-- Running a computation of `ExceptT ReachabilityError Option`.

variable {α β : Type}

theorem run_liftM_some_bind {a : α} {f : α → ExceptT ReachabilityError Option β} :
    (liftM (some a) >>= f).run = (f a).run := rfl

theorem run_liftM_some {a : α} : (liftM (some a) : ExceptT ReachabilityError Option α).run = some (.ok a) :=
  rfl

theorem run_mk_ok_bind {a : α} {f : α → ExceptT ReachabilityError Option β} :
    (ExceptT.mk (some (.ok a)) >>= f).run = (f a).run := rfl

theorem run_bind_of_ok {x : ExceptT ReachabilityError Option α}
    {f : α → ExceptT ReachabilityError Option β} {a : α} (h : x.run = some (.ok a)) :
    (x >>= f).run = (f a).run := by
  rw [ExceptT.run_bind, h]
  rfl

end Run

namespace ReindexOperationContext

section Reclaim

variable (round : Nat → List Nat → Nat → Nat) (slack : Nat)

def apply_interval_op (self : ReindexOperationContext) (block : Hash) (offset : Nat)
    (op : Interval → Nat → Interval) : ReindexOperationContext :=
  { self with store := self.store.set_interval block (op (self.store.get_interval block) offset) }

def apply_interval_op_and_propagate (self : ReindexOperationContext) (block : Hash) (offset : Nat)
    (op : Interval → Nat → Interval) : Option ReindexOperationContext :=
  (self.apply_interval_op block offset op).propagate_interval round block

-- The loop of `offset_siblings_before` over the siblings before `current`, the nearest first:
-- each is shifted up by `offset`, until `allocation_block`, which grows by it at its end.
def offset_before_loop (allocation_block : Hash) (offset : Nat) :
    List Hash → ReindexOperationContext → Option ReindexOperationContext
  | [], self => some self
  | sibling :: siblings, self =>
    if sibling = allocation_block then
      self.apply_interval_op_and_propagate round allocation_block offset Interval.increase_end
    else do
      let self ← self.apply_interval_op_and_propagate round sibling offset Interval.increase
      offset_before_loop allocation_block offset siblings self

-- The loop of `offset_siblings_after` over the siblings after `current`, the nearest first:
-- each is shifted down by `offset`, until `allocation_block`, which grows by it at its start.
def offset_after_loop (allocation_block : Hash) (offset : Nat) :
    List Hash → ReindexOperationContext → Option ReindexOperationContext
  | [], self => some self
  | sibling :: siblings, self =>
    if sibling = allocation_block then
      self.apply_interval_op_and_propagate round allocation_block offset Interval.decrease_start
    else do
      let self ← self.apply_interval_op_and_propagate round sibling offset Interval.decrease
      offset_after_loop allocation_block offset siblings self

def offset_siblings_before (self : ReindexOperationContext) (allocation_block current : Hash)
    (offset : Nat) : ExceptT ReachabilityError Option ReindexOperationContext := do
  let parent := self.store.get_parent current
  let children := self.store.get_children parent
  let (siblings_before, _) ← ExceptT.mk (some (split_children children current))
  offset_before_loop round allocation_block offset siblings_before.reverse self

def offset_siblings_after (self : ReindexOperationContext) (allocation_block current : Hash)
    (offset : Nat) : ExceptT ReachabilityError Option ReindexOperationContext := do
  let parent := self.store.get_parent current
  let children := self.store.get_children parent
  let (_, siblings_after) ← ExceptT.mk (some (split_children children current))
  offset_after_loop round allocation_block offset siblings_after self

-- The first loop of `reclaim_interval_before`: down the chain from the chosen child to the
-- reindex root, the slack before the children of each block is summed until it meets
-- `required_allocation`, and taken from the block where it does; the reindex root, reached
-- first, gives the rest and a new slack for every block of the path. Returns the block reached,
-- the slack left to each block of the path, and the context.
def reclaim_before_down (allocation_block reindex_root : Hash) (required_allocation : Nat) :
    Nat → Hash → Nat → Nat → ReindexOperationContext →
      ExceptT ReachabilityError Option (Hash × Nat × ReindexOperationContext)
  | 0, _, _, _, _ => ExceptT.lift none
  | fuel + 1, current, slack_sum, path_len, self =>
    if current = reindex_root then do
      let offset := required_allocation + slack * path_len - slack_sum
      let self ← self.apply_interval_op_and_propagate round current offset Interval.increase_start
      let self ← self.offset_siblings_before round allocation_block current offset
      pure (current, slack, self)
    else
      let slack_before_current := (self.store.interval_remaining_before current).size
      let slack_sum := slack_sum + slack_before_current
      if required_allocation ≤ slack_sum then do
        let offset := slack_before_current - (slack_sum - required_allocation)
        let self := self.apply_interval_op current offset Interval.increase_start
        let self ← self.offset_siblings_before round allocation_block current offset
        pure (current, 0, self)
      else do
        let current ← self.store.get_next_chain_ancestor_unchecked reindex_root current
        reclaim_before_down allocation_block reindex_root required_allocation fuel current
          slack_sum (path_len + 1) self

-- The second loop of `reclaim_interval_before`: back up the parents to the common ancestor, each
-- block keeping the path's slack before its children and giving up the rest.
def reclaim_before_up (allocation_block common_ancestor : Hash) (path_slack_alloc : Nat) :
    Nat → Hash → ReindexOperationContext → ExceptT ReachabilityError Option ReindexOperationContext
  | 0, _, _ => ExceptT.lift none
  | fuel + 1, current, self =>
    let current := self.store.get_parent current
    if current = common_ancestor then pure self
    else do
      let slack_before_current := (self.store.interval_remaining_before current).size
      let offset := slack_before_current - path_slack_alloc
      let self := self.apply_interval_op current offset Interval.increase_start
      let self ← self.offset_siblings_before round allocation_block current offset
      reclaim_before_up allocation_block common_ancestor path_slack_alloc fuel current self

def reclaim_after_down (allocation_block reindex_root : Hash) (required_allocation : Nat) :
    Nat → Hash → Nat → Nat → ReindexOperationContext →
      ExceptT ReachabilityError Option (Hash × Nat × ReindexOperationContext)
  | 0, _, _, _, _ => ExceptT.lift none
  | fuel + 1, current, slack_sum, path_len, self =>
    if current = reindex_root then do
      let offset := required_allocation + slack * path_len - slack_sum
      let self ← self.apply_interval_op_and_propagate round current offset Interval.decrease_end
      let self ← self.offset_siblings_after round allocation_block current offset
      pure (current, slack, self)
    else
      let slack_after_current := (self.store.interval_remaining_after current).size
      let slack_sum := slack_sum + slack_after_current
      if required_allocation ≤ slack_sum then do
        let offset := slack_after_current - (slack_sum - required_allocation)
        let self := self.apply_interval_op current offset Interval.decrease_end
        let self ← self.offset_siblings_after round allocation_block current offset
        pure (current, 0, self)
      else do
        let current ← self.store.get_next_chain_ancestor_unchecked reindex_root current
        reclaim_after_down allocation_block reindex_root required_allocation fuel current
          slack_sum (path_len + 1) self

def reclaim_after_up (allocation_block common_ancestor : Hash) (path_slack_alloc : Nat) :
    Nat → Hash → ReindexOperationContext → ExceptT ReachabilityError Option ReindexOperationContext
  | 0, _, _ => ExceptT.lift none
  | fuel + 1, current, self =>
    let current := self.store.get_parent current
    if current = common_ancestor then pure self
    else do
      let slack_after_current := (self.store.interval_remaining_after current).size
      let offset := slack_after_current - path_slack_alloc
      let self := self.apply_interval_op current offset Interval.decrease_end
      let self ← self.offset_siblings_after round allocation_block current offset
      reclaim_after_up allocation_block common_ancestor path_slack_alloc fuel current self

-- The walk down the chain is as long as the height of the chosen child, the walk back up as the
-- height of the common ancestor.
def reclaim_interval_before (self : ReindexOperationContext)
    (allocation_block common_ancestor chosen_child reindex_root : Hash) (required_allocation : Nat) :
    ExceptT ReachabilityError Option ReindexOperationContext := do
  let (current, path_slack_alloc, self) ← reclaim_before_down round slack allocation_block
    reindex_root required_allocation (self.store.tree.height chosen_child + 1) chosen_child 0 0 self
  reclaim_before_up round allocation_block common_ancestor path_slack_alloc
    (self.store.tree.height common_ancestor + 1) current self

def reclaim_interval_after (self : ReindexOperationContext)
    (allocation_block common_ancestor chosen_child reindex_root : Hash) (required_allocation : Nat) :
    ExceptT ReachabilityError Option ReindexOperationContext := do
  let (current, path_slack_alloc, self) ← reclaim_after_down round slack allocation_block
    reindex_root required_allocation (self.store.tree.height chosen_child + 1) chosen_child 0 0 self
  reclaim_after_up round allocation_block common_ancestor path_slack_alloc
    (self.store.tree.height common_ancestor + 1) current self

def reindex_intervals_earlier_than_root (self : ReindexOperationContext)
    (allocation_block reindex_root common_ancestor : Hash) (required_allocation : Nat) :
    ExceptT ReachabilityError Option ReindexOperationContext := do
  -- the child of the common ancestor on the chain to the reindex root
  let chosen_child ← self.store.get_next_chain_ancestor_unchecked reindex_root common_ancestor
  let block_interval := self.store.get_interval allocation_block
  let chosen_interval := self.store.get_interval chosen_child
  if block_interval.start < chosen_interval.start then
    self.reclaim_interval_before round slack allocation_block common_ancestor chosen_child
      reindex_root required_allocation
  else
    self.reclaim_interval_after round slack allocation_block common_ancestor chosen_child
      reindex_root required_allocation

end Reclaim

section Reindex

variable (round : Nat → List Nat → Nat → Nat) (slack : Nat) (reindex_root : Hash)

-- The climb of `reindex_intervals` from `current` to the first block with room for its subtree.
def reindex_loop : Nat → Hash → ReindexOperationContext →
    ExceptT ReachabilityError Option ReindexOperationContext
  | 0, _, _ => ExceptT.lift none
  | fuel + 1, current, self => do
    let current_interval := self.store.get_interval current
    let self ← self.count_subtrees current
    let subtree_size ← self.subtree_sizes current
    if subtree_size ≤ current_interval.size then self.propagate_interval round current
    else
      let parent := self.store.get_parent current
      -- past `ORIGIN` there are more than `2^64` blocks
      if parent = NONE then throw .data_overflow
      else if current = reindex_root then throw .data_overflow
      else if self.store.is_strict_chain_ancestor_of parent reindex_root then
        -- the room is reclaimed from the slack on the chain down to the reindex root
        self.reindex_intervals_earlier_than_root round slack current reindex_root parent
          subtree_size
      else reindex_loop fuel parent self

-- The climb is bounded by the height of `ORIGIN`, above every block of the tree.
def reindex_intervals (self : ReindexOperationContext) (new_child : Hash) :
    ExceptT ReachabilityError Option ReindexOperationContext :=
  reindex_loop round slack reindex_root (self.store.tree.height ORIGIN + 1) new_child self

end Reindex

section Ordered

-- The propagation of a subtree lays the intervals of the children of each of its blocks one after
-- another, and touches nothing outside the blocks strictly below the subtree's top.

open FiniteTree

-- A function that maps each pair of a zip of lists of one length to its second part maps the
-- first list to the second.
theorem map_eq_of_mem_zip {α β : Type*} {f : α → β} :
    ∀ {l : List α} {ps : List β}, l.length = ps.length → (∀ a b, (a, b) ∈ l.zip ps → f a = b) →
      l.map f = ps
  | [], [], _, _ => rfl
  | a :: l, b :: ps, hlen, hf => by
    rw [List.map_cons, hf a b List.mem_cons_self,
      map_eq_of_mem_zip (Nat.succ.inj hlen) fun a b h => hf a b (List.mem_cons_of_mem _ h)]

variable {t : FiniteTree Hash} {block : Hash}

variable (t block) in
-- Besides `Propagating`: the blocks outside the subtree, and its top, keep their intervals, and
-- the children of every block no longer below the queue have intervals one after another.
structure PropagatingOrdered (interval : Hash → Interval) (queue : List Hash)
    (ctx : ReindexOperationContext) : Prop extends Propagating t block queue ctx where
  frame : ∀ z, z ∉ t.nodes block ∨ z = block → ctx.store.interval z = interval z
  ordered : ∀ x ∈ t.nodes block, (∀ y ∈ queue, x ∉ t.nodes y) →
    (t.children x).Pairwise fun c d => (ctx.store.interval c).end_ < (ctx.store.interval d).start

variable {interval : Hash → Interval} {queue : List Hash} {x : Hash} {ctx : ReindexOperationContext}

theorem PropagatingOrdered.pop_leaf (h : PropagatingOrdered t block interval (x :: queue) ctx)
    (hleaf : t.children x = []) : PropagatingOrdered t block interval queue ctx := by
  refine ⟨h.toPropagating.pop_leaf hleaf, h.frame, fun z hz hq => ?_⟩
  by_cases hzx : z ∈ t.nodes x
  · -- below a leaf is the leaf itself, which has no children to order
    rcases mem_nodes_iff.mp hzx with rfl | ⟨c, hc, -⟩
    · rw [hleaf]; exact List.Pairwise.nil
    · rw [hleaf] at hc; exact absurd hc List.not_mem_nil
  · exact h.ordered z hz (List.forall_mem_cons.mpr ⟨hzx, hq⟩)

theorem PropagatingOrdered.pop_split (round : Nat → List Nat → Nat → Nat)
    (h : PropagatingOrdered t block interval (x :: queue) ctx) (hchildren : t.children x ≠ []) :
    ∃ parts, (t.children x).mapM ctx.subtree_sizes = some ((t.children x).map t.size) ∧
      (ctx.store.interval_children_capacity x).split_exponential round
        ((t.children x).map t.size) = some parts ∧
      PropagatingOrdered t block interval (queue ++ t.children x)
        { ctx with
          store := (((t.children x).zip parts).foldl (fun store ci => store.set_interval ci.1 ci.2)
            ctx.store) } := by
  obtain ⟨parts, hmap, hsplit, h'⟩ := h.toPropagating.pop_split round hchildren
  have hx := h.mem x List.mem_cons_self
  have hpos : ∀ s ∈ (t.children x).map t.size, 0 < s := by
    simpa using fun c _ => t.size_pos c
  -- the split is the one its spec describes
  obtain ⟨parts', hsplit', htiles, hsizes⟩ := Interval.split_exponential_spec round
    (by simpa using hchildren) hpos (sum_sizes_le_capacity (h.room x List.mem_cons_self) hchildren)
  rw [hsplit, Option.some.injEq] at hsplit'
  subst hsplit'
  have hlen : (t.children x).length = parts.length := by simpa using hsizes.length_eq
  obtain ⟨hset, hkeep, -⟩ := interval_foldl_set ((t.children x).zip parts) ctx.store
    (by rw [List.map_fst_zip (Nat.le_of_eq hlen)]; exact t.nodup x)
  rw [List.map_fst_zip (Nat.le_of_eq hlen)] at hkeep
  -- no child of `x` is outside the subtree or its top
  have hinner : ∀ c ∈ t.children x, c ∈ t.nodes block ∧ c ≠ block := fun c hc =>
    ⟨mem_nodes_trans hx (mem_nodes_of_mem_children hc (mem_nodes_self c)),
      fun hcb => not_mem_nodes_of_mem_children hc (hcb ▸ hx)⟩
  refine ⟨parts, hmap, hsplit, h', fun z hz => ?_, fun z hz hq => ?_⟩
  · have hzc : z ∉ t.children x := fun hzc => by
      rcases hz with hz | hz
      · exact hz (hinner z hzc).1
      · exact (hinner z hzc).2 hz
    dsimp only
    rw [hkeep z hzc]
    exact h.frame z hz
  · dsimp only
    by_cases hzx : z = x
    · -- the children of `x` take the parts of the split, which follow one another
      subst hzx
      have hmap_parts : (t.children z).map
          (((t.children z).zip parts).foldl (fun s ci => s.set_interval ci.1 ci.2) ctx.store).interval =
            parts := map_eq_of_mem_zip hlen hset
      have hparts := Interval.forall_pos_of_forall₂ (List.forall₂_map_right_iff.mpr hsizes) hpos
      have hpairs := htiles.pairwise fun p hp => hparts p.size (List.mem_map_of_mem hp)
      rw [← hmap_parts] at hpairs
      exact List.pairwise_map.mp hpairs
    · -- another block not below the queue has children apart from those of `x`
      have hzx' : z ∉ t.nodes x := fun hzx' => by
        rcases mem_nodes_iff.mp hzx' with h | ⟨c, hc, hzc⟩
        · exact hzx h
        · exact (List.forall_mem_append.mp hq).2 c hc hzc
      have hold := h.ordered z hz (List.forall_mem_cons.mpr ⟨hzx', (List.forall_mem_append.mp hq).1⟩)
      refine hold.imp_of_mem fun hc hd hcd => ?_
      have hdiff : ∀ {c}, c ∈ t.children z → c ∉ t.children x := fun hc hcx =>
        hzx ((t.parent_eq hc).symm.trans (t.parent_eq hcx))
      rw [hkeep _ (hdiff hc), hkeep _ (hdiff hd)]
      exact hcd

-- The loop ends with the queue empty, as in `propagate_loop_spec`.
theorem propagate_loop_ordered (round : Nat → List Nat → Nat → Nat) : ∀ (fuel : Nat)
    {queue : List Hash} {ctx : ReindexOperationContext},
    PropagatingOrdered t block interval queue ctx → t.pending queue < fuel →
      ∃ ctx', propagate_loop round fuel queue ctx = some ctx' ∧
        PropagatingOrdered t block interval [] ctx'
  | 0, _, _, _, hfuel => absurd hfuel (Nat.not_lt_zero _)
  | fuel + 1, [], ctx, h, _ => ⟨ctx, rfl, h⟩
  | fuel + 1, x :: queue, ctx, h, hfuel => by
    have hchildren : ctx.store.get_children x = t.children x := by
      rw [ReachabilityStore.get_children, h.tree_eq]
    rw [propagate_loop]
    dsimp only
    rw [hchildren]
    by_cases hleaf : t.children x = []
    · rw [if_pos hleaf]
      have := t.pending_pop x queue
      exact propagate_loop_ordered round fuel (h.pop_leaf hleaf) (by omega)
    · rw [if_neg hleaf]
      obtain ⟨parts, hmap, hsplit, h'⟩ := h.pop_split round hleaf
      rw [hmap]
      dsimp only
      rw [hsplit]
      have := t.pending_expand x queue
      exact propagate_loop_ordered round fuel h' (by omega)

-- `propagate_interval` from a block with room for its subtree gives every block strictly below it
-- room inside the children capacity of its parent, lays out the children of each block of the
-- subtree one after another, and keeps every other interval.
theorem propagate_interval_ordered (round : Nat → List Nat → Nat → Nat)
    (ctx : ReindexOperationContext) (block : Hash)
    (hcorrect : Correct ctx.store.tree ctx.subtree_sizes)
    (hclosed : Closed ctx.store.tree ctx.subtree_sizes)
    (hroom : ctx.store.tree.size block ≤ (ctx.store.get_interval block).size) :
    ∃ ctx', ctx.propagate_interval round block = some ctx' ∧ ctx'.store.tree = ctx.store.tree ∧
      (∀ z, z ∉ ctx.store.tree.nodes block ∨ z = block →
        ctx'.store.interval z = ctx.store.interval z) ∧
      (∀ x ∈ ctx.store.tree.nodes block, x ≠ block →
        ctx.store.tree.size x ≤ (ctx'.store.get_interval x).size ∧
        (ctx'.store.interval_children_capacity (ctx.store.tree.parent x)).contains
          (ctx'.store.get_interval x) = true) ∧
      ∀ x ∈ ctx.store.tree.nodes block, (ctx.store.tree.children x).Pairwise
        fun c d => (ctx'.store.interval c).end_ < (ctx'.store.interval d).start := by
  obtain ⟨ctx1, hcount, hstore, hsizes, -, -⟩ := count_subtrees_spec ctx block hcorrect hclosed
  have hstart : PropagatingOrdered ctx.store.tree block ctx.store.interval [block] ctx1 := by
    refine ⟨⟨by rw [hstore], hsizes, List.nodup_singleton block, List.pairwise_singleton _ block,
      fun y hy => by rw [List.mem_singleton.mp hy]; exact mem_nodes_self block,
      fun y hy => ?_, fun z hz hne hq => ?_⟩, fun z _ => by rw [hstore], fun z hz hq => ?_⟩
    · rw [List.mem_singleton.mp hy, hstore]
      exact hroom
    · -- every block of the subtree is below its top
      rcases hq block List.mem_cons_self with h' | h'
      · exact absurd hz h'
      · exact absurd h' hne
    · exact absurd hz (hq block List.mem_cons_self)
  obtain ⟨ctx', hloop, hend⟩ := propagate_loop_ordered round _ hstart
    (show ctx.store.tree.pending [block] < ctx1.store.tree.size block + 1 by
      simp [FiniteTree.pending, hstore])
  refine ⟨ctx', ?_, hend.tree_eq, hend.frame,
    fun x hx hne => hend.placed x hx hne fun _ hy => (List.not_mem_nil hy).elim,
    fun x hx => hend.ordered x hx fun _ hy => (List.not_mem_nil hy).elim⟩
  simp only [propagate_interval, hcount, Option.bind_eq_bind, Option.bind_some]
  exact hloop

end Ordered

section Relabel

open FiniteTree

variable {T : FiniteTree Hash} {I I' : Hash → Interval} {new z : Hash}

-- Intervals that label the tree everywhere but at the leaf `new`, whose interval may be empty,
-- label it everywhere once the subtree of an ancestor `z` of `new` with room for its subtree is
-- laid out again as a propagation lays it out.
theorem labelled_of_propagated
    (hlab : ∀ x ∈ T.nodes ORIGIN, x ≠ new →
      T.LabelledAt (fun x => (I x).start) (fun x => (I x).end_) x)
    (hnew : new ∈ T.nodes z) (hroom : T.size z ≤ (I z).size)
    (hframe : ∀ y, y ∉ T.nodes z ∨ y = z → I' y = I y)
    (hplaced : ∀ x ∈ T.nodes z, x ≠ z →
      T.size x ≤ (I' x).size ∧ ((I' (T.parent x)).decrease_end 1).contains (I' x) = true)
    (hordered : ∀ x ∈ T.nodes z, (T.children x).Pairwise fun c d => (I' c).end_ < (I' d).start) :
    T.Labelled ORIGIN (fun x => (I' x).start) (fun x => (I' x).end_) := by
  intro x hx
  by_cases hxz : x ∈ T.nodes z
  · -- laid out again: every block of the subtree has room for its own subtree
    have hroom' : ∀ y ∈ T.nodes z, T.size y ≤ (I' y).size := fun y hy => by
      by_cases hyz : y = z
      · rw [hyz, hframe z (.inr rfl)]; exact hroom
      · exact (hplaced y hy hyz).1
    have hx_room := hroom' x hxz
    have hx_pos := T.size_pos x
    refine ⟨by simp only [Interval.size] at hx_room; omega, fun c hc => ?_, hordered x hxz⟩
    -- a block with a child has room for two blocks, so its children end before it does
    have hc_pos := T.size_pos c
    have hsize : T.size c + 1 ≤ T.size x := by
      rw [T.size_eq x]
      have := List.le_sum_of_mem (List.mem_map_of_mem (f := T.size) hc)
      omega
    have hcz : c ≠ z := fun hcz => not_mem_nodes_of_mem_children hc (hcz ▸ hxz)
    have hcin := (hplaced c (mem_nodes_of_mem_children hc (mem_nodes_self c) |> mem_nodes_trans hxz)
      hcz).2
    rw [T.parent_eq hc, Interval.contains_iff] at hcin
    simp only [Interval.decrease_end, Interval.new, Interval.size] at hcin hx_room ⊢
    omega
  · -- untouched, with children that are untouched or are `z` itself
    have hxn : x ≠ new := fun h => hxz (h ▸ hnew)
    refine (hlab x hx hxn).congr ?_ fun c hc => ?_
    · rw [hframe x (.inl hxz)]
      exact ⟨rfl, rfl⟩
    · have hcz : c ∉ T.nodes z ∨ c = z := by
        by_cases hcz : c = z
        · exact .inr hcz
        · refine .inl fun hcz' => hxz ?_
          have := (parent_mem_nodes hcz' hcz).1
          rwa [T.parent_eq hc] at this
      rw [hframe c hcz]
      exact ⟨rfl, rfl⟩

end Relabel

section AtOrigin

open FiniteTree

variable (round : Nat → List Nat → Nat → Nat) (slack : Nat) {T : FiniteTree Hash}
  {I : Hash → Interval} {new : Hash}

-- From a block above the leaf `new` with room for its subtree, the propagation labels the whole
-- tree and keeps the interval of `ORIGIN`.
theorem propagate_interval_labels {ctx : ReindexOperationContext} {current : Hash}
    (hlab : ∀ x ∈ T.nodes ORIGIN, x ≠ new →
      T.LabelledAt (fun x => (I x).start) (fun x => (I x).end_) x)
    (hstore : ctx.store = ⟨T, I⟩) (hcorrect : Correct T ctx.subtree_sizes)
    (hclosed : Closed T ctx.subtree_sizes) (hcur : current ∈ T.nodes ORIGIN)
    (hnew : new ∈ T.nodes current) (hroom : T.size current ≤ (I current).size) :
    ∃ ctx', ctx.propagate_interval round current = some ctx' ∧ ctx'.store.tree = T ∧
      T.Labelled ORIGIN (fun x => (ctx'.store.interval x).start)
        (fun x => (ctx'.store.interval x).end_) ∧
      ctx'.store.interval ORIGIN = I ORIGIN := by
  have htree : ctx.store.tree = T := by rw [hstore]
  obtain ⟨ctx', hprop, htree', hframe, hplaced, hordered⟩ :=
    propagate_interval_ordered round ctx current (htree ▸ hcorrect) (htree ▸ hclosed)
      (by rw [hstore]; exact hroom)
  rw [hstore] at htree' hframe hplaced hordered
  refine ⟨ctx', hprop, htree', labelled_of_propagated hlab hnew hroom hframe hplaced hordered, ?_⟩
  -- `ORIGIN` is outside the subtree, or its top
  refine hframe ORIGIN ?_
  by_cases hoc : ORIGIN ∈ T.nodes current
  · exact .inr (eq_of_mem_nodes_of_mem_nodes hcur hoc)
  · exact .inl hoc

-- The climb of a reindex with the reindex root at `ORIGIN`, from below the leaf `new` whose
-- interval is all that breaks the labelling. It never meets a strict chain ancestor of the
-- reindex root and stops at the latest at `ORIGIN`, which has room for the whole tree; the
-- propagation from where it stops labels the tree.
theorem reindex_loop_spec
    (hlab : ∀ x ∈ T.nodes ORIGIN, x ≠ new →
      T.LabelledAt (fun x => (I x).start) (fun x => (I x).end_) x)
    (hleaf : T.children new = []) (horigin : T.size ORIGIN ≤ (I ORIGIN).size)
    (hnone : NONE ∉ T.nodes ORIGIN) :
    ∀ (fuel : Nat) (current : Hash) (ctx : ReindexOperationContext), ctx.store = ⟨T, I⟩ →
      Correct T ctx.subtree_sizes → Closed T ctx.subtree_sizes →
      current ∈ T.nodes ORIGIN → new ∈ T.nodes current →
      T.height ORIGIN - T.height current < fuel →
      ∃ ctx', (reindex_loop round slack ORIGIN fuel current ctx).run = some (.ok ctx') ∧
        ctx'.store.tree = T ∧
        T.Labelled ORIGIN (fun x => (ctx'.store.interval x).start) (fun x => (ctx'.store.interval x).end_) ∧
        ctx'.store.interval ORIGIN = I ORIGIN
  | 0, _, _, _, _, _, _, _, hfuel => absurd hfuel (Nat.not_lt_zero _)
  | fuel + 1, current, ctx, hstore, hcorrect, hclosed, hcur, hnew, hfuel => by
    have htree : ctx.store.tree = T := by rw [hstore]
    obtain ⟨ctx1, hcount, hstore1, hsizes, hcorrect1, hclosed1⟩ :=
      count_subtrees_spec ctx current (htree ▸ hcorrect) (htree ▸ hclosed)
    rw [htree] at hsizes hcorrect1 hclosed1
    have hsize := hsizes current (mem_nodes_self current)
    rw [reindex_loop]
    dsimp only
    rw [hcount, run_liftM_some_bind, hsize, run_liftM_some_bind]
    by_cases hroom : T.size current ≤ (ctx.store.get_interval current).size
    · -- room: the propagation from `current` lays out its subtree
      rw [if_pos hroom]
      obtain ⟨ctx', hprop, htree', hlab', horigin'⟩ :=
        propagate_interval_labels round hlab (hstore1.trans hstore) hcorrect1 hclosed1 hcur hnew
          (by rw [hstore] at hroom; exact hroom)
      exact ⟨ctx', by rw [hprop]; rfl, htree', hlab', horigin'⟩
    · rw [if_neg hroom]
      -- no room below `ORIGIN`, which has room for all: climb to the parent
      have hne : current ≠ ORIGIN := fun h => hroom (by rw [h, hstore]; exact horigin)
      obtain ⟨hparent, hchild⟩ := parent_mem_nodes hcur hne
      have hget : ctx1.store.get_parent current = T.parent current := by
        rw [ReachabilityStore.get_parent, hstore1, htree]
      have hpn : T.parent current ≠ NONE := fun h => hnone (h ▸ hparent)
      -- inside holds at every block, `new` having no children
      have hin : ∀ p ∈ T.nodes ORIGIN, ∀ c ∈ T.children p,
          (I p).start ≤ (I c).start ∧ (I c).end_ < (I p).end_ := fun p hp c hc => by
        by_cases hpn : p = new
        · rw [hpn, hleaf] at hc; exact absurd hc List.not_mem_nil
        · exact (hlab p hp hpn).inside c hc
      have hstrict : ctx1.store.is_strict_chain_ancestor_of (T.parent current) ORIGIN = false := by
        rw [Bool.eq_false_iff]
        intro h
        rw [ReachabilityStore.is_strict_chain_ancestor_of, Interval.strictly_contains_iff,
          hstore1, hstore] at h
        have := le_of_mem_nodes_of_inside hin hparent
        exact absurd (h.2.trans_le this.2) (lt_irrefl _)
      rw [hget, if_neg hpn, if_neg hne, hstrict]
      have := T.height_lt hchild
      have := height_le_of_mem_nodes hparent
      exact reindex_loop_spec hlab hleaf horigin hnone fuel (T.parent current) ctx1
        (hstore1.trans hstore) hcorrect1 hclosed1 hparent (mem_nodes_of_mem_children hchild hnew)
        (by omega)

end AtOrigin

end ReindexOperationContext

end Waglayla.Consensus.Reachability
