import Waglayla.Consensus.Reachability.Reclaim

-- `reindex_intervals` with the reindex root anywhere in the tree: where the root has room for
-- the whole tree and its slacks, the reindex labels the tree again.

namespace Waglayla.Consensus.Reachability

open FiniteTree

section Leaf

variable {T : FiniteTree Hash} {I : Hash → Interval} {new : Hash}

-- The new leaf comes last among its siblings: a cut of their list with a block after it leaves
-- the new leaf after the cut.
theorem new_not_mem_of_split (hlast : ∃ pre, T.children (T.parent new) = pre ++ [new])
    {P : Hash} {l₁ l₂ : List Hash} (hsplit : T.children P = l₁ ++ l₂) (hne : l₂ ≠ []) :
    new ∉ l₁ := by
  intro hnew
  obtain ⟨pre, hpre⟩ := hlast
  have hP : T.parent new = P := T.parent_eq (hsplit ▸ List.mem_append_left _ hnew)
  have hlast' : (l₁ ++ l₂).getLast? = some new := by
    rw [← hsplit, ← hP, hpre, List.getLast?_concat]
  obtain ⟨b, hb⟩ := Option.isSome_iff_exists.mp (List.getLast?_isSome.mpr hne)
  rw [List.getLast?_append, hb, Option.some_or] at hlast'
  have hnd := T.nodup P
  rw [hsplit, List.nodup_append] at hnd
  exact hnd.2.2 new hnew new (List.mem_of_getLast? (hb.trans hlast')) rfl

-- Labelled but at a leaf, every block holds the intervals of its children, in order.
theorem LabelledBut.inside (hlab : LabelledBut T I new) (hleaf : T.children new = [])
    {p c : Hash} (hp : p ∈ T.nodes ORIGIN) (hc : c ∈ T.children p) :
    (I p).start ≤ (I c).start ∧ (I c).end_ < (I p).end_ := by
  have hpn : p ≠ new := fun h => by rw [h, hleaf] at hc; exact List.not_mem_nil hc
  exact (hlab p hp hpn).inside c hc

theorem LabelledBut.ordered (hlab : LabelledBut T I new) (hleaf : T.children new = [])
    {p : Hash} (hp : p ∈ T.nodes ORIGIN) :
    (T.children p).Pairwise fun c d => (I c).end_ < (I d).start := by
  by_cases hpn : p = new
  · rw [hpn, hleaf]
    exact List.Pairwise.nil
  · exact (hlab p hp hpn).ordered

-- The strict chain query over intervals labelled but at a leaf answers strict ancestry, for a
-- queried block other than the leaf.
theorem LabelledBut.strictly_contains_iff (hlab : LabelledBut T I new)
    (hleaf : T.children new = []) {x y : Hash} (hx : x ∈ T.nodes ORIGIN) (hy : y ∈ T.nodes ORIGIN)
    (hyn : y ≠ new) : (I x).strictly_contains (I y) = true ↔ y ∈ T.nodes x ∧ y ≠ x := by
  have hin : ∀ p ∈ T.nodes ORIGIN, ∀ c ∈ T.children p,
      (I p).start ≤ (I c).start ∧ (I c).end_ < (I p).end_ := fun p hp c hc =>
    hlab.inside hleaf hp hc
  rw [Interval.strictly_contains_iff]
  constructor
  · exact mem_nodes_of_lt_of_inside hin (fun p hp => hlab.ordered hleaf hp) hx hy
      (hlab y hy hyn).nonempty
  · rintro ⟨hyx, hne⟩
    have hin_x : ∀ p ∈ T.nodes x, ∀ c ∈ T.children p,
        (I p).start ≤ (I c).start ∧ (I c).end_ < (I p).end_ := fun p hp =>
      hin p (mem_nodes_trans hx hp)
    have hle := le_of_mem_nodes_of_inside hin_x hyx
    have hlt := hi_lt_of_mem_nodes_of_inside hin_x hyx hne
    exact ⟨hle.1, hlt⟩

end Leaf

namespace ReindexOperationContext

variable {T : FiniteTree Hash} {new : Hash} {ctx : ReindexOperationContext}

-- A reclaim that labels the subtree holding the new leaf labels the whole tree.
theorem Reclaiming.labelled_of_subtree (h : Reclaiming T new ctx) {z : Hash}
    (hnew : new ∈ T.nodes z)
    (hz : ∀ y ∈ T.nodes z, T.LabelledAt (fun y => (ctx.store.interval y).start)
      (fun y => (ctx.store.interval y).end_) y) :
    T.Labelled ORIGIN (fun y => (ctx.store.interval y).start)
      (fun y => (ctx.store.interval y).end_) := by
  intro x hx
  by_cases hxn : x = new
  · rw [hxn]
    exact hz new hnew
  · exact h.labelled x hx hxn

section EarlierThanRoot

variable (round : Nat → List Nat → Nat → Nat) (slack : Nat) {ctx₀ : ReindexOperationContext}
  {allocation_block reindex_root common_ancestor : Hash}

-- Below the common ancestor, the chosen child is the child above the reindex root, and the
-- reclaim on the side of it where the allocation block lies gives the allocation block the
-- room of its subtree: the tree comes out labelled, and nothing outside the subtree of the
-- common ancestor moves.
theorem reindex_intervals_earlier_than_root_spec (h₀ : Reclaiming T new ctx₀)
    (hlast : ∃ pre, T.children (T.parent new) = pre ++ [new])
    (hnew_size : (ctx₀.store.interval new).start ≤ (ctx₀.store.interval new).end_ + 1)
    (hone : ∀ x ∈ T.nodes ORIGIN, x ≠ new → 1 ≤ (ctx₀.store.interval x).start)
    (hCA : common_ancestor ∈ T.nodes ORIGIN)
    (hAB : allocation_block ∈ T.children common_ancestor)
    (hnewAB : new ∈ T.nodes allocation_block) (hR : reindex_root ∈ T.nodes common_ancestor)
    (hRCA : reindex_root ≠ common_ancestor) (hRAB : reindex_root ∉ T.nodes allocation_block)
    (hroot : (slack + 1) * T.size common_ancestor ≤ (ctx₀.store.interval reindex_root).size) :
    ∃ ctx', (ctx₀.reindex_intervals_earlier_than_root round slack allocation_block reindex_root
        common_ancestor (T.size allocation_block)).run = some (.ok ctx') ∧
      Reclaiming T new ctx' ∧
      T.Labelled ORIGIN (fun y => (ctx'.store.interval y).start)
        (fun y => (ctx'.store.interval y).end_) ∧
      ∀ z, z ∉ T.nodes common_ancestor ∨ z = common_ancestor →
        ctx'.store.interval z = ctx₀.store.interval z := by
  -- the chosen child: the child of the common ancestor above the reindex root
  obtain ⟨chosen_child, hCC, hRCC⟩ := (mem_nodes_iff.mp hR).resolve_left hRCA
  have hABCC : allocation_block ≠ chosen_child := fun h => hRAB (h ▸ hRCC)
  have hnewCC : new ∉ T.nodes chosen_child := fun h =>
    hABCC (eq_of_mem_nodes_children hAB hCC hnewAB h)
  have hAB_mem := mem_nodes_trans hCA (mem_nodes_of_mem_children hAB (mem_nodes_self _))
  have hCC_mem := mem_nodes_trans hCA (mem_nodes_of_mem_children hCC (mem_nodes_self _))
  have hlabCA := h₀.labelled _ hCA (h₀.ne_new_of_mem_children hAB)
  have hlabCC := h₀.labelled_of_not_mem hCC_mem hnewCC
  -- the children of the common ancestor but the last are not the new leaf: their starts increase
  have hkeys : (T.children common_ancestor).Pairwise fun c e =>
      (ctx₀.store.interval c).start < (ctx₀.store.interval e).start := by
    obtain ⟨L, lc, hch⟩ := (List.eq_nil_or_concat' _).resolve_left (List.ne_nil_of_mem hAB)
    refine ctx₀.store.starts_increasing hlabCA.ordered fun c hc => ?_
    rw [hch, List.dropLast_concat] at hc
    have hcn : c ≠ new := fun hcn =>
      new_not_mem_of_split hlast hch (List.cons_ne_nil _ _) (hcn ▸ hc)
    have hc_mem := mem_nodes_trans hCA
      (mem_nodes_of_mem_children (hch ▸ List.mem_append_left _ hc) (mem_nodes_self c))
    exact (h₀.labelled c hc_mem hcn).nonempty
  have hquery : (ctx₀.store.get_next_chain_ancestor_unchecked reindex_root common_ancestor).run =
      some (.ok chosen_child) := by
    have htree := h₀.tree_eq
    exact ctx₀.store.get_next_chain_ancestor_unchecked_found (by rw [htree]; exact hlabCA.ordered)
      (by rw [htree]; exact hkeys) (by rw [htree]; exact hCC)
      (hlabCC.le_of_mem_nodes (mem_nodes_self _) hRCC) (hlabCC _ hRCC).nonempty
  -- the reindex root has room for both subtrees and a slack for each block of its path
  have hroom : T.size reindex_root + T.size allocation_block +
      slack * (T.ancestors_in chosen_child reindex_root).length ≤
        (ctx₀.store.interval reindex_root).size := by
    have h1 := size_le_of_mem_nodes hRCC
    have h2 := size_add_size_lt hCC hAB (Ne.symm hABCC)
    have h3 := length_ancestors_in_lt hRCC
    have h4 : slack * (T.ancestors_in chosen_child reindex_root).length ≤
        slack * T.size common_ancestor := Nat.mul_le_mul_left _ (by omega)
    rw [add_one_mul] at hroot
    omega
  -- the children of the common ancestor on either side of the chosen child
  have hsides : ∀ {pre post}, T.children common_ancestor = pre ++ chosen_child :: post →
      allocation_block ∈ pre ∨ allocation_block ∈ post := fun hsplit => by
    have := hsplit ▸ hAB
    rcases List.mem_append.mp this with h | h
    · exact .inl h
    · exact .inr ((List.mem_cons.mp h).resolve_left hABCC)
  unfold reindex_intervals_earlier_than_root
  rw [run_bind_of_ok hquery]
  dsimp only [ReachabilityStore.get_interval]
  by_cases hbefore : (ctx₀.store.interval allocation_block).start <
      (ctx₀.store.interval chosen_child).start
  · rw [if_pos hbefore]
    -- the new leaf, last of its siblings, starts after the chosen child: it is not the
    -- allocation block
    have hABn : allocation_block ≠ new := by
      rintro rfl
      obtain ⟨pre, post, hsplit⟩ := List.append_of_mem hCC
      have hpost := (hsides hsplit).resolve_left
        (new_not_mem_of_split hlast hsplit (List.cons_ne_nil _ _))
      have hord := hlabCA.ordered
      rw [hsplit, List.pairwise_append, List.pairwise_cons] at hord
      have := hord.2.1.1 _ hpost
      have := (hlabCC _ (mem_nodes_self _)).nonempty
      omega
    obtain ⟨ctx', hrun, h', hAB', hframe'⟩ := reclaim_interval_before_spec round h₀ hCA hAB hCC
      hnewAB hABCC hABn hbefore slack hone hRCC hroom
    exact ⟨ctx', hrun, h', h'.labelled_of_subtree hnewAB hAB', hframe'⟩
  · rw [if_neg hbefore]
    have hABsize : (ctx₀.store.interval allocation_block).start ≤
        (ctx₀.store.interval allocation_block).end_ + 1 := by
      by_cases hABn : allocation_block = new
      · rw [hABn]
        exact hnew_size
      · exact Nat.le_succ_of_le (h₀.labelled _ hAB_mem hABn).nonempty
    -- a block before the chosen child would end before it starts
    have hafter : ∀ pre post, T.children common_ancestor = pre ++ chosen_child :: post →
        allocation_block ∈ post := fun pre post hsplit => by
      refine (hsides hsplit).resolve_left fun hpre => ?_
      have hABn : allocation_block ≠ new := fun h =>
        new_not_mem_of_split hlast hsplit (List.cons_ne_nil _ _) (h ▸ hpre)
      have hne := (h₀.labelled _ hAB_mem hABn).nonempty
      have hord := hlabCA.ordered
      rw [hsplit, List.pairwise_append] at hord
      have := hord.2.2 _ hpre _ List.mem_cons_self
      omega
    obtain ⟨ctx', hrun, h', hAB', hframe'⟩ := reclaim_interval_after_spec round h₀ hCA hAB hCC
      hnewAB hABCC hABsize hafter slack hRCC hroom
    exact ⟨ctx', hrun, h', h'.labelled_of_subtree hnewAB hAB', hframe'⟩

-- `ORIGIN` with two children: the block `[0]`, then the new leaf `[1]`.
def fork_tree : FiniteTree Hash where
  children h := if h = ORIGIN then [[0], [1]] else []
  parent h := if h = [0] ∨ h = [1] then ORIGIN else NONE
  height h := if h = ORIGIN then 1 else 0
  parent_eq := by
    intro p c hc
    by_cases hp : p = ORIGIN
    · subst hp
      simp only [if_pos, List.mem_cons, List.not_mem_nil, or_false] at hc
      rcases hc with rfl | rfl <;> decide
    · simp [hp] at hc
  height_lt := by
    intro p c hc
    by_cases hp : p = ORIGIN
    · subst hp
      simp only [if_pos, List.mem_cons, List.not_mem_nil, or_false] at hc
      rcases hc with rfl | rfl <;> decide
    · simp [hp] at hc
  nodup := by
    intro p
    by_cases hp : p = ORIGIN
    · simp only [hp, if_pos]
      decide
    · simp [hp]

-- The intervals of `fork_tree` as a reindex finds them: `[0]` holds almost all of the room of
-- `ORIGIN`, and the new leaf has the empty interval at its end.
def fork_intervals (h : Hash) : Interval :=
  if h = ORIGIN then Interval.new 1 100 else if h = [0] then Interval.new 1 98 else Interval.new 100 99

-- With the reindex root at `[0]`, the reindex below `ORIGIN` for the new leaf reclaims room
-- after `[0]`, the chosen child.
theorem reindex_intervals_earlier_than_root_spec_fork :
    ∃ ctx', (reindex_intervals_earlier_than_root (fun _ _ _ => 0) 2
        ⟨⟨fork_tree, fork_intervals⟩, fun _ => none⟩ [1] [0] ORIGIN (fork_tree.size [1])).run =
        some (.ok ctx') ∧
      Reclaiming fork_tree [1] ctx' ∧
      fork_tree.Labelled ORIGIN (fun y => (ctx'.store.interval y).start)
        (fun y => (ctx'.store.interval y).end_) ∧
      ∀ z, z ∉ fork_tree.nodes ORIGIN ∨ z = ORIGIN → ctx'.store.interval z = fork_intervals z :=
  reindex_intervals_earlier_than_root_spec (fun _ _ _ => 0) 2
    (show Reclaiming fork_tree [1] ⟨⟨fork_tree, fork_intervals⟩, fun _ => none⟩ from
      ⟨rfl, by decide, (fun _ _ h => nomatch h), (fun _ h => absurd rfl h), by decide⟩)
    ⟨[[0]], by decide⟩
    (by decide) (by decide) (by decide) (by decide) (by decide) (by decide) (by decide)
    (by decide) (by decide)

end EarlierThanRoot

section Climb

variable (round : Nat → List Nat → Nat → Nat) (slack : Nat) {I : Hash → Interval}
  {reindex_root : Hash}

-- The climb of a reindex from below the leaf `new`, with the reindex root anywhere with room for
-- the tree and a slack for each of its blocks. Above `current` nothing but the reindex root
-- itself is a chain ancestor of the reindex root; the climb stops at the first block with room
-- for its subtree or reclaims room below the first strict chain ancestor of the reindex root,
-- and the tree comes out labelled with the interval of `ORIGIN` unchanged.
theorem reindex_loop_labels (hlab : LabelledBut T I new) (hleaf : T.children new = [])
    (hlast : ∃ pre, T.children (T.parent new) = pre ++ [new])
    (hnew_size : (I new).start ≤ (I new).end_ + 1) (hstart : 1 ≤ (I ORIGIN).start)
    (hR : reindex_root ∈ T.nodes ORIGIN) (hRn : reindex_root ≠ new)
    (hroot : (slack + 1) * T.size ORIGIN ≤ (I reindex_root).size)
    (hnone : NONE ∉ T.nodes ORIGIN) :
    ∀ (fuel : Nat) (current : Hash) (ctx : ReindexOperationContext), ctx.store = ⟨T, I⟩ →
      Correct T ctx.subtree_sizes → Closed T ctx.subtree_sizes →
      current ∈ T.nodes ORIGIN → new ∈ T.nodes current →
      (reindex_root ∈ T.nodes current → reindex_root = current) →
      T.height ORIGIN - T.height current < fuel →
      ∃ ctx', (reindex_loop round slack reindex_root fuel current ctx).run = some (.ok ctx') ∧
        ctx'.store.tree = T ∧
        T.Labelled ORIGIN (fun x => (ctx'.store.interval x).start)
          (fun x => (ctx'.store.interval x).end_) ∧
        ctx'.store.interval ORIGIN = I ORIGIN
  | 0, _, _, _, _, _, _, _, _, hfuel => absurd hfuel (Nat.not_lt_zero _)
  | fuel + 1, current, ctx, hstore, hcorrect, hclosed, hcur, hnew, hRcur, hfuel => by
    have htree : ctx.store.tree = T := by rw [hstore]
    obtain ⟨ctx1, hcount, hstore1, hsizes, hcorrect1, hclosed1⟩ :=
      count_subtrees_spec ctx current (htree ▸ hcorrect) (htree ▸ hclosed)
    rw [htree] at hsizes hcorrect1 hclosed1
    have hstore1' : ctx1.store = ⟨T, I⟩ := hstore1.trans hstore
    rw [reindex_loop]
    dsimp only
    rw [hcount, run_liftM_some_bind, hsizes current (mem_nodes_self current), run_liftM_some_bind]
    by_cases hroom : T.size current ≤ (ctx.store.get_interval current).size
    · -- room: the propagation from `current` lays out its subtree
      rw [if_pos hroom]
      obtain ⟨ctx', hprop, htree', hlab', horigin'⟩ :=
        propagate_interval_labels round hlab hstore1' hcorrect1 hclosed1 hcur hnew
          (by rw [hstore] at hroom; exact hroom)
      exact ⟨ctx', by rw [hprop]; rfl, htree', hlab', horigin'⟩
    rw [if_neg hroom]
    -- the reindex root has room for the whole tree: it is not below `current`
    have hRcur' : reindex_root ∉ T.nodes current := fun h => hroom (by
      rw [← hRcur h, hstore]
      exact (size_le_of_mem_nodes hR).trans
        ((Nat.le_mul_of_pos_left _ (Nat.succ_pos slack)).trans hroot))
    have hne : current ≠ ORIGIN := fun h => hRcur' (h ▸ hR)
    have hneR : current ≠ reindex_root := fun h => hRcur' (h ▸ mem_nodes_self current)
    obtain ⟨hparent, hchild⟩ := parent_mem_nodes hcur hne
    have hget : ctx1.store.get_parent current = T.parent current := by
      rw [ReachabilityStore.get_parent, hstore1']
    have hpn : T.parent current ≠ NONE := fun h => hnone (h ▸ hparent)
    rw [hget, if_neg hpn, if_neg hneR]
    -- the strict chain query answers strict ancestry, the reindex root not being the new leaf
    have hquery : ctx1.store.is_strict_chain_ancestor_of (T.parent current) reindex_root = true ↔
        reindex_root ∈ T.nodes (T.parent current) ∧ reindex_root ≠ T.parent current := by
      rw [ReachabilityStore.is_strict_chain_ancestor_of, hstore1']
      exact hlab.strictly_contains_iff hleaf hparent hR hRn
    by_cases hRP : reindex_root ∈ T.nodes (T.parent current) ∧ reindex_root ≠ T.parent current
    · -- the parent is the common ancestor: the reclaim below it
      rw [if_pos (hquery.mpr hRP)]
      have h₀ : Reclaiming T new ctx1 :=
        ⟨by rw [hstore1'], hleaf, hcorrect1, hclosed1, by rw [hstore1']; exact hlab⟩
      have hone : ∀ x ∈ T.nodes ORIGIN, x ≠ new → 1 ≤ (ctx1.store.interval x).start :=
        fun x hx _ => by
          rw [hstore1']
          exact hstart.trans
            (le_of_mem_nodes_of_inside (fun p hp c hc => hlab.inside hleaf hp hc) hx).1
      have hroot' : (slack + 1) * T.size (T.parent current) ≤
          (ctx1.store.interval reindex_root).size := by
        rw [hstore1']
        exact (Nat.mul_le_mul_left _ (size_le_of_mem_nodes hparent)).trans hroot
      obtain ⟨ctx', hrun, h', hlab', hframe'⟩ := reindex_intervals_earlier_than_root_spec round
        slack h₀ hlast (by rw [hstore1']; exact hnew_size) hone hparent hchild hnew hRP.1 hRP.2
        hRcur' hroot'
      refine ⟨ctx', hrun, h'.tree_eq, hlab', ?_⟩
      -- `ORIGIN` is outside the subtree of the common ancestor, or is the common ancestor
      have horigin : ORIGIN ∉ T.nodes (T.parent current) ∨ ORIGIN = T.parent current := by
        by_cases hoc : ORIGIN ∈ T.nodes (T.parent current)
        · exact .inr (eq_of_mem_nodes_of_mem_nodes hparent hoc)
        · exact .inl hoc
      rw [hframe' ORIGIN horigin, hstore1']
    · -- on to the parent, above which the reindex root is still no strict chain ancestor's child
      rw [if_neg fun h => hRP (hquery.mp h)]
      have := T.height_lt hchild
      have := height_le_of_mem_nodes hparent
      exact reindex_loop_labels hlab hleaf hlast hnew_size hstart hR hRn hroot hnone fuel
        (T.parent current) ctx1 hstore1' hcorrect1 hclosed1 hparent
        (mem_nodes_of_mem_children hchild hnew) (fun h => not_not.mp fun hne => hRP ⟨h, hne⟩)
        (by omega)

-- With the reindex root at `[0]`, the climb from the new leaf reaches `ORIGIN`, a strict chain
-- ancestor of the reindex root, and reclaims room after `[0]`.
theorem reindex_loop_labels_fork :
    ∃ ctx', (reindex_loop (fun _ _ _ => 0) 2 [0] (fork_tree.height ORIGIN + 1) [1]
        ⟨⟨fork_tree, fork_intervals⟩, fun _ => none⟩).run = some (.ok ctx') ∧
      ctx'.store.tree = fork_tree ∧
      fork_tree.Labelled ORIGIN (fun x => (ctx'.store.interval x).start)
        (fun x => (ctx'.store.interval x).end_) ∧
      ctx'.store.interval ORIGIN = fork_intervals ORIGIN :=
  reindex_loop_labels (fun _ _ _ => 0) 2 (show LabelledBut fork_tree fork_intervals [1] by decide)
    (by decide) ⟨[[0]], by decide⟩ (by decide)
    (by decide) (by decide) (by decide) (by decide) (by decide) _ [1] _ rfl
    (fun _ _ h => nomatch h) (fun _ h => absurd rfl h) (by decide) (by decide) (by decide)
    (by decide)

end Climb

end ReindexOperationContext

end Waglayla.Consensus.Reachability
