import Waglayla.Consensus.Reachability.ReindexIntervals

-- `reindex_intervals_earlier_than_root`: the room a block lacks is reclaimed from the slack of
-- the chain down to the reindex root and travels back up; no subtraction of the code wraps.

namespace Waglayla.Consensus.Reachability

namespace Interval

variable (self : Interval) (offset : Nat)

@[simp] theorem start_increase : (self.increase offset).start = self.start + offset := rfl
@[simp] theorem end_increase : (self.increase offset).end_ = self.end_ + offset := rfl
@[simp] theorem start_decrease : (self.decrease offset).start = self.start - offset := rfl
@[simp] theorem end_decrease : (self.decrease offset).end_ = self.end_ - offset := rfl
@[simp] theorem start_increase_start : (self.increase_start offset).start = self.start + offset :=
  rfl
@[simp] theorem end_increase_start : (self.increase_start offset).end_ = self.end_ := rfl
@[simp] theorem start_decrease_start : (self.decrease_start offset).start = self.start - offset :=
  rfl
@[simp] theorem end_decrease_start : (self.decrease_start offset).end_ = self.end_ := rfl
@[simp] theorem start_increase_end : (self.increase_end offset).start = self.start := rfl
@[simp] theorem end_increase_end : (self.increase_end offset).end_ = self.end_ + offset := rfl
@[simp] theorem start_decrease_end : (self.decrease_end offset).start = self.start := rfl
@[simp] theorem end_decrease_end : (self.decrease_end offset).end_ = self.end_ - offset := rfl

end Interval

open FiniteTree

-- The intervals label the tree at every block of it but `new`, the leaf that waits for room.
def LabelledBut (T : FiniteTree Hash) (I : Hash → Interval) (new : Hash) : Prop :=
  ∀ x ∈ T.nodes ORIGIN, x ≠ new → T.LabelledAt (fun x => (I x).start) (fun x => (I x).end_) x

instance (T : FiniteTree Hash) (I : Hash → Interval) (new : Hash) :
    Decidable (LabelledBut T I new) :=
  inferInstanceAs (Decidable (∀ x ∈ T.nodes ORIGIN, x ≠ new → _))

section Relabel

-- How the labelling at a block follows the intervals it reads: its own and its children's.

variable {T : FiniteTree Hash} {I I' : Hash → Interval} {x z : Hash}

-- A block outside the subtree of `z` keeps its labelling when only blocks strictly below `z`
-- change their intervals.
theorem labelledAt_of_frame (h : T.LabelledAt (fun x => (I x).start) (fun x => (I x).end_) x)
    (hxz : x ∉ T.nodes z) (hframe : ∀ y, y ∉ T.nodes z ∨ y = z → I' y = I y) :
    T.LabelledAt (fun x => (I' x).start) (fun x => (I' x).end_) x := by
  refine h.congr ?_ fun c hc => ?_
  · rw [hframe x (.inl hxz)]
    exact ⟨rfl, rfl⟩
  · -- a child of `x` is `z` itself or outside its subtree
    have hcz : c ∉ T.nodes z ∨ c = z := by
      by_cases hcz : c = z
      · exact .inr hcz
      · refine .inl fun hcz' => hxz ?_
        have := (parent_mem_nodes hcz' hcz).1
        rwa [T.parent_eq hc] at this
    rw [hframe c hcz]
    exact ⟨rfl, rfl⟩

-- A block of the subtree of `z`, with room for the subtree, is labelled once the subtree is laid
-- out as a propagation from `z` lays it out.
theorem labelledAt_of_placed (hroom : T.size z ≤ (I z).size)
    (hframe : ∀ y, y ∉ T.nodes z ∨ y = z → I' y = I y)
    (hplaced : ∀ x ∈ T.nodes z, x ≠ z →
      T.size x ≤ (I' x).size ∧ ((I' (T.parent x)).decrease_end 1).contains (I' x) = true)
    (hordered : ∀ x ∈ T.nodes z, (T.children x).Pairwise fun c d => (I' c).end_ < (I' d).start)
    (hxz : x ∈ T.nodes z) : T.LabelledAt (fun x => (I' x).start) (fun x => (I' x).end_) x := by
  -- every block of the subtree has room for its own subtree
  have hroom' : ∀ y ∈ T.nodes z, T.size y ≤ (I' y).size := fun y hy => by
    by_cases hyz : y = z
    · rw [hyz, hframe z (.inr rfl)]; exact hroom
    · exact (hplaced y hy hyz).1
  have hx_room := hroom' x hxz
  have hx_pos := T.size_pos x
  refine ⟨by simp only [Interval.size] at hx_room; omega, fun c hc => ?_, hordered x hxz⟩
  -- a block with a child has room for two blocks, so its children end before it does
  have hc_pos := T.size_pos c
  have hsize : T.size c + 1 ≤ T.size x := by
    rw [T.size_eq x]
    have := List.le_sum_of_mem (List.mem_map_of_mem (f := T.size) hc)
    omega
  have hcz : c ≠ z := fun hcz => not_mem_nodes_of_mem_children hc (hcz ▸ hxz)
  have hcin := (hplaced c (mem_nodes_trans hxz (mem_nodes_of_mem_children hc (mem_nodes_self c)))
    hcz).2
  rw [T.parent_eq hc, Interval.contains_iff] at hcin
  simp only [Interval.decrease_end, Interval.new, Interval.size] at hcin hx_room ⊢
  omega

-- A block whose children do not include `z` keeps its labelling when `z` gets a new interval.
theorem labelledAt_update_of_not_mem {J : Interval}
    (h : T.LabelledAt (fun x => (I x).start) (fun x => (I x).end_) x) (hxz : x ≠ z)
    (hz : z ∉ T.children x) :
    T.LabelledAt (fun y => (Function.update I z J y).start)
      (fun y => (Function.update I z J y).end_) x := by
  refine h.congr ?_ fun c hc => ?_
  · rw [Function.update_of_ne hxz]
    exact ⟨rfl, rfl⟩
  · rw [Function.update_of_ne fun hcz : c = z => hz (hcz ▸ hc)]
    exact ⟨rfl, rfl⟩

-- A new interval for the child `z` of `x` that stays inside the interval of `x`, after the
-- siblings before `z` and before those after it, keeps the labelling at `x`.
theorem labelledAt_update_child {J : Interval} {pre post : List Hash}
    (h : T.LabelledAt (fun x => (I x).start) (fun x => (I x).end_) x) (hxz : x ≠ z)
    (hsplit : T.children x = pre ++ z :: post) (hin : (I x).start ≤ J.start ∧ J.end_ < (I x).end_)
    (hpre : ∀ d ∈ pre, (I d).end_ < J.start) (hpost : ∀ d ∈ post, J.end_ < (I d).start) :
    T.LabelledAt (fun y => (Function.update I z J y).start)
      (fun y => (Function.update I z J y).end_) x := by
  have hnd := T.nodup x
  rw [hsplit, List.nodup_append, List.nodup_cons] at hnd
  -- the siblings keep their intervals
  have hsame : ∀ d ∈ pre ++ post, Function.update I z J d = I d := fun d hd =>
    Function.update_of_ne (fun hdz => by
      subst hdz
      rcases List.mem_append.mp hd with hd | hd
      · exact hnd.2.2 _ hd _ List.mem_cons_self rfl
      · exact hnd.2.1.1 hd) _ _
  have hpre' : ∀ d ∈ pre, Function.update I z J d = I d := fun d hd =>
    hsame d (List.mem_append_left _ hd)
  have hpost' : ∀ d ∈ post, Function.update I z J d = I d := fun d hd =>
    hsame d (List.mem_append_right _ hd)
  have hord := h.ordered
  rw [hsplit, List.pairwise_append, List.pairwise_cons] at hord
  refine ⟨?_, fun c hc => ?_, ?_⟩
  · simp only [Function.update_of_ne hxz]
    exact h.nonempty
  · simp only [Function.update_of_ne hxz]
    rw [hsplit, List.mem_append, List.mem_cons] at hc
    rcases hc with hc | rfl | hc
    · rw [hpre' c hc]; exact h.inside c (hsplit ▸ List.mem_append_left _ hc)
    · rw [Function.update_self]; exact hin
    · rw [hpost' c hc]
      exact h.inside c (hsplit ▸ List.mem_append_right _ (List.mem_cons_of_mem _ hc))
  · rw [hsplit, List.pairwise_append, List.pairwise_cons]
    refine ⟨hord.1.imp_of_mem fun hc hd hcd => ?_, ⟨fun d hd => ?_,
      hord.2.1.2.imp_of_mem fun hc hd hcd => ?_⟩, fun c hc d hd => ?_⟩
    · rw [hpre' _ hc, hpre' _ hd]; exact hcd
    · rw [Function.update_self, hpost' d hd]; exact hpost d hd
    · rw [hpost' _ hc, hpost' _ hd]; exact hcd
    · rw [hpre' c hc]
      rcases List.mem_cons.mp hd with rfl | hd
      · rw [Function.update_self]; exact hpre c hc
      · rw [hpost' d hd]; exact hord.2.2 c hc d (List.mem_cons_of_mem _ hd)

end Relabel

namespace ReachabilityStore

-- The chain query over children whose intervals are in order, as it runs during a reclaim: the
-- children need not all be labelled, only ordered, with increasing starts.

variable (self : ReachabilityStore) {ordered : List Hash} {c d : Hash}

-- A list whose intervals follow one another, all but the last not empty, has increasing starts.
theorem starts_increasing : ∀ {l : List Hash},
    l.Pairwise (fun c e => (self.interval c).end_ < (self.interval e).start) →
    (∀ c ∈ l.dropLast, (self.interval c).start ≤ (self.interval c).end_) →
    l.Pairwise fun c e => (self.interval c).start < (self.interval e).start
  | [], _, _ => List.Pairwise.nil
  | [_], _, _ => List.pairwise_singleton _ _
  | c :: e :: l, hsorted, hne => by
    obtain ⟨hc, hl⟩ := List.pairwise_cons.mp hsorted
    have hc_ne := hne c (by simp)
    refine List.pairwise_cons.mpr ⟨fun f hf => hc_ne.trans_lt (hc f hf),
      starts_increasing hl fun f hf => hne f ?_⟩
    rw [List.dropLast_cons_cons]
    exact List.mem_cons_of_mem _ hf

-- Among blocks with intervals in order and increasing starts, the search for a block `d` whose
-- interval lies inside that of the block `c` of the list finds `c`.
theorem binary_search_descendant_found
    (hsorted : ordered.Pairwise fun c e => (self.interval c).end_ < (self.interval e).start)
    (hkeys : ordered.Pairwise fun c e => (self.interval c).start < (self.interval e).start)
    (hc : c ∈ ordered) (hin : (self.interval c).start ≤ (self.interval d).start ∧
      (self.interval d).end_ ≤ (self.interval c).end_)
    (hd : (self.interval d).start ≤ (self.interval d).end_) :
    ∃ i, self.binary_search_descendant ordered d = some (.found c i) := by
  -- two blocks of the list are one before the other
  have : Std.Symm fun a b : Hash =>
      ((self.interval a).end_ < (self.interval b).start ∧
        (self.interval a).start < (self.interval b).start) ∨
      ((self.interval b).end_ < (self.interval a).start ∧
        (self.interval b).start < (self.interval a).start) := ⟨fun _ _ hab => hab.symm⟩
  have hsep : ordered.Pairwise fun a b =>
      ((self.interval a).end_ < (self.interval b).start ∧
        (self.interval a).start < (self.interval b).start) ∨
      ((self.interval b).end_ < (self.interval a).start ∧
        (self.interval b).start < (self.interval a).start) :=
    (hsorted.and hkeys).imp Or.inl
  unfold binary_search_descendant
  dsimp only
  cases hb : BinarySearch.binary_search_by_key ordered (self.get_interval d).end_
      (fun c => (self.get_interval c).start) with
  | ok i =>
    -- the block found starts at the end of `d`'s interval, which only `c` holds
    obtain ⟨e, he, hkey⟩ := BinarySearch.binary_search_by_key_ok hb
    simp only [get_interval] at hkey
    have hec : e = c := by
      by_contra hne
      rcases hsep.forall (List.mem_of_getElem? he) hc hne with h | h <;> omega
    subst hec
    refine ⟨i, ?_⟩
    dsimp only
    rw [he]
    rfl
  | error i =>
    obtain ⟨hle, htake, hdrop⟩ := BinarySearch.binary_search_by_key_error hkeys hb
    simp only [get_interval] at htake hdrop
    -- `c` starts at or before the end of `d`'s interval, so it comes before the index
    have hct : c ∈ ordered.take i := by
      rcases List.mem_append.mp ((List.take_append_drop i ordered).symm ▸ hc) with h | h
      · exact h
      · have := hdrop c h; omega
    obtain ⟨n, rfl⟩ : ∃ n, i = n + 1 := by
      cases i with
      | zero => exact absurd hct (by simp)
      | succ n => exact ⟨n, rfl⟩
    obtain ⟨e, he⟩ : ∃ e, ordered[n]? = some e :=
      ⟨ordered[n], List.getElem?_eq_getElem (by omega)⟩
    have htake_eq : ordered.take (n + 1) = ordered.take n ++ [e] := by
      rw [List.take_add_one, he, Option.toList_some]
    -- the block before the index is `c`, as any block before it ends before it starts
    have hec : e = c := by
      by_contra hne
      rw [htake_eq] at hct
      rcases List.mem_append.mp hct with hct | hct
      · have hce := (List.pairwise_append.mp
          (htake_eq ▸ hsorted.sublist (List.take_sublist _ _))).2.2 c hct e List.mem_cons_self
        have := htake e (by rw [htake_eq]; exact List.mem_append_right _ List.mem_cons_self)
        omega
      · exact hne (List.mem_singleton.mp hct).symm
    subst hec
    refine ⟨n, ?_⟩
    dsimp only
    rw [if_pos (Nat.succ_pos n), Nat.add_sub_cancel, he]
    simp [is_chain_ancestor_of, get_interval, Interval.contains, hin.1, hin.2]

-- The next chain ancestor of `d` from `a` is the child of `a` whose interval holds `d`'s.
theorem get_next_chain_ancestor_unchecked_found {a : Hash}
    (hsorted : (self.tree.children a).Pairwise
      fun c e => (self.interval c).end_ < (self.interval e).start)
    (hkeys : (self.tree.children a).Pairwise
      fun c e => (self.interval c).start < (self.interval e).start)
    (hc : c ∈ self.tree.children a) (hin : (self.interval c).start ≤ (self.interval d).start ∧
      (self.interval d).end_ ≤ (self.interval c).end_)
    (hd : (self.interval d).start ≤ (self.interval d).end_) :
    (self.get_next_chain_ancestor_unchecked d a).run = some (.ok c) := by
  obtain ⟨i, hi⟩ := self.binary_search_descendant_found hsorted hkeys hc hin hd
  simp only [get_next_chain_ancestor_unchecked, ExceptT.run_mk, get_children, hi, Option.map_some]

-- Below a labelled subtree, the next chain ancestor of a block from the subtree's top is the
-- child of the top above the block.
theorem get_next_chain_ancestor_unchecked_of_labelled {x : Hash}
    (hl : self.tree.Labelled x (fun x => (self.interval x).start) (fun x => (self.interval x).end_))
    (hd : d ∈ self.tree.nodes x) (hne : d ≠ x) :
    ∃ c ∈ self.tree.children x, d ∈ self.tree.nodes c ∧
      (self.get_next_chain_ancestor_unchecked d x).run = some (.ok c) := by
  obtain ⟨c, hc, hdc⟩ := (mem_nodes_iff.mp hd).resolve_left hne
  have hcx := mem_nodes_of_mem_children hc (mem_nodes_self c)
  have hlx := hl x (mem_nodes_self x)
  refine ⟨c, hc, hdc, self.get_next_chain_ancestor_unchecked_found hlx.ordered
    (self.starts_increasing hlx.ordered fun e he =>
      (hl e (mem_nodes_of_mem_children (List.mem_of_mem_dropLast he) (mem_nodes_self e))).nonempty)
    hc ((hl.subtree hcx).le_of_mem_nodes (mem_nodes_self c) hdc)
    (hl d (mem_nodes_trans hcx hdc)).nonempty⟩

variable {self} {B fc lc : Hash}

-- The room before the first child of a block is the gap between their starts.
theorem size_remaining_before (hfc : (self.tree.children B).head? = some fc)
    (hstart : 1 ≤ (self.interval fc).start) :
    (self.interval_remaining_before B).size = (self.interval fc).start - (self.interval B).start := by
  simp only [interval_remaining_before, get_children, hfc, interval_children_capacity,
    get_interval, Interval.decrease_end, Interval.new, Interval.size]
  omega

-- The room after the last child of a block is the gap between their ends, less the one number
-- the block keeps.
theorem size_remaining_after (hlc : (self.tree.children B).getLast? = some lc) :
    (self.interval_remaining_after B).size = (self.interval B).end_ - 1 - (self.interval lc).end_ := by
  simp only [interval_remaining_after, get_children, hlc, interval_children_capacity,
    get_interval, Interval.decrease_end, Interval.new, Interval.size]
  omega

end ReachabilityStore

namespace ReindexOperationContext

section Steps

variable (round : Nat → List Nat → Nat → Nat)

theorem propagate_loop_subtree_sizes : ∀ (fuel : Nat) (queue : List Hash)
    (ctx ctx' : ReindexOperationContext),
    propagate_loop round fuel queue ctx = some ctx' → ctx'.subtree_sizes = ctx.subtree_sizes
  | 0, _, _, _, h => nomatch h
  | _ + 1, [], _, _, h => by cases h; rfl
  | fuel + 1, x :: queue, ctx, ctx', h => by
    rw [propagate_loop] at h
    dsimp only at h
    by_cases hc : ctx.store.get_children x = []
    · rw [if_pos hc] at h
      exact propagate_loop_subtree_sizes fuel queue ctx ctx' h
    rw [if_neg hc] at h
    -- a split of the children capacity sets intervals only
    cases hs : (ctx.store.get_children x).mapM ctx.subtree_sizes with
    | none => simp only [hs, reduceCtorEq] at h
    | some sizes =>
      cases hi : (ctx.store.interval_children_capacity x).split_exponential round sizes with
      | none => simp only [hs, hi, reduceCtorEq] at h
      | some intervals =>
        simp only [hs, hi] at h
        rw [propagate_loop_subtree_sizes fuel _ _ ctx' h]

variable {round}

-- A propagation keeps the cache of subtree sizes right and closed.
theorem propagate_interval_cache {ctx ctx' : ReindexOperationContext} {block : Hash}
    (h : ctx.propagate_interval round block = some ctx')
    (hcorrect : Correct ctx.store.tree ctx.subtree_sizes)
    (hclosed : Closed ctx.store.tree ctx.subtree_sizes) :
    Correct ctx.store.tree ctx'.subtree_sizes ∧ Closed ctx.store.tree ctx'.subtree_sizes := by
  obtain ⟨ctx1, hcount, hstore, -, hcorrect1, hclosed1⟩ :=
    count_subtrees_spec ctx block hcorrect hclosed
  simp only [propagate_interval, hcount, Option.bind_eq_bind, Option.bind_some] at h
  rw [propagate_loop_subtree_sizes round _ _ _ _ h]
  exact ⟨hcorrect1, hclosed1⟩

end Steps

@[simp] theorem interval_apply_interval_op (ctx : ReindexOperationContext) (block : Hash)
    (offset : Nat) (op : Interval → Nat → Interval) :
    (ctx.apply_interval_op block offset op).store.interval =
      Function.update ctx.store.interval block (op (ctx.store.interval block) offset) := rfl

-- What every step of a reclaim keeps: the tree with the new leaf, a right and closed cache of
-- subtree sizes, and intervals that label the tree at every block but the new leaf.
structure Reclaiming (T : FiniteTree Hash) (new : Hash) (ctx : ReindexOperationContext) : Prop where
  tree_eq : ctx.store.tree = T
  leaf : T.children new = []
  correct : Correct T ctx.subtree_sizes
  closed : Closed T ctx.subtree_sizes
  labelled : LabelledBut T ctx.store.interval new

theorem split_children_eq {pre post : List Hash} {pivot : Hash} (h : pivot ∉ pre) :
    split_children (pre ++ pivot :: post) pivot = .ok (pre, post) := by
  have hnone : pre.findIdx? (· == pivot) = none := by
    rw [List.findIdx?_eq_none_iff]
    intro x hx
    simpa using fun hxp : x = pivot => h (hxp ▸ hx)
  simp [split_children, List.findIdx?_append, hnone, List.findIdx?_cons]

variable {T : FiniteTree Hash} {new : Hash} {ctx : ReindexOperationContext}

namespace Reclaiming

variable (h : Reclaiming T new ctx)
include h

-- A block with a child is not the new leaf.
theorem ne_new_of_mem_children {p c : Hash} (hc : c ∈ T.children p) : p ≠ new := fun hp => by
  rw [hp, h.leaf] at hc
  exact List.not_mem_nil hc

-- A subtree without the new leaf is labelled.
theorem labelled_of_not_mem {x : Hash} (hx : x ∈ T.nodes ORIGIN) (hnew : new ∉ T.nodes x) :
    T.Labelled x (fun x => (ctx.store.interval x).start) (fun x => (ctx.store.interval x).end_) :=
  fun y hy => h.labelled y (mem_nodes_trans hx hy) fun hyn => hnew (hyn ▸ hy)

-- A subtree without the new leaf has room for itself.
theorem room_of_not_mem {x : Hash} (hx : x ∈ T.nodes ORIGIN) (hnew : new ∉ T.nodes x) :
    T.size x ≤ (ctx.store.interval x).size :=
  (h.labelled_of_not_mem hx hnew).size_le

-- An interval inside that of a child keeps its parent's bounds on it.
theorem parent_bounds {p z : Hash} {pre post : List Hash} {J : Interval} (hp : p ∈ T.nodes ORIGIN)
    (hsplit : T.children p = pre ++ z :: post)
    (hsub : (ctx.store.interval z).start ≤ J.start ∧ J.end_ ≤ (ctx.store.interval z).end_) :
    (ctx.store.interval p).start ≤ J.start ∧ J.end_ < (ctx.store.interval p).end_ ∧
      (∀ d ∈ pre, (ctx.store.interval d).end_ < J.start) ∧
      ∀ d ∈ post, J.end_ < (ctx.store.interval d).start := by
  have hz : z ∈ T.children p := hsplit ▸ List.mem_append_right _ List.mem_cons_self
  have hlab := h.labelled p hp (h.ne_new_of_mem_children hz)
  have hin := hlab.inside z hz
  have hord := hlab.ordered
  rw [hsplit, List.pairwise_append, List.pairwise_cons] at hord
  refine ⟨hin.1.trans hsub.1, hsub.2.trans_lt hin.2, fun d hd => ?_, fun d hd => ?_⟩
  · exact (hord.2.2 d hd z List.mem_cons_self).trans_le hsub.1
  · exact hsub.2.trans_lt (hord.2.1.1 d hd)

end Reclaiming

-- The bounds a new interval `J` of `z` must keep in its parent, wherever `z` is a child.
def ParentBounds (T : FiniteTree Hash) (I : Hash → Interval) (z : Hash) (J : Interval) : Prop :=
  ∀ p ∈ T.nodes ORIGIN, z ∈ T.children p → ∃ pre post, T.children p = pre ++ z :: post ∧
    (I p).start ≤ J.start ∧ J.end_ < (I p).end_ ∧ (∀ d ∈ pre, (I d).end_ < J.start) ∧
    ∀ d ∈ post, J.end_ < (I d).start

theorem parentBounds_of_split {I : Hash → Interval} {P z : Hash} {pre post : List Hash}
    {J : Interval} (hsplit : T.children P = pre ++ z :: post)
    (hin : (I P).start ≤ J.start ∧ J.end_ < (I P).end_) (hpre : ∀ d ∈ pre, (I d).end_ < J.start)
    (hpost : ∀ d ∈ post, J.end_ < (I d).start) : ParentBounds T I z J := by
  intro p _ hzp
  -- `z` has one parent
  have hpP : p = P :=
    (T.parent_eq hzp).symm.trans (T.parent_eq (hsplit ▸ List.mem_append_right _ List.mem_cons_self))
  subst hpP
  exact ⟨pre, post, hsplit, hin.1, hin.2, hpre, hpost⟩

variable (round : Nat → List Nat → Nat → Nat)

-- Setting the interval of a block to one inside its parent's and on the same side of every
-- sibling, with room for its subtree, and propagating from it: the blocks of the subtree are
-- labelled, the new leaf too if it is below, and no block outside the subtree moves.
theorem Reclaiming.apply_and_propagate (h : Reclaiming T new ctx) {z : Hash} {offset : Nat}
    {op : Interval → Nat → Interval} {J : Interval} (hJ : op (ctx.store.interval z) offset = J)
    (hroom : T.size z ≤ J.size) (hparent : ParentBounds T ctx.store.interval z J) :
    ∃ ctx', ctx.apply_interval_op_and_propagate round z offset op = some ctx' ∧
      Reclaiming T new ctx' ∧ ctx'.store.interval z = J ∧
      (∀ y, y ∉ T.nodes z → ctx'.store.interval y = ctx.store.interval y) ∧
      ∀ x ∈ T.nodes z, T.LabelledAt (fun x => (ctx'.store.interval x).start)
        (fun x => (ctx'.store.interval x).end_) x := by
  set ctx1 := ctx.apply_interval_op z offset op
  have htree1 : ctx1.store.tree = T := h.tree_eq
  have hI1 : ctx1.store.interval = Function.update ctx.store.interval z J := by
    rw [← hJ]
    rfl
  have hroom1 : T.size z ≤ (ctx1.store.interval z).size := by
    rw [hI1, Function.update_self]
    exact hroom
  obtain ⟨ctx', hprop, htree', hframe, hplaced, hordered⟩ :=
    propagate_interval_ordered round ctx1 z (htree1 ▸ h.correct) (htree1 ▸ h.closed)
      (by rw [htree1]; exact hroom1)
  obtain ⟨hcorrect', hclosed'⟩ :=
    propagate_interval_cache hprop (htree1 ▸ h.correct) (htree1 ▸ h.closed)
  rw [htree1] at htree' hframe hplaced hordered hcorrect' hclosed'
  simp only [ReachabilityStore.interval_children_capacity, ReachabilityStore.get_interval] at hplaced
  have hbelow : ∀ x ∈ T.nodes z, T.LabelledAt (fun x => (ctx'.store.interval x).start)
      (fun x => (ctx'.store.interval x).end_) x :=
    fun x hx => labelledAt_of_placed hroom1 hframe hplaced hordered hx
  have hout : ∀ y, y ∉ T.nodes z → ctx'.store.interval y = ctx.store.interval y := fun y hy => by
    rw [hframe y (.inl hy), hI1, Function.update_of_ne fun hyz => hy (by rw [hyz]; exact mem_nodes_self z)]
  refine ⟨ctx', hprop, ⟨htree', h.leaf, hcorrect', hclosed', fun x hx hxn => ?_⟩,
    by rw [hframe z (.inr rfl), hI1, Function.update_self], hout, hbelow⟩
  by_cases hxz : x ∈ T.nodes z
  · exact hbelow x hxz
  · -- outside the subtree: labelled with the new interval of `z`, which the propagation keeps
    have hxz' : x ≠ z := fun hxz' => hxz (by rw [hxz']; exact mem_nodes_self z)
    have hlab1 : T.LabelledAt (fun x => (ctx1.store.interval x).start)
        (fun x => (ctx1.store.interval x).end_) x := by
      rw [hI1]
      by_cases hzx : z ∈ T.children x
      · obtain ⟨pre, post, hsplit, hlo, hhi, hpre, hpost⟩ := hparent x hx hzx
        exact labelledAt_update_child (h.labelled x hx hxn) hxz' hsplit ⟨hlo, hhi⟩ hpre hpost
      · exact labelledAt_update_of_not_mem (h.labelled x hx hxn) hxz' hzx
    exact labelledAt_of_frame hlab1 hxz hframe

-- Setting the interval of a block of the tree, not the new leaf, to one inside its own that still
-- holds its children's intervals keeps the labelling but at the new leaf.
theorem Reclaiming.apply_shrink (h : Reclaiming T new ctx) {z : Hash} {offset : Nat}
    {op : Interval → Nat → Interval} {J : Interval} (hJ : op (ctx.store.interval z) offset = J)
    (hzn : z ≠ new)
    (hsub : (ctx.store.interval z).start ≤ J.start ∧ J.end_ ≤ (ctx.store.interval z).end_)
    (hne : J.start ≤ J.end_)
    (hkids : ∀ c ∈ T.children z, J.start ≤ (ctx.store.interval c).start ∧
      (ctx.store.interval c).end_ < J.end_) :
    Reclaiming T new (ctx.apply_interval_op z offset op) := by
  have hI1 : (ctx.apply_interval_op z offset op).store.interval =
      Function.update ctx.store.interval z J := by
    rw [← hJ]
    rfl
  refine ⟨h.tree_eq, h.leaf, h.correct, h.closed, fun x hx hxn => ?_⟩
  rw [hI1]
  by_cases hxz : x = z
  · -- `z` itself, with its children where they were
    subst hxz
    have hlab := h.labelled x hx hxn
    have hc : ∀ c ∈ T.children x, Function.update ctx.store.interval x J c = ctx.store.interval c :=
      fun c hc => Function.update_of_ne (fun hcx => not_mem_children_self x (hcx ▸ hc)) _ _
    refine ⟨by simp only [Function.update_self]; exact hne, fun c hcx => ?_, ?_⟩
    · simp only [Function.update_self, hc c hcx]
      exact hkids c hcx
    · exact hlab.ordered.imp_of_mem fun hc' hd' hcd => by
        simp only [hc _ hc', hc _ hd']
        exact hcd
  · by_cases hzx : z ∈ T.children x
    · obtain ⟨pre, post, hsplit⟩ := List.append_of_mem hzx
      obtain ⟨hlo, hhi, hpre, hpost⟩ := h.parent_bounds hx hsplit hsub
      exact labelledAt_update_child (h.labelled x hx hxn) hxz hsplit ⟨hlo, hhi⟩ hpre hpost
    · exact labelledAt_update_of_not_mem (h.labelled x hx hxn) hxz hzx

section Offset

variable (allocation_block : Hash) (offset : Nat) {P : Hash}

-- Children of one block lie outside one another's subtrees.
theorem not_mem_nodes_of_siblings {c d : Hash} (hc : c ∈ T.children P) (hd : d ∈ T.children P)
    (hne : c ≠ d) : c ∉ T.nodes d := fun hcd =>
  hne (eq_of_mem_nodes_children hc hd (mem_nodes_self c) hcd)

-- The loop of `offset_siblings_before` over the siblings before a block, the nearest first, with
-- `rest` the children of their parent `P` after them. Each sibling up to the allocation block is
-- shifted up by the offset into the gap the block after it left, and the allocation block grows
-- by it at its end; below a sibling other than the allocation block there is no new leaf.
theorem offset_before_loop_spec (hP : P ∈ T.nodes ORIGIN) :
    ∀ (l rest : List Hash) (ctx : ReindexOperationContext), Reclaiming T new ctx →
      T.children P = l.reverse ++ rest →
      (∀ s ∈ l, s ≠ allocation_block → new ∉ T.nodes s) →
      (allocation_block ∈ l →
        T.size allocation_block ≤ ((ctx.store.interval allocation_block).increase_end offset).size) →
      (∀ s ∈ l, ∀ d ∈ rest, (ctx.store.interval s).end_ + offset < (ctx.store.interval d).start) →
      (∀ s ∈ l, (ctx.store.interval s).end_ + offset < (ctx.store.interval P).end_) →
      ∃ ctx', offset_before_loop round allocation_block offset l ctx = some ctx' ∧
        Reclaiming T new ctx' ∧
        (∀ z, (∀ s ∈ l, z ∉ T.nodes s) → ctx'.store.interval z = ctx.store.interval z) ∧
        (allocation_block ∉ l →
          ∀ s ∈ l, ctx'.store.interval s = (ctx.store.interval s).increase offset) ∧
        (allocation_block ∈ l → ∀ x ∈ T.nodes allocation_block,
          T.LabelledAt (fun x => (ctx'.store.interval x).start)
            (fun x => (ctx'.store.interval x).end_) x)
  | [], _, ctx, h, _, _, _, _, _ =>
    ⟨ctx, rfl, h, fun _ _ => rfl, fun _ _ hs => absurd hs List.not_mem_nil,
      fun hab => absurd hab List.not_mem_nil⟩
  | s :: l, rest, ctx, h, hsplit, hnew, hroom, hcross, hinside => by
    rw [List.reverse_cons, List.append_assoc, List.singleton_append] at hsplit
    have hs : s ∈ T.children P := hsplit ▸ List.mem_append_right _ List.mem_cons_self
    have hl : ∀ d ∈ l, d ∈ T.children P := fun d hd =>
      hsplit ▸ List.mem_append_left _ (List.mem_reverse.mpr hd)
    have hrest : ∀ d ∈ rest, d ∈ T.children P := fun d hd =>
      hsplit ▸ List.mem_append_right _ (List.mem_cons_of_mem _ hd)
    have hnd := T.nodup P
    rw [hsplit, List.nodup_append, List.nodup_cons] at hnd
    have hsl : ∀ d ∈ l, d ≠ s := fun d hd hds =>
      hnd.2.2 d (List.mem_reverse.mpr hd) s List.mem_cons_self hds
    have hsrest : ∀ d ∈ rest, d ≠ s := fun d hd hds => hnd.2.1.1 (hds ▸ hd)
    have hlab := h.labelled P hP (h.ne_new_of_mem_children hs)
    have hord := hlab.ordered
    rw [hsplit, List.pairwise_append] at hord
    -- the siblings before `s` end before it starts
    have hbefore : ∀ d ∈ l, (ctx.store.interval d).end_ < (ctx.store.interval s).start :=
      fun d hd => hord.2.2 d (List.mem_reverse.mpr hd) s List.mem_cons_self
    have hpre : ∀ d ∈ l.reverse, (ctx.store.interval d).end_ < (ctx.store.interval s).start :=
      fun d hd => hbefore d (List.mem_reverse.mp hd)
    rw [offset_before_loop]
    by_cases hab : s = allocation_block
    · -- the allocation block grows at its end, and is laid out again
      subst hab
      rw [if_pos rfl]
      obtain ⟨ctx', hprop, h', -, hframe, hbelow⟩ := h.apply_and_propagate round (z := s) rfl
        (hroom List.mem_cons_self)
        (parentBounds_of_split hsplit ⟨(hlab.inside s hs).1, hinside s List.mem_cons_self⟩ hpre
          (hcross s List.mem_cons_self))
      exact ⟨ctx', hprop, h', fun z hz => hframe z (hz s List.mem_cons_self),
        fun hab => absurd List.mem_cons_self hab, fun _ => hbelow⟩
    · -- any other sibling moves up into the gap, with its subtree
      rw [if_neg hab]
      have hs_mem := mem_nodes_trans hP (mem_nodes_of_mem_children hs (mem_nodes_self s))
      have hs_room := h.room_of_not_mem hs_mem (hnew s List.mem_cons_self hab)
      obtain ⟨ctx1, hprop, h1, hs1, hframe1, -⟩ := h.apply_and_propagate round
        (show (ctx.store.interval s).increase offset = _ from rfl)
        (by simp only [Interval.size, Interval.start_increase, Interval.end_increase] at hs_room ⊢
            omega)
        (parentBounds_of_split hsplit
          ⟨(hlab.inside s hs).1.trans (Nat.le_add_right _ _), hinside s List.mem_cons_self⟩
          (fun d hd => (hpre d hd).trans_le (Nat.le_add_right _ _)) (hcross s List.mem_cons_self))
      have hkeep : ∀ d ∈ l, ctx1.store.interval d = ctx.store.interval d := fun d hd =>
        hframe1 d (not_mem_nodes_of_siblings (hl d hd) hs (hsl d hd))
      have hkeep_rest : ∀ d ∈ rest, ctx1.store.interval d = ctx.store.interval d := fun d hd =>
        hframe1 d (not_mem_nodes_of_siblings (hrest d hd) hs (hsrest d hd))
      obtain ⟨ctx', hloop, h', hframe', hshift', hbelow'⟩ :=
        offset_before_loop_spec hP l (s :: rest) ctx1 h1 hsplit
          (fun d hd => hnew d (List.mem_cons_of_mem _ hd))
          (fun hab' => by rw [hkeep _ hab']; exact hroom (List.mem_cons_of_mem _ hab'))
          (fun d hd e he => by
            rw [hkeep d hd]
            rcases List.mem_cons.mp he with rfl | he
            · rw [hs1, Interval.start_increase]
              have := hbefore d hd
              omega
            · rw [hkeep_rest e he]
              exact hcross d (List.mem_cons_of_mem _ hd) e he)
          (fun d hd => by
            rw [hkeep d hd, hframe1 P (not_mem_nodes_of_mem_children hs)]
            exact hinside d (List.mem_cons_of_mem _ hd))
      refine ⟨ctx', by simp only [hprop, Option.bind_eq_bind, Option.bind_some]; exact hloop, h',
        fun z hz => ?_, fun hab' d hd => ?_, fun hab' => ?_⟩
      · rw [hframe' z fun d hd => hz d (List.mem_cons_of_mem _ hd)]
        exact hframe1 z (hz s List.mem_cons_self)
      · rcases List.mem_cons.mp hd with rfl | hd
        · rw [hframe' d fun e he => not_mem_nodes_of_siblings hs (hl e he) (hsl e he).symm, hs1]
        · rw [hshift' (fun h => hab' (List.mem_cons_of_mem _ h)) d hd, hkeep d hd]
      · exact hbelow' ((List.mem_cons.mp hab').resolve_left (Ne.symm hab))

-- The loop of `offset_siblings_after` over the siblings after a block, the nearest first, with
-- `rest` the children of their parent `P` before them. Each sibling up to the allocation block is
-- shifted down by the offset into the gap the block before it left, and the allocation block
-- grows by it at its start.
theorem offset_after_loop_spec (hP : P ∈ T.nodes ORIGIN) :
    ∀ (l rest : List Hash) (ctx : ReindexOperationContext), Reclaiming T new ctx →
      T.children P = rest ++ l →
      (∀ s ∈ l, s ≠ allocation_block → new ∉ T.nodes s) →
      (allocation_block ∈ l → T.size allocation_block ≤
        ((ctx.store.interval allocation_block).decrease_start offset).size) →
      (∀ s ∈ l, ∀ d ∈ rest, (ctx.store.interval d).end_ + offset < (ctx.store.interval s).start) →
      (∀ s ∈ l, (ctx.store.interval P).start + offset ≤ (ctx.store.interval s).start) →
      ∃ ctx', offset_after_loop round allocation_block offset l ctx = some ctx' ∧
        Reclaiming T new ctx' ∧
        (∀ z, (∀ s ∈ l, z ∉ T.nodes s) → ctx'.store.interval z = ctx.store.interval z) ∧
        (allocation_block ∉ l →
          ∀ s ∈ l, ctx'.store.interval s = (ctx.store.interval s).decrease offset) ∧
        (allocation_block ∈ l → ∀ x ∈ T.nodes allocation_block,
          T.LabelledAt (fun x => (ctx'.store.interval x).start)
            (fun x => (ctx'.store.interval x).end_) x)
  | [], _, ctx, h, _, _, _, _, _ =>
    ⟨ctx, rfl, h, fun _ _ => rfl, fun _ _ hs => absurd hs List.not_mem_nil,
      fun hab => absurd hab List.not_mem_nil⟩
  | s :: l, rest, ctx, h, hsplit, hnew, hroom, hcross, hinside => by
    have hs : s ∈ T.children P := hsplit ▸ List.mem_append_right _ List.mem_cons_self
    have hl : ∀ d ∈ l, d ∈ T.children P := fun d hd =>
      hsplit ▸ List.mem_append_right _ (List.mem_cons_of_mem _ hd)
    have hrest : ∀ d ∈ rest, d ∈ T.children P := fun d hd => hsplit ▸ List.mem_append_left _ hd
    have hnd := T.nodup P
    rw [hsplit, List.nodup_append, List.nodup_cons] at hnd
    have hsl : ∀ d ∈ l, d ≠ s := fun d hd hds => hnd.2.1.1 (hds ▸ hd)
    have hsrest : ∀ d ∈ rest, d ≠ s := fun d hd hds => hnd.2.2 d hd s List.mem_cons_self hds
    have hlab := h.labelled P hP (h.ne_new_of_mem_children hs)
    have hord := hlab.ordered
    rw [hsplit, List.pairwise_append, List.pairwise_cons] at hord
    -- the siblings after `s` start after it ends
    have hafter : ∀ d ∈ l, (ctx.store.interval s).end_ < (ctx.store.interval d).start :=
      hord.2.1.1
    have hin := hinside s List.mem_cons_self
    rw [offset_after_loop]
    by_cases hab : s = allocation_block
    · -- the allocation block grows at its start, and is laid out again
      subst hab
      rw [if_pos rfl]
      obtain ⟨ctx', hprop, h', -, hframe, hbelow⟩ := h.apply_and_propagate round (z := s) rfl
        (hroom List.mem_cons_self)
        (parentBounds_of_split hsplit
          ⟨by rw [Interval.start_decrease_start]; omega, (hlab.inside s hs).2⟩
          (fun d hd => by
            have := hcross s List.mem_cons_self d hd
            rw [Interval.start_decrease_start]
            omega)
          hafter)
      exact ⟨ctx', hprop, h', fun z hz => hframe z (hz s List.mem_cons_self),
        fun hab => absurd List.mem_cons_self hab, fun _ => hbelow⟩
    · -- any other sibling moves down into the gap, with its subtree
      rw [if_neg hab]
      have hs_mem := mem_nodes_trans hP (mem_nodes_of_mem_children hs (mem_nodes_self s))
      have hs_room := h.room_of_not_mem hs_mem (hnew s List.mem_cons_self hab)
      have hsn : s ≠ new := fun hsn => hnew s List.mem_cons_self hab (hsn ▸ mem_nodes_self s)
      have hs_ne := (h.labelled s hs_mem hsn).nonempty
      obtain ⟨ctx1, hprop, h1, hs1, hframe1, -⟩ := h.apply_and_propagate round
        (show (ctx.store.interval s).decrease offset = _ from rfl)
        (by simp only [Interval.size, Interval.start_decrease, Interval.end_decrease] at hs_room ⊢
            omega)
        (parentBounds_of_split hsplit
          ⟨by rw [Interval.start_decrease]; omega,
            by rw [Interval.end_decrease]; have := (hlab.inside s hs).2; omega⟩
          (fun d hd => by
            have := hcross s List.mem_cons_self d hd
            rw [Interval.start_decrease]
            omega)
          (fun d hd => by have := hafter d hd; rw [Interval.end_decrease]; omega))
      have hkeep : ∀ d ∈ l, ctx1.store.interval d = ctx.store.interval d := fun d hd =>
        hframe1 d (not_mem_nodes_of_siblings (hl d hd) hs (hsl d hd))
      have hkeep_rest : ∀ d ∈ rest, ctx1.store.interval d = ctx.store.interval d := fun d hd =>
        hframe1 d (not_mem_nodes_of_siblings (hrest d hd) hs (hsrest d hd))
      obtain ⟨ctx', hloop, h', hframe', hshift', hbelow'⟩ :=
        offset_after_loop_spec hP l (rest ++ [s]) ctx1 h1 (by rw [hsplit, List.append_assoc]; rfl)
          (fun d hd => hnew d (List.mem_cons_of_mem _ hd))
          (fun hab' => by rw [hkeep _ hab']; exact hroom (List.mem_cons_of_mem _ hab'))
          (fun d hd e he => by
            rw [hkeep d hd]
            rcases List.mem_append.mp he with he | he
            · rw [hkeep_rest e he]
              exact hcross d (List.mem_cons_of_mem _ hd) e he
            · rw [List.mem_singleton.mp he, hs1, Interval.end_decrease]
              have := hafter d hd
              omega)
          (fun d hd => by
            rw [hkeep d hd, hframe1 P (not_mem_nodes_of_mem_children hs)]
            exact hinside d (List.mem_cons_of_mem _ hd))
      refine ⟨ctx', by simp only [hprop, Option.bind_eq_bind, Option.bind_some]; exact hloop, h',
        fun z hz => ?_, fun hab' d hd => ?_, fun hab' => ?_⟩
      · rw [hframe' z fun d hd => hz d (List.mem_cons_of_mem _ hd)]
        exact hframe1 z (hz s List.mem_cons_self)
      · rcases List.mem_cons.mp hd with rfl | hd
        · rw [hframe' d fun e he => not_mem_nodes_of_siblings hs (hl e he) (hsl e he).symm, hs1]
        · rw [hshift' (fun h => hab' (List.mem_cons_of_mem _ h)) d hd, hkeep d hd]
      · exact hbelow' ((List.mem_cons.mp hab').resolve_left (Ne.symm hab))

-- `offset_siblings_before` from a block `B` whose start moved up past the siblings before it by
-- the offset: they move up with it, up to the allocation block, which grows at its end.
theorem offset_siblings_before_spec {ctx : ReindexOperationContext} (h : Reclaiming T new ctx)
    {B : Hash} (hB : B ∈ T.nodes ORIGIN) (hBn : B ≠ new) (hP : T.parent B ∈ T.nodes ORIGIN)
    {pre post : List Hash} (hsplit : T.children (T.parent B) = pre ++ B :: post)
    (hnew : ∀ s ∈ pre, s ≠ allocation_block → new ∉ T.nodes s)
    (hroom : allocation_block ∈ pre → T.size allocation_block ≤
      ((ctx.store.interval allocation_block).increase_end offset).size)
    (hgap : ∀ s ∈ pre, (ctx.store.interval s).end_ + offset < (ctx.store.interval B).start) :
    ∃ ctx', (ctx.offset_siblings_before round allocation_block B offset).run = some (.ok ctx') ∧
      Reclaiming T new ctx' ∧
      (∀ z, (∀ s ∈ pre, z ∉ T.nodes s) → ctx'.store.interval z = ctx.store.interval z) ∧
      (allocation_block ∉ pre →
        ∀ s ∈ pre, ctx'.store.interval s = (ctx.store.interval s).increase offset) ∧
      (allocation_block ∈ pre → ∀ x ∈ T.nodes allocation_block,
        T.LabelledAt (fun x => (ctx'.store.interval x).start)
          (fun x => (ctx'.store.interval x).end_) x) := by
  have hBc : B ∈ T.children (T.parent B) := hsplit ▸ List.mem_append_right _ List.mem_cons_self
  have hlabP := h.labelled _ hP (h.ne_new_of_mem_children hBc)
  have hB_ne := (h.labelled B hB hBn).nonempty
  have hord := hlabP.ordered
  rw [hsplit, List.pairwise_append, List.pairwise_cons] at hord
  have hnd := T.nodup (T.parent B)
  rw [hsplit, List.nodup_append] at hnd
  have hBpre : B ∉ pre := fun hb => hnd.2.2 B hb B List.mem_cons_self rfl
  obtain ⟨ctx', hloop, h', hframe, hshift, hbelow⟩ :=
    offset_before_loop_spec round allocation_block offset hP pre.reverse (B :: post) ctx h
      (by rw [List.reverse_reverse]; exact hsplit) (fun s hs => hnew s (List.mem_reverse.mp hs))
      (fun hab => hroom (List.mem_reverse.mp hab))
      (fun s hs d hd => by
        have := hgap s (List.mem_reverse.mp hs)
        rcases List.mem_cons.mp hd with rfl | hd
        · exact this
        · have := hord.2.1.1 d hd
          omega)
      (fun s hs => by
        have := hgap s (List.mem_reverse.mp hs)
        have := (hlabP.inside B hBc).2
        omega)
  refine ⟨ctx', ?_, h', fun z hz => hframe z fun s hs => hz s (List.mem_reverse.mp hs),
    fun hab s hs => hshift (fun h => hab (List.mem_reverse.mp h)) s (List.mem_reverse.mpr hs),
    fun hab => hbelow (List.mem_reverse.mpr hab)⟩
  unfold offset_siblings_before
  simp only [ReachabilityStore.get_parent, ReachabilityStore.get_children, h.tree_eq]
  rw [hsplit, split_children_eq hBpre, run_mk_ok_bind]
  dsimp only
  rw [hloop]
  rfl

-- `offset_siblings_after` from a block `B` whose end moved down before the siblings after it by
-- the offset: they move down with it, up to the allocation block, which grows at its start.
theorem offset_siblings_after_spec {ctx : ReindexOperationContext} (h : Reclaiming T new ctx)
    {B : Hash} (hB : B ∈ T.nodes ORIGIN) (hBn : B ≠ new) (hP : T.parent B ∈ T.nodes ORIGIN)
    {pre post : List Hash} (hsplit : T.children (T.parent B) = pre ++ B :: post)
    (hnew : ∀ s ∈ post, s ≠ allocation_block → new ∉ T.nodes s)
    (hroom : allocation_block ∈ post → T.size allocation_block ≤
      ((ctx.store.interval allocation_block).decrease_start offset).size)
    (hgap : ∀ s ∈ post, (ctx.store.interval B).end_ + offset < (ctx.store.interval s).start) :
    ∃ ctx', (ctx.offset_siblings_after round allocation_block B offset).run = some (.ok ctx') ∧
      Reclaiming T new ctx' ∧
      (∀ z, (∀ s ∈ post, z ∉ T.nodes s) → ctx'.store.interval z = ctx.store.interval z) ∧
      (allocation_block ∉ post →
        ∀ s ∈ post, ctx'.store.interval s = (ctx.store.interval s).decrease offset) ∧
      (allocation_block ∈ post → ∀ x ∈ T.nodes allocation_block,
        T.LabelledAt (fun x => (ctx'.store.interval x).start)
          (fun x => (ctx'.store.interval x).end_) x) := by
  have hBc : B ∈ T.children (T.parent B) := hsplit ▸ List.mem_append_right _ List.mem_cons_self
  have hlabP := h.labelled _ hP (h.ne_new_of_mem_children hBc)
  have hB_ne := (h.labelled B hB hBn).nonempty
  have hord := hlabP.ordered
  rw [hsplit, List.pairwise_append] at hord
  have hnd := T.nodup (T.parent B)
  rw [hsplit, List.nodup_append] at hnd
  have hBpre : B ∉ pre := fun hb => hnd.2.2 B hb B List.mem_cons_self rfl
  obtain ⟨ctx', hloop, h', hframe, hshift, hbelow⟩ :=
    offset_after_loop_spec round allocation_block offset hP post (pre ++ [B]) ctx h
      (by rw [hsplit, List.append_assoc]; rfl) hnew hroom
      (fun s hs d hd => by
        have := hgap s hs
        rcases List.mem_append.mp hd with hd | hd
        · have := hord.2.2 d hd B List.mem_cons_self
          omega
        · rw [List.mem_singleton.mp hd]
          exact this)
      (fun s hs => by
        have := hgap s hs
        have := (hlabP.inside B hBc).1
        omega)
  refine ⟨ctx', ?_, h', hframe, hshift, hbelow⟩
  unfold offset_siblings_after
  simp only [ReachabilityStore.get_parent, ReachabilityStore.get_children, h.tree_eq]
  rw [hsplit, split_children_eq hBpre, run_mk_ok_bind]
  dsimp only
  rw [hloop]
  rfl

end Offset

section Chain

-- The chain of a reclaim: the allocation block and the chosen child are children of the common
-- ancestor, the new leaf is below the allocation block, and the reindex root below the chosen
-- child.

variable {T : FiniteTree Hash} {new allocation_block common_ancestor chosen_child : Hash}
  (hCA : common_ancestor ∈ T.nodes ORIGIN) (hAB : allocation_block ∈ T.children common_ancestor)
  (hCC : chosen_child ∈ T.children common_ancestor) (hnewAB : new ∈ T.nodes allocation_block)
  (hABCC : allocation_block ≠ chosen_child)

theorem ne_of_not_mem_nodes {x z : Hash} (hz : z ∉ T.nodes x) : z ≠ x := fun hzx => by
  subst hzx
  exact hz (mem_nodes_self z)

-- A block outside the subtree of `P`, or `P` itself, is outside the subtrees of its children.
theorem not_mem_nodes_of_outside {P c z : Hash} (hz : z ∉ T.nodes P ∨ z = P)
    (hc : c ∈ T.children P) : z ∉ T.nodes c := fun hzc => by
  rcases hz with hz | rfl
  · exact hz (mem_nodes_of_mem_children hc hzc)
  · exact not_mem_nodes_of_mem_children hc hzc

include hCA hCC in
theorem chain_mem {x : Hash} (hx : x ∈ T.nodes chosen_child) : x ∈ T.nodes ORIGIN :=
  mem_nodes_trans hCA (mem_nodes_of_mem_children hCC hx)

include hAB hCC hnewAB hABCC in
-- The new leaf is below the allocation block, so below no block of the chain.
theorem new_not_mem_chain {x : Hash} (hx : x ∈ T.nodes chosen_child) : new ∉ T.nodes x :=
  fun hnx => hABCC (eq_of_mem_nodes_children hAB hCC hnewAB (mem_nodes_trans hx hnx))

include hAB hCC hnewAB hABCC in
theorem chain_ne_new {x : Hash} (hx : x ∈ T.nodes chosen_child) : x ≠ new := fun hxn =>
  new_not_mem_chain hAB hCC hnewAB hABCC hx (hxn ▸ mem_nodes_self x)

include hAB hCC hnewAB hABCC in
-- Below the children of a block of the chain, or of the common ancestor, the new leaf is only
-- below the allocation block.
theorem new_not_mem_sibling {P s : Hash} (hP : P ∈ T.nodes chosen_child ∨ P = common_ancestor)
    (hs : s ∈ T.children P) (hsab : s ≠ allocation_block) : new ∉ T.nodes s := by
  rcases hP with hP | rfl
  · exact new_not_mem_chain hAB hCC hnewAB hABCC
      (mem_nodes_trans hP (mem_nodes_of_mem_children hs (mem_nodes_self s)))
  · exact fun hns => hsab (eq_of_mem_nodes_children hs hAB hns hnewAB)

include hCC in
-- The parent of a block of the chain is on the chain, or is the common ancestor when the block
-- is the chosen child.
theorem chain_parent {x : Hash} (hx : x ∈ T.nodes chosen_child) :
    (T.parent x ∈ T.nodes chosen_child ∨ T.parent x = common_ancestor) ∧
      x ∈ T.children (T.parent x) ∧ (T.parent x = common_ancestor → x = chosen_child) := by
  by_cases hxc : x = chosen_child
  · subst hxc
    exact ⟨.inr (T.parent_eq hCC), by rw [T.parent_eq hCC]; exact hCC, fun _ => rfl⟩
  · obtain ⟨hp, hxp⟩ := parent_mem_nodes hx hxc
    exact ⟨.inl hp, hxp, fun hpca => absurd (hpca ▸ hp) (not_mem_nodes_of_mem_children hCC)⟩

include hCC in
theorem height_lt_of_chain {x : Hash} (hx : x ∈ T.nodes chosen_child) :
    T.height x < T.height common_ancestor :=
  (height_le_of_mem_nodes hx).trans_lt (T.height_lt hCC)

end Chain

-- The room given up along the path from `top` down to `x`, `x` left out, as `remaining` measures
-- it at each block of the path.
def path_slack (T : FiniteTree Hash) (remaining : Hash → Interval) (top x : Hash) : Nat :=
  ((T.ancestors_in top x).map fun a => (remaining a).size).sum

theorem path_slack_top {T : FiniteTree Hash} {remaining : Hash → Interval} {top : Hash} :
    path_slack T remaining top top = 0 := by
  simp [path_slack, ancestors_in_top]

theorem path_slack_child {T : FiniteTree Hash} {remaining : Hash → Interval} {top x : Hash}
    (hx : x ∈ T.nodes top) (hne : x ≠ top) :
    path_slack T remaining top x = (remaining (T.parent x)).size + path_slack T remaining top (T.parent x) :=
  sum_ancestors_in _ hx hne

-- The first child of a block starts no later than any of its children.
theorem start_head_le {T : FiniteTree Hash} {I : Hash → Interval} {x fc : Hash}
    (h : T.LabelledAt (fun x => (I x).start) (fun x => (I x).end_) x)
    (hfc : (T.children x).head? = some fc) (hfc_ne : (I fc).start ≤ (I fc).end_) :
    ∀ c ∈ T.children x, (I fc).start ≤ (I c).start := by
  obtain ⟨rest, hrest⟩ := List.head?_eq_some_iff.mp hfc
  have hord := h.ordered
  rw [hrest, List.pairwise_cons] at hord
  intro c hc
  rw [hrest, List.mem_cons] at hc
  rcases hc with rfl | hc
  · exact le_rfl
  · exact hfc_ne.trans (hord.1 c hc).le

-- The last child of a block ends no earlier than any of its children.
theorem end_le_getLast {T : FiniteTree Hash} {I : Hash → Interval} {x lc : Hash}
    (h : T.LabelledAt (fun x => (I x).start) (fun x => (I x).end_) x)
    (hlc : (T.children x).getLast? = some lc) (hlc_ne : (I lc).start ≤ (I lc).end_) :
    ∀ c ∈ T.children x, (I c).end_ ≤ (I lc).end_ := by
  obtain ⟨rest, hrest⟩ := List.getLast?_eq_some_iff.mp hlc
  have hord := h.ordered
  rw [hrest, List.pairwise_append] at hord
  intro c hc
  rw [hrest, List.mem_append, List.mem_singleton] at hc
  rcases hc with hc | rfl
  · exact (hord.2.2 c hc lc List.mem_cons_self).le.trans hlc_ne
  · exact le_rfl

-- A new interval inside the old one keeps the bounds of the parent.
theorem Reclaiming.parentBounds_of_subset {T : FiniteTree Hash} {new : Hash}
    {ctx : ReindexOperationContext} (h : Reclaiming T new ctx) {z : Hash} {J : Interval}
    (hsub : (ctx.store.interval z).start ≤ J.start ∧ J.end_ ≤ (ctx.store.interval z).end_) :
    ParentBounds T ctx.store.interval z J := fun p hp hzp => by
  obtain ⟨pre, post, hsplit⟩ := List.append_of_mem hzp
  exact ⟨pre, post, hsplit, h.parent_bounds hp hsplit hsub⟩

-- What the reclaim before the chosen child has done once it is back at `x`, with `offset` the
-- room it passes up: the context keeps the reclaim's invariant, only blocks strictly below the
-- parent of `x` have moved, and the first child of the parent has moved up by the offset; at the
-- common ancestor, the allocation block has grown and its subtree is laid out again.
structure ReclaimedBefore (T : FiniteTree Hash) (new : Hash) (I₀ : Hash → Interval)
    (allocation_block common_ancestor x : Hash) (offset : Nat) (ctx : ReindexOperationContext) :
    Prop where
  reclaiming : Reclaiming T new ctx
  frame : ∀ z, z ∉ T.nodes (T.parent x) ∨ z = T.parent x → ctx.store.interval z = I₀ z
  shifted : T.parent x ≠ common_ancestor → ∃ fc, (T.children (T.parent x)).head? = some fc ∧
    (ctx.store.interval fc).start = (I₀ fc).start + offset
  allocated : T.parent x = common_ancestor → ∀ y ∈ T.nodes allocation_block,
    T.LabelledAt (fun y => (ctx.store.interval y).start) (fun y => (ctx.store.interval y).end_) y

section ReclaimBefore

variable (round : Nat → List Nat → Nat → Nat) {T : FiniteTree Hash} {new : Hash}
  {ctx₀ : ReindexOperationContext} {allocation_block common_ancestor chosen_child : Hash}
  (h₀ : Reclaiming T new ctx₀) (hCA : common_ancestor ∈ T.nodes ORIGIN)
  (hAB : allocation_block ∈ T.children common_ancestor)
  (hCC : chosen_child ∈ T.children common_ancestor) (hnewAB : new ∈ T.nodes allocation_block)
  (hABCC : allocation_block ≠ chosen_child) (hABn : allocation_block ≠ new)
  (hbefore : (ctx₀.store.interval allocation_block).start < (ctx₀.store.interval chosen_child).start)

include h₀ hCA hAB hCC hnewAB hABCC hABn hbefore in
-- One block `B` of the chain gives up room: with its start moved up by the offset, the siblings
-- before it move up too, up to the allocation block, which grows at its end.
theorem level_before {ctx1 : ReindexOperationContext} {B : Hash} {offset : Nat}
    (hB : B ∈ T.nodes chosen_child) (h1 : Reclaiming T new ctx1)
    (hframe1 : ∀ z, z ∉ T.nodes B → ctx1.store.interval z = ctx₀.store.interval z)
    (hstart1 : (ctx1.store.interval B).start = (ctx₀.store.interval B).start + offset)
    (hroom : B = chosen_child → T.size allocation_block ≤ offset) :
    ∃ ctx2, (ctx1.offset_siblings_before round allocation_block B offset).run = some (.ok ctx2) ∧
      ReclaimedBefore T new ctx₀.store.interval allocation_block common_ancestor B offset ctx2 := by
  obtain ⟨hP, hBc, hBcc⟩ := chain_parent hCC hB
  have hB_mem := chain_mem hCA hCC hB
  have hBn := chain_ne_new hAB hCC hnewAB hABCC hB
  have hP_mem : T.parent B ∈ T.nodes ORIGIN := by
    rcases hP with hP | hP
    · exact chain_mem hCA hCC hP
    · exact hP ▸ hCA
  obtain ⟨pre, post, hsplit⟩ := List.append_of_mem hBc
  have hnd := T.nodup (T.parent B)
  rw [hsplit, List.nodup_append] at hnd
  have hpre_ne : ∀ s ∈ pre, s ≠ B := fun s hs hsB => hnd.2.2 s hs B List.mem_cons_self hsB
  have hpre_c : ∀ s ∈ pre, s ∈ T.children (T.parent B) := fun s hs =>
    hsplit ▸ List.mem_append_left _ hs
  -- the siblings before `B` stay where they were until now
  have hpre_keep : ∀ s ∈ pre, ctx1.store.interval s = ctx₀.store.interval s := fun s hs =>
    hframe1 s (not_mem_nodes_of_siblings (hpre_c s hs) hBc (hpre_ne s hs))
  -- the allocation block is a sibling of `B` only at the common ancestor
  have hab_parent : allocation_block ∈ pre → T.parent B = common_ancestor := fun hab =>
    (T.parent_eq (hpre_c _ hab)).symm.trans (T.parent_eq hAB)
  have hord₀ := (h₀.labelled _ hP_mem (h₀.ne_new_of_mem_children hBc)).ordered
  rw [hsplit, List.pairwise_append] at hord₀
  obtain ⟨ctx2, hrun, h2, hframe2, hshift2, hbelow2⟩ :=
    offset_siblings_before_spec round allocation_block offset h1 hB_mem hBn hP_mem hsplit
      (fun s hs hsab => new_not_mem_sibling hAB hCC hnewAB hABCC hP (hpre_c s hs) hsab)
      (fun hab => by
        have hroom' := hroom (hBcc (hab_parent hab))
        have := (h₀.labelled _ (mem_nodes_trans hCA (mem_nodes_of_mem_children hAB
          (mem_nodes_self _))) hABn).nonempty
        rw [hpre_keep _ hab]
        simp only [Interval.size, Interval.end_increase_end, Interval.start_increase_end]
        omega)
      (fun s hs => by
        rw [hpre_keep s hs, hstart1]
        have := hord₀.2.2 s hs B List.mem_cons_self
        omega)
  refine ⟨ctx2, hrun, ⟨h2, fun z hz => ?_, fun hPca => ?_, fun hPca => ?_⟩⟩
  · -- nothing outside the subtree of the parent has moved
    rw [hframe2 z fun s hs => not_mem_nodes_of_outside hz (hpre_c s hs),
      hframe1 z (not_mem_nodes_of_outside hz hBc)]
  · -- the first child of the parent is `B`, or the first sibling before it, moved up
    have habpre : allocation_block ∉ pre := fun hab => hPca (hab_parent hab)
    rw [hsplit]
    cases pre with
    | nil =>
      refine ⟨B, rfl, ?_⟩
      rw [hframe2 B fun s hs => absurd hs List.not_mem_nil, hstart1]
    | cons s₀ pre' =>
      refine ⟨s₀, rfl, ?_⟩
      rw [hshift2 habpre s₀ List.mem_cons_self, Interval.start_increase,
        hpre_keep s₀ List.mem_cons_self]
  · -- at the common ancestor, the allocation block is a sibling before the chosen child
    obtain rfl := hBcc hPca
    refine hbelow2 ?_
    have hABc : allocation_block ∈ T.children (T.parent B) := hPca ▸ hAB
    rw [hsplit, List.mem_append, List.mem_cons] at hABc
    rcases hABc with hab | hab | hab
    · exact hab
    · exact absurd hab hABCC
    · have := (List.pairwise_cons.mp hord₀.2.1).1 _ hab
      have := (h₀.labelled B hB_mem hBn).nonempty
      omega

variable (slack : Nat) {reindex_root : Hash}
  (hone : ∀ x ∈ T.nodes ORIGIN, x ≠ new → 1 ≤ (ctx₀.store.interval x).start)

include h₀ hCA hAB hCC hnewAB hABCC hABn hbefore hone in
-- The walk down the chain from `x`: the slack before the children of each block is summed until
-- it meets the required allocation, which the block where it does gives; the reindex root,
-- reached first, gives the rest and a new slack for every block of the path.
theorem reclaim_before_down_spec
    (hroot : T.size reindex_root + T.size allocation_block +
      slack * (T.ancestors_in chosen_child reindex_root).length ≤
        (ctx₀.store.interval reindex_root).size) :
    ∀ (fuel : Nat) (x : Hash) (slack_sum path_len : Nat), x ∈ T.nodes chosen_child →
      reindex_root ∈ T.nodes x → T.height x < fuel →
      slack_sum = path_slack T ctx₀.store.interval_remaining_before chosen_child x →
      path_len = (T.ancestors_in chosen_child x).length → slack_sum < T.size allocation_block →
      ∃ y p offset ctx', (reclaim_before_down round slack allocation_block reindex_root
          (T.size allocation_block) fuel x slack_sum path_len ctx₀).run = some (.ok (y, p, ctx')) ∧
        y ∈ T.nodes chosen_child ∧
        ReclaimedBefore T new ctx₀.store.interval allocation_block common_ancestor y offset ctx' ∧
        offset + path_slack T ctx₀.store.interval_remaining_before chosen_child y =
          T.size allocation_block + p * (T.ancestors_in chosen_child y).length ∧
        path_slack T ctx₀.store.interval_remaining_before chosen_child y < T.size allocation_block
  | 0, _, _, _, _, _, hfuel, _, _, _ => absurd hfuel (Nat.not_lt_zero _)
  | fuel + 1, x, slack_sum, path_len, hx, hRx, hfuel, hsum, hlen, hlt => by
    have hx_mem := chain_mem hCA hCC hx
    have hxn := chain_ne_new hAB hCC hnewAB hABCC hx
    have hlab := h₀.labelled x hx_mem hxn
    -- at the chosen child nothing is summed yet
    have hcc : x = chosen_child → slack_sum = 0 ∧ path_len = 0 := fun hxc => by
      subst hxc
      rw [hsum, hlen, path_slack_top, ancestors_in_top]
      exact ⟨rfl, rfl⟩
    rw [reclaim_before_down]
    by_cases hxR : x = reindex_root
    · -- the reindex root gives the rest, and a new slack for every block of the path
      subst hxR
      rw [if_pos rfl]
      dsimp only
      obtain ⟨ctx1, hprop, h1, hx1, hout1, -⟩ := h₀.apply_and_propagate round
        (show (ctx₀.store.interval x).increase_start
          (T.size allocation_block + slack * path_len - slack_sum) = _ from rfl)
        (by
          rw [← hlen] at hroot
          simp only [Interval.size, Interval.start_increase_start, Interval.end_increase_start]
            at hroot ⊢
          omega)
        (h₀.parentBounds_of_subset ⟨Nat.le_add_right _ _, le_rfl⟩)
      obtain ⟨ctx2, hrun, hup⟩ := level_before round h₀ hCA hAB hCC hnewAB hABCC hABn hbefore hx h1
        hout1 (by rw [hx1, Interval.start_increase_start])
        (fun hxc => by obtain ⟨h1', h2'⟩ := hcc hxc; omega)
      refine ⟨x, slack, _, ctx2, ?_, hx, hup, by rw [← hsum, ← hlen]; omega, hsum ▸ hlt⟩
      rw [hprop, run_liftM_some_bind, run_bind_of_ok hrun]
      rfl
    · rw [if_neg hxR]
      dsimp only
      -- `x` is a strict chain ancestor of the reindex root: the query finds the next block
      have hlabx : T.Labelled x (fun x => (ctx₀.store.interval x).start)
          (fun x => (ctx₀.store.interval x).end_) :=
        h₀.labelled_of_not_mem hx_mem (new_not_mem_chain hAB hCC hnewAB hABCC hx)
      obtain ⟨c, hc, hRc, hnext⟩ := ReachabilityStore.get_next_chain_ancestor_unchecked_of_labelled
        ctx₀.store (by rw [h₀.tree_eq]; exact hlabx) (by rw [h₀.tree_eq]; exact hRx) (Ne.symm hxR)
      rw [h₀.tree_eq] at hc hRc
      -- the slack before the first child of `x`
      obtain ⟨fc, rest, hch⟩ := List.exists_cons_of_ne_nil (List.ne_nil_of_mem hc)
      have hfc : (T.children x).head? = some fc := by rw [hch]; rfl
      have hfc_mem : fc ∈ T.children x := by rw [hch]; exact List.mem_cons_self
      have hfc_chain := mem_nodes_trans hx (mem_nodes_of_mem_children hfc_mem (mem_nodes_self fc))
      have hfc_ne := (h₀.labelled fc (chain_mem hCA hCC hfc_chain)
        (chain_ne_new hAB hCC hnewAB hABCC hfc_chain)).nonempty
      have hfb : (ctx₀.store.interval_remaining_before x).size =
          (ctx₀.store.interval fc).start - (ctx₀.store.interval x).start :=
        ReachabilityStore.size_remaining_before (by rw [h₀.tree_eq]; exact hfc)
          (hone fc (chain_mem hCA hCC hfc_chain) (chain_ne_new hAB hCC hnewAB hABCC hfc_chain))
      have hx_fc := (hlab.inside fc hfc_mem).1
      have hfc_x := (hlab.inside fc hfc_mem).2
      by_cases hreq : T.size allocation_block ≤
          slack_sum + (ctx₀.store.interval_remaining_before x).size
      · -- `x` gives what is still missing
        rw [if_pos hreq]
        set offset := (ctx₀.store.interval_remaining_before x).size -
          (slack_sum + (ctx₀.store.interval_remaining_before x).size - T.size allocation_block)
        have hoff : offset = T.size allocation_block - slack_sum := by omega
        -- the new start stays at or before the first child's
        have hne : ((ctx₀.store.interval x).increase_start offset).start ≤
            ((ctx₀.store.interval x).increase_start offset).end_ := by
          rw [Interval.start_increase_start, Interval.end_increase_start]
          omega
        have hkids : ∀ d ∈ T.children x,
            ((ctx₀.store.interval x).increase_start offset).start ≤ (ctx₀.store.interval d).start ∧
              (ctx₀.store.interval d).end_ < ((ctx₀.store.interval x).increase_start offset).end_ :=
          fun d hd => by
            have := start_head_le hlab hfc hfc_ne d hd
            have := (hlab.inside d hd).2
            rw [Interval.start_increase_start, Interval.end_increase_start]
            omega
        have h1 := h₀.apply_shrink (show (ctx₀.store.interval x).increase_start offset = _ from rfl)
          hxn ⟨Nat.le_add_right _ _, le_rfl⟩ hne hkids
        obtain ⟨ctx2, hrun, hup⟩ := level_before round h₀ hCA hAB hCC hnewAB hABCC hABn hbefore hx
          h1 (fun z hz => by
            rw [interval_apply_interval_op, Function.update_of_ne (ne_of_not_mem_nodes hz)])
          (by rw [interval_apply_interval_op, Function.update_self, Interval.start_increase_start])
          (fun hxc => by obtain ⟨h1', -⟩ := hcc hxc; omega)
        refine ⟨x, 0, offset, ctx2, ?_, hx, hup, by rw [← hsum]; omega, hsum ▸ hlt⟩
        rw [run_bind_of_ok hrun]
        rfl
      · -- not enough yet: on to the next block of the chain
        rw [if_neg hreq, run_bind_of_ok hnext]
        have hc_chain := mem_nodes_trans hx (mem_nodes_of_mem_children hc (mem_nodes_self c))
        have hc_ne : c ≠ chosen_child := fun hcc' =>
          not_mem_nodes_of_mem_children (hcc' ▸ hc) hx
        have hpc := T.parent_eq hc
        refine reclaim_before_down_spec hroot fuel c _ _ hc_chain hRc
          (by have := T.height_lt hc; omega) ?_ ?_ (by omega)
        · rw [path_slack_child hc_chain hc_ne, hpc, hsum, Nat.add_comm]
        · rw [length_ancestors_in hc_chain hc_ne, hpc, hlen]

include h₀ hCA hAB hCC hnewAB hABCC hABn hbefore hone in
-- The walk back up the chain: each block gives what came up from below and its own slack
-- before its children, less the new slack `path_slack_alloc` it keeps, until the chosen child
-- has passed the required allocation to the allocation block.
theorem reclaim_before_up_spec (path_slack_alloc : Nat) :
    ∀ (fuel : Nat) (x : Hash) (offset : Nat) (ctx : ReindexOperationContext),
      x ∈ T.nodes chosen_child →
      ReclaimedBefore T new ctx₀.store.interval allocation_block common_ancestor x offset ctx →
      T.height common_ancestor < fuel + T.height x →
      offset + path_slack T ctx₀.store.interval_remaining_before chosen_child x =
        T.size allocation_block + path_slack_alloc * (T.ancestors_in chosen_child x).length →
      path_slack T ctx₀.store.interval_remaining_before chosen_child x < T.size allocation_block →
      ∃ ctx', (reclaim_before_up round allocation_block common_ancestor path_slack_alloc fuel x
          ctx).run = some (.ok ctx') ∧ Reclaiming T new ctx' ∧
        (∀ y ∈ T.nodes allocation_block, T.LabelledAt (fun y => (ctx'.store.interval y).start)
          (fun y => (ctx'.store.interval y).end_) y) ∧
        ∀ z, z ∉ T.nodes common_ancestor ∨ z = common_ancestor →
          ctx'.store.interval z = ctx₀.store.interval z
  | 0, x, _, _, hx, _, hfuel, _, _ => absurd hfuel (by have := height_lt_of_chain hCC hx; omega)
  | fuel + 1, x, offset, ctx, hx, hup, hfuel, hbudget, hlt => by
    have h := hup.reclaiming
    obtain ⟨hP, hxc, hxcc⟩ := chain_parent hCC hx
    rw [reclaim_before_up]
    dsimp only
    rw [ReachabilityStore.get_parent, h.tree_eq]
    by_cases hPca : T.parent x = common_ancestor
    · -- back at the common ancestor: the allocation block has its room
      rw [if_pos hPca]
      exact ⟨ctx, rfl, h, hup.allocated hPca, fun z hz => hup.frame z (hPca ▸ hz)⟩
    rw [if_neg hPca]
    have hB : T.parent x ∈ T.nodes chosen_child := hP.resolve_right hPca
    have hB_mem := chain_mem hCA hCC hB
    have hBn := chain_ne_new hAB hCC hnewAB hABCC hB
    -- the parent has not moved, and its first child has moved up by the offset
    have hB₀ : ctx.store.interval (T.parent x) = ctx₀.store.interval (T.parent x) :=
      hup.frame _ (.inr rfl)
    obtain ⟨fc, hfc, hfc_start⟩ := hup.shifted hPca
    have hfc_mem : fc ∈ T.children (T.parent x) := List.mem_of_mem_head? hfc
    have hfc_chain := mem_nodes_trans hB (mem_nodes_of_mem_children hfc_mem (mem_nodes_self fc))
    have hfc_n := chain_ne_new hAB hCC hnewAB hABCC hfc_chain
    have hfc_one := hone fc (chain_mem hCA hCC hfc_chain) hfc_n
    have hlab := h.labelled _ hB_mem hBn
    have hfc_ne := (h.labelled fc (chain_mem hCA hCC hfc_chain) hfc_n).nonempty
    have hB_fc₀ := ((h₀.labelled _ hB_mem hBn).inside fc hfc_mem).1
    -- the room before its first child is its own slack and what came up from below
    have hslack : (ctx.store.interval_remaining_before (T.parent x)).size =
        (ctx₀.store.interval_remaining_before (T.parent x)).size + offset := by
      rw [ReachabilityStore.size_remaining_before (by rw [h.tree_eq]; exact hfc)
          (by rw [hfc_start]; omega),
        ReachabilityStore.size_remaining_before (by rw [h₀.tree_eq]; exact hfc) hfc_one,
        hfc_start, hB₀]
      omega
    have hfb := ReachabilityStore.size_remaining_before (by rw [h₀.tree_eq]; exact hfc) hfc_one
    rw [hslack]
    -- the path to the parent is one block shorter
    have hx_ne : x ≠ chosen_child := fun hxc => hPca (hxc ▸ T.parent_eq hCC)
    rw [path_slack_child hx hx_ne, length_ancestors_in hx hx_ne, Nat.mul_succ] at hbudget
    rw [path_slack_child hx hx_ne] at hlt
    have hbudget' : (ctx₀.store.interval_remaining_before (T.parent x)).size + offset -
          path_slack_alloc + path_slack T ctx₀.store.interval_remaining_before chosen_child
            (T.parent x) =
        T.size allocation_block +
          path_slack_alloc * (T.ancestors_in chosen_child (T.parent x)).length := by
      omega
    -- the parent gives what came up and its slack, less what it keeps
    have hne : ((ctx.store.interval (T.parent x)).increase_start
          ((ctx₀.store.interval_remaining_before (T.parent x)).size + offset -
            path_slack_alloc)).start ≤
        ((ctx.store.interval (T.parent x)).increase_start
          ((ctx₀.store.interval_remaining_before (T.parent x)).size + offset -
            path_slack_alloc)).end_ := by
      have := (hlab.inside fc hfc_mem).2
      rw [Interval.start_increase_start, Interval.end_increase_start]
      rw [hB₀] at this ⊢
      omega
    have hkids : ∀ d ∈ T.children (T.parent x),
        ((ctx.store.interval (T.parent x)).increase_start
          ((ctx₀.store.interval_remaining_before (T.parent x)).size + offset -
            path_slack_alloc)).start ≤ (ctx.store.interval d).start ∧
        (ctx.store.interval d).end_ < ((ctx.store.interval (T.parent x)).increase_start
          ((ctx₀.store.interval_remaining_before (T.parent x)).size + offset -
            path_slack_alloc)).end_ := fun d hd => by
      have := start_head_le hlab hfc hfc_ne d hd
      have hd_in := (hlab.inside d hd).2
      rw [Interval.start_increase_start, Interval.end_increase_start]
      rw [hB₀] at hd_in ⊢
      omega
    have h1 := h.apply_shrink (show (ctx.store.interval (T.parent x)).increase_start
      ((ctx₀.store.interval_remaining_before (T.parent x)).size + offset - path_slack_alloc) = _
      from rfl) hBn ⟨Nat.le_add_right _ _, le_rfl⟩ hne hkids
    obtain ⟨ctx2, hrun, hup2⟩ := level_before round h₀ hCA hAB hCC hnewAB hABCC hABn hbefore hB h1
      (fun z hz => by
        rw [interval_apply_interval_op, Function.update_of_ne (ne_of_not_mem_nodes hz)]
        exact hup.frame z (.inl hz))
      (by rw [interval_apply_interval_op, Function.update_self, Interval.start_increase_start, hB₀])
      (fun hBcc => by
        rw [hBcc, path_slack_top, ancestors_in_top] at hbudget'
        rw [hBcc]
        simp only [List.length_nil, Nat.mul_zero, Nat.add_zero] at hbudget'
        omega)
    rw [run_bind_of_ok hrun]
    exact reclaim_before_up_spec path_slack_alloc fuel _ _ ctx2 hB hup2
      (by have := T.height_lt hxc; omega) hbudget' (by omega)

include h₀ hCA hAB hCC hnewAB hABCC hABn hbefore hone in
-- The reclaim before the chosen child gives the allocation block its subtree size in room, taken
-- from the chain down to the reindex root, and lays its subtree out again; nothing outside the
-- subtree of the common ancestor moves.
theorem reclaim_interval_before_spec (hR : reindex_root ∈ T.nodes chosen_child)
    (hroot : T.size reindex_root + T.size allocation_block +
      slack * (T.ancestors_in chosen_child reindex_root).length ≤
        (ctx₀.store.interval reindex_root).size) :
    ∃ ctx', (ctx₀.reclaim_interval_before round slack allocation_block common_ancestor chosen_child
        reindex_root (T.size allocation_block)).run = some (.ok ctx') ∧ Reclaiming T new ctx' ∧
      (∀ y ∈ T.nodes allocation_block, T.LabelledAt (fun y => (ctx'.store.interval y).start)
        (fun y => (ctx'.store.interval y).end_) y) ∧
      ∀ z, z ∉ T.nodes common_ancestor ∨ z = common_ancestor →
        ctx'.store.interval z = ctx₀.store.interval z := by
  obtain ⟨y, p, offset, ctx1, hdown, hy, hup, hbudget, hlt⟩ :=
    reclaim_before_down_spec round h₀ hCA hAB hCC hnewAB hABCC hABn hbefore slack hone hroot
      (T.height chosen_child + 1) chosen_child 0 0 (mem_nodes_self _) hR (Nat.lt_succ_self _)
      path_slack_top.symm (by rw [ancestors_in_top]; rfl) (T.size_pos _)
  obtain ⟨ctx', hup', h', hAB', hframe'⟩ :=
    reclaim_before_up_spec round h₀ hCA hAB hCC hnewAB hABCC hABn hbefore hone p
      (T.height common_ancestor + 1) y offset ctx1 hy hup (by omega) hbudget hlt
  refine ⟨ctx', ?_, h', hAB', hframe'⟩
  unfold reclaim_interval_before
  rw [h₀.tree_eq, run_bind_of_ok hdown]
  dsimp only
  rw [hup.reclaiming.tree_eq]
  exact hup'

end ReclaimBefore

-- What the reclaim after the chosen child has done once it is back at `x`: as
-- `ReclaimedBefore`, with the last child of the parent moved down by the offset.
structure ReclaimedAfter (T : FiniteTree Hash) (new : Hash) (I₀ : Hash → Interval)
    (allocation_block common_ancestor x : Hash) (offset : Nat) (ctx : ReindexOperationContext) :
    Prop where
  reclaiming : Reclaiming T new ctx
  frame : ∀ z, z ∉ T.nodes (T.parent x) ∨ z = T.parent x → ctx.store.interval z = I₀ z
  shifted : T.parent x ≠ common_ancestor → ∃ lc, (T.children (T.parent x)).getLast? = some lc ∧
    (ctx.store.interval lc).end_ + offset = (I₀ lc).end_
  allocated : T.parent x = common_ancestor → ∀ y ∈ T.nodes allocation_block,
    T.LabelledAt (fun y => (ctx.store.interval y).start) (fun y => (ctx.store.interval y).end_) y

section ReclaimAfter

variable (round : Nat → List Nat → Nat → Nat) {T : FiniteTree Hash} {new : Hash}
  {ctx₀ : ReindexOperationContext} {allocation_block common_ancestor chosen_child : Hash}
  (h₀ : Reclaiming T new ctx₀) (hCA : common_ancestor ∈ T.nodes ORIGIN)
  (hAB : allocation_block ∈ T.children common_ancestor)
  (hCC : chosen_child ∈ T.children common_ancestor) (hnewAB : new ∈ T.nodes allocation_block)
  (hABCC : allocation_block ≠ chosen_child)
  (hABsize : (ctx₀.store.interval allocation_block).start ≤
    (ctx₀.store.interval allocation_block).end_ + 1)
  (hafter : ∀ pre post, T.children common_ancestor = pre ++ chosen_child :: post →
    allocation_block ∈ post)

include h₀ hCA hAB hCC hnewAB hABCC hABsize hafter in
-- One block `B` of the chain gives up room: with its end moved down by the offset, the siblings
-- after it move down too, up to the allocation block, which grows at its start.
theorem level_after {ctx1 : ReindexOperationContext} {B : Hash} {offset : Nat}
    (hB : B ∈ T.nodes chosen_child) (h1 : Reclaiming T new ctx1)
    (hframe1 : ∀ z, z ∉ T.nodes B → ctx1.store.interval z = ctx₀.store.interval z)
    (hend1 : (ctx1.store.interval B).end_ + offset = (ctx₀.store.interval B).end_)
    (hroom : B = chosen_child → T.size allocation_block ≤ offset) :
    ∃ ctx2, (ctx1.offset_siblings_after round allocation_block B offset).run = some (.ok ctx2) ∧
      ReclaimedAfter T new ctx₀.store.interval allocation_block common_ancestor B offset ctx2 := by
  obtain ⟨hP, hBc, hBcc⟩ := chain_parent hCC hB
  have hB_mem := chain_mem hCA hCC hB
  have hBn := chain_ne_new hAB hCC hnewAB hABCC hB
  have hP_mem : T.parent B ∈ T.nodes ORIGIN := by
    rcases hP with hP | hP
    · exact chain_mem hCA hCC hP
    · exact hP ▸ hCA
  obtain ⟨pre, post, hsplit⟩ := List.append_of_mem hBc
  have hnd := T.nodup (T.parent B)
  rw [hsplit, List.nodup_append, List.nodup_cons] at hnd
  have hpost_ne : ∀ s ∈ post, s ≠ B := fun s hs hsB => hnd.2.1.1 (hsB ▸ hs)
  have hpost_c : ∀ s ∈ post, s ∈ T.children (T.parent B) := fun s hs =>
    hsplit ▸ List.mem_append_right _ (List.mem_cons_of_mem _ hs)
  -- the siblings after `B` stay where they were until now
  have hpost_keep : ∀ s ∈ post, ctx1.store.interval s = ctx₀.store.interval s := fun s hs =>
    hframe1 s (not_mem_nodes_of_siblings (hpost_c s hs) hBc (hpost_ne s hs))
  -- the allocation block is a sibling of `B` only at the common ancestor
  have hab_parent : allocation_block ∈ post → T.parent B = common_ancestor := fun hab =>
    (T.parent_eq (hpost_c _ hab)).symm.trans (T.parent_eq hAB)
  have hord₀ := (h₀.labelled _ hP_mem (h₀.ne_new_of_mem_children hBc)).ordered
  rw [hsplit, List.pairwise_append, List.pairwise_cons] at hord₀
  -- the siblings after `B` start after its old end
  have hgap : ∀ s ∈ post, (ctx1.store.interval B).end_ + offset < (ctx1.store.interval s).start :=
    fun s hs => by
      rw [hend1, hpost_keep s hs]
      exact hord₀.2.1.1 s hs
  obtain ⟨ctx2, hrun, h2, hframe2, hshift2, hbelow2⟩ :=
    offset_siblings_after_spec round allocation_block offset h1 hB_mem hBn hP_mem hsplit
      (fun s hs hsab => new_not_mem_sibling hAB hCC hnewAB hABCC hP (hpost_c s hs) hsab)
      (fun hab => by
        have hroom' := hroom (hBcc (hab_parent hab))
        have := hgap _ hab
        rw [hpost_keep _ hab] at this ⊢
        simp only [Interval.size, Interval.start_decrease_start, Interval.end_decrease_start]
        omega)
      hgap
  refine ⟨ctx2, hrun, ⟨h2, fun z hz => ?_, fun hPca => ?_, fun hPca => ?_⟩⟩
  · -- nothing outside the subtree of the parent has moved
    rw [hframe2 z fun s hs => not_mem_nodes_of_outside hz (hpost_c s hs),
      hframe1 z (not_mem_nodes_of_outside hz hBc)]
  · -- the last child of the parent is `B`, or the last sibling after it, moved down
    have habpost : allocation_block ∉ post := fun hab => hPca (hab_parent hab)
    have hPc : T.parent B ∈ T.nodes chosen_child := hP.resolve_right hPca
    rw [hsplit]
    rcases List.eq_nil_or_concat' post with rfl | ⟨L, lc, rfl⟩
    · refine ⟨B, by simp, ?_⟩
      rw [hframe2 B fun s hs => absurd hs List.not_mem_nil, hend1]
    · have hlc : lc ∈ L ++ [lc] := List.mem_append_right _ (List.mem_singleton_self _)
      have hlc_chain := mem_nodes_trans hPc (mem_nodes_of_mem_children (hpost_c lc hlc)
        (mem_nodes_self lc))
      have hlc_ne := (h₀.labelled lc (chain_mem hCA hCC hlc_chain)
        (chain_ne_new hAB hCC hnewAB hABCC hlc_chain)).nonempty
      have := hgap lc hlc
      refine ⟨lc, by rw [← List.cons_append, ← List.append_assoc, List.getLast?_concat], ?_⟩
      rw [hpost_keep lc hlc] at this
      rw [hshift2 habpost lc hlc, Interval.end_decrease, hpost_keep lc hlc]
      omega
  · -- at the common ancestor, the allocation block is a sibling after the chosen child
    obtain rfl := hBcc hPca
    exact hbelow2 (hafter pre post (hPca ▸ hsplit))

variable (slack : Nat) {reindex_root : Hash}

include h₀ hCA hAB hCC hnewAB hABCC hABsize hafter in
-- The walk down the chain from `x`, as `reclaim_before_down_spec`, with the slack after the
-- children of each block.
theorem reclaim_after_down_spec
    (hroot : T.size reindex_root + T.size allocation_block +
      slack * (T.ancestors_in chosen_child reindex_root).length ≤
        (ctx₀.store.interval reindex_root).size) :
    ∀ (fuel : Nat) (x : Hash) (slack_sum path_len : Nat), x ∈ T.nodes chosen_child →
      reindex_root ∈ T.nodes x → T.height x < fuel →
      slack_sum = path_slack T ctx₀.store.interval_remaining_after chosen_child x →
      path_len = (T.ancestors_in chosen_child x).length → slack_sum < T.size allocation_block →
      ∃ y p offset ctx', (reclaim_after_down round slack allocation_block reindex_root
          (T.size allocation_block) fuel x slack_sum path_len ctx₀).run = some (.ok (y, p, ctx')) ∧
        y ∈ T.nodes chosen_child ∧
        ReclaimedAfter T new ctx₀.store.interval allocation_block common_ancestor y offset ctx' ∧
        offset + path_slack T ctx₀.store.interval_remaining_after chosen_child y =
          T.size allocation_block + p * (T.ancestors_in chosen_child y).length ∧
        path_slack T ctx₀.store.interval_remaining_after chosen_child y < T.size allocation_block
  | 0, _, _, _, _, _, hfuel, _, _, _ => absurd hfuel (Nat.not_lt_zero _)
  | fuel + 1, x, slack_sum, path_len, hx, hRx, hfuel, hsum, hlen, hlt => by
    have hx_mem := chain_mem hCA hCC hx
    have hxn := chain_ne_new hAB hCC hnewAB hABCC hx
    have hlab := h₀.labelled x hx_mem hxn
    -- at the chosen child nothing is summed yet
    have hcc : x = chosen_child → slack_sum = 0 ∧ path_len = 0 := fun hxc => by
      subst hxc
      rw [hsum, hlen, path_slack_top, ancestors_in_top]
      exact ⟨rfl, rfl⟩
    rw [reclaim_after_down]
    by_cases hxR : x = reindex_root
    · -- the reindex root gives the rest, and a new slack for every block of the path
      subst hxR
      rw [if_pos rfl]
      dsimp only
      have hroom_x : T.size x + (T.size allocation_block + slack * path_len - slack_sum) ≤
          (ctx₀.store.interval x).size := by
        rw [← hlen] at hroot
        omega
      have hx_pos := T.size_pos x
      obtain ⟨ctx1, hprop, h1, hx1, hout1, -⟩ := h₀.apply_and_propagate round
        (show (ctx₀.store.interval x).decrease_end
          (T.size allocation_block + slack * path_len - slack_sum) = _ from rfl)
        (by
          simp only [Interval.size, Interval.start_decrease_end, Interval.end_decrease_end]
            at hroom_x ⊢
          omega)
        (h₀.parentBounds_of_subset ⟨le_rfl, Nat.sub_le _ _⟩)
      have hend1 : (ctx1.store.interval x).end_ +
          (T.size allocation_block + slack * path_len - slack_sum) =
            (ctx₀.store.interval x).end_ := by
        rw [hx1, Interval.end_decrease_end]
        simp only [Interval.size] at hroom_x
        omega
      obtain ⟨ctx2, hrun, hup⟩ := level_after round h₀ hCA hAB hCC hnewAB hABCC hABsize hafter hx h1
        hout1 hend1 (fun hxc => by obtain ⟨h1', h2'⟩ := hcc hxc; omega)
      refine ⟨x, slack, _, ctx2, ?_, hx, hup, by rw [← hsum, ← hlen]; omega, hsum ▸ hlt⟩
      rw [hprop, run_liftM_some_bind, run_bind_of_ok hrun]
      rfl
    · rw [if_neg hxR]
      dsimp only
      -- `x` is a strict chain ancestor of the reindex root: the query finds the next block
      have hlabx : T.Labelled x (fun x => (ctx₀.store.interval x).start)
          (fun x => (ctx₀.store.interval x).end_) :=
        h₀.labelled_of_not_mem hx_mem (new_not_mem_chain hAB hCC hnewAB hABCC hx)
      obtain ⟨c, hc, hRc, hnext⟩ := ReachabilityStore.get_next_chain_ancestor_unchecked_of_labelled
        ctx₀.store (by rw [h₀.tree_eq]; exact hlabx) (by rw [h₀.tree_eq]; exact hRx) (Ne.symm hxR)
      rw [h₀.tree_eq] at hc hRc
      -- the slack after the last child of `x`
      obtain ⟨L, lc, hch⟩ := (List.eq_nil_or_concat' (T.children x)).resolve_left
        (List.ne_nil_of_mem hc)
      have hlc : (T.children x).getLast? = some lc := by rw [hch]; simp
      have hlc_mem : lc ∈ T.children x := by
        rw [hch]
        exact List.mem_append_right _ (List.mem_singleton_self _)
      have hlc_chain := mem_nodes_trans hx (mem_nodes_of_mem_children hlc_mem (mem_nodes_self lc))
      have hlc_ne := (h₀.labelled lc (chain_mem hCA hCC hlc_chain)
        (chain_ne_new hAB hCC hnewAB hABCC hlc_chain)).nonempty
      have hfa : (ctx₀.store.interval_remaining_after x).size =
          (ctx₀.store.interval x).end_ - 1 - (ctx₀.store.interval lc).end_ :=
        ReachabilityStore.size_remaining_after (by rw [h₀.tree_eq]; exact hlc)
      have hlc_x := (hlab.inside lc hlc_mem).2
      by_cases hreq : T.size allocation_block ≤
          slack_sum + (ctx₀.store.interval_remaining_after x).size
      · -- `x` gives what is still missing
        rw [if_pos hreq]
        set offset := (ctx₀.store.interval_remaining_after x).size -
          (slack_sum + (ctx₀.store.interval_remaining_after x).size - T.size allocation_block)
        have hoff : offset = T.size allocation_block - slack_sum := by omega
        -- the new end stays after the last child's
        have hne : ((ctx₀.store.interval x).decrease_end offset).start ≤
            ((ctx₀.store.interval x).decrease_end offset).end_ := by
          have := (hlab.inside lc hlc_mem).1
          rw [Interval.start_decrease_end, Interval.end_decrease_end]
          omega
        have hkids : ∀ d ∈ T.children x,
            ((ctx₀.store.interval x).decrease_end offset).start ≤ (ctx₀.store.interval d).start ∧
              (ctx₀.store.interval d).end_ < ((ctx₀.store.interval x).decrease_end offset).end_ :=
          fun d hd => by
            have := end_le_getLast hlab hlc hlc_ne d hd
            have := (hlab.inside d hd).1
            rw [Interval.start_decrease_end, Interval.end_decrease_end]
            omega
        have h1 := h₀.apply_shrink (show (ctx₀.store.interval x).decrease_end offset = _ from rfl)
          hxn ⟨le_rfl, Nat.sub_le _ _⟩ hne hkids
        have hend1 : ((ctx₀.apply_interval_op x offset Interval.decrease_end).store.interval
            x).end_ + offset = (ctx₀.store.interval x).end_ := by
          rw [interval_apply_interval_op, Function.update_self, Interval.end_decrease_end]
          omega
        obtain ⟨ctx2, hrun, hup⟩ := level_after round h₀ hCA hAB hCC hnewAB hABCC hABsize hafter hx
          h1 (fun z hz => by
            rw [interval_apply_interval_op, Function.update_of_ne (ne_of_not_mem_nodes hz)])
          hend1 (fun hxc => by obtain ⟨h1', -⟩ := hcc hxc; omega)
        refine ⟨x, 0, offset, ctx2, ?_, hx, hup, by rw [← hsum]; omega, hsum ▸ hlt⟩
        rw [run_bind_of_ok hrun]
        rfl
      · -- not enough yet: on to the next block of the chain
        rw [if_neg hreq, run_bind_of_ok hnext]
        have hc_chain := mem_nodes_trans hx (mem_nodes_of_mem_children hc (mem_nodes_self c))
        have hc_ne : c ≠ chosen_child := fun hcc' =>
          not_mem_nodes_of_mem_children (hcc' ▸ hc) hx
        have hpc := T.parent_eq hc
        refine reclaim_after_down_spec hroot fuel c _ _ hc_chain hRc
          (by have := T.height_lt hc; omega) ?_ ?_ (by omega)
        · rw [path_slack_child hc_chain hc_ne, hpc, hsum, Nat.add_comm]
        · rw [length_ancestors_in hc_chain hc_ne, hpc, hlen]

include h₀ hCA hAB hCC hnewAB hABCC hABsize hafter in
-- The walk back up the chain, as `reclaim_before_up_spec`, on the side after the chosen child.
theorem reclaim_after_up_spec (path_slack_alloc : Nat) :
    ∀ (fuel : Nat) (x : Hash) (offset : Nat) (ctx : ReindexOperationContext),
      x ∈ T.nodes chosen_child →
      ReclaimedAfter T new ctx₀.store.interval allocation_block common_ancestor x offset ctx →
      T.height common_ancestor < fuel + T.height x →
      offset + path_slack T ctx₀.store.interval_remaining_after chosen_child x =
        T.size allocation_block + path_slack_alloc * (T.ancestors_in chosen_child x).length →
      path_slack T ctx₀.store.interval_remaining_after chosen_child x < T.size allocation_block →
      ∃ ctx', (reclaim_after_up round allocation_block common_ancestor path_slack_alloc fuel x
          ctx).run = some (.ok ctx') ∧ Reclaiming T new ctx' ∧
        (∀ y ∈ T.nodes allocation_block, T.LabelledAt (fun y => (ctx'.store.interval y).start)
          (fun y => (ctx'.store.interval y).end_) y) ∧
        ∀ z, z ∉ T.nodes common_ancestor ∨ z = common_ancestor →
          ctx'.store.interval z = ctx₀.store.interval z
  | 0, x, _, _, hx, _, hfuel, _, _ => absurd hfuel (by have := height_lt_of_chain hCC hx; omega)
  | fuel + 1, x, offset, ctx, hx, hup, hfuel, hbudget, hlt => by
    have h := hup.reclaiming
    obtain ⟨hP, hxc, hxcc⟩ := chain_parent hCC hx
    rw [reclaim_after_up]
    dsimp only
    rw [ReachabilityStore.get_parent, h.tree_eq]
    by_cases hPca : T.parent x = common_ancestor
    · -- back at the common ancestor: the allocation block has its room
      rw [if_pos hPca]
      exact ⟨ctx, rfl, h, hup.allocated hPca, fun z hz => hup.frame z (hPca ▸ hz)⟩
    rw [if_neg hPca]
    have hB : T.parent x ∈ T.nodes chosen_child := hP.resolve_right hPca
    have hB_mem := chain_mem hCA hCC hB
    have hBn := chain_ne_new hAB hCC hnewAB hABCC hB
    -- the parent has not moved, and its last child has moved down by the offset
    have hB₀ : ctx.store.interval (T.parent x) = ctx₀.store.interval (T.parent x) :=
      hup.frame _ (.inr rfl)
    obtain ⟨lc, hlc, hlc_end⟩ := hup.shifted hPca
    have hlc_mem : lc ∈ T.children (T.parent x) := List.mem_of_getLast? hlc
    have hlc_chain := mem_nodes_trans hB (mem_nodes_of_mem_children hlc_mem (mem_nodes_self lc))
    have hlc_n := chain_ne_new hAB hCC hnewAB hABCC hlc_chain
    have hlab := h.labelled _ hB_mem hBn
    have hlc_ne := (h.labelled lc (chain_mem hCA hCC hlc_chain) hlc_n).nonempty
    have hlc_B₀ := ((h₀.labelled _ hB_mem hBn).inside lc hlc_mem).2
    -- the room after its last child is its own slack and what came up from below
    have hslack : (ctx.store.interval_remaining_after (T.parent x)).size =
        (ctx₀.store.interval_remaining_after (T.parent x)).size + offset := by
      rw [ReachabilityStore.size_remaining_after (by rw [h.tree_eq]; exact hlc),
        ReachabilityStore.size_remaining_after (by rw [h₀.tree_eq]; exact hlc), hB₀]
      omega
    have hfa := ReachabilityStore.size_remaining_after (by rw [h₀.tree_eq]; exact hlc)
    rw [hslack]
    -- the path to the parent is one block shorter
    have hx_ne : x ≠ chosen_child := fun hxc => hPca (hxc ▸ T.parent_eq hCC)
    rw [path_slack_child hx hx_ne, length_ancestors_in hx hx_ne, Nat.mul_succ] at hbudget
    rw [path_slack_child hx hx_ne] at hlt
    have hbudget' : (ctx₀.store.interval_remaining_after (T.parent x)).size + offset -
          path_slack_alloc + path_slack T ctx₀.store.interval_remaining_after chosen_child
            (T.parent x) =
        T.size allocation_block +
          path_slack_alloc * (T.ancestors_in chosen_child (T.parent x)).length := by
      omega
    -- the parent gives what came up and its slack, less what it keeps
    have hne : ((ctx.store.interval (T.parent x)).decrease_end
          ((ctx₀.store.interval_remaining_after (T.parent x)).size + offset -
            path_slack_alloc)).start ≤
        ((ctx.store.interval (T.parent x)).decrease_end
          ((ctx₀.store.interval_remaining_after (T.parent x)).size + offset -
            path_slack_alloc)).end_ := by
      have := (hlab.inside lc hlc_mem).1
      rw [Interval.start_decrease_end, Interval.end_decrease_end]
      rw [hB₀] at this ⊢
      omega
    have hkids : ∀ d ∈ T.children (T.parent x),
        ((ctx.store.interval (T.parent x)).decrease_end
          ((ctx₀.store.interval_remaining_after (T.parent x)).size + offset -
            path_slack_alloc)).start ≤ (ctx.store.interval d).start ∧
        (ctx.store.interval d).end_ < ((ctx.store.interval (T.parent x)).decrease_end
          ((ctx₀.store.interval_remaining_after (T.parent x)).size + offset -
            path_slack_alloc)).end_ := fun d hd => by
      have := end_le_getLast hlab hlc hlc_ne d hd
      have hd_in := (hlab.inside d hd).1
      rw [Interval.start_decrease_end, Interval.end_decrease_end]
      rw [hB₀] at hd_in ⊢
      omega
    have h1 := h.apply_shrink (show (ctx.store.interval (T.parent x)).decrease_end
      ((ctx₀.store.interval_remaining_after (T.parent x)).size + offset - path_slack_alloc) = _
      from rfl) hBn ⟨le_rfl, Nat.sub_le _ _⟩ hne hkids
    have hend1 : ((ctx.apply_interval_op (T.parent x)
          ((ctx₀.store.interval_remaining_after (T.parent x)).size + offset - path_slack_alloc)
          Interval.decrease_end).store.interval (T.parent x)).end_ +
        ((ctx₀.store.interval_remaining_after (T.parent x)).size + offset - path_slack_alloc) =
          (ctx₀.store.interval (T.parent x)).end_ := by
      rw [interval_apply_interval_op, Function.update_self, Interval.end_decrease_end, hB₀]
      omega
    obtain ⟨ctx2, hrun, hup2⟩ := level_after round h₀ hCA hAB hCC hnewAB hABCC hABsize hafter hB h1
      (fun z hz => by
        rw [interval_apply_interval_op, Function.update_of_ne (ne_of_not_mem_nodes hz)]
        exact hup.frame z (.inl hz))
      hend1 (fun hBcc => by
        rw [hBcc, path_slack_top, ancestors_in_top] at hbudget'
        rw [hBcc]
        simp only [List.length_nil, Nat.mul_zero, Nat.add_zero] at hbudget'
        omega)
    rw [run_bind_of_ok hrun]
    exact reclaim_after_up_spec path_slack_alloc fuel _ _ ctx2 hB hup2
      (by have := T.height_lt hxc; omega) hbudget' (by omega)

include h₀ hCA hAB hCC hnewAB hABCC hABsize hafter in
-- The reclaim after the chosen child gives the allocation block its subtree size in room, taken
-- from the chain down to the reindex root, and lays its subtree out again; nothing outside the
-- subtree of the common ancestor moves.
theorem reclaim_interval_after_spec (hR : reindex_root ∈ T.nodes chosen_child)
    (hroot : T.size reindex_root + T.size allocation_block +
      slack * (T.ancestors_in chosen_child reindex_root).length ≤
        (ctx₀.store.interval reindex_root).size) :
    ∃ ctx', (ctx₀.reclaim_interval_after round slack allocation_block common_ancestor chosen_child
        reindex_root (T.size allocation_block)).run = some (.ok ctx') ∧ Reclaiming T new ctx' ∧
      (∀ y ∈ T.nodes allocation_block, T.LabelledAt (fun y => (ctx'.store.interval y).start)
        (fun y => (ctx'.store.interval y).end_) y) ∧
      ∀ z, z ∉ T.nodes common_ancestor ∨ z = common_ancestor →
        ctx'.store.interval z = ctx₀.store.interval z := by
  obtain ⟨y, p, offset, ctx1, hdown, hy, hup, hbudget, hlt⟩ :=
    reclaim_after_down_spec round h₀ hCA hAB hCC hnewAB hABCC hABsize hafter slack hroot
      (T.height chosen_child + 1) chosen_child 0 0 (mem_nodes_self _) hR (Nat.lt_succ_self _)
      path_slack_top.symm (by rw [ancestors_in_top]; rfl) (T.size_pos _)
  obtain ⟨ctx', hup', h', hAB', hframe'⟩ :=
    reclaim_after_up_spec round h₀ hCA hAB hCC hnewAB hABCC hABsize hafter p
      (T.height common_ancestor + 1) y offset ctx1 hy hup (by omega) hbudget hlt
  refine ⟨ctx', ?_, h', hAB', hframe'⟩
  unfold reclaim_interval_after
  rw [h₀.tree_eq, run_bind_of_ok hdown]
  dsimp only
  rw [hup.reclaiming.tree_eq]
  exact hup'

end ReclaimAfter

end ReindexOperationContext

end Waglayla.Consensus.Reachability
