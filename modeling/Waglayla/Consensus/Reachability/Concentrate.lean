import Waglayla.Consensus.Reachability.ReindexAtRoot

-- `concentrate_interval` and its helpers, which move the reindex root from `parent` to its
-- child: the siblings are packed a slack in from either end, the child gets the rest.

namespace Waglayla.Consensus.Reachability

open FiniteTree

namespace ReindexOperationContext

section Concentrate

variable (round : Nat → List Nat → Nat → Nat) (slack : Nat)

-- The sizes of the subtrees of `blocks`, each counted first, in order: the `sizes` of
-- `tighten_intervals_before` and `tighten_intervals_after`.
def count_sizes : List Hash → ReindexOperationContext →
    Option (List Nat × ReindexOperationContext)
  | [], self => some ([], self)
  | block :: blocks, self => do
    let self ← self.count_subtrees block
    let size ← self.subtree_sizes block
    let (sizes, self) ← count_sizes blocks self
    pure (size :: sizes, self)

-- The loop of the tightening over the children and their parts: each child gets its part, and
-- its subtree is laid out in it.
def set_and_propagate : List (Hash × Interval) → ReindexOperationContext →
    Option ReindexOperationContext
  | [], self => some self
  | (c, ci) :: rest, self => do
    let self ← { self with store := self.store.set_interval c ci }.propagate_interval round c
    set_and_propagate rest self

-- The tightening `tighten_intervals_before` and `tighten_intervals_after` share: the subtree
-- sizes of `children` are counted, and the children are packed, in order and each with the room
-- of its subtree, into the interval `place` makes of the parent's interval and the sum of the
-- sizes.
def tighten_intervals (self : ReindexOperationContext) (parent : Hash)
    (place : Interval → Nat → Interval) (children : List Hash) :
    Option (Nat × ReindexOperationContext) := do
  let (sizes, self) ← count_sizes children self
  let sum := sizes.sum
  let interval := self.store.get_interval parent
  let parts ← (place interval sum).split_exact sizes
  let self ← set_and_propagate round (children.zip parts) self
  pure (sum, self)

def tighten_intervals_before (self : ReindexOperationContext) (parent : Hash)
    (children_before : List Hash) : Option (Nat × ReindexOperationContext) :=
  self.tighten_intervals round parent
    (fun interval sum => Interval.new (interval.start + slack) (interval.start + slack + sum - 1))
    children_before

def tighten_intervals_after (self : ReindexOperationContext) (parent : Hash)
    (children_after : List Hash) : Option (Nat × ReindexOperationContext) :=
  self.tighten_intervals round parent
    (fun interval sum => Interval.new (interval.end_ - slack - sum) (interval.end_ - slack - 1))
    children_after

def expand_interval_to_chosen (self : ReindexOperationContext) (parent child : Hash)
    (siblings_before_subtrees_sum siblings_after_subtrees_sum : Nat)
    (is_final_reindex_root : Bool) : Option ReindexOperationContext := do
  let interval := self.store.get_interval parent
  let allocation := Interval.new (interval.start + siblings_before_subtrees_sum + slack)
    (interval.end_ - siblings_after_subtrees_sum - slack - 1)
  let current := self.store.get_interval child
  -- the subtree is laid out again in the allocation narrowed by a slack on each side
  let self ← if is_final_reindex_root && !allocation.contains current then
      let narrowed := Interval.new (allocation.start + slack) (allocation.end_ - slack)
      { self with store := self.store.set_interval child narrowed }.propagate_interval round child
    else some self
  pure { self with store := self.store.set_interval child allocation }

def concentrate_interval (self : ReindexOperationContext) (parent child : Hash)
    (is_final_reindex_root : Bool) : ExceptT ReachabilityError Option ReindexOperationContext := do
  let children := self.store.get_children parent
  let (siblings_before, siblings_after) ← ExceptT.mk (some (split_children children child))
  let (siblings_before_subtrees_sum, self) ←
    self.tighten_intervals_before round slack parent siblings_before
  let (siblings_after_subtrees_sum, self) ←
    self.tighten_intervals_after round slack parent siblings_after
  self.expand_interval_to_chosen round slack parent child siblings_before_subtrees_sum
    siblings_after_subtrees_sum is_final_reindex_root

end Concentrate

-- What every step of a concentration keeps: the tree, a right and closed cache of subtree sizes,
-- and intervals that label the tree at every block but `hole`, whose children come next.
structure Concentrating (T : FiniteTree Hash) (hole : Hash) (ctx : ReindexOperationContext) :
    Prop where
  tree_eq : ctx.store.tree = T
  correct : Correct T ctx.subtree_sizes
  closed : Closed T ctx.subtree_sizes
  labelled : LabelledBut T ctx.store.interval hole

section Widen

variable {T : FiniteTree Hash} {I : Hash → Interval} {x : Hash}

-- A block keeps its labelling when its interval changes to one, not empty, that still holds the
-- intervals of its children.
theorem labelledAt_update_self {J : Interval}
    (h : T.LabelledAt (fun x => (I x).start) (fun x => (I x).end_) x) (hne : J.start ≤ J.end_)
    (hkids : ∀ c ∈ T.children x, J.start ≤ (I c).start ∧ (I c).end_ < J.end_) :
    T.LabelledAt (fun y => (Function.update I x J y).start)
      (fun y => (Function.update I x J y).end_) x := by
  have hc : ∀ c ∈ T.children x, Function.update I x J c = I c :=
    fun c hc => Function.update_of_ne (fun hcx => not_mem_children_self x (hcx ▸ hc)) _ _
  refine ⟨by simp only [Function.update_self]; exact hne, fun c hcx => ?_, ?_⟩
  · simp only [Function.update_self, hc c hcx]
    exact hkids c hcx
  · exact h.ordered.imp_of_mem fun hc' hd' hcd => by
      simp only [hc _ hc', hc _ hd']
      exact hcd

end Widen

section Place

variable (round : Nat → List Nat → Nat → Nat) {T : FiniteTree Hash} {a : Hash}

-- A child of the hole given an interval with room for its subtree, and laid out from it: its
-- subtree is labelled, and nothing outside the subtree moves.
theorem Concentrating.place_child {ctx : ReindexOperationContext} (h : Concentrating T a ctx)
    {s : Hash} {J : Interval} (hs : s ∈ T.children a) (hroom : T.size s ≤ J.size) :
    ∃ ctx', { ctx with store := ctx.store.set_interval s J }.propagate_interval round s =
        some ctx' ∧
      Concentrating T a ctx' ∧ ctx'.store.interval s = J ∧
      ∀ y, y ∉ T.nodes s → ctx'.store.interval y = ctx.store.interval y := by
  set ctx1 : ReindexOperationContext := { ctx with store := ctx.store.set_interval s J }
  have htree1 : ctx1.store.tree = T := h.tree_eq
  have hI1 : ctx1.store.interval = Function.update ctx.store.interval s J := rfl
  have hroom1 : T.size s ≤ (ctx1.store.interval s).size := by
    rw [hI1, Function.update_self]
    exact hroom
  obtain ⟨ctx', hprop, htree', hframe, hplaced, hordered⟩ :=
    propagate_interval_ordered round ctx1 s (htree1 ▸ h.correct) (htree1 ▸ h.closed)
      (by rw [htree1]; exact hroom1)
  obtain ⟨hcorrect', hclosed'⟩ :=
    propagate_interval_cache hprop (htree1 ▸ h.correct) (htree1 ▸ h.closed)
  rw [htree1] at htree' hframe hplaced hordered hcorrect' hclosed'
  simp only [ReachabilityStore.interval_children_capacity, ReachabilityStore.get_interval] at hplaced
  have hout : ∀ y, y ∉ T.nodes s → ctx'.store.interval y = ctx.store.interval y := fun y hy => by
    rw [hframe y (.inl hy), hI1, Function.update_of_ne (ne_of_not_mem_nodes hy)]
  refine ⟨ctx', hprop, ⟨htree', hcorrect', hclosed', fun x hx hxa => ?_⟩,
    by rw [hframe s (.inr rfl), hI1, Function.update_self], hout⟩
  by_cases hxs : x ∈ T.nodes s
  · exact labelledAt_of_placed hroom1 hframe hplaced hordered hxs
  · -- outside the subtree, and not the parent of `s`, which is the hole
    have hsx : s ∉ T.children x := fun hsx =>
      hxa ((T.parent_eq hsx).symm.trans (T.parent_eq hs))
    refine labelledAt_of_frame ?_ hxs hframe
    rw [hI1]
    exact labelledAt_update_of_not_mem (h.labelled x hx hxa) (ne_of_not_mem_nodes hxs) hsx

-- The children of the hole in `ps`, each given its part in turn and laid out from it: each holds
-- its part, and nothing outside their subtrees moves.
theorem set_and_propagate_spec : ∀ (ps : List (Hash × Interval)) (ctx : ReindexOperationContext),
    Concentrating T a ctx → (ps.map Prod.fst).Nodup →
    (∀ p ∈ ps, p.1 ∈ T.children a ∧ T.size p.1 ≤ p.2.size) →
    ∃ ctx', set_and_propagate round ps ctx = some ctx' ∧ Concentrating T a ctx' ∧
      (∀ p ∈ ps, ctx'.store.interval p.1 = p.2) ∧
      ∀ y, (∀ p ∈ ps, y ∉ T.nodes p.1) → ctx'.store.interval y = ctx.store.interval y
  | [], ctx, h, _, _ => ⟨ctx, rfl, h, fun _ hp => absurd hp List.not_mem_nil, fun _ _ => rfl⟩
  | (s, J) :: ps, ctx, h, hnd, hps => by
    obtain ⟨hs, hroom⟩ := hps (s, J) List.mem_cons_self
    obtain ⟨ctx1, hprop, h1, hs1, hout1⟩ := h.place_child round hs hroom
    rw [List.map_cons, List.nodup_cons] at hnd
    obtain ⟨ctx', hrest, h', hplaced', hout'⟩ := set_and_propagate_spec ps ctx1 h1 hnd.2
      fun p hp => hps p (List.mem_cons_of_mem _ hp)
    -- the later children are siblings of `s`, outside its subtree
    have hsep : ∀ p ∈ ps, s ∉ T.nodes p.1 := fun p hp hsp => by
      have hp1 := (hps p (List.mem_cons_of_mem _ hp)).1
      have hne : p.1 ≠ s := fun e => hnd.1 (List.mem_map.mpr ⟨p, hp, e⟩)
      exact hne (eq_of_mem_nodes_children hp1 hs hsp (mem_nodes_self s))
    refine ⟨ctx', ?_, h', fun p hp => ?_, fun y hy => ?_⟩
    · rw [set_and_propagate, hprop]
      exact hrest
    · rcases List.mem_cons.mp hp with rfl | hp
      · show ctx'.store.interval s = J
        rw [hout' s hsep]
        exact hs1
      · exact hplaced' p hp
    · rw [hout' y fun p hp => hy p (List.mem_cons_of_mem _ hp),
        hout1 y (hy (s, J) List.mem_cons_self)]

-- `count_sizes` returns the sizes of the subtrees, with the store as it was and a cache still
-- right and closed.
theorem count_sizes_spec : ∀ (blocks : List Hash) (ctx : ReindexOperationContext),
    Correct ctx.store.tree ctx.subtree_sizes → Closed ctx.store.tree ctx.subtree_sizes →
    ∃ ctx', count_sizes blocks ctx = some (blocks.map ctx.store.tree.size, ctx') ∧
      ctx'.store = ctx.store ∧ Correct ctx.store.tree ctx'.subtree_sizes ∧
      Closed ctx.store.tree ctx'.subtree_sizes
  | [], ctx, hcorrect, hclosed => ⟨ctx, rfl, rfl, hcorrect, hclosed⟩
  | b :: blocks, ctx, hcorrect, hclosed => by
    obtain ⟨ctx1, hcount, hstore1, hsizes1, hcorrect1, hclosed1⟩ :=
      count_subtrees_spec ctx b hcorrect hclosed
    rw [← hstore1] at hcorrect1 hclosed1
    obtain ⟨ctx', hrest, hstore', hcorrect', hclosed'⟩ :=
      count_sizes_spec blocks ctx1 hcorrect1 hclosed1
    rw [hstore1] at hrest hcorrect' hclosed'
    refine ⟨ctx', ?_, hstore'.trans hstore1, hcorrect', hclosed'⟩
    simp [count_sizes, hcount, hsizes1 b (mem_nodes_self b), hrest]

-- Each block of `l` is paired with a part of the size `f` gives it.
theorem size_of_mem_zip_split_from {f : Hash → Nat} :
    ∀ {l : List Hash} {start : Nat}, (∀ s ∈ l, 0 < f s) →
      ∀ p ∈ l.zip (Interval.split_from start (l.map f)), p.2.size = f p.1
  | [], _, _, _, hp => absurd hp List.not_mem_nil
  | s :: l, start, hpos, p, hp => by
    rw [List.map_cons, Interval.split_from, List.zip_cons_cons] at hp
    rcases List.mem_cons.mp hp with rfl | hp
    · have := hpos s List.mem_cons_self
      simp only [Interval.size, Interval.new]
      omega
    · exact size_of_mem_zip_split_from (fun s hs => hpos s (List.mem_cons_of_mem _ hs)) p hp

-- The children `l` of the hole packed into `K`, which has exactly the room of their subtrees:
-- each child holds a part of `K`, the parts follow one another in the order of `l`, and nothing
-- outside their subtrees moves.
theorem Concentrating.place_children {ctx : ReindexOperationContext} (h : Concentrating T a ctx)
    {l : List Hash} (hl : ∀ s ∈ l, s ∈ T.children a) (hnd : l.Nodup) {K : Interval}
    (hK : K.start + (l.map T.size).sum = K.end_ + 1) :
    ∃ parts ctx', K.split_exact (l.map T.size) = some parts ∧
      set_and_propagate round (l.zip parts) ctx = some ctx' ∧ Concentrating T a ctx' ∧
      (∀ s ∈ l, K.start ≤ (ctx'.store.interval s).start ∧ (ctx'.store.interval s).end_ ≤ K.end_) ∧
      l.Pairwise (fun s t => (ctx'.store.interval s).end_ < (ctx'.store.interval t).start) ∧
      ∀ y, (∀ s ∈ l, y ∉ T.nodes s) → ctx'.store.interval y = ctx.store.interval y := by
  have hpos : ∀ n ∈ l.map T.size, 0 < n := by
    intro n hn
    obtain ⟨s, -, rfl⟩ := List.mem_map.mp hn
    exact T.size_pos s
  set parts := Interval.split_from K.start (l.map T.size)
  have hsplit : K.split_exact (l.map T.size) = some parts := if_pos (by rw [Interval.size]; omega)
  have htiles : Interval.Tiles K.start parts K.end_ := Interval.tiles_split_from hpos hK
  have hmap : parts.map Interval.size = l.map T.size := Interval.map_size_split_from hpos
  have hlen : l.length = parts.length := by
    rw [← List.length_map (f := T.size), ← hmap, List.length_map]
  -- every part has room, exactly, for its child
  have hparts_pos : ∀ p ∈ parts, 0 < p.size := fun p hp =>
    hpos _ (hmap ▸ List.mem_map_of_mem hp)
  have hzip : ∀ p ∈ l.zip parts, p.2.size = T.size p.1 :=
    size_of_mem_zip_split_from fun s _ => T.size_pos s
  obtain ⟨ctx', hrun, h', hset, hout⟩ := set_and_propagate_spec round (l.zip parts) ctx h
    (by rw [List.map_fst_zip (le_of_eq hlen)]; exact hnd)
    fun p hp => ⟨hl _ (List.of_mem_zip hp).1, (hzip p hp).ge⟩
  have hI' : l.map ctx'.store.interval = parts :=
    map_eq_of_mem_zip hlen fun s J hsJ => hset (s, J) hsJ
  have hbounds := htiles.bounds fun p hp => by
    have := hparts_pos p hp
    simp only [Interval.size] at this
    omega
  refine ⟨parts, ctx', hsplit, hrun, h', fun s hs => hbounds _ (hI' ▸ List.mem_map_of_mem hs),
    List.pairwise_map.mp (hI' ▸ htiles.pairwise hparts_pos), fun y hy => hout y fun p hp => ?_⟩
  exact hy p.1 (List.of_mem_zip hp).1

variable (slack : Nat)

-- The tightening packs the children in `children` into the interval `place` makes of the
-- parent's interval and the sum of their sizes, when that interval has exactly that room.
theorem Concentrating.tighten {ctx : ReindexOperationContext} (h : Concentrating T a ctx)
    {children : List Hash} (hl : ∀ s ∈ children, s ∈ T.children a) (hnd : children.Nodup)
    (place : Interval → Nat → Interval)
    (hK : (place (ctx.store.interval a) (children.map T.size).sum).start +
      (children.map T.size).sum =
        (place (ctx.store.interval a) (children.map T.size).sum).end_ + 1) :
    ∃ ctx', ctx.tighten_intervals round a place children =
        some ((children.map T.size).sum, ctx') ∧ Concentrating T a ctx' ∧
      (∀ s ∈ children,
        (place (ctx.store.interval a) (children.map T.size).sum).start ≤
          (ctx'.store.interval s).start ∧
        (ctx'.store.interval s).end_ ≤
          (place (ctx.store.interval a) (children.map T.size).sum).end_) ∧
      children.Pairwise (fun s t => (ctx'.store.interval s).end_ < (ctx'.store.interval t).start) ∧
      ∀ y, (∀ s ∈ children, y ∉ T.nodes s) → ctx'.store.interval y = ctx.store.interval y := by
  have htree := h.tree_eq
  obtain ⟨ctx1, hcount, hstore1, hcorrect1, hclosed1⟩ := count_sizes_spec children ctx
    (by rw [htree]; exact h.correct) (by rw [htree]; exact h.closed)
  rw [htree] at hcount hcorrect1 hclosed1
  have h1 : Concentrating T a ctx1 :=
    ⟨by rw [hstore1]; exact htree, hcorrect1, hclosed1, by rw [hstore1]; exact h.labelled⟩
  have hI1 : ctx1.store.interval = ctx.store.interval := by rw [hstore1]
  obtain ⟨parts, ctx', hsplit, hrun, h', hbounds, hord, hout⟩ :=
    h1.place_children round hl hnd (hI1 ▸ hK)
  rw [hI1] at hsplit hbounds
  refine ⟨ctx', ?_, h', hbounds, hord, fun y hy => (hout y hy).trans (congrFun hI1 y)⟩
  simp [tighten_intervals, hcount, ReachabilityStore.get_interval, hI1, hsplit, hrun]

-- The child of the hole gets the allocation, which has room for its subtree. Under the final
-- reindex root the subtree is laid out again, in the allocation narrowed by a slack on each side,
-- when the child's interval leaves the allocation, and the child is labelled; every block but
-- the hole and the child stays labelled, and nothing outside the child's subtree moves.
theorem Concentrating.expand {ctx : ReindexOperationContext} (h : Concentrating T a ctx)
    (ha : a ∈ T.nodes ORIGIN) {c : Hash} (hc : c ∈ T.children a) (sb sa : Nat) (final : Bool)
    {A : Interval} (hA : Interval.new ((ctx.store.interval a).start + sb + slack)
      ((ctx.store.interval a).end_ - sa - slack - 1) = A)
    (hroom : T.size c ≤ A.size) (hfinal : final = true → T.size c + 2 * slack ≤ A.size) :
    ∃ ctx', ctx.expand_interval_to_chosen round slack a c sb sa final = some ctx' ∧
      ctx'.store.tree = T ∧ Correct T ctx'.subtree_sizes ∧ Closed T ctx'.subtree_sizes ∧
      ctx'.store.interval c = A ∧
      (∀ y, y ∉ T.nodes c → ctx'.store.interval y = ctx.store.interval y) ∧
      (final = false → ∀ y ∈ T.nodes c, y ≠ c → ctx'.store.interval y = ctx.store.interval y) ∧
      (∀ x ∈ T.nodes ORIGIN, x ≠ a → x ≠ c → T.LabelledAt (fun x => (ctx'.store.interval x).start)
        (fun x => (ctx'.store.interval x).end_) x) ∧
      (final = true → T.LabelledAt (fun x => (ctx'.store.interval x).start)
        (fun x => (ctx'.store.interval x).end_) c) := by
  have hca : c ≠ a := fun e => not_mem_children_self a (e ▸ hc)
  have hc_mem := mem_nodes_trans ha (mem_nodes_of_mem_children hc (mem_nodes_self c))
  -- a block with `c` among its children is the hole
  have hkeep : ∀ {I : Hash → Interval}, LabelledBut T I a → ∀ x ∈ T.nodes ORIGIN, x ≠ a →
      x ≠ c → T.LabelledAt (fun x => (Function.update I c A x).start)
        (fun x => (Function.update I c A x).end_) x := fun hlab x hx hxa hxc =>
    labelledAt_update_of_not_mem (hlab x hx hxa) hxc fun hcx =>
      hxa ((T.parent_eq hcx).symm.trans (T.parent_eq hc))
  have hA_ne : A.start ≤ A.end_ := by
    have := T.size_pos c
    simp only [Interval.size] at hroom
    omega
  -- the allocation, where it holds the child's interval, holds its children's
  have hwiden : ∀ {I : Hash → Interval}, LabelledBut T I a →
      A.start ≤ (I c).start → (I c).end_ ≤ A.end_ →
      T.LabelledAt (fun x => (Function.update I c A x).start)
        (fun x => (Function.update I c A x).end_) c := fun hlab hlo hhi => by
    have hlabc := hlab c hc_mem hca
    refine labelledAt_update_self hlabc hA_ne fun d hd => ?_
    have := hlabc.inside d hd
    exact ⟨hlo.trans this.1, this.2.trans_le hhi⟩
  have hframe : ∀ {I : Hash → Interval}, ∀ y, y ∉ T.nodes c → Function.update I c A y = I y :=
    fun y hy => Function.update_of_ne (ne_of_not_mem_nodes hy) _ _
  unfold expand_interval_to_chosen
  simp only [ReachabilityStore.get_interval, hA]
  cases final with
  | false =>
    -- no new layout: the child only gets the allocation
    refine ⟨_, rfl, h.tree_eq, h.correct, h.closed, Function.update_self _ _ _,
      fun y hy => hframe y hy, fun _ y _ hyc => Function.update_of_ne hyc _ _, hkeep h.labelled,
      fun hf => absurd hf Bool.false_ne_true⟩
  | true =>
    cases hcont : A.contains (ctx.store.interval c) with
    | true =>
      -- the allocation holds the child's interval: the subtree stays where it is
      rw [Interval.contains_iff] at hcont
      refine ⟨_, rfl, h.tree_eq, h.correct, h.closed, Function.update_self _ _ _,
        fun y hy => hframe y hy, fun hf => Bool.noConfusion hf, hkeep h.labelled,
        fun _ => hwiden h.labelled hcont.1 hcont.2⟩
    | false =>
      -- laid out again in the narrowed allocation, then widened to the allocation
      have hN : T.size c ≤ (Interval.new (A.start + slack) (A.end_ - slack)).size := by
        have := hfinal rfl
        simp only [Interval.size, Interval.new] at this ⊢
        omega
      obtain ⟨ctx2, hprop, h2, hc2, hout2⟩ := h.place_child round hc hN
      simp only [Bool.not_false, Bool.and_self, if_true, hprop, Option.bind_eq_bind,
        Option.bind_some]
      refine ⟨_, rfl, h2.tree_eq, h2.correct, h2.closed, Function.update_self _ _ _,
        fun y hy => (hframe y hy).trans (hout2 y hy), fun hf => Bool.noConfusion hf,
        hkeep h2.labelled, fun _ => ?_⟩
      refine hwiden h2.labelled ?_ ?_ <;> rw [hc2] <;> simp only [Interval.new] <;> omega

-- A concentration from the hole `a` to its child `c`: the siblings of `c` are packed a slack in
-- from either end of the interval of `a`, `c` gets what is left but a slack on each side, and the
-- hole moves down to `c`, at the cost of twice the slack of the room beyond the subtree. Under the
-- final reindex root `c` is labelled too, when the room holds twice the slack more.
theorem Concentrating.concentrate {ctx : ReindexOperationContext} (h : Concentrating T a ctx)
    (ha : a ∈ T.nodes ORIGIN) {c : Hash} (hc : c ∈ T.children a) (final : Bool)
    (hstart : 1 ≤ (ctx.store.interval a).start)
    (hroom : T.size a + 2 * slack ≤ (ctx.store.interval a).size)
    (hfinal : final = true → T.size a + 4 * slack ≤ (ctx.store.interval a).size) :
    ∃ ctx', (ctx.concentrate_interval round slack a c final).run = some (.ok ctx') ∧
      Concentrating T c ctx' ∧
      (final = true → T.LabelledAt (fun x => (ctx'.store.interval x).start)
        (fun x => (ctx'.store.interval x).end_) c) ∧
      (ctx'.store.interval c).size + T.size a + 2 * slack =
        (ctx.store.interval a).size + T.size c ∧
      (ctx.store.interval a).start ≤ (ctx'.store.interval c).start ∧
      (∀ z, (z ∈ T.nodes a → z = a) → ctx'.store.interval z = ctx.store.interval z) ∧
      (final = false → ∀ z ∈ T.nodes c, z ≠ c → ctx'.store.interval z = ctx.store.interval z) := by
  obtain ⟨pre, post, hsplit⟩ := List.append_of_mem hc
  have hnd := T.nodup a
  rw [hsplit, List.nodup_append, List.nodup_cons] at hnd
  have hcpre : c ∉ pre := fun hp => hnd.2.2 c hp c List.mem_cons_self rfl
  have hpre : ∀ s ∈ pre, s ∈ T.children a := fun s hs => hsplit ▸ List.mem_append_left _ hs
  have hpost : ∀ s ∈ post, s ∈ T.children a := fun s hs =>
    hsplit ▸ List.mem_append_right _ (List.mem_cons_of_mem _ hs)
  -- siblings lie outside one another's subtrees, and what is not below `a` outside all of them
  have hsib : ∀ d ∈ T.children a, ∀ s ∈ T.children a, d ≠ s → d ∉ T.nodes s :=
    fun d hd s hs hds hdn => hds (eq_of_mem_nodes_children hd hs (mem_nodes_self d) hdn)
  have hup : ∀ z, (z ∈ T.nodes a → z = a) → ∀ s ∈ T.children a, z ∉ T.nodes s :=
    fun z hz s hs hzs => not_mem_nodes_of_mem_children hs
      (by rwa [← hz (mem_nodes_of_mem_children hs hzs)])
  have hsize : T.size a = (pre.map T.size).sum + T.size c + (post.map T.size).sum + 1 := by
    rw [T.size_eq, hsplit, List.map_append, List.sum_append, List.map_cons, List.sum_cons]
    omega
  have hroom' := hroom
  simp only [Interval.size] at hroom'
  have hc_pos := T.size_pos c
  -- the siblings before, packed a slack in from the start
  obtain ⟨ctx1, hrun1, h1, hb1, hord1, hout1⟩ := h.tighten round hpre hnd.1
    (fun interval sum => Interval.new (interval.start + slack) (interval.start + slack + sum - 1))
    (by simp only [Interval.new]; omega)
  have hIa1 : ctx1.store.interval a = ctx.store.interval a :=
    hout1 a fun s hs => hup a (fun _ => rfl) s (hpre s hs)
  -- the siblings after, packed a slack in from the end
  obtain ⟨ctx2, hrun2, h2, hb2, hord2, hout2⟩ := h1.tighten round hpost hnd.2.1.2
    (fun interval sum => Interval.new (interval.end_ - slack - sum) (interval.end_ - slack - 1))
    (by rw [hIa1]; simp only [Interval.new]; omega)
  rw [hIa1] at hb2
  have hIa2 : ctx2.store.interval a = ctx.store.interval a :=
    (hout2 a fun s hs => hup a (fun _ => rfl) s (hpost s hs)).trans hIa1
  -- the chosen child gets what is left
  obtain ⟨ctx', hexp, htree', hcorrect', hclosed', hc', hout', hbelow', hlab', hfin'⟩ :=
    h2.expand round slack ha hc (pre.map T.size).sum (post.map T.size).sum final
      (A := Interval.new ((ctx.store.interval a).start + (pre.map T.size).sum + slack)
        ((ctx.store.interval a).end_ - (post.map T.size).sum - slack - 1))
      (by rw [hIa2]) (by simp only [Interval.size, Interval.new]; omega)
      fun hf => by
        have := hfinal hf
        simp only [Interval.size, Interval.new] at this ⊢
        omega
  have hIa' : ctx'.store.interval a = ctx.store.interval a :=
    (hout' a (not_mem_nodes_of_mem_children hc)).trans hIa2
  have hpre' : ∀ d ∈ pre, ctx'.store.interval d = ctx1.store.interval d := fun d hd =>
    (hout' d (hsib d (hpre d hd) c hc fun e => hcpre (e ▸ hd))).trans
      (hout2 d fun s hs => hsib d (hpre d hd) s (hpost s hs)
        (hnd.2.2 d hd s (List.mem_cons_of_mem _ hs)))
  have hpost' : ∀ d ∈ post, ctx'.store.interval d = ctx2.store.interval d := fun d hd =>
    hout' d (hsib d (hpost d hd) c hc fun e => hnd.2.1.1 (e ▸ hd))
  -- `a`, whose children are all laid out, is labelled again
  have hlabA : T.LabelledAt (fun x => (ctx'.store.interval x).start)
      (fun x => (ctx'.store.interval x).end_) a := by
    refine labelledAt_of_split hsplit ?_ (fun d hd => ?_)
      (hord1.imp_of_mem fun hd he hde => by rw [hpre' _ hd, hpre' _ he]; exact hde) ?_
      (fun d hd => ?_)
      (hord2.imp_of_mem fun hd he hde => by rw [hpost' _ hd, hpost' _ he]; exact hde)
    · rw [hIa']
      omega
    · have := hb1 d hd
      rw [hIa', hpre' d hd, hc']
      simp only [Interval.new] at this ⊢
      omega
    · rw [hIa', hc']
      simp only [Interval.new]
      omega
    · have := hb2 d hd
      rw [hIa', hpost' d hd, hc']
      simp only [Interval.new] at this ⊢
      omega
  -- what moves at most `a`'s children and below them, or `c` and below it, moves nothing else
  have hout12 : ∀ z, (∀ s ∈ pre ++ post, z ∉ T.nodes s) →
      ctx2.store.interval z = ctx.store.interval z := fun z hz =>
    (hout2 z fun s hs => hz s (List.mem_append_right _ hs)).trans
      (hout1 z fun s hs => hz s (List.mem_append_left _ hs))
  refine ⟨ctx', ?_, ⟨htree', hcorrect', hclosed', fun x hx hxc => ?_⟩, hfin', ?_, ?_,
    fun z hz => (hout' z (hup z hz c hc)).trans
      (hout12 z fun s hs => hup z hz s (List.mem_append.mp hs |>.elim (hpre s) (hpost s))),
    fun hf z hz hzc => (hbelow' hf z hz hzc).trans (hout12 z fun s hs hzs => ?_)⟩
  · unfold concentrate_interval
    simp only [ReachabilityStore.get_children, h.tree_eq]
    rw [hsplit, split_children_eq hcpre, run_mk_ok_bind]
    dsimp only
    rw [tighten_intervals_before, hrun1, run_liftM_some_bind]
    dsimp only
    rw [tighten_intervals_after, hrun2, run_liftM_some_bind]
    dsimp only
    rw [hexp, run_liftM_some]
  · by_cases hxa : x = a
    · rw [hxa]
      exact hlabA
    · exact hlab' x hx hxa hxc
  · rw [hc']
    simp only [Interval.size, Interval.new]
    omega
  · rw [hc']
    simp only [Interval.new]
    omega
  · -- below `c` lies no sibling's subtree
    have hs' := List.mem_append.mp hs |>.elim (hpre s) (hpost s)
    have hsc : s ≠ c := by
      rintro rfl
      rcases List.mem_append.mp hs with hs | hs
      · exact hcpre hs
      · exact hnd.2.1.1 hs
    exact hsc (eq_of_mem_nodes_children hs' hc hzs hz)

-- The reindex root moving from `ORIGIN` to `[0]` in the tree of two leaves, which share the room
-- of `ORIGIN`, with a slack of 2: `[1]` is packed 2 in from the end of that room, `[0]` gets the
-- rest but 2 on each side and, under the final reindex root, is labelled.
theorem concentrate_fork :
    let ctx : ReindexOperationContext := ⟨⟨fork_tree, fun h =>
      if h = ORIGIN then Interval.new 1 100 else if h = [0] then Interval.new 1 50
      else Interval.new 51 98⟩, fun _ => none⟩
    (ctx.concentrate_interval (fun _ _ _ => 0) 2 ORIGIN [0] true).run.map
        (Except.map fun ctx' => (ctx'.store.interval [0], ctx'.store.interval [1])) =
      some (.ok (Interval.new 3 96, Interval.new 97 97)) ∧
    ∃ ctx', (ctx.concentrate_interval (fun _ _ _ => 0) 2 ORIGIN [0] true).run = some (.ok ctx') ∧
      Concentrating fork_tree [0] ctx' ∧
      (true = true → fork_tree.LabelledAt (fun x => (ctx'.store.interval x).start)
        (fun x => (ctx'.store.interval x).end_) [0]) ∧
      (ctx'.store.interval [0]).size + fork_tree.size ORIGIN + 2 * 2 =
        (ctx.store.interval ORIGIN).size + fork_tree.size [0] ∧
      (ctx.store.interval ORIGIN).start ≤ (ctx'.store.interval [0]).start ∧
      (∀ z, (z ∈ fork_tree.nodes ORIGIN → z = ORIGIN) →
        ctx'.store.interval z = ctx.store.interval z) ∧
      (true = false → ∀ z ∈ fork_tree.nodes [0], z ≠ [0] →
        ctx'.store.interval z = ctx.store.interval z) :=
  ⟨by decide, Concentrating.concentrate (fun _ _ _ => 0) 2
    ⟨rfl, fun _ _ h => absurd h (Option.some_ne_none _).symm, fun _ h => absurd rfl h, by decide⟩
    (by decide)
    (by decide) true
    (by decide) (by decide) fun _ => by decide⟩

end Place

end ReindexOperationContext

end Waglayla.Consensus.Reachability
