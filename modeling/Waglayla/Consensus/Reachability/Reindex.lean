import Waglayla.Trees.Finite
import Waglayla.Consensus.Reachability.Interval
import Waglayla.Consensus.Ghostdag.Data

-- `count_subtrees` and `propagate_interval` of a reindex, over a finite tree; store errors are
-- left out, a missing index is `none`, and each loop runs on fuel its subtree bounds.

namespace Waglayla.Consensus.Reachability

-- The reachability store as a reindex reads and writes it.
structure ReachabilityStore where
  tree : FiniteTree Hash
  interval : Hash → Interval

namespace ReachabilityStore

variable (self : ReachabilityStore)

def get_children (block : Hash) : List Hash := self.tree.children block

def get_parent (block : Hash) : Hash := self.tree.parent block

def get_interval (block : Hash) : Interval := self.interval block

def set_interval (block : Hash) (interval : Interval) : ReachabilityStore :=
  { self with interval := Function.update self.interval block interval }

-- The interval of a block strictly contains those of its children: one is taken off its end.
def interval_children_capacity (block : Hash) : Interval := (self.get_interval block).decrease_end 1

end ReachabilityStore

-- `ReindexOperationContext`; `depth` and `slack` are left out, as nothing modelled reads them.
structure ReindexOperationContext where
  store : ReachabilityStore
  subtree_sizes : Hash → Option Nat

namespace ReindexOperationContext

section CountSubtrees

variable (tree : FiniteTree Hash) (block : Hash)

-- The inner loop of `count_subtrees`: the size of `current` is known, and the news climbs the
-- parent chain until a parent still waits for a child, or `block` is reached.
def push_up : Nat → Hash → (Hash → Nat) → (Hash → Option Nat) →
    Option ((Hash → Nat) × (Hash → Option Nat))
  | 0, _, _, _ => none
  | fuel + 1, current, counts, subtree_sizes =>
    if current = block then some (counts, subtree_sizes)
    else
      let current := tree.parent current
      let counts := Function.update counts current (counts current + 1)
      let children := tree.children current
      if counts current < children.length then some (counts, subtree_sizes)
      else
        match children.mapM subtree_sizes with
        | some sizes =>
          push_up fuel current counts (Function.update subtree_sizes current (some (sizes.sum + 1)))
        | none => none

-- The outer loop of `count_subtrees`, over the queue.
def count_loop : Nat → List Hash → (Hash → Nat) → (Hash → Option Nat) → Option (Hash → Option Nat)
  | 0, _, _, _ => none
  | _ + 1, [], _, subtree_sizes => some subtree_sizes
  | fuel + 1, current :: queue, counts, subtree_sizes =>
    let children := tree.children current
    if children ≠ [] ∧ subtree_sizes current = none then
      -- not counted yet: its children go to the back of the queue
      count_loop fuel (queue ++ children) counts subtree_sizes
    else
      -- a leaf, counted now, or a counted subtree: its size is pushed up
      let subtree_sizes :=
        if children = [] then Function.update subtree_sizes current (some 1) else subtree_sizes
      match push_up tree block (tree.height block + 1) current counts subtree_sizes with
      | some (counts, subtree_sizes) => count_loop fuel queue counts subtree_sizes
      | none => none

end CountSubtrees

variable (self : ReindexOperationContext)

def count_subtrees (block : Hash) : Option ReindexOperationContext :=
  if (self.subtree_sizes block).isSome then some self
  else
    (count_loop self.store.tree block (self.store.tree.size block + 1) [block] (fun _ => 0)
      self.subtree_sizes).map fun subtree_sizes => { self with subtree_sizes }

section Propagate

variable (round : Nat → List Nat → Nat → Nat)

-- The loop of `propagate_interval`: every block with children splits its children capacity
-- among them by their subtree sizes.
def propagate_loop : Nat → List Hash → ReindexOperationContext → Option ReindexOperationContext
  | 0, _, _ => none
  | _ + 1, [], self => some self
  | fuel + 1, current :: queue, self =>
    let children := self.store.get_children current
    if children = [] then propagate_loop fuel queue self
    else
      match children.mapM self.subtree_sizes with
      | none => none
      | some sizes =>
        match (self.store.interval_children_capacity current).split_exponential round sizes with
        | none => none
        | some intervals =>
          let store := (children.zip intervals).foldl (fun store ci => store.set_interval ci.1 ci.2)
            self.store
          propagate_loop fuel (queue ++ children) { self with store }

def propagate_interval (block : Hash) : Option ReindexOperationContext := do
  let self ← self.count_subtrees block
  propagate_loop round (self.store.tree.size block + 1) [block] self

end Propagate

open FiniteTree

-- The cache holds only right sizes.
def Correct (t : FiniteTree Hash) (sizes : Hash → Option Nat) : Prop :=
  ∀ x v, sizes x = some v → v = t.size x

-- A cached subtree is cached all through, as every cache `count_subtrees` builds is.
def Closed (t : FiniteTree Hash) (sizes : Hash → Option Nat) : Prop :=
  ∀ x, sizes x ≠ none → ∀ c ∈ t.children x, sizes c ≠ none

theorem Closed.subtree {t : FiniteTree Hash} {sizes : Hash → Option Nat} (h : Closed t sizes)
    {a : Hash} (ha : sizes a ≠ none) : ∀ y ∈ t.nodes a, sizes y ≠ none :=
  nodes_induction a ha fun _ _ _ hp hc => h _ hp _ hc

section Search

-- What the search of `count_subtrees` from `block` visits, for the cache `σ` it starts from.

variable (t : FiniteTree Hash) (block : Hash) (σ : Hash → Option Nat)

-- A block the search expands: it has children and no cached size.
def Expands (x : Hash) : Prop := t.children x ≠ [] ∧ σ x = none

-- A block the search reaches: in the subtree, below expanded blocks only.
def Reaches (x : Hash) : Prop :=
  x ∈ t.nodes block ∧ ∀ a ∈ t.nodes block, x ∈ t.nodes a → a ≠ x → Expands t σ a

-- A block the search is done with: unrelated to every queued block.
def Settled (queue : List Hash) (x : Hash) : Prop := ∀ y ∈ queue, t.Unrelated x y

instance (x : Hash) : Decidable (Expands t σ x) := inferInstanceAs (Decidable (_ ∧ _))

instance (x y : Hash) : Decidable (t.Unrelated x y) := inferInstanceAs (Decidable (_ ∧ _))

instance (x : Hash) : Decidable (Reaches t block σ x) := inferInstanceAs (Decidable (_ ∧ _))

instance (queue : List Hash) (x : Hash) : Decidable (Settled t queue x) :=
  inferInstanceAs (Decidable (∀ y ∈ queue, _))

variable {t block σ}

theorem reaches_block : Reaches t block σ block :=
  ⟨mem_nodes_self block, fun _ _ hb hne => absurd (eq_of_mem_nodes_of_mem_nodes ‹_› hb).symm hne⟩

theorem Reaches.child {x c : Hash} (hx : Reaches t block σ x) (hexp : Expands t σ x)
    (hc : c ∈ t.children x) : Reaches t block σ c := by
  refine ⟨mem_nodes_trans hx.1 (mem_nodes_of_mem_children hc (mem_nodes_self c)),
    fun a ha hca hne => ?_⟩
  -- the parent of `c` is `x`, so `a` is `x` or above it
  obtain ⟨hxa, -⟩ := parent_mem_nodes hca hne.symm
  rw [t.parent_eq hc] at hxa
  by_cases hax : a = x
  · rw [hax]; exact hexp
  · exact hx.2 a ha hxa hax

theorem Reaches.parent {x : Hash} (hx : Reaches t block σ x) (hne : x ≠ block) :
    Expands t σ (t.parent x) ∧ Reaches t block σ (t.parent x) ∧ x ∈ t.children (t.parent x) := by
  obtain ⟨hp, hxc⟩ := parent_mem_nodes hx.1 hne
  have hxp : x ∈ t.nodes (t.parent x) := mem_nodes_of_mem_children hxc (mem_nodes_self x)
  have hlt := t.height_lt hxc
  refine ⟨hx.2 _ hp hxp (fun h => by rw [h] at hlt; omega), ⟨hp, fun a ha hpa hne' => ?_⟩, hxc⟩
  refine hx.2 a ha (mem_nodes_trans hpa hxp) fun hax => ?_
  -- `a` above the parent of `x` is higher than `x`
  subst hax
  have := height_le_of_mem_nodes hpa
  omega

-- A block of the subtree the search does not reach lies below a cached block, so it is cached.
theorem cached_of_not_reaches (hcorrect : Correct t σ) (hclosed : Closed t σ) {x : Hash}
    (hx : x ∈ t.nodes block) (hnot : ¬Reaches t block σ x) : σ x = some (t.size x) := by
  simp only [Reaches, hx, true_and, not_forall] at hnot
  obtain ⟨a, ha, hxa, hne, hexp⟩ := hnot
  have hchildren : t.children a ≠ [] := by
    intro hnil
    rcases mem_nodes_iff.mp hxa with h | ⟨c, hc, -⟩
    · exact hne h.symm
    · rw [hnil] at hc; exact nomatch hc
  have hcached : σ a ≠ none := fun h => hexp ⟨hchildren, h⟩
  obtain ⟨v, hv⟩ := Option.ne_none_iff_exists'.mp (hclosed.subtree hcached x hxa)
  rw [hv, hcorrect x v hv]

theorem not_settled_of_mem {queue : List Hash} {y : Hash} (hy : y ∈ queue) :
    ¬Settled t queue y :=
  fun h => (h y hy).1 (mem_nodes_self y)

-- Being done with a block is being done with its subtree.
theorem Settled.below {queue : List Hash} {z c : Hash} (hz : Settled t queue z)
    (hc : c ∈ t.nodes z) : Settled t queue c := by
  intro y hy
  refine ⟨fun hcy => ?_, fun hyc => (hz y hy).2 (mem_nodes_trans hc hyc)⟩
  rcases nested_of_mem_nodes hcy hc with h | h
  · exact (hz y hy).2 h
  · exact (hz y hy).1 h

-- A block is done with when one block below it is and all its children are.
theorem settled_of_children {queue : List Hash} {x a : Hash} (hx : Settled t queue x)
    (hxa : x ∈ t.nodes a) (hchildren : ∀ c ∈ t.children a, Settled t queue c) :
    Settled t queue a := by
  intro y hy
  refine ⟨fun hay => (hx y hy).1 (mem_nodes_trans hay hxa), fun hya => ?_⟩
  rcases mem_nodes_iff.mp hya with rfl | ⟨c, hc, hyc⟩
  · exact (hx y hy).1 hxa
  · exact (hchildren c hc y hy).2 hyc

-- Expanding a queued block into its children leaves the same blocks done with.
theorem settled_expand {queue : List Hash} {x z : Hash} (hx : t.children x ≠ []) :
    Settled t (x :: queue) z ↔ Settled t (queue ++ t.children x) z := by
  simp only [Settled, List.forall_mem_cons, List.forall_mem_append]
  constructor
  · rintro ⟨hzx, hq⟩
    exact ⟨hq, fun c hc => hzx.children hc⟩
  · rintro ⟨hq, hcs⟩
    refine ⟨⟨fun hzx => ?_, fun hxz => ?_⟩, hq⟩
    · -- a block at or below `x` is at or above one of its children
      obtain ⟨c, hc⟩ := List.exists_mem_of_ne_nil _ hx
      rcases mem_nodes_iff.mp hzx with rfl | ⟨d, hd, hzd⟩
      · exact (hcs c hc).2 (mem_nodes_of_mem_children hc (mem_nodes_self c))
      · exact (hcs d hd).1 hzd
    · obtain ⟨c, hc⟩ := List.exists_mem_of_ne_nil _ hx
      exact (hcs c hc).2 (mem_nodes_trans hxz (mem_nodes_of_mem_children hc (mem_nodes_self c)))

theorem not_reaches_below {x z : Hash} (hx : Reaches t block σ x) (hexp : ¬Expands t σ x)
    (hzx : z ∈ t.nodes x) (hne : z ≠ x) : ¬Reaches t block σ z :=
  fun hz => hexp (hz.2 x hx.1 hzx hne.symm)

theorem ne_block_of_mem_children {a c : Hash} (ha : a ∈ t.nodes block) (hc : c ∈ t.children a) :
    c ≠ block := by
  rintro rfl
  exact not_mem_nodes_of_mem_children hc ha

-- Counting one more element: `q` holds where `p` does, and at `x`, where `p` does not.
theorem countP_eq_add_one {p q : Hash → Bool} {x : Hash} : ∀ {l : List Hash}, l.Nodup → x ∈ l →
    p x = false → q x = true → (∀ c ∈ l, c ≠ x → p c = q c) → l.countP q = l.countP p + 1
  | c :: l, hnd, hx, hpx, hqx, hpq => by
    rw [List.nodup_cons] at hnd
    by_cases hcx : c = x
    · subst hcx
      have hrest : l.countP q = l.countP p :=
        List.countP_congr fun d hd => by
          rw [hpq d (List.mem_cons_of_mem _ hd) fun h => hnd.1 (h ▸ hd)]
      rw [List.countP_cons, List.countP_cons, hrest, if_pos hqx, if_neg (by simp [hpx])]
    · have hx' : x ∈ l := (List.mem_cons.mp hx).resolve_left (Ne.symm hcx)
      rw [List.countP_cons, List.countP_cons,
        countP_eq_add_one hnd.2 hx' hpx hqx fun d hd => hpq d (List.mem_cons_of_mem _ hd),
        hpq c List.mem_cons_self hcx]
      omega

-- Counting under two conditions that agree on the list.
theorem countP_decide_congr {P Q : Hash → Prop} [DecidablePred P] [DecidablePred Q]
    {l : List Hash} (h : ∀ c ∈ l, P c ↔ Q c) :
    (l.countP fun c => decide (P c)) = l.countP fun c => decide (Q c) :=
  List.countP_congr fun c hc => by
    rw [decide_eq_true_iff, decide_eq_true_iff]
    exact h c hc

variable (t block σ)

-- The queue: distinct reached blocks, none below another.
structure Frontier (queue : List Hash) : Prop where
  nodup : queue.Nodup
  pairwise : queue.Pairwise t.Unrelated
  reaches : ∀ y ∈ queue, Reaches t block σ y

-- A child whose size the search has pushed up to its parent.
def Reported (queue : List Hash) (c : Hash) : Prop :=
  c ≠ block ∧ Reaches t block σ c ∧ Settled t queue c

instance (queue : List Hash) (c : Hash) : Decidable (Reported t block σ queue c) :=
  inferInstanceAs (Decidable (_ ∧ _))

-- Between two rounds of the outer loop: a reached block the search is done with has its size,
-- and every block counts its reported children.
structure Counting (queue : List Hash) (counts : Hash → Nat) (sizes : Hash → Option Nat) : Prop
    extends Frontier t block σ queue where
  sizes_eq : ∀ z, sizes z =
    if Reaches t block σ z ∧ Settled t queue z then some (t.size z) else σ z
  counts_eq : ∀ v, counts v = (t.children v).countP fun c => Reported t block σ queue c

-- Within the inner loop, whose news comes from `x`: as between rounds, but the blocks above `x`
-- have not heard of it yet.
structure Climbing (queue : List Hash) (x : Hash) (counts : Hash → Nat)
    (sizes : Hash → Option Nat) : Prop extends Frontier t block σ queue where
  reaches_x : Reaches t block σ x
  settled_x : Settled t queue x
  sizes_eq : ∀ z, sizes z =
    if Reaches t block σ z ∧ Settled t queue z ∧ (z = x ∨ x ∉ t.nodes z) then some (t.size z)
    else σ z
  counts_eq : ∀ v, counts v =
    (t.children v).countP fun c => Reported t block σ queue c ∧ x ∉ t.nodes c

variable {t block σ}

theorem Counting.init : Counting t block σ [block] (fun _ => 0) σ where
  nodup := List.nodup_singleton block
  pairwise := List.pairwise_singleton _ block
  reaches := fun _ hy => List.mem_singleton.mp hy ▸ reaches_block
  sizes_eq z := by
    rw [if_neg fun h => (h.2 block List.mem_cons_self).1 h.1.1]
  counts_eq v := by
    refine (List.countP_eq_zero.mpr fun c _ hc => ?_).symm
    have hc := of_decide_eq_true hc
    exact (hc.2.2 block List.mem_cons_self).1 hc.2.1.1

-- A block not yet counted is expanded into its children, which leaves the same blocks done with.
theorem Counting.expand {queue : List Hash} {x : Hash} {counts : Hash → Nat}
    {sizes : Hash → Option Nat} (h : Counting t block σ (x :: queue) counts sizes)
    (hchildren : t.children x ≠ []) (hsize : sizes x = none) :
    Counting t block σ (queue ++ t.children x) counts sizes := by
  have hx := h.reaches x List.mem_cons_self
  have hσ : σ x = none := by
    rw [h.sizes_eq x, if_neg fun h' => not_settled_of_mem List.mem_cons_self h'.2] at hsize
    exact hsize
  refine ⟨⟨nodup_expand h.nodup h.pairwise, pairwise_expand h.pairwise, ?_⟩, fun z => ?_,
    fun v => ?_⟩
  · intro y hy
    rcases List.mem_append.mp hy with hy | hy
    · exact h.reaches y (List.mem_cons_of_mem _ hy)
    · exact hx.child ⟨hchildren, hσ⟩ hy
  · rw [h.sizes_eq z]
    simp only [← settled_expand hchildren]
  · rw [h.counts_eq v]
    exact countP_decide_congr fun c _ => and_congr_right' (and_congr_right' (settled_expand hchildren))

-- Next to a reached block that is not expanded, being done with a reached block is being done
-- with it and not lying above it.
theorem settled_cons_iff {queue : List Hash} {x z : Hash} (hx : Reaches t block σ x)
    (hnexp : ¬Expands t σ x) (hz : Reaches t block σ z) :
    Settled t (x :: queue) z ↔ Settled t queue z ∧ x ∉ t.nodes z := by
  rw [Settled, List.forall_mem_cons, and_comm]
  refine and_congr_right fun _ => ⟨And.right, fun hxz => ⟨fun hzx => ?_, hxz⟩⟩
  by_cases hzx' : z = x
  · exact hxz (hzx' ▸ mem_nodes_self z)
  · exact not_reaches_below hx hnexp hzx hzx' hz

-- Above the parent of `x` is above `x`, for every block but `x`.
theorem mem_nodes_parent_iff {x a z : Hash} (hxa : x ∈ t.children a) (hz : z ≠ x) :
    x ∈ t.nodes z ↔ a ∈ t.nodes z := by
  refine ⟨fun hxz => ?_, fun haz => mem_nodes_trans haz (mem_nodes_of_mem_children hxa
    (mem_nodes_self x))⟩
  have := (parent_mem_nodes hxz hz.symm).1
  rwa [t.parent_eq hxa] at this

-- A leaf, or a block whose size is cached, leaves the queue: its size is known, and the news
-- is about to climb from it.
theorem Counting.climb (hcorrect : Correct t σ) {queue : List Hash} {x : Hash}
    {counts : Hash → Nat} {sizes : Hash → Option Nat}
    (h : Counting t block σ (x :: queue) counts sizes)
    (hterminal : ¬(t.children x ≠ [] ∧ sizes x = none)) :
    Climbing t block σ queue x counts
      (if t.children x = [] then Function.update sizes x (some 1) else sizes) := by
  have hx := h.reaches x List.mem_cons_self
  have hsx : sizes x = σ x := by
    rw [h.sizes_eq x, if_neg fun h' => not_settled_of_mem List.mem_cons_self h'.2]
  have hnexp : ¬Expands t σ x := fun hexp => hterminal ⟨hexp.1, hsx ▸ hexp.2⟩
  have hxq := List.pairwise_cons.mp h.pairwise
  refine ⟨⟨(List.nodup_cons.mp h.nodup).2, hxq.2,
    fun y hy => h.reaches y (List.mem_cons_of_mem _ hy)⟩, hx, hxq.1, fun z => ?_, fun v => ?_⟩
  · by_cases hzx : z = x
    · -- the popped block: a leaf has size 1, a cached block its cached size
      have hcond : Reaches t block σ x ∧ Settled t queue x ∧ (x = x ∨ x ∉ t.nodes x) :=
        ⟨hx, hxq.1, .inl rfl⟩
      rw [hzx, if_pos hcond]
      by_cases hleaf : t.children x = []
      · rw [if_pos hleaf, Function.update_self, size_eq, hleaf]
        rfl
      · obtain ⟨v, hv⟩ := Option.ne_none_iff_exists'.mp
          (fun hnone => hterminal ⟨hleaf, hnone⟩)
        rw [if_neg hleaf, hv, hcorrect x v (hsx ▸ hv)]
    · have hsz : (if t.children x = [] then Function.update sizes x (some 1) else sizes) z =
          sizes z := by
        split_ifs
        · exact Function.update_of_ne hzx _ _
        · rfl
      rw [hsz, h.sizes_eq z]
      refine if_congr ⟨fun ⟨hz, hs⟩ => ?_, fun ⟨hz, hs, hzx'⟩ => ?_⟩ rfl rfl
      · obtain ⟨hs, hxz⟩ := (settled_cons_iff hx hnexp hz).mp hs
        exact ⟨hz, hs, .inr hxz⟩
      · exact ⟨hz, (settled_cons_iff hx hnexp hz).mpr ⟨hs, hzx'.resolve_left hzx⟩⟩
  · rw [h.counts_eq v]
    refine countP_decide_congr fun c _ => ?_
    exact ⟨fun ⟨hcb, hc, hs⟩ => ⟨⟨hcb, hc, ((settled_cons_iff hx hnexp hc).mp hs).1⟩,
        ((settled_cons_iff hx hnexp hc).mp hs).2⟩,
      fun ⟨⟨hcb, hc, hs⟩, hxc⟩ => ⟨hcb, hc, (settled_cons_iff hx hnexp hc).mpr ⟨hs, hxc⟩⟩⟩

-- The news reaches `block`: every block above has heard it.
theorem Climbing.at_block {queue : List Hash} {counts : Hash → Nat} {sizes : Hash → Option Nat}
    (h : Climbing t block σ queue block counts sizes) : Counting t block σ queue counts sizes := by
  refine ⟨h.toFrontier, fun z => ?_, fun v => ?_⟩
  · rw [h.sizes_eq z]
    refine if_congr ⟨fun ⟨hz, hs, _⟩ => ⟨hz, hs⟩, fun ⟨hz, hs⟩ => ⟨hz, hs, ?_⟩⟩ rfl rfl
    by_cases hzb : z = block
    · exact .inl hzb
    · exact .inr fun hbz => hzb (eq_of_mem_nodes_of_mem_nodes hbz hz.1)
  · rw [h.counts_eq v]
    refine countP_decide_congr fun c _ => ?_
    exact ⟨And.left, fun hc => ⟨hc, fun hbc => hc.1 (eq_of_mem_nodes_of_mem_nodes hbc hc.2.1.1)⟩⟩

variable {queue : List Hash} {x : Hash} {counts : Hash → Nat} {sizes : Hash → Option Nat}

-- The parent of `x` counts `x` now.
theorem Climbing.count_parent (h : Climbing t block σ queue x counts sizes) (hne : x ≠ block) :
    counts (t.parent x) + 1 =
      (t.children (t.parent x)).countP fun c => Reported t block σ queue c := by
  obtain ⟨-, -, hxc⟩ := h.reaches_x.parent hne
  rw [h.counts_eq]
  refine (countP_eq_add_one (t.nodup _) hxc ?_ ?_ fun c hc hcx => ?_).symm
  · exact decide_eq_false fun hr => hr.2 (mem_nodes_self x)
  · exact decide_eq_true ⟨hne, h.reaches_x, h.settled_x⟩
  · -- no other child of the parent lies above `x`
    exact decide_eq_decide.mpr ⟨And.left, fun hr => ⟨hr, (unrelated_of_mem_children hc hxc hcx).2⟩⟩

-- The parent of `x` still waits for a child: the blocks above `x` are not done with, and the
-- state is that between two rounds.
theorem Climbing.wait (h : Climbing t block σ queue x counts sizes) (hne : x ≠ block)
    (hlt : Function.update counts (t.parent x) (counts (t.parent x) + 1) (t.parent x) <
      (t.children (t.parent x)).length) :
    Counting t block σ queue (Function.update counts (t.parent x) (counts (t.parent x) + 1))
      sizes := by
  obtain ⟨hexp, hpreach, hxc⟩ := h.reaches_x.parent hne
  have hcount := h.count_parent hne
  rw [Function.update_self, hcount] at hlt
  -- a child the parent waits for is not done with, so neither is anything above it
  obtain ⟨c, hc, hcr⟩ : ∃ c ∈ t.children (t.parent x), ¬Reported t block σ queue c := by
    by_contra hall
    rw [List.countP_eq_length.mpr fun c hc =>
      decide_eq_true (not_not.mp fun hn => hall ⟨c, hc, hn⟩)] at hlt
    exact Nat.lt_irrefl _ hlt
  have hcs : ¬Settled t queue c := fun hs =>
    hcr ⟨ne_block_of_mem_children hpreach.1 hc, hpreach.child hexp hc, hs⟩
  have habove : ∀ z, z ≠ x → x ∈ t.nodes z → ¬Settled t queue z := fun z hzx hxz hs =>
    hcs (hs.below (mem_nodes_trans ((mem_nodes_parent_iff hxc hzx).mp hxz)
      (mem_nodes_of_mem_children hc (mem_nodes_self c))))
  refine ⟨h.toFrontier, fun z => ?_, fun v => ?_⟩
  · rw [h.sizes_eq z]
    refine if_congr ⟨fun ⟨hz, hs, _⟩ => ⟨hz, hs⟩, fun ⟨hz, hs⟩ => ⟨hz, hs, ?_⟩⟩ rfl rfl
    by_cases hzx : z = x
    · exact .inl hzx
    · exact .inr fun hxz => habove z hzx hxz hs
  · by_cases hv : v = t.parent x
    · subst hv
      rw [Function.update_self, hcount]
    · rw [Function.update_of_ne hv, h.counts_eq v]
      refine countP_decide_congr fun d hd => ⟨And.left, fun hr => ⟨hr, fun hxd => ?_⟩⟩
      -- a child of another block is not `x`, so it lies above the parent of `x`
      have hdx : d ≠ x := by
        rintro rfl
        exact hv (t.parent_eq hd).symm
      exact habove d hdx hxd hr.2.2

-- Every child of the parent of `x` is done with: the parent's size is their sum and one, and
-- the news climbs on from the parent.
theorem Climbing.up (h : Climbing t block σ queue x counts sizes) (hne : x ≠ block)
    (hge : ¬Function.update counts (t.parent x) (counts (t.parent x) + 1) (t.parent x) <
      (t.children (t.parent x)).length) :
    (t.children (t.parent x)).mapM sizes = some ((t.children (t.parent x)).map t.size) ∧
      Climbing t block σ queue (t.parent x)
        (Function.update counts (t.parent x) (counts (t.parent x) + 1))
        (Function.update sizes (t.parent x)
          (some (((t.children (t.parent x)).map t.size).sum + 1))) := by
  obtain ⟨hexp, hpreach, hxc⟩ := h.reaches_x.parent hne
  have hcount := h.count_parent hne
  rw [Function.update_self, hcount] at hge
  have hall : ∀ c ∈ t.children (t.parent x), Reported t block σ queue c := by
    have := List.countP_eq_length.mp
      (Nat.le_antisymm (List.countP_le_length) (Nat.le_of_not_lt hge))
    exact fun c hc => of_decide_eq_true (this c hc)
  have hxa : x ∈ t.nodes (t.parent x) := mem_nodes_of_mem_children hxc (mem_nodes_self x)
  have hsettled := settled_of_children h.settled_x hxa fun c hc => (hall c hc).2.2
  -- the children of the parent are `x` and blocks beside it
  have hbeside : ∀ c ∈ t.children (t.parent x), c = x ∨ x ∉ t.nodes c := fun c hc => by
    by_cases hcx : c = x
    · exact .inl hcx
    · exact .inr (unrelated_of_mem_children hc hxc hcx).2
  refine ⟨mapM_eq_some_map fun c hc => ?_,
    ⟨h.toFrontier, hpreach, hsettled, fun z => ?_, fun v => ?_⟩⟩
  · rw [h.sizes_eq c, if_pos ⟨(hall c hc).2.1, (hall c hc).2.2, hbeside c hc⟩]
  · by_cases hz : z = t.parent x
    · subst hz
      rw [Function.update_self, ← size_eq, if_pos ⟨hpreach, hsettled, .inl rfl⟩]
    · rw [Function.update_of_ne hz, h.sizes_eq z]
      refine if_congr (and_congr_right fun _ => and_congr_right fun _ => ?_) rfl rfl
      by_cases hzx : z = x
      · subst hzx
        exact ⟨fun _ => .inr (not_mem_nodes_of_mem_children hxc), fun _ => .inl rfl⟩
      · rw [mem_nodes_parent_iff hxc hzx]
        exact ⟨fun h' => .inr (h'.resolve_left hzx), fun h' => .inr (h'.resolve_left hz)⟩
  · by_cases hv : v = t.parent x
    · subst hv
      rw [Function.update_self, hcount]
      exact countP_decide_congr fun c hc =>
        ⟨fun hr => ⟨hr, not_mem_nodes_of_mem_children hc⟩, And.left⟩
    · rw [Function.update_of_ne hv, h.counts_eq v]
      refine countP_decide_congr fun d hd => ?_
      have hdx : d ≠ x := by
        rintro rfl
        exact hv (t.parent_eq hd).symm
      rw [mem_nodes_parent_iff hxc hdx]

-- The inner loop ends, with the state between two rounds; it climbs at most from `x` to
-- `block`.
theorem push_up_spec : ∀ (fuel : Nat) {x : Hash} {counts : Hash → Nat}
    {sizes : Hash → Option Nat}, Climbing t block σ queue x counts sizes →
    t.height block - t.height x < fuel →
      ∃ counts' sizes', push_up t block fuel x counts sizes = some (counts', sizes') ∧
        Counting t block σ queue counts' sizes'
  | 0, _, _, _, _, hfuel => absurd hfuel (Nat.not_lt_zero _)
  | fuel + 1, x, counts, sizes, h, hfuel => by
    by_cases hx : x = block
    · subst hx
      exact ⟨counts, sizes, by rw [push_up, if_pos rfl], h.at_block⟩
    obtain ⟨-, hpreach, hxc⟩ := h.reaches_x.parent hx
    rw [push_up, if_neg hx]
    dsimp only
    split_ifs with hlt
    · exact ⟨_, _, rfl, h.wait hx hlt⟩
    · obtain ⟨hmap, hup⟩ := h.up hx hlt
      rw [hmap]
      -- the parent is higher than `x` and not higher than `block`
      have := height_le_of_mem_nodes hpreach.1
      have := t.height_lt hxc
      exact push_up_spec fuel hup (by omega)

-- The outer loop ends with the queue empty: a reached block has its size, and every other block
-- keeps what the cache held. Each round takes a block off the pending subtrees.
theorem count_loop_spec (hcorrect : Correct t σ) : ∀ (fuel : Nat) {queue : List Hash}
    {counts : Hash → Nat} {sizes : Hash → Option Nat}, Counting t block σ queue counts sizes →
    t.pending queue < fuel → ∃ sizes', count_loop t block fuel queue counts sizes = some sizes' ∧
      ∀ z, sizes' z = if Reaches t block σ z then some (t.size z) else σ z
  | 0, _, _, _, _, hfuel => absurd hfuel (Nat.not_lt_zero _)
  | fuel + 1, [], counts, sizes, h, _ =>
    ⟨sizes, rfl, fun z => by
      rw [h.sizes_eq z]
      exact if_congr ⟨And.left, fun hz => ⟨hz, fun _ hy => nomatch hy⟩⟩ rfl rfl⟩
  | fuel + 1, x :: queue, counts, sizes, h, hfuel => by
    rw [count_loop]
    dsimp only
    by_cases hexpand : t.children x ≠ [] ∧ sizes x = none
    · rw [if_pos hexpand]
      have := t.pending_expand x queue
      exact count_loop_spec hcorrect fuel (h.expand hexpand.1 hexpand.2) (by omega)
    · rw [if_neg hexpand]
      obtain ⟨counts', sizes', hpush, h'⟩ :=
        push_up_spec (t.height block + 1) (h.climb hcorrect hexpand) (by omega)
      rw [hpush]
      have := t.pending_pop x queue
      exact count_loop_spec hcorrect fuel h' (by omega)

end Search


section Propagate

-- `propagate_loop` over a subtree whose sizes are cached.

variable {t : FiniteTree Hash} {block : Hash}

-- A relation between two lists, read off at each pair of the zip.
theorem exists_mem_zip_of_forall₂ {α β : Type*} {R : α → β → Prop} :
    ∀ {l₁ : List α} {l₂ : List β}, List.Forall₂ R l₁ l₂ →
      ∀ a ∈ l₁, ∃ b, (a, b) ∈ l₁.zip l₂ ∧ R a b
  | _, _, .nil, _, ha => nomatch ha
  | a' :: _, b' :: _, .cons hab hrest, a, ha => by
    rcases List.mem_cons.mp ha with rfl | ha
    · exact ⟨b', List.mem_cons_self, hab⟩
    · obtain ⟨b, hmem, hR⟩ := exists_mem_zip_of_forall₂ hrest a ha
      exact ⟨b, List.mem_cons_of_mem _ hmem, hR⟩

-- Setting the intervals of distinct blocks one after another.
theorem interval_foldl_set : ∀ (ps : List (Hash × Interval)) (store : ReachabilityStore),
    (ps.map Prod.fst).Nodup →
      (∀ c p, (c, p) ∈ ps →
        (ps.foldl (fun s ci => s.set_interval ci.1 ci.2) store).interval c = p) ∧
      (∀ z, z ∉ ps.map Prod.fst →
        (ps.foldl (fun s ci => s.set_interval ci.1 ci.2) store).interval z = store.interval z) ∧
      (ps.foldl (fun s ci => s.set_interval ci.1 ci.2) store).tree = store.tree
  | [], _, _ => ⟨fun _ _ h => (nomatch h), fun _ _ => rfl, rfl⟩
  | (c, p) :: ps, store, hnd => by
    rw [List.map_cons, List.nodup_cons] at hnd
    obtain ⟨hset, hkeep, htree⟩ := interval_foldl_set ps (store.set_interval c p) hnd.2
    rw [List.foldl_cons]
    refine ⟨fun c' p' hmem => ?_, fun z hz => ?_, htree⟩
    · rcases List.mem_cons.mp hmem with h | hmem
      · obtain ⟨rfl, rfl⟩ := Prod.mk.inj h
        rw [hkeep c' hnd.1]
        exact Function.update_self _ _ _
      · exact hset c' p' hmem
    · rw [List.map_cons, List.mem_cons, not_or] at hz
      rw [hkeep z hz.2]
      exact Function.update_of_ne hz.1 _ _

variable (t block)

-- Within the loop: the queue holds unrelated blocks of the subtree with room for their
-- subtrees, and a block of the subtree not below the queue has room for its subtree inside the
-- children capacity of its parent.
structure Propagating (queue : List Hash) (ctx : ReindexOperationContext) : Prop where
  tree_eq : ctx.store.tree = t
  sizes : ∀ x ∈ t.nodes block, ctx.subtree_sizes x = some (t.size x)
  nodup : queue.Nodup
  pairwise : queue.Pairwise t.Unrelated
  mem : ∀ y ∈ queue, y ∈ t.nodes block
  room : ∀ y ∈ queue, t.size y ≤ (ctx.store.interval y).size
  placed : ∀ x ∈ t.nodes block, x ≠ block → (∀ y ∈ queue, x ∉ t.nodes y ∨ x = y) →
    t.size x ≤ (ctx.store.interval x).size ∧
      (ctx.store.interval_children_capacity (t.parent x)).contains (ctx.store.interval x) = true

variable {t block}

-- A block without children leaves the queue.
theorem Propagating.pop_leaf {queue : List Hash} {x : Hash} {ctx : ReindexOperationContext}
    (h : Propagating t block (x :: queue) ctx) (hleaf : t.children x = []) :
    Propagating t block queue ctx := by
  refine ⟨h.tree_eq, h.sizes, (List.nodup_cons.mp h.nodup).2,
    (List.pairwise_cons.mp h.pairwise).2, fun y hy => h.mem y (List.mem_cons_of_mem _ hy),
    fun y hy => h.room y (List.mem_cons_of_mem _ hy), fun z hz hne hq => h.placed z hz hne ?_⟩
  -- nothing lies strictly below a leaf: expanding it queues nothing
  refine outside_expand (by rwa [hleaf, List.append_nil]) ?_
  rw [hleaf]
  exact List.not_mem_nil

-- The children's subtrees fit in the children capacity of a block whose interval has room for
-- its subtree.
theorem sum_sizes_le_capacity {store : ReachabilityStore} {x : Hash}
    (hroom : t.size x ≤ (store.interval x).size) (hchildren : t.children x ≠ []) :
    ((t.children x).map t.size).sum ≤ (store.interval_children_capacity x).size := by
  rw [size_eq] at hroom
  have hpos : 0 < ((t.children x).map t.size).sum :=
    Interval.sum_pos (by simpa using fun c _ => t.size_pos c) (by simpa using hchildren)
  simp only [ReachabilityStore.interval_children_capacity, ReachabilityStore.get_interval,
    Interval.decrease_end, Interval.new, Interval.size] at hroom ⊢
  omega

-- A block with children splits its children capacity among them.
theorem Propagating.pop_split (round : Nat → List Nat → Nat → Nat) {queue : List Hash}
    {x : Hash} {ctx : ReindexOperationContext} (h : Propagating t block (x :: queue) ctx)
    (hchildren : t.children x ≠ []) :
    ∃ parts, (t.children x).mapM ctx.subtree_sizes = some ((t.children x).map t.size) ∧
      (ctx.store.interval_children_capacity x).split_exponential round
        ((t.children x).map t.size) = some parts ∧
      Propagating t block (queue ++ t.children x)
        { ctx with
          store := (((t.children x).zip parts).foldl (fun store ci => store.set_interval ci.1 ci.2)
            ctx.store) } := by
  have hx := h.mem x List.mem_cons_self
  have hcs : ∀ c ∈ t.children x, c ∈ t.nodes block := fun c hc =>
    mem_nodes_trans hx (mem_nodes_of_mem_children hc (mem_nodes_self c))
  have hpos : ∀ s ∈ (t.children x).map t.size, 0 < s := by
    simpa using fun c _ => t.size_pos c
  obtain ⟨parts, hsplit, htiles, hsizes⟩ := Interval.split_exponential_spec round
    (by simpa using hchildren) hpos (sum_sizes_le_capacity (h.room x List.mem_cons_self) hchildren)
  have hlen : (t.children x).length = parts.length := by
    simpa using hsizes.length_eq
  obtain ⟨hset, hkeep, htree⟩ := interval_foldl_set ((t.children x).zip parts) ctx.store
    (by rw [List.map_fst_zip (Nat.le_of_eq hlen)]; exact t.nodup x)
  rw [List.map_fst_zip (Nat.le_of_eq hlen)] at hkeep
  set store' := ((t.children x).zip parts).foldl (fun s ci => s.set_interval ci.1 ci.2) ctx.store
  -- every child gets a part with room for its subtree, inside the capacity of `x`
  have hnew : ∀ c ∈ t.children x, t.size c ≤ (store'.interval c).size ∧
      (ctx.store.interval_children_capacity x).contains (store'.interval c) = true := by
    intro c hc
    obtain ⟨p, hmem, hp⟩ := exists_mem_zip_of_forall₂ (List.forall₂_map_left_iff.mp hsizes) c hc
    rw [hset c p hmem]
    exact ⟨hp, Interval.contains_of_tiles htiles hsizes hpos p (List.of_mem_zip hmem).2⟩
  -- the capacity of every block but the children of `x` stays
  have hcap : ∀ v, v ∉ t.children x →
      store'.interval_children_capacity v = ctx.store.interval_children_capacity v :=
    fun v hv => by
      simp only [ReachabilityStore.interval_children_capacity, ReachabilityStore.get_interval,
        hkeep v hv]
  have hxq := List.pairwise_cons.mp h.pairwise
  refine ⟨parts, mapM_eq_some_map fun c hc => h.sizes c (hcs c hc), hsplit,
    ⟨by rw [htree]; exact h.tree_eq, h.sizes, nodup_expand h.nodup h.pairwise,
      pairwise_expand h.pairwise, fun y hy => ?_, fun y hy => ?_, fun z hz hne hq => ?_⟩⟩
  · rcases List.mem_append.mp hy with hy | hy
    · exact h.mem y (List.mem_cons_of_mem _ hy)
    · exact hcs y hy
  · rcases List.mem_append.mp hy with hy | hy
    · have hyc : y ∉ t.children x := fun hyc => (hxq.1 y hy).2
        (mem_nodes_of_mem_children hyc (mem_nodes_self y))
      dsimp only
      rw [hkeep y hyc]
      exact h.room y (List.mem_cons_of_mem _ hy)
    · exact (hnew y hy).1
  · dsimp only
    by_cases hzc : z ∈ t.children x
    · -- a child of `x`: its part lies in the capacity of `x`, which stays
      rw [t.parent_eq hzc, hcap x (not_mem_children_self x)]
      exact hnew z hzc
    · -- any other block outside the queue was outside it before
      have hpz := parent_not_mem_children (parent_mem_nodes hz hne).2
        (List.forall_mem_append.mp hq).2
      rw [hcap _ hpz, hkeep z hzc]
      exact h.placed z hz hne (outside_expand hq hzc)

-- The loop ends with the queue empty, every round taking a block off the pending subtrees.
theorem propagate_loop_spec (round : Nat → List Nat → Nat → Nat) : ∀ (fuel : Nat)
    {queue : List Hash} {ctx : ReindexOperationContext}, Propagating t block queue ctx →
    t.pending queue < fuel →
      ∃ ctx', propagate_loop round fuel queue ctx = some ctx' ∧ Propagating t block [] ctx'
  | 0, _, _, _, hfuel => absurd hfuel (Nat.not_lt_zero _)
  | fuel + 1, [], ctx, h, _ => ⟨ctx, rfl, h⟩
  | fuel + 1, x :: queue, ctx, h, hfuel => by
    have hchildren : ctx.store.get_children x = t.children x := by
      rw [ReachabilityStore.get_children, h.tree_eq]
    rw [propagate_loop]
    dsimp only
    rw [hchildren]
    by_cases hleaf : t.children x = []
    · rw [if_pos hleaf]
      have := t.pending_pop x queue
      exact propagate_loop_spec round fuel (h.pop_leaf hleaf) (by omega)
    · rw [if_neg hleaf]
      obtain ⟨parts, hmap, hsplit, h'⟩ := h.pop_split round hleaf
      rw [hmap]
      dsimp only
      rw [hsplit]
      have := t.pending_expand x queue
      exact propagate_loop_spec round fuel h' (by omega)

end Propagate

-- `count_subtrees` caches the size of every block of the subtree, and keeps the cache right and
-- closed, when it starts right and closed.
theorem count_subtrees_spec (ctx : ReindexOperationContext) (block : Hash)
    (hcorrect : Correct ctx.store.tree ctx.subtree_sizes)
    (hclosed : Closed ctx.store.tree ctx.subtree_sizes) :
    ∃ ctx', ctx.count_subtrees block = some ctx' ∧ ctx'.store = ctx.store ∧
      (∀ x ∈ ctx.store.tree.nodes block, ctx'.subtree_sizes x = some (ctx.store.tree.size x)) ∧
      Correct ctx.store.tree ctx'.subtree_sizes ∧ Closed ctx.store.tree ctx'.subtree_sizes := by
  unfold count_subtrees
  split_ifs with hcached
  · -- the whole subtree is cached already
    refine ⟨ctx, rfl, rfl, fun x hx => ?_, hcorrect, hclosed⟩
    obtain ⟨v, hv⟩ := Option.ne_none_iff_exists'.mp
      (hclosed.subtree (Option.isSome_iff_ne_none.mp hcached) x hx)
    rw [hv, hcorrect x v hv]
  · obtain ⟨sizes, hloop, hsizes⟩ := count_loop_spec hcorrect _ Counting.init
      (show ctx.store.tree.pending [block] < ctx.store.tree.size block + 1 by
        simp [FiniteTree.pending])
    rw [hloop]
    -- a block cached before stays cached
    have hkeep : ∀ c, ctx.subtree_sizes c ≠ none → sizes c ≠ none := fun c hc => by
      rw [hsizes c]
      split_ifs
      · exact Option.some_ne_none _
      · exact hc
    refine ⟨{ ctx with subtree_sizes := sizes }, rfl, rfl, fun x hx => ?_, fun x v hv => ?_,
      fun x hx c hc => ?_⟩ <;> dsimp only at *
    · rw [hsizes x]
      split_ifs with hreach
      · rfl
      · exact cached_of_not_reaches hcorrect hclosed hx hreach
    · rw [hsizes x] at hv
      split_ifs at hv
      · exact (Option.some.inj hv).symm
      · exact hcorrect x v hv
    · rw [hsizes x] at hx
      split_ifs at hx with hreach
      · by_cases hexp : Expands ctx.store.tree ctx.subtree_sizes x
        · rw [hsizes c, if_pos (hreach.child hexp hc)]
          exact Option.some_ne_none _
        · -- a reached block that is not expanded and has children is cached
          have hchildren : ctx.store.tree.children x ≠ [] := fun hnil => by
            rw [hnil] at hc; exact List.not_mem_nil hc
          exact hkeep c (hclosed x (fun hnone => hexp ⟨hchildren, hnone⟩) c hc)
      · exact hkeep c (hclosed x hx c hc)

-- `propagate_interval` gives every block below `block` an interval with room for its subtree,
-- inside the children capacity of its parent, when the interval of `block` has room for its
-- subtree.
theorem propagate_interval_spec (round : Nat → List Nat → Nat → Nat)
    (ctx : ReindexOperationContext) (block : Hash)
    (hcorrect : Correct ctx.store.tree ctx.subtree_sizes)
    (hclosed : Closed ctx.store.tree ctx.subtree_sizes)
    (hroom : ctx.store.tree.size block ≤ (ctx.store.get_interval block).size) :
    ∃ ctx', ctx.propagate_interval round block = some ctx' ∧ ctx'.store.tree = ctx.store.tree ∧
      ∀ x ∈ ctx.store.tree.nodes block, x ≠ block →
        ctx.store.tree.size x ≤ (ctx'.store.get_interval x).size ∧
        (ctx'.store.interval_children_capacity (ctx.store.tree.parent x)).contains
          (ctx'.store.get_interval x) = true := by
  obtain ⟨ctx1, hcount, hstore, hsizes, -, -⟩ := count_subtrees_spec ctx block hcorrect hclosed
  have hstart : Propagating ctx.store.tree block [block] ctx1 := by
    refine ⟨by rw [hstore], hsizes, List.nodup_singleton block, List.pairwise_singleton _ block,
      fun y hy => by rw [List.mem_singleton.mp hy]; exact mem_nodes_self block,
      fun y hy => ?_, fun z hz hne hq => ?_⟩
    · rw [List.mem_singleton.mp hy, hstore]
      exact hroom
    · -- every other block of the subtree is below `block`
      rcases hq block List.mem_cons_self with h' | h'
      · exact absurd hz h'
      · exact absurd h' hne
  obtain ⟨ctx', hloop, hend⟩ := propagate_loop_spec round _ hstart
    (show ctx.store.tree.pending [block] < ctx1.store.tree.size block + 1 by
      simp [FiniteTree.pending, hstore])
  refine ⟨ctx', ?_, hend.tree_eq, fun x hx hne => hend.placed x hx hne fun _ hy => (List.not_mem_nil hy).elim⟩
  simp only [propagate_interval, hcount, Option.bind_eq_bind, Option.bind_some]
  exact hloop

end ReindexOperationContext

-- A chain of three blocks, `[0]` above `[1]` above `[2]`.
def chain_tree : FiniteTree Hash where
  children h := if h = [0] then [[1]] else if h = [1] then [[2]] else []
  parent h := if h = [2] then [1] else if h = [1] then [0] else h
  height h := if h = [0] then 2 else if h = [1] then 1 else 0
  parent_eq := by
    intro p c hc
    by_cases h0 : p = [0]
    · subst h0
      simp only [if_pos, List.mem_singleton] at hc
      subst hc
      decide
    · by_cases h1 : p = [1]
      · subst h1
        simp only [if_neg h0, if_pos, List.mem_singleton] at hc
        subst hc
        decide
      · simp [h0, h1] at hc
  height_lt := by
    intro p c hc
    by_cases h0 : p = [0]
    · subst h0
      simp only [if_pos, List.mem_singleton] at hc
      subst hc
      decide
    · by_cases h1 : p = [1]
      · subst h1
        simp only [if_neg h0, if_pos, List.mem_singleton] at hc
        subst hc
        decide
      · simp [h0, h1] at hc
  nodup := by
    intro p
    by_cases h0 : p = [0]
    · simp [h0]
    · by_cases h1 : p = [1] <;> simp [h0, h1]

end Waglayla.Consensus.Reachability
