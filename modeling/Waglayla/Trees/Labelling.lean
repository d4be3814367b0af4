import Waglayla.Trees.Finite
import Mathlib.Data.List.Pairwise
import Mathlib.Order.Basic
import Mathlib.Algebra.Order.BigOperators.Group.List
import Mathlib.Algebra.Order.Group.Nat

-- Interval labellings of a finite tree: containment of ranges is ancestry.

namespace FiniteTree

variable {α β : Type*} [LinearOrder β] (t : FiniteTree α)

-- The labelling at one node: its range is not empty, holds the range of each child, which ends
-- before it, and the ranges of the children follow one another.
structure LabelledAt (lo hi : α → β) (x : α) : Prop where
  nonempty : lo x ≤ hi x
  inside : ∀ c ∈ t.children x, lo x ≤ lo c ∧ hi c < hi x
  ordered : (t.children x).Pairwise fun c d => hi c < lo d

-- A labelling of the subtree of `root`.
def Labelled (root : α) (lo hi : α → β) : Prop := ∀ x ∈ t.nodes root, t.LabelledAt lo hi x

instance (lo hi : α → β) (x : α) : Decidable (t.LabelledAt lo hi x) :=
  decidable_of_iff (lo x ≤ hi x ∧ (∀ c ∈ t.children x, lo x ≤ lo c ∧ hi c < hi x) ∧
      (t.children x).Pairwise fun c d => hi c < lo d)
    ⟨fun h => ⟨h.1, h.2.1, h.2.2⟩, fun h => ⟨h.nonempty, h.inside, h.ordered⟩⟩

instance (root : α) (lo hi : α → β) : Decidable (t.Labelled root lo hi) :=
  inferInstanceAs (Decidable (∀ x ∈ t.nodes root, t.LabelledAt lo hi x))

variable {t} {root : α} {lo hi lo' hi' : α → β} {x y : α}

-- The labelling at a node reads the ranges of the node and of its children only.
theorem LabelledAt.congr (h : t.LabelledAt lo hi x) (hx : lo' x = lo x ∧ hi' x = hi x)
    (hc : ∀ c ∈ t.children x, lo' c = lo c ∧ hi' c = hi c) : t.LabelledAt lo' hi' x := by
  refine ⟨by rw [hx.1, hx.2]; exact h.nonempty, fun c hcx => ?_, ?_⟩
  · rw [hx.1, hx.2, (hc c hcx).1, (hc c hcx).2]
    exact h.inside c hcx
  · refine h.ordered.imp_of_mem fun hcx hdx hcd => ?_
    rw [(hc _ hcx).2, (hc _ hdx).1]
    exact hcd

-- A node is labelled when its children, cut at one of them `c`, have ranges laid out inside its
-- own: those before `c` one after another and before `c`'s, those after `c` one after another
-- and after it.
theorem labelledAt_of_split {pre post : List α} {c : α} (hsplit : t.children x = pre ++ c :: post)
    (hne : lo x ≤ hi x) (hpre : ∀ d ∈ pre, lo x ≤ lo d ∧ hi d < lo c)
    (hpre_ord : pre.Pairwise fun d e => hi d < lo e) (hc : lo x ≤ lo c ∧ lo c ≤ hi c ∧ hi c < hi x)
    (hpost : ∀ d ∈ post, hi c < lo d ∧ hi d < hi x)
    (hpost_ord : post.Pairwise fun d e => hi d < lo e) : t.LabelledAt lo hi x := by
  refine ⟨hne, fun d hd => ?_, ?_⟩
  · rw [hsplit, List.mem_append, List.mem_cons] at hd
    rcases hd with hd | rfl | hd
    · exact ⟨(hpre d hd).1, ((hpre d hd).2.trans_le hc.2.1).trans hc.2.2⟩
    · exact ⟨hc.1, hc.2.2⟩
    · exact ⟨hc.1.trans (hc.2.1.trans (hpost d hd).1.le), (hpost d hd).2⟩
  · rw [hsplit, List.pairwise_append, List.pairwise_cons]
    refine ⟨hpre_ord, ⟨fun d hd => (hpost d hd).1, hpost_ord⟩, fun d hd e he => ?_⟩
    rcases List.mem_cons.mp he with rfl | he
    · exact (hpre d hd).2
    · exact (hpre d hd).2.trans_le (hc.2.1.trans (hpost e he).1.le)

theorem Labelled.subtree (h : t.Labelled root lo hi) (hx : x ∈ t.nodes root) :
    t.Labelled x lo hi :=
  fun y hy => h y (mem_nodes_trans hx hy)

-- Where every node holds the ranges of its children, the range of a node holds the ranges of
-- all nodes below it.
theorem le_of_mem_nodes_of_inside
    (hin : ∀ p ∈ t.nodes x, ∀ c ∈ t.children p, lo p ≤ lo c ∧ hi c < hi p) (hy : y ∈ t.nodes x) :
    lo x ≤ lo y ∧ hi y ≤ hi x :=
  nodes_induction (P := fun w => lo x ≤ lo w ∧ hi w ≤ hi x) x ⟨le_rfl, le_rfl⟩
    (fun p c hp hP hc => by
      have hpc := hin p hp c hc
      exact ⟨hP.1.trans hpc.1, hpc.2.le.trans hP.2⟩) y hy

-- Where every node holds the ranges of its children, a node strictly below another ends before
-- it.
theorem hi_lt_of_mem_nodes_of_inside
    (hin : ∀ p ∈ t.nodes x, ∀ c ∈ t.children p, lo p ≤ lo c ∧ hi c < hi p) (hy : y ∈ t.nodes x)
    (hne : y ≠ x) : hi y < hi x := by
  obtain ⟨hp, hyp⟩ := parent_mem_nodes hy hne
  exact (hin _ hp y hyp).2.trans_le (le_of_mem_nodes_of_inside hin hp).2

-- Where every node holds the ranges of its children in order, a range that is not empty lies
-- strictly inside another only below it. No other range need be non-empty: this is what a tree
-- with one leaf still waiting for its range keeps.
theorem mem_nodes_of_lt_of_inside
    (hin : ∀ p ∈ t.nodes root, ∀ c ∈ t.children p, lo p ≤ lo c ∧ hi c < hi p)
    (hord : ∀ p ∈ t.nodes root, (t.children p).Pairwise fun c d => hi c < lo d)
    (hx : x ∈ t.nodes root) (hy : y ∈ t.nodes root) (hne : lo y ≤ hi y)
    (hlt : lo x ≤ lo y ∧ hi y < hi x) : y ∈ t.nodes x ∧ y ≠ x := by
  have hle : ∀ {w u}, w ∈ t.nodes root → u ∈ t.nodes w → lo w ≤ lo u ∧ hi u ≤ hi w :=
    fun hw hu => le_of_mem_nodes_of_inside (fun p hp => hin p (mem_nodes_trans hw hp)) hu
  rcases nested_or_split hx hy with hxy | hyx | ⟨w, hw, c, hc, d, hd, hcd, hxc, hyd⟩
  · exact ⟨hxy, fun hyx => (hyx ▸ hlt.2).false⟩
  · -- `x` below `y` ends no later than `y`
    exact absurd (hle hy hyx).2 (not_le.mpr hlt.2)
  · -- below two children of `w` the ranges are one before the other, and `y`'s is not empty
    have hxc' := hle (mem_nodes_trans hw (mem_nodes_of_mem_children hc (mem_nodes_self c))) hxc
    have hyd' := hle (mem_nodes_trans hw (mem_nodes_of_mem_children hd (mem_nodes_self d))) hyd
    have : Std.Symm fun a b : α => hi a < lo b ∨ hi b < lo a := ⟨fun _ _ hab => hab.symm⟩
    have hsym : (t.children w).Pairwise fun a b => hi a < lo b ∨ hi b < lo a :=
      (hord w hw).imp Or.inl
    rcases hsym.forall hc hd hcd with hcd' | hdc'
    · exact absurd ((hxc'.2.trans_lt (hcd'.trans_le (hyd'.1.trans hne))).trans hlt.2)
        (lt_irrefl _)
    · exact absurd ((hyd'.2.trans_lt (hdc'.trans_le (hxc'.1.trans hlt.1))).trans_le hne)
        (lt_irrefl _)

section Ranges

variable (h : t.Labelled root lo hi)
include h

-- The range of a node holds the ranges of the nodes below it.
theorem Labelled.le_of_mem_nodes (hx : x ∈ t.nodes root) (hy : y ∈ t.nodes x) :
    lo x ≤ lo y ∧ hi y ≤ hi x :=
  le_of_mem_nodes_of_inside (fun p hp => (h p (mem_nodes_trans hx hp)).inside) hy

-- A node strictly below another ends before it.
theorem Labelled.hi_lt_of_mem_nodes (hx : x ∈ t.nodes root) (hy : y ∈ t.nodes x) (hne : y ≠ x) :
    hi y < hi x := by
  obtain ⟨hp, hyp⟩ := parent_mem_nodes hy hne
  have hin := (h _ (mem_nodes_trans hx hp)).inside y hyp
  exact hin.2.trans_le (h.le_of_mem_nodes hx hp).2

-- Nodes below two distinct children of one node have ranges one before the other.
theorem Labelled.separated {w c d u v : α} (hw : w ∈ t.nodes root) (hc : c ∈ t.children w)
    (hd : d ∈ t.children w) (hcd : c ≠ d) (hu : u ∈ t.nodes c) (hv : v ∈ t.nodes d) :
    hi u < lo v ∨ hi v < lo u := by
  have : Std.Symm fun a b : α => hi a < lo b ∨ hi b < lo a := ⟨fun _ _ hab => hab.symm⟩
  have hsym : (t.children w).Pairwise fun a b => hi a < lo b ∨ hi b < lo a :=
    (h w hw).ordered.imp Or.inl
  have hc' := mem_nodes_trans hw (mem_nodes_of_mem_children hc (mem_nodes_self c))
  have hd' := mem_nodes_trans hw (mem_nodes_of_mem_children hd (mem_nodes_self d))
  have huc := h.le_of_mem_nodes hc' hu
  have hvd := h.le_of_mem_nodes hd' hv
  rcases hsym.forall hc hd hcd with hlt | hlt
  · exact .inl (huc.2.trans_lt (hlt.trans_le hvd.1))
  · exact .inr (hvd.2.trans_lt (hlt.trans_le huc.1))

-- Containment of ranges is ancestry.
theorem Labelled.le_iff_mem_nodes (hx : x ∈ t.nodes root) (hy : y ∈ t.nodes root) :
    lo x ≤ lo y ∧ hi y ≤ hi x ↔ y ∈ t.nodes x := by
  refine ⟨fun hle => ?_, h.le_of_mem_nodes hx⟩
  have hy_ne := (h y hy).nonempty
  rcases nested_or_split hx hy with hxy | hyx | ⟨w, hw, c, hc, d, hd, hcd, hxc, hyd⟩
  · exact hxy
  · -- `x` below `y` with the same range: it cannot end before `y`
    by_contra hnot
    have hne : x ≠ y := fun hxy => hnot (hxy ▸ mem_nodes_self x)
    exact absurd hle.2 (not_le.mpr (h.hi_lt_of_mem_nodes hy hyx hne))
  · -- disjoint ranges, one holding the other, which is not empty
    rcases h.separated hw hc hd hcd hxc hyd with hlt | hlt
    · exact absurd ((hy_ne.trans hle.2).trans_lt hlt) (lt_irrefl _)
    · exact absurd ((hle.1.trans hy_ne).trans_lt hlt) (lt_irrefl _)

-- A range holds the end of another node's range only if the node is below it: the end of a
-- range is a number its node keeps for itself.
theorem Labelled.mem_nodes_of_hi_mem (hx : x ∈ t.nodes root) (hy : y ∈ t.nodes root)
    (hlo : lo x ≤ hi y) (hhi : hi y ≤ hi x) : y ∈ t.nodes x := by
  rcases nested_or_split hx hy with hxy | hyx | ⟨w, hw, c, hc, d, hd, hcd, hxc, hyd⟩
  · exact hxy
  · by_contra hnot
    have hne : x ≠ y := fun hxy => hnot (hxy ▸ mem_nodes_self x)
    exact absurd hhi (not_le.mpr (h.hi_lt_of_mem_nodes hy hyx hne))
  · rcases h.separated hw hc hd hcd hxc hyd with hlt | hlt
    · exact absurd (((h y hy).nonempty.trans hhi).trans_lt hlt) (lt_irrefl _)
    · exact absurd (hlo.trans_lt hlt) (lt_irrefl _)

-- Strict containment, the range ending earlier, is strict ancestry.
theorem Labelled.lt_iff_mem_nodes (hx : x ∈ t.nodes root) (hy : y ∈ t.nodes root) :
    lo x ≤ lo y ∧ hi y < hi x ↔ y ∈ t.nodes x ∧ y ≠ x := by
  constructor
  · rintro ⟨hlo, hhi⟩
    exact ⟨(h.le_iff_mem_nodes hx hy).mp ⟨hlo, hhi.le⟩, fun hyx => (hyx ▸ hhi).false⟩
  · rintro ⟨hyx, hne⟩
    exact ⟨(h.le_of_mem_nodes hx hyx).1, h.hi_lt_of_mem_nodes hx hyx hne⟩

-- Two nodes of which neither is below the other have ranges one before the other.
theorem Labelled.lt_or_lt_of_not_mem_nodes (hx : x ∈ t.nodes root) (hy : y ∈ t.nodes root)
    (hxy : y ∉ t.nodes x) (hyx : x ∉ t.nodes y) : hi x < lo y ∨ hi y < lo x := by
  rcases nested_or_split hx hy with h' | h' | ⟨w, hw, c, hc, d, hd, hcd, hxc, hyd⟩
  · exact absurd h' hxy
  · exact absurd h' hyx
  · exact h.separated hw hc hd hcd hxc hyd

end Ranges

-- Two labellings of one tree put the same nodes before one another: the order of two nodes of
-- which neither is below the other is that of their branches in the child list where they part.
theorem Labelled.lt_of_lt (h : t.Labelled root lo hi) (h' : t.Labelled root lo' hi') {u v : α}
    (hu : u ∈ t.nodes root) (hv : v ∈ t.nodes root) (hlt : hi u < lo v) : hi' u < lo' v := by
  have hv_ne := (h v hv).nonempty
  rcases nested_or_split hu hv with hvu | huv | ⟨w, hw, c, hc, d, hd, hcd, huc, hvd⟩
  · exact absurd ((hv_ne.trans (h.le_of_mem_nodes hu hvu).2).trans_lt hlt) (lt_irrefl _)
  · exact absurd (((h.le_of_mem_nodes hv huv).1.trans (h u hu).nonempty).trans_lt hlt) (lt_irrefl _)
  · -- both labellings order the children of `w` as the child list does
    have : Std.Symm fun a b : α => (hi a < lo b ∧ hi' a < lo' b) ∨ (hi b < lo a ∧ hi' b < lo' a) :=
      ⟨fun _ _ hab => hab.symm⟩
    have hboth : (t.children w).Pairwise
        fun a b => (hi a < lo b ∧ hi' a < lo' b) ∨ (hi b < lo a ∧ hi' b < lo' a) :=
      ((h w hw).ordered.and (h' w hw).ordered).imp Or.inl
    have hc' := mem_nodes_trans hw (mem_nodes_of_mem_children hc (mem_nodes_self c))
    have hd' := mem_nodes_trans hw (mem_nodes_of_mem_children hd (mem_nodes_self d))
    rcases hboth.forall hc hd hcd with ⟨-, hlt'⟩ | ⟨hlt₁, -⟩
    · exact (h'.le_of_mem_nodes hc' huc).2.trans_lt (hlt'.trans_le (h'.le_of_mem_nodes hd' hvd).1)
    · -- `d` before `c` would put `v` before `u`
      have hvu := (h.le_of_mem_nodes hd' hvd).2.trans_lt (hlt₁.trans_le (h.le_of_mem_nodes hc' huc).1)
      exact absurd (hv_ne.trans_lt (hvu.trans_le ((h u hu).nonempty.trans hlt.le))) (lt_irrefl _)

-- The labelling at a node of another tree with the same children.
theorem LabelledAt.of_children_eq {t' : FiniteTree α} (h : t.LabelledAt lo hi x)
    (hc : t'.children x = t.children x) : t'.LabelledAt lo hi x where
  nonempty := h.nonempty
  inside := by rw [hc]; exact h.inside
  ordered := by rw [hc]; exact h.ordered

section Grow

variable [DecidableEq α] {p new : α} {hne : p ≠ new} {hleaf : t.children new = []}
  {horphan : ∀ x, new ∉ t.children x}

-- The grown tree keeps the labelling at every node but `p` and `new`, given the same ranges.
theorem LabelledAt.add_child (h : t.LabelledAt lo hi x) (hxp : x ≠ p) (hxn : x ≠ new)
    (hsame : ∀ z, z ≠ new → lo' z = lo z ∧ hi' z = hi z) :
    (t.add_child p new hne hleaf horphan).LabelledAt lo' hi' x :=
  (h.congr (hsame x hxn) fun c hc => hsame c fun hcn => horphan x (hcn ▸ hc)).of_children_eq
    (children_add_child_of_ne hxp)

-- A leaf added after the last child of `p`, with a range inside that of `p` and after those of
-- its children, keeps the labelling everywhere but at itself, where its range may be empty.
theorem Labelled.add_child_of_ne (h : t.Labelled root lo hi) (hroot : root ≠ new)
    (hsame : ∀ z, z ≠ new → lo' z = lo z ∧ hi' z = hi z)
    (hin : lo p ≤ lo' new ∧ hi' new < hi p) (hafter : ∀ c ∈ t.children p, hi c < lo' new) :
    ∀ x ∈ (t.add_child p new hne hleaf horphan).nodes root, x ≠ new →
      (t.add_child p new hne hleaf horphan).LabelledAt lo' hi' x := by
  intro x hx hxn
  have hxt := ((mem_nodes_add_child hroot).mp hx).resolve_right fun h => hxn h.1
  by_cases hxp : x = p
  · -- `p` gains `new` as its last child
    subst hxp
    have hold := (h x hxt).congr (hsame x hxn) fun c hc => hsame c fun hcn => horphan x (hcn ▸ hc)
    refine ⟨hold.nonempty, fun c hc => ?_, ?_⟩
    · rw [children_add_child_self] at hc
      rcases List.mem_append.mp hc with hc | hc
      · exact hold.inside c hc
      · rw [List.mem_singleton.mp hc, (hsame x hxn).1, (hsame x hxn).2]
        exact hin
    · rw [children_add_child_self]
      refine List.pairwise_append.mpr ⟨hold.ordered, List.pairwise_singleton _ _, fun c hc d hd => ?_⟩
      rw [List.mem_singleton.mp hd, (hsame c fun hcn => horphan x (hcn ▸ hc)).2]
      exact hafter c hc
  · exact (h x hxt).add_child hxp hxn hsame

-- With a range that is not empty, the leaf keeps the labelling everywhere.
theorem Labelled.add_child (h : t.Labelled root lo hi) (hroot : root ≠ new)
    (hsame : ∀ z, z ≠ new → lo' z = lo z ∧ hi' z = hi z) (hnew : lo' new ≤ hi' new)
    (hin : lo p ≤ lo' new ∧ hi' new < hi p) (hafter : ∀ c ∈ t.children p, hi c < lo' new) :
    (t.add_child p new hne hleaf horphan).Labelled root lo' hi' := by
  intro x hx
  by_cases hxn : x = new
  · -- `new` is a leaf
    subst hxn
    refine ⟨hnew, fun c hc => ?_, ?_⟩
    · rw [children_add_child_of_ne hne.symm, hleaf] at hc
      exact absurd hc List.not_mem_nil
    · rw [children_add_child_of_ne hne.symm, hleaf]
      exact List.Pairwise.nil
  · exact h.add_child_of_ne hroot hsame hin hafter x hx hxn

-- Taking the leaf away keeps a labelling of the grown tree.
theorem Labelled.of_add_child (h : (t.add_child p new hne hleaf horphan).Labelled root lo hi)
    (hroot : root ≠ new) : t.Labelled root lo hi := by
  intro x hx
  have hlab := h x ((mem_nodes_add_child hroot).mpr (.inl hx))
  by_cases hxp : x = p
  · -- `p` loses its last child
    subst hxp
    have hsub : (t.children x).Sublist ((t.add_child x new hne hleaf horphan).children x) := by
      rw [children_add_child_self]
      exact List.sublist_append_left _ _
    exact ⟨hlab.nonempty, fun c hc => hlab.inside c (hsub.subset hc), hlab.ordered.sublist hsub⟩
  · exact hlab.of_children_eq (children_add_child_of_ne hxp).symm

end Grow

end FiniteTree

namespace FiniteTree

-- Over the naturals a labelled subtree has at least as many numbers as nodes.

variable {α : Type*} {t : FiniteTree α} {lo hi : α → ℕ} {x : α}

-- Ranges that are not empty, follow one another and lie in `[a, b)` hold at most `b - a`
-- numbers together.
theorem sum_size_le_of_pairwise : ∀ {l : List α} {a b : ℕ},
    l.Pairwise (fun c d => hi c < lo d) → (∀ c ∈ l, lo c ≤ hi c) →
    (∀ c ∈ l, a ≤ lo c ∧ hi c < b) → (l.map fun c => hi c + 1 - lo c).sum ≤ b - a
  | [], _, _, _, _, _ => Nat.zero_le _
  | c :: l, _, _, hpw, hne, hin => by
    obtain ⟨hc, hl⟩ := List.pairwise_cons.mp hpw
    -- the ranges after the first lie after its end
    have ih := sum_size_le_of_pairwise hl (fun d hd => hne d (List.mem_cons_of_mem _ hd))
      fun d hd => ⟨Nat.succ_le_of_lt (hc d hd), (hin d (List.mem_cons_of_mem _ hd)).2⟩
    have hc_ne := hne c List.mem_cons_self
    have hc_in := hin c List.mem_cons_self
    rw [List.map_cons, List.sum_cons]
    omega

theorem Labelled.size_le (h : t.Labelled x lo hi) : t.size x ≤ hi x + 1 - lo x := by
  induction hh : t.height x using Nat.strong_induction_on generalizing x with
  | _ n ih =>
    have hx := h x (mem_nodes_self x)
    -- every child's subtree fits its range, and the ranges fit inside that of `x`
    have hchildren : ((t.children x).map t.size).sum ≤
        ((t.children x).map fun c => hi c + 1 - lo c).sum :=
      List.sum_le_sum fun c hc => ih _ (hh ▸ t.height_lt hc)
        (h.subtree (mem_nodes_of_mem_children hc (mem_nodes_self c))) rfl
    have hranges := sum_size_le_of_pairwise hx.ordered
      (fun c hc => (h c (mem_nodes_of_mem_children hc (mem_nodes_self c))).nonempty) hx.inside
    have := hx.nonempty
    rw [size_eq]
    omega

end FiniteTree
