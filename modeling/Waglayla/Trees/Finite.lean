import Mathlib.Data.Finset.Card
import Mathlib.Logic.Relation
import Mathlib.Algebra.GroupWithZero.Nat

-- Finite rooted trees given by child lists and parent links, with a height falling to the leaves.

structure FiniteTree (α : Type*) where
  children : α → List α
  parent : α → α
  height : α → Nat
  parent_eq : ∀ {p c : α}, c ∈ children p → parent c = p
  height_lt : ∀ {p c : α}, c ∈ children p → height c < height p
  nodup : ∀ p, (children p).Nodup

namespace FiniteTree

variable {α : Type*} (t : FiniteTree α)

-- The node and, below it, the subtrees of its children in order, down to `fuel` levels.
def nodes_below : Nat → α → List α
  | 0, _ => []
  | fuel + 1, x => x :: (t.children x).flatMap (nodes_below fuel)

-- The subtree: enough levels for every node below, which the height bounds.
def nodes (x : α) : List α := t.nodes_below (t.height x + 1) x

-- The number of nodes of the subtree.
def size (x : α) : Nat := (t.nodes x).length

-- More levels than the height add nothing.
theorem nodes_below_eq : ∀ {m n : Nat} {x : α}, t.height x < m → t.height x < n →
    t.nodes_below m x = t.nodes_below n x
  | m + 1, n + 1, x, hm, hn => by
    rw [nodes_below, nodes_below]
    congr 1
    refine List.flatMap_congr fun c hc => nodes_below_eq ?_ ?_ <;>
      · have := t.height_lt hc; omega

theorem nodes_eq (x : α) : t.nodes x = x :: (t.children x).flatMap t.nodes := by
  rw [nodes, nodes_below]
  congr 1
  refine List.flatMap_congr fun c hc => nodes_below_eq t ?_ (Nat.lt_succ_self _)
  exact t.height_lt hc

theorem size_eq (x : α) : t.size x = ((t.children x).map t.size).sum + 1 := by
  rw [size, nodes_eq, List.length_cons, List.length_flatMap]
  rfl

theorem size_pos (x : α) : 0 < t.size x := by
  rw [size_eq]; omega

section Nodes

variable {t} {x y z : α}

theorem mem_nodes_self (x : α) : x ∈ t.nodes x := by
  rw [nodes_eq]; exact List.mem_cons_self

theorem mem_nodes_iff : y ∈ t.nodes x ↔ y = x ∨ ∃ c ∈ t.children x, y ∈ t.nodes c := by
  rw [nodes_eq, List.mem_cons, List.mem_flatMap]

theorem nodes_eq_singleton (h : t.children x = []) : t.nodes x = [x] := by
  rw [nodes_eq, h]
  rfl

theorem mem_nodes_of_mem_children {c : α} (hc : c ∈ t.children x) (hy : y ∈ t.nodes c) :
    y ∈ t.nodes x :=
  mem_nodes_iff.mpr (.inr ⟨c, hc, hy⟩)

-- Induction over the subtree: the node, and the subtree of each child.
theorem nodes_induction {P : α → Prop} (x : α) (hx : P x)
    (hstep : ∀ p c, p ∈ t.nodes x → P p → c ∈ t.children p → P c) : ∀ y ∈ t.nodes x, P y := by
  induction hh : t.height x using Nat.strong_induction_on generalizing x with
  | _ n ih =>
    intro y hy
    rcases mem_nodes_iff.mp hy with rfl | ⟨c, hc, hy⟩
    · exact hx
    · refine ih (t.height c) (hh ▸ t.height_lt hc) c (hstep x c (mem_nodes_self x) hx hc)
        (fun p d hp hP hd => hstep p d (mem_nodes_of_mem_children hc hp) hP hd) rfl y hy

theorem mem_nodes_trans (hy : y ∈ t.nodes x) (hz : z ∈ t.nodes y) : z ∈ t.nodes x :=
  nodes_induction (P := fun w => ∀ z ∈ t.nodes w, z ∈ t.nodes x) x (fun _ hz => hz)
    (fun _ _ _ hP hc z hz => hP z (mem_nodes_of_mem_children hc hz)) y hy z hz

theorem height_le_of_mem_nodes (hy : y ∈ t.nodes x) : t.height y ≤ t.height x :=
  nodes_induction (P := fun w => t.height w ≤ t.height x) x le_rfl
    (fun _ _ _ hP hc => (t.height_lt hc).le.trans hP) y hy

-- No node lies below one of its children: the height falls along the child links.
theorem not_mem_nodes_of_mem_children {c : α} (hc : c ∈ t.children x) : x ∉ t.nodes c :=
  fun hxc => by
    have := height_le_of_mem_nodes hxc
    have := t.height_lt hc
    omega

theorem not_mem_children_self (x : α) : x ∉ t.children x :=
  fun hx => not_mem_nodes_of_mem_children hx (mem_nodes_self x)

theorem eq_of_mem_nodes_of_mem_nodes (hy : y ∈ t.nodes x) (hx : x ∈ t.nodes y) : x = y := by
  rcases mem_nodes_iff.mp hy with rfl | ⟨c, hc, hyc⟩
  · rfl
  · have := height_le_of_mem_nodes hx
    have := height_le_of_mem_nodes hyc
    have := t.height_lt hc
    omega

-- A node below the top of a subtree is a child of its parent, which is in the subtree.
theorem parent_mem_nodes (hy : y ∈ t.nodes x) (hne : y ≠ x) :
    t.parent y ∈ t.nodes x ∧ y ∈ t.children (t.parent y) := by
  refine nodes_induction (P := fun w => w ≠ x → t.parent w ∈ t.nodes x ∧ w ∈ t.children (t.parent w))
    x (fun h => absurd rfl h) (fun p c hp _ hc _ => ?_) y hy hne
  rw [t.parent_eq hc]
  exact ⟨hp, hc⟩

-- Two subtrees that meet are nested.
theorem nested_of_mem_nodes (ha : z ∈ t.nodes x) (hb : z ∈ t.nodes y) :
    x ∈ t.nodes y ∨ y ∈ t.nodes x := by
  induction hh : t.height x + t.height y - 2 * t.height z using Nat.strong_induction_on
    generalizing z with
  | _ n ih =>
    by_cases hzx : z = x
    · subst hzx; exact .inl hb
    by_cases hzy : z = y
    · subst hzy; exact .inr ha
    -- both subtrees hold the parent of `z`, which is higher
    obtain ⟨hpx, hzc⟩ := parent_mem_nodes ha hzx
    obtain ⟨hpy, -⟩ := parent_mem_nodes hb hzy
    have hlt := t.height_lt hzc
    have := height_le_of_mem_nodes hpx
    have := height_le_of_mem_nodes hpy
    exact ih _ (by omega) hpx hpy rfl

-- The subtrees of two children of one node are disjoint.
theorem eq_of_mem_nodes_children {c d : α} (hc : c ∈ t.children x) (hd : d ∈ t.children x)
    (hyc : y ∈ t.nodes c) (hyd : y ∈ t.nodes d) : c = d := by
  -- a child below another child would put their parent below itself
  have below : ∀ {c d}, c ∈ t.children x → d ∈ t.children x → c ∈ t.nodes d → c = d := by
    intro c d hc hd hcd
    by_contra hne
    obtain ⟨hx, -⟩ := parent_mem_nodes hcd hne
    rw [t.parent_eq hc] at hx
    exact not_mem_nodes_of_mem_children hd hx
  rcases nested_of_mem_nodes hyc hyd with h | h
  · exact below hc hd h
  · exact (below hd hc h).symm

theorem nodes_nodup (x : α) : (t.nodes x).Nodup := by
  induction hh : t.height x using Nat.strong_induction_on generalizing x with
  | _ n ih =>
    rw [nodes_eq, List.nodup_cons, List.nodup_flatMap]
    refine ⟨fun hx => ?_, ⟨fun c hc => ih _ (hh ▸ t.height_lt hc) c rfl, ?_⟩⟩
    · obtain ⟨c, hc, hxc⟩ := List.mem_flatMap.mp hx
      exact not_mem_nodes_of_mem_children hc hxc
    · refine (t.nodup x).imp_of_mem fun hc hd hne => ?_
      exact List.disjoint_left.mpr fun _ hyc hyd => hne (eq_of_mem_nodes_children hc hd hyc hyd)

-- A subtree is no larger than a subtree above it.
theorem size_le_of_mem_nodes (hy : y ∈ t.nodes x) : t.size y ≤ t.size x :=
  ((nodes_nodup y).subperm fun _ hz => mem_nodes_trans hy hz).length_le

-- The subtrees of two distinct children fit, with their parent, in the parent's subtree.
theorem size_add_size_lt {c d : α} (hc : c ∈ t.children x) (hd : d ∈ t.children x)
    (hcd : c ≠ d) : t.size c + t.size d < t.size x := by
  have hnd : (x :: (t.nodes c ++ t.nodes d)).Nodup := by
    refine List.nodup_cons.mpr ⟨fun hx => ?_, List.nodup_append.mpr
      ⟨nodes_nodup c, nodes_nodup d, fun y hyc z hzd hyz => ?_⟩⟩
    · rcases List.mem_append.mp hx with hx | hx
      · exact not_mem_nodes_of_mem_children hc hx
      · exact not_mem_nodes_of_mem_children hd hx
    · subst hyz
      exact hcd (eq_of_mem_nodes_children hc hd hyc hzd)
  have hsub : x :: (t.nodes c ++ t.nodes d) ⊆ t.nodes x := by
    intro y hy
    rcases List.mem_cons.mp hy with rfl | hy
    · exact mem_nodes_self y
    rcases List.mem_append.mp hy with hy | hy
    · exact mem_nodes_of_mem_children hc hy
    · exact mem_nodes_of_mem_children hd hy
  have hlen := (hnd.subperm hsub).length_le
  rw [List.length_cons, List.length_append] at hlen
  exact hlen

-- Two nodes of a subtree are nested, or lie below two distinct children of one of its nodes.
theorem nested_or_split (hx : x ∈ t.nodes z) (hy : y ∈ t.nodes z) :
    y ∈ t.nodes x ∨ x ∈ t.nodes y ∨
      ∃ w ∈ t.nodes z, ∃ c ∈ t.children w, ∃ d ∈ t.children w,
        c ≠ d ∧ x ∈ t.nodes c ∧ y ∈ t.nodes d := by
  induction hh : t.height z using Nat.strong_induction_on generalizing z with
  | _ n ih =>
    rcases mem_nodes_iff.mp hx with rfl | ⟨c, hc, hxc⟩
    · exact .inl hy
    rcases mem_nodes_iff.mp hy with rfl | ⟨d, hd, hyd⟩
    · exact .inr (.inl hx)
    by_cases hcd : c = d
    · -- both below one child: the split, if any, is inside its subtree
      subst hcd
      rcases ih _ (hh ▸ t.height_lt hc) hxc hyd rfl with h | h | ⟨w, hw, h⟩
      · exact .inl h
      · exact .inr (.inl h)
      · exact .inr (.inr ⟨w, mem_nodes_of_mem_children hc hw, h⟩)
    · exact .inr (.inr ⟨z, mem_nodes_self z, c, hc, d, hd, hcd, hxc, hyd⟩)

-- The subtree of `x` is what `x` reaches down the child links.
theorem mem_nodes_iff_reflTransGen :
    y ∈ t.nodes x ↔ Relation.ReflTransGen (fun a b => a ∈ t.children b) y x := by
  constructor
  · intro hy
    refine nodes_induction (P := fun w => Relation.ReflTransGen (fun a b => a ∈ t.children b) w x)
      x .refl (fun _ _ _ hP hc => .head hc hP) y hy
  · intro h
    induction h with
    | refl => exact mem_nodes_self y
    | tail _ hc ih => exact mem_nodes_of_mem_children hc ih

end Nodes

section Frontier

-- What a search over a subtree has left to visit: the subtrees of the queued nodes.

-- Two nodes of which neither is below the other.
def Unrelated (x y : α) : Prop := x ∉ t.nodes y ∧ y ∉ t.nodes x

-- The queued nodes, counted with everything below them.
def pending (queue : List α) : Nat := (queue.map t.size).sum

theorem pending_expand (x : α) (queue : List α) :
    t.pending (queue ++ t.children x) + 1 = t.pending (x :: queue) := by
  simp only [pending, List.map_append, List.sum_append, List.map_cons, List.sum_cons,
    size_eq t x]
  omega

theorem pending_pop (x : α) (queue : List α) : t.pending queue < t.pending (x :: queue) := by
  simp only [pending, List.map_cons, List.sum_cons]
  have := t.size_pos x
  omega

variable {t}

theorem Unrelated.symm {x y : α} (h : t.Unrelated x y) : t.Unrelated y x := ⟨h.2, h.1⟩

-- A node unrelated to a node is unrelated to its children.
theorem Unrelated.children {x y c : α} (h : t.Unrelated x y) (hc : c ∈ t.children y) :
    t.Unrelated x c := by
  refine ⟨fun hx => h.1 (mem_nodes_of_mem_children hc hx), fun hcx => ?_⟩
  -- `c` below `x` puts `y` below `x` too, unless `c` is `x`
  by_cases hcx' : c = x
  · subst hcx'; exact h.1 (mem_nodes_of_mem_children hc (mem_nodes_self c))
  · obtain ⟨hp, -⟩ := parent_mem_nodes hcx hcx'
    rw [t.parent_eq hc] at hp
    exact h.2 hp

-- Distinct children of one node are unrelated.
theorem unrelated_of_mem_children {x c d : α} (hc : c ∈ t.children x) (hd : d ∈ t.children x)
    (hne : c ≠ d) : t.Unrelated c d :=
  ⟨fun h => hne (eq_of_mem_nodes_children hc hd (mem_nodes_self c) h),
    fun h => hne (eq_of_mem_nodes_children hc hd h (mem_nodes_self d))⟩

-- Replacing a queued node by its children keeps the queue free of repeats and of nodes below
-- one another.
theorem pairwise_expand {x : α} {queue : List α} (h : (x :: queue).Pairwise t.Unrelated) :
    (queue ++ t.children x).Pairwise t.Unrelated := by
  have hxq := List.pairwise_cons.mp h
  refine List.pairwise_append.mpr ⟨hxq.2, ?_, fun y hy c hc => (hxq.1 y hy).symm.children hc⟩
  exact (t.nodup x).imp_of_mem fun hc hd hne => unrelated_of_mem_children hc hd hne

-- A node outside the subtrees of the queue once `x` is replaced by its children (or queued
-- itself), and not a child of `x`, was outside them before.
theorem outside_expand {x z : α} {queue : List α}
    (hq : ∀ y ∈ queue ++ t.children x, z ∉ t.nodes y ∨ z = y) (hzc : z ∉ t.children x) :
    ∀ y ∈ x :: queue, z ∉ t.nodes y ∨ z = y := by
  refine List.forall_mem_cons.mpr ⟨?_, (List.forall_mem_append.mp hq).1⟩
  by_cases hzx : z = x
  · exact .inr hzx
  · refine .inl fun hzx' => ?_
    rcases mem_nodes_iff.mp hzx' with h | ⟨c, hc, hzc'⟩
    · exact hzx h
    · rcases (List.forall_mem_append.mp hq).2 c hc with h | h
      · exact h hzc'
      · exact hzc (h ▸ hc)

-- The parent of a node outside the subtrees of the children of `x` is none of them.
theorem parent_not_mem_children {x z : α} (hz : z ∈ t.children (t.parent z))
    (hout : ∀ c ∈ t.children x, z ∉ t.nodes c ∨ z = c) : t.parent z ∉ t.children x := by
  intro hpz
  rcases hout _ hpz with h | h
  · exact h (mem_nodes_of_mem_children hz (mem_nodes_self z))
  · rw [← h] at hz
    exact not_mem_children_self z hz

theorem nodup_expand {x : α} {queue : List α} (hnd : (x :: queue).Nodup)
    (h : (x :: queue).Pairwise t.Unrelated) : (queue ++ t.children x).Nodup := by
  refine List.nodup_append.mpr ⟨(List.nodup_cons.mp hnd).2, t.nodup x, fun y hy c hc => ?_⟩
  rintro rfl
  exact ((List.pairwise_cons.mp h).1 y hy).2 (mem_nodes_of_mem_children hc (mem_nodes_self _))

end Frontier

section Grow

-- A tree grown by a leaf appended to the children of one of its nodes.

-- Every node with children lies in the subtree of `root`: the tree is that subtree, and every
-- other node stands alone.
def Rooted (root : α) : Prop := ∀ ⦃p c : α⦄, c ∈ t.children p → p ∈ t.nodes root

variable {t} {root : α}

theorem Rooted.children_eq_nil (h : t.Rooted root) {x : α} (hx : x ∉ t.nodes root) :
    t.children x = [] :=
  List.eq_nil_iff_forall_not_mem.mpr fun _ hc => hx (h hc)

theorem Rooted.not_mem_children (h : t.Rooted root) {x : α} (hx : x ∉ t.nodes root) (y : α) :
    x ∉ t.children y :=
  fun hxy => hx (mem_nodes_trans (h hxy) (mem_nodes_of_mem_children hxy (mem_nodes_self x)))

-- A node that is no one's child is in no subtree but its own.
theorem not_mem_nodes_of_orphan {new : α} (horphan : ∀ x, new ∉ t.children x) (hroot : root ≠ new) :
    new ∉ t.nodes root := fun h =>
  horphan _ (parent_mem_nodes h (Ne.symm hroot)).2

variable [DecidableEq α] {p new : α}

theorem mem_update_children {x c : α} :
    c ∈ Function.update t.children p (t.children p ++ [new]) x ↔
      c ∈ t.children x ∨ (x = p ∧ c = new) := by
  by_cases hx : x = p
  · subst hx
    simp
  · simp [hx]

-- `new` appended to the children of `p`, with `p` as its parent. Every other node rises by one,
-- so that `new` sits at height zero below any of them.
def add_child (t : FiniteTree α) (p new : α) (hne : p ≠ new) (hleaf : t.children new = [])
    (horphan : ∀ x, new ∉ t.children x) : FiniteTree α where
  children := Function.update t.children p (t.children p ++ [new])
  parent := Function.update t.parent new p
  height x := if x = new then 0 else t.height x + 1
  parent_eq := by
    intro x c hc
    rcases mem_update_children.mp hc with hc | ⟨rfl, rfl⟩
    · have hcn : c ≠ new := fun h => horphan x (h ▸ hc)
      rw [Function.update_of_ne hcn]
      exact t.parent_eq hc
    · exact Function.update_self _ _ _
  height_lt := by
    intro x c hc
    rcases mem_update_children.mp hc with hc | ⟨rfl, rfl⟩
    · have hcn : c ≠ new := fun h => horphan x (h ▸ hc)
      -- `new` has no children, so the link leaves another node
      have hxn : x ≠ new := fun h => by rw [h, hleaf] at hc; exact List.not_mem_nil hc
      simp only [if_neg hcn, if_neg hxn]
      have := t.height_lt hc
      omega
    · simp [hne]
  nodup := by
    intro x
    by_cases hx : x = p
    · subst hx
      rw [Function.update_self]
      exact (t.nodup x).append (List.nodup_singleton new)
        (List.disjoint_singleton.mpr (horphan x))
    · rw [Function.update_of_ne hx]
      exact t.nodup x

variable {hne : p ≠ new} {hleaf : t.children new = []} {horphan : ∀ x, new ∉ t.children x}

theorem mem_children_add_child {x c : α} :
    c ∈ (t.add_child p new hne hleaf horphan).children x ↔ c ∈ t.children x ∨ (x = p ∧ c = new) :=
  mem_update_children

theorem children_add_child_of_ne {x : α} (hx : x ≠ p) :
    (t.add_child p new hne hleaf horphan).children x = t.children x :=
  Function.update_of_ne hx _ _

theorem children_add_child_self :
    (t.add_child p new hne hleaf horphan).children p = t.children p ++ [new] :=
  Function.update_self _ _ _

theorem nodes_add_child_new : (t.add_child p new hne hleaf horphan).nodes new = [new] :=
  nodes_eq_singleton (by rw [children_add_child_of_ne hne.symm, hleaf])

-- Below a node other than `new`, the grown tree has the old subtree and, if `p` is in it, `new`.
theorem mem_nodes_add_child {x y : α} (hx : x ≠ new) :
    y ∈ (t.add_child p new hne hleaf horphan).nodes x ↔
      y ∈ t.nodes x ∨ (y = new ∧ p ∈ t.nodes x) := by
  induction hh : t.height x using Nat.strong_induction_on generalizing x y with
  | _ n ih =>
    -- no child of `x` is `new`, and each is lower than `x`: the induction applies to them
    have hchild : ∀ c ∈ t.children x, ∀ z,
        z ∈ (t.add_child p new hne hleaf horphan).nodes c ↔ z ∈ t.nodes c ∨ (z = new ∧ p ∈ t.nodes c) :=
      fun c hc z => ih _ (hh ▸ t.height_lt hc) (fun h => horphan x (h ▸ hc)) rfl
    rw [mem_nodes_iff, mem_nodes_iff (y := y), mem_nodes_iff (y := p)]
    constructor
    · rintro (rfl | ⟨c, hc, hyc⟩)
      · exact .inl (.inl rfl)
      rcases mem_children_add_child.mp hc with hc | ⟨rfl, rfl⟩
      · rcases (hchild c hc y).mp hyc with hyc | ⟨hyn, hpc⟩
        · exact .inl (.inr ⟨c, hc, hyc⟩)
        · exact .inr ⟨hyn, .inr ⟨c, hc, hpc⟩⟩
      · rw [nodes_add_child_new, List.mem_singleton] at hyc
        exact .inr ⟨hyc, .inl rfl⟩
    · rintro ((rfl | ⟨c, hc, hyc⟩) | ⟨rfl, rfl | ⟨c, hc, hpc⟩⟩)
      · exact .inl rfl
      · exact .inr ⟨c, mem_children_add_child.mpr (.inl hc), (hchild c hc y).mpr (.inl hyc)⟩
      · refine .inr ⟨y, mem_children_add_child.mpr (.inr ⟨rfl, rfl⟩), ?_⟩
        rw [nodes_add_child_new]
        exact List.mem_singleton_self y
      · exact .inr ⟨c, mem_children_add_child.mpr (.inl hc), (hchild c hc y).mpr (.inr ⟨rfl, hpc⟩)⟩

-- A subtree holding `p` grows by one node.
theorem size_add_child (hp : p ∈ t.nodes root) (hroot : root ≠ new) :
    (t.add_child p new hne hleaf horphan).size root = t.size root + 1 := by
  have hnodup : (new :: t.nodes root).Nodup :=
    List.nodup_cons.mpr ⟨not_mem_nodes_of_orphan horphan hroot, nodes_nodup root⟩
  have hperm : List.Perm ((t.add_child p new hne hleaf horphan).nodes root) (new :: t.nodes root) := by
    refine (List.perm_ext_iff_of_nodup (nodes_nodup root) hnodup).mpr fun y => ?_
    rw [mem_nodes_add_child hroot, List.mem_cons]
    constructor
    · rintro (h | ⟨rfl, -⟩)
      · exact .inr h
      · exact .inl rfl
    · rintro (rfl | h)
      · exact .inr ⟨rfl, hp⟩
      · exact .inl h
  rw [size, size, hperm.length_eq, List.length_cons]

theorem Rooted.add_child (h : t.Rooted root) (hp : p ∈ t.nodes root) (hroot : root ≠ new) :
    (t.add_child p new hne hleaf horphan).Rooted root := by
  intro x c hc
  rw [mem_nodes_add_child hroot]
  rcases mem_children_add_child.mp hc with hc | ⟨rfl, -⟩
  · exact .inl (h hc)
  · exact .inl hp

end Grow

section Ancestors

-- The ancestors of a node inside the subtree of `top`: the path from `top` down to the node, the
-- node left out.

variable [DecidableEq α]

def ancestors_in (top x : α) : List α := (t.nodes top).filter fun a => a ≠ x ∧ x ∈ t.nodes a

variable {t} {top x : α}

theorem mem_ancestors_in {a : α} :
    a ∈ t.ancestors_in top x ↔ a ∈ t.nodes top ∧ a ≠ x ∧ x ∈ t.nodes a := by
  simp [ancestors_in]

theorem ancestors_in_top : t.ancestors_in top top = [] :=
  List.eq_nil_iff_forall_not_mem.mpr fun _ ha => by
    obtain ⟨hatop, hne, htopa⟩ := mem_ancestors_in.mp ha
    exact hne (eq_of_mem_nodes_of_mem_nodes hatop htopa).symm

-- Below `top`, the ancestors of a node are its parent and the parent's ancestors.
theorem ancestors_in_perm (hx : x ∈ t.nodes top) (hne : x ≠ top) :
    (t.ancestors_in top x).Perm (t.parent x :: t.ancestors_in top (t.parent x)) := by
  obtain ⟨hp, hxp⟩ := parent_mem_nodes hx hne
  have hpx : t.parent x ≠ x := fun h => not_mem_children_self x (h ▸ hxp)
  have hxp' : x ∈ t.nodes (t.parent x) := mem_nodes_of_mem_children hxp (mem_nodes_self x)
  refine (List.perm_ext_iff_of_nodup ?_ ?_).mpr fun a => ?_
  · exact (t.nodes_nodup top).filter _
  · exact List.nodup_cons.mpr ⟨fun h => (mem_ancestors_in.mp h).2.1 rfl, (t.nodes_nodup top).filter _⟩
  rw [List.mem_cons, mem_ancestors_in, mem_ancestors_in]
  constructor
  · rintro ⟨ha, hax, hxa⟩
    by_cases hap : a = t.parent x
    · exact .inl hap
    · exact .inr ⟨ha, hap, (parent_mem_nodes hxa hax.symm).1⟩
  · rintro (rfl | ⟨ha, hap, hpa⟩)
    · exact ⟨hp, hpx, hxp'⟩
    · -- an ancestor of the parent is one of `x`, and not `x` itself, which is below the parent
      refine ⟨ha, fun hax => hap ?_, mem_nodes_trans hpa hxp'⟩
      subst hax
      exact eq_of_mem_nodes_of_mem_nodes hpa hxp'

theorem sum_ancestors_in (f : α → Nat) (hx : x ∈ t.nodes top) (hne : x ≠ top) :
    ((t.ancestors_in top x).map f).sum = f (t.parent x) + ((t.ancestors_in top (t.parent x)).map f).sum := by
  rw [((ancestors_in_perm hx hne).map f).sum_nat, List.map_cons, List.sum_cons]

theorem length_ancestors_in (hx : x ∈ t.nodes top) (hne : x ≠ top) :
    (t.ancestors_in top x).length = (t.ancestors_in top (t.parent x)).length + 1 := by
  rw [(ancestors_in_perm hx hne).length_eq, List.length_cons]

-- The path from `top` holds fewer nodes than the subtree, which holds the node too.
theorem length_ancestors_in_lt (hx : x ∈ t.nodes top) : (t.ancestors_in top x).length < t.size top :=
  List.length_filter_lt_length_iff_exists.mpr ⟨x, hx, by simp⟩

end Ancestors

end FiniteTree
