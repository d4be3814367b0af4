import Mathlib.Data.Fintype.Card
import Mathlib.Data.Set.Finite.List
import Mathlib.Logic.Relation

-- Acyclic graphs and the orders of their nodes; positions are first occurrences, `List.idxOf`.

namespace GraphOrder

variable {α : Type*}

-- No node reaches itself along one edge or more.
def Acyclic (r : α → α → Prop) : Prop := ∀ x, ¬Relation.TransGen r x x

section Induction

variable {r : α → α → Prop}

-- Well-founded induction against the edges: the transitive edges between listed nodes are a
-- strict order on a finite type, hence well founded.
theorem Acyclic.induction {nodes : List α} (hacyclic : Acyclic r)
    (hsource : ∀ x y, r x y → x ∈ nodes) {P : α → Prop}
    (hstep : ∀ y, (∀ x, r x y → P x) → P y) (y : α) : P y := by
  have : Finite {x // x ∈ nodes} := (List.finite_toSet nodes).to_subtype
  let R : {x // x ∈ nodes} → {x // x ∈ nodes} → Prop := fun a b => Relation.TransGen r a.1 b.1
  have : IsTrans _ R := ⟨fun _ _ _ hab hbc => hab.trans hbc⟩
  have : Std.Irrefl R := ⟨fun a => hacyclic a.1⟩
  have hlisted : ∀ a : {x // x ∈ nodes}, P a.1 := fun a =>
    (Finite.wellFounded_of_trans_of_irrefl R).induction a fun a ih =>
      hstep a.1 fun x hx => ih ⟨x, hsource x a.1 hx⟩ (Relation.TransGen.single hx)
  exact hstep y fun x hx => hlisted ⟨x, hsource x y hx⟩

end Induction

section Order

variable [DecidableEq α] {r : α → α → Prop}

-- An order in which every edge goes forward has no cycle.
theorem acyclic_of_idxOf_lt (order : List α)
    (h : ∀ x y, r x y → order.idxOf x < order.idxOf y) : Acyclic r := by
  intro x hx
  have hlt : ∀ {a b}, Relation.TransGen r a b → order.idxOf a < order.idxOf b := by
    intro a b hab
    induction hab with
    | single hab => exact h _ _ hab
    | tail _ hbc ih => exact ih.trans (h _ _ hbc)
  exact lt_irrefl _ (hlt hx)

-- A listed element splits its list at its first occurrence.
theorem eq_take_idxOf_append {order : List α} {y : α} (hy : y ∈ order) :
    order = order.take (order.idxOf y) ++ y :: order.drop (order.idxOf y + 1) := by
  have hlt : order.idxOf y < order.length := List.idxOf_lt_length_of_mem hy
  conv_lhs => rw [← List.take_append_drop (order.idxOf y) order]
  rw [List.drop_eq_getElem_cons hlt, List.getElem_idxOf hlt]

-- When every edge into an element comes from before each of its occurrences, it comes from
-- before the first one.
theorem idxOf_lt_of_ordered {order : List α}
    (hordered : ∀ l₁ y l₂, order = l₁ ++ y :: l₂ → ∀ x, r x y → x ∈ l₁) {x y : α}
    (hy : y ∈ order) (hr : r x y) : order.idxOf x < order.idxOf y := by
  have hx := hordered _ y _ (eq_take_idxOf_append hy) x hr
  exact (List.mem_take_iff_idxOf_lt (List.mem_of_mem_take hx)).mp hx

-- Reversing a list without repetitions reverses the positions of its elements.
theorem idxOf_reverse {order : List α} (hnodup : order.Nodup) {x : α} (hx : x ∈ order) :
    order.reverse.idxOf x = order.length - 1 - order.idxOf x := by
  have hlt : order.idxOf x < order.length := List.idxOf_lt_length_of_mem hx
  have hrev : order.length - 1 - order.idxOf x < order.reverse.length := by
    rw [List.length_reverse]
    omega
  have hget : order.reverse[order.length - 1 - order.idxOf x] = x := by
    rw [List.getElem_reverse]
    simp only [show order.length - 1 - (order.length - 1 - order.idxOf x) = order.idxOf x by omega,
      List.getElem_idxOf]
  conv_lhs => rw [← hget]
  exact List.Nodup.idxOf_getElem (List.nodup_reverse.mpr hnodup) _ hrev

theorem idxOf_reverse_lt_iff {order : List α} (hnodup : order.Nodup) {x y : α} (hx : x ∈ order)
    (hy : y ∈ order) : order.reverse.idxOf x < order.reverse.idxOf y ↔ order.idxOf y < order.idxOf x := by
  rw [idxOf_reverse hnodup hx, idxOf_reverse hnodup hy]
  have := List.idxOf_lt_length_of_mem hx
  have := List.idxOf_lt_length_of_mem hy
  omega

end Order

end GraphOrder
