import Mathlib.Logic.Relation
import Mathlib.Order.Basic

-- The past of a node in a graph given by its parent links, the anticone, and reachability
-- from a node; nothing here needs acyclicity or finiteness.

namespace DagPast

variable {α : Type*}

-- `a` is in the inclusive past of `b`: parent links lead from `b` down to `a`.
def Past (parent : α → α → Prop) (a b : α) : Prop := Relation.ReflTransGen parent a b

-- Neither node is in the other's past.
def Anticone (parent : α → α → Prop) (a b : α) : Prop := ¬Past parent a b ∧ ¬Past parent b a

variable {parent : α → α → Prop}

theorem past_refl (a : α) : Past parent a a := Relation.ReflTransGen.refl

theorem past_of_parent {a b : α} (h : parent a b) : Past parent a b :=
  Relation.ReflTransGen.single h

theorem past_trans {a b c : α} (hab : Past parent a b) (hbc : Past parent b c) : Past parent a c :=
  Relation.ReflTransGen.trans hab hbc

theorem Past.head {a b c : α} (hab : parent a b) (hbc : Past parent b c) : Past parent a c :=
  Relation.ReflTransGen.head hab hbc

theorem anticone_comm {a b : α} : Anticone parent a b ↔ Anticone parent b a :=
  And.comm

theorem not_anticone_self (a : α) : ¬Anticone parent a a :=
  fun h => h.1 (past_refl a)

theorem not_anticone_of_past {a b : α} (h : Past parent a b) : ¬Anticone parent b a :=
  fun hanti => hanti.2 h

-- A node reached by at least one link has a parent, so it has every property that all
-- nodes with a parent have.
theorem Past.of_ne {P : α → Prop} (hchild : ∀ a b, parent a b → P b) {a b : α}
    (h : Past parent a b) (hne : a ≠ b) : P b := by
  rcases Relation.ReflTransGen.cases_tail h with rfl | ⟨c, -, hcb⟩
  · exact absurd rfl hne
  · exact hchild c b hcb

-- A key that rises along every parent link out of the nodes of `P` rises along the strict
-- past of a node of `P`, where every node with a parent is in `P`.
theorem key_lt_of_past {β : Type*} [Preorder β] {key : α → β} {P : α → Prop}
    (hchild : ∀ a b, parent a b → P b) (hkey : ∀ a b, parent a b → P a → key a < key b)
    {a b : α} (ha : P a) (h : Past parent a b) (hne : a ≠ b) : key a < key b := by
  induction h with
  | refl => exact absurd rfl hne
  | @tail c d hac hcd ih =>
    by_cases hc : a = c
    · subst hc
      exact hkey a d hcd ha
    · exact lt_trans (ih hc) (hkey c d hcd (Past.of_ne hchild hac hc))

-- So the strict past has no cycles through `P`: a node of `P` is not in the past of one of
-- its own parents.
theorem ne_of_past_of_parent {β : Type*} [Preorder β] {key : α → β} {P : α → Prop}
    (hchild : ∀ a b, parent a b → P b) (hkey : ∀ a b, parent a b → P a → key a < key b)
    {a b c : α} (ha : P a) (hab : Past parent a b) (hbc : parent b c) : a ≠ c := by
  rintro rfl
  by_cases hb : a = b
  · subst hb
    exact lt_irrefl _ (hkey a a hbc ha)
  · exact lt_asymm (key_lt_of_past hchild hkey ha hab hb) (hkey b a hbc (Past.of_ne hchild hab hb))

-- Two link relations that agree on the links into a set of nodes closed under taking
-- parents give those nodes the same past.
theorem past_congr {parent' : α → α → Prop} (old : α → Prop)
    (hclosed : ∀ a b, parent' a b → old b → old a)
    (hagree : ∀ a b, old b → (parent' a b ↔ parent a b)) {a b : α} (hb : old b) :
    Past parent' a b ↔ Past parent a b := by
  constructor
  · intro h
    induction h with
    | refl => exact past_refl a
    | @tail c d _ hcd ih =>
      exact Relation.ReflTransGen.tail (ih (hclosed c d hcd hb)) ((hagree c d hb).mp hcd)
  · intro h
    induction h with
    | refl => exact past_refl a
    | @tail c d _ hcd ih =>
      have hcd' := (hagree c d hb).mpr hcd
      exact Relation.ReflTransGen.tail (ih (hclosed c d hcd' hb)) hcd'

-- A set closed under taking parents holds the past of each of its nodes.
theorem mem_of_past {S : α → Prop} (hclosed : ∀ a b, parent a b → S b → S a) {a b : α}
    (hab : Past parent a b) (hb : S b) : S a := by
  induction hab using Relation.ReflTransGen.head_induction_on with
  | refl => exact hb
  | head hac _ ih => exact hclosed _ _ hac ih

-- A set that holds a node outside `stop`, and with each of its nodes every parent outside
-- `stop`, holds the node's whole past outside `stop` once `stop` is closed under taking
-- parents: a path down to a node outside `stop` stays outside it.
theorem mem_of_past_of_closed {S stop : α → Prop} (hdown : ∀ a b, parent a b → stop b → stop a)
    (hclosed : ∀ a b, parent a b → S b → stop a ∨ S a) {a b : α} (hab : Past parent a b)
    (hb : ¬stop b → S b) (ha : ¬stop a) : S a := by
  induction hab using Relation.ReflTransGen.head_induction_on with
  | refl => exact hb ha
  | head hac _ ih =>
    have hc := fun hc => ha (hdown _ _ hac hc)
    exact (hclosed _ _ hac (ih hc)).resolve_left ha

-- A list closed under the links out of a root and out of its own nodes holds every node the
-- root reaches.
theorem mem_of_transGen_of_closed {r : α → α → Prop} {root : α} {found : List α}
    (hclosed : ∀ x ∈ root :: found, ∀ y, r x y → y ∈ found) {y : α}
    (h : Relation.TransGen r root y) : y ∈ found := by
  induction h with
  | single hy => exact hclosed _ List.mem_cons_self _ hy
  | tail _ hcy ih => exact hclosed _ (List.mem_cons_of_mem _ ih) _ hcy

-- From a node of a set that the links out of it never leave, the links out of the set reach
-- what all links reach.
theorem transGen_restrict_iff {r : α → α → Prop} {S : α → Prop}
    (hS : ∀ x y, S x → r x y → S y) {a b : α} (ha : S a) :
    Relation.TransGen (fun x y => S x ∧ r x y) a b ↔ Relation.TransGen r a b := by
  refine ⟨fun h => Relation.TransGen.mono (fun _ _ hxy => hxy.2) _ _ h, fun h => ?_⟩
  -- the path stays in `S`, so each of its links is one out of the set
  have hpath : Relation.TransGen (fun x y => S x ∧ r x y) a b ∧ S b := by
    induction h with
    | single hab => exact ⟨.single ⟨ha, hab⟩, hS _ _ ha hab⟩
    | tail _ hcb ih => exact ⟨ih.1.tail ⟨ih.2, hcb⟩, hS _ _ ih.2 hcb⟩
  exact hpath.1

end DagPast
