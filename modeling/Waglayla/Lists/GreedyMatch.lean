import Mathlib.Data.List.NodupEquivFin
import Mathlib.Data.List.Forall2

-- Matching one list against another in order; the greedy scan finds a matching when one exists.

namespace GreedyMatch

variable {α β : Type*} (r : α → β → Prop)

-- A strictly increasing choice of positions of `ys`, one for each element of `xs`, each
-- related to its element.
def OrderedMatch (xs : List α) (ys : List β) : Prop :=
  ∃ f : Fin xs.length → Fin ys.length, StrictMono f ∧ ∀ i, r xs[i] ys[f i]

-- The same, as a subsequence of `ys` related to `xs` element by element.
def SubMatch (xs : List α) (ys : List β) : Prop :=
  ∃ zs, zs.Sublist ys ∧ List.Forall₂ r xs zs

theorem orderedMatch_iff_subMatch {xs : List α} {ys : List β} :
    OrderedMatch r xs ys ↔ SubMatch r xs ys := by
  constructor
  · rintro ⟨f, hf, hr⟩
    -- the chosen elements, in order
    refine ⟨List.ofFn fun i => ys[f i], ?_, ?_⟩
    · have hlen : (List.ofFn fun i => ys[f i]).length = xs.length := List.length_ofFn
      refine List.sublist_iff_exists_fin_orderEmbedding_get_eq.mpr
        ⟨(Fin.castOrderIso hlen).toOrderEmbedding.trans (OrderEmbedding.ofStrictMono f hf), ?_⟩
      intro i
      simp only [List.get_eq_getElem, List.getElem_ofFn]
      rfl
    · refine List.forall₂_iff_get.mpr ⟨List.length_ofFn.symm, fun i h₁ h₂ => ?_⟩
      simpa using hr ⟨i, h₁⟩
  · rintro ⟨zs, hsub, hzs⟩
    obtain ⟨g, hg⟩ := List.sublist_iff_exists_fin_orderEmbedding_get_eq.mp hsub
    have hlen := hzs.length_eq
    obtain ⟨-, hrel⟩ := List.forall₂_iff_get.mp hzs
    refine ⟨fun i => g (Fin.cast hlen i), g.strictMono.comp (Fin.cast_strictMono hlen), fun i => ?_⟩
    have := hrel i.val i.isLt (hlen ▸ i.isLt)
    have hgi := hg (Fin.cast hlen i)
    simp only [List.get_eq_getElem, Fin.val_cast] at this hgi
    rw [hgi] at this
    exact this

theorem subMatch_nil (ys : List β) : SubMatch r [] ys := ⟨[], List.nil_sublist ys, .nil⟩

theorem not_subMatch_cons_nil (x : α) (xs : List α) : ¬SubMatch r (x :: xs) [] := by
  rintro ⟨zs, hsub, hzs⟩
  rw [List.sublist_nil] at hsub
  subst hsub
  cases hzs

theorem SubMatch.length_le {xs : List α} {ys : List β} (h : SubMatch r xs ys) :
    xs.length ≤ ys.length := by
  obtain ⟨zs, hsub, hzs⟩ := h
  rw [hzs.length_eq]
  exact hsub.length_le

-- Pairing `x` with the first element it relates to loses nothing: whatever element a matching
-- pairs `x` with, the rest of it matches `xs` into `ys`.
theorem subMatch_cons_cons_of_rel {x : α} {y : β} {xs : List α} {ys : List β} (hxy : r x y) :
    SubMatch r (x :: xs) (y :: ys) ↔ SubMatch r xs ys := by
  constructor
  · rintro ⟨_, hsub, hzs⟩
    obtain ⟨z, zs, -, hrest, rfl⟩ := List.forall₂_cons_left_iff.mp hzs
    rcases List.sublist_cons_iff.mp hsub with hsub | ⟨t, ht, hsub⟩
    · exact ⟨zs, (List.sublist_cons_self z zs).trans hsub, hrest⟩
    · obtain ⟨-, rfl⟩ := List.cons.inj ht
      exact ⟨zs, hsub, hrest⟩
  · rintro ⟨zs, hsub, hzs⟩
    exact ⟨y :: zs, hsub.cons_cons y, .cons hxy hzs⟩

-- An element `x` does not relate to can only be skipped.
theorem subMatch_cons_cons_of_not_rel {x : α} {y : β} {xs : List α} {ys : List β}
    (hxy : ¬r x y) : SubMatch r (x :: xs) (y :: ys) ↔ SubMatch r (x :: xs) ys := by
  constructor
  · rintro ⟨_, hsub, hzs⟩
    obtain ⟨z, zs, hxz, hrest, rfl⟩ := List.forall₂_cons_left_iff.mp hzs
    rcases List.sublist_cons_iff.mp hsub with hsub | ⟨t, ht, -⟩
    · exact ⟨z :: zs, hsub, .cons hxz hrest⟩
    · obtain ⟨rfl, -⟩ := List.cons.inj ht
      exact absurd hxz hxy
  · rintro ⟨zs, hsub, hzs⟩
    exact ⟨zs, hsub.cons y, hzs⟩

section Greedy

variable [DecidableRel r]

-- Each element of the first list takes the first element left of the second that it relates to.
def greedy_match : List α → List β → Bool
  | [], _ => true
  | _ :: _, [] => false
  | x :: xs, y :: ys => if r x y then greedy_match xs ys else greedy_match (x :: xs) ys

theorem greedy_match_iff (xs : List α) (ys : List β) :
    greedy_match r xs ys = true ↔ OrderedMatch r xs ys := by
  rw [orderedMatch_iff_subMatch]
  induction xs, ys using greedy_match.induct r with
  | case1 ys => simp only [greedy_match, subMatch_nil]
  | case2 x xs => simp only [greedy_match, Bool.false_eq_true, not_subMatch_cons_nil]
  | case3 x xs y ys hxy ih => rw [greedy_match, if_pos hxy, ih, subMatch_cons_cons_of_rel r hxy]
  | case4 x xs y ys hxy ih =>
    rw [greedy_match, if_neg hxy, ih, subMatch_cons_cons_of_not_rel r hxy]

-- With fewer elements left in the second list than in the first, the scan fails.
theorem greedy_match_of_length_lt {xs : List α} {ys : List β} (h : ys.length < xs.length) :
    greedy_match r xs ys = false := by
  rw [← Bool.not_eq_true, greedy_match_iff, orderedMatch_iff_subMatch]
  exact fun hmatch => Nat.not_le_of_lt h (hmatch.length_le r)

end Greedy

end GreedyMatch
