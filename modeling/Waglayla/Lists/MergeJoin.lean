import Mathlib.Order.RelClasses

-- Merging two sorted lists as an ordered `merge_join_by` does.

namespace MergeJoin

variable {α : Type*}

-- `merge_join_by` with `Left` and `Right` passed on and `Both` a failure; `lt a b` says
-- that the comparison of `a` with `b` is `Less`.
def merge_join_by (lt : α → α → Bool) : List α → List α → Option (List α)
  | [], ys => some ys
  | x :: xs, [] => some (x :: xs)
  | x :: xs, y :: ys =>
    if lt x y then (merge_join_by lt xs (y :: ys)).map (x :: ·)
    else if lt y x then (merge_join_by lt (x :: xs) ys).map (y :: ·)
    else none
termination_by xs ys => xs.length + ys.length

variable {r : α → α → Prop}

-- A head below every element of both tails is below every element of a merge of them.
theorem rel_of_perm {a : α} {zs xs ys : List α} (hperm : zs.Perm (xs ++ ys))
    (hxs : ∀ x ∈ xs, r a x) (hys : ∀ y ∈ ys, r a y) : ∀ z ∈ zs, r a z := by
  intro z hz
  rcases List.mem_append.mp (hperm.subset hz) with hz | hz
  · exact hxs z hz
  · exact hys z hz

variable [DecidableRel r] [IsStrictTotalOrder α r]

-- Two sorted lists with no common element never meet a `Both`, and their merge is a
-- sorted list of their elements.
theorem merge_join_by_spec : ∀ {xs ys : List α}, xs.Pairwise r → ys.Pairwise r →
    (∀ x ∈ xs, x ∉ ys) →
    ∃ zs, merge_join_by (fun a b => decide (r a b)) xs ys = some zs ∧
      zs.Perm (xs ++ ys) ∧ zs.Pairwise r
  | [], ys, _, hys, _ => ⟨ys, by simp [merge_join_by], List.Perm.refl ys, hys⟩
  | x :: xs, [], hxs, _, _ => ⟨x :: xs, by simp [merge_join_by], by simp, hxs⟩
  | x :: xs, y :: ys, hxs, hys, hdisj => by
    obtain ⟨hx, hxs'⟩ := List.pairwise_cons.mp hxs
    obtain ⟨hy, hys'⟩ := List.pairwise_cons.mp hys
    by_cases hxy : r x y
    · -- `x` goes first: below the rest of its list, below `y` and so below the rest of `y`'s
      obtain ⟨zs, hzs, hperm, hsorted⟩ := merge_join_by_spec hxs' hys
        fun z hz => hdisj z (List.mem_cons_of_mem x hz)
      refine ⟨x :: zs, by simp [merge_join_by, hxy, hzs], hperm.cons x, ?_⟩
      refine List.pairwise_cons.mpr ⟨rel_of_perm hperm hx fun z hz => ?_, hsorted⟩
      rcases List.mem_cons.mp hz with rfl | hz
      · exact hxy
      · exact trans_of r hxy (hy z hz)
    by_cases hyx : r y x
    · -- `y` goes first, symmetrically
      obtain ⟨zs, hzs, hperm, hsorted⟩ := merge_join_by_spec hxs hys'
        fun z hz hzy => hdisj z hz (List.mem_cons_of_mem y hzy)
      refine ⟨y :: zs, by simp [merge_join_by, hxy, hyx, hzs], ?_, ?_⟩
      · exact (hperm.cons y).trans List.perm_middle.symm
      refine List.pairwise_cons.mpr ⟨rel_of_perm hperm (fun z hz => ?_) hy, hsorted⟩
      rcases List.mem_cons.mp hz with rfl | hz
      · exact hyx
      · exact trans_of r hyx (hx z hz)
    · -- neither head is below the other: they are one element of both lists
      have heq : x = y := (trichotomous_of r x y).resolve_left hxy |>.resolve_right hyx
      exact absurd (heq ▸ List.mem_cons_self) (hdisj x List.mem_cons_self)

-- So the merge is any sorted list of the elements of both.
theorem merge_join_by_eq {xs ys zs : List α} (hxs : xs.Pairwise r) (hys : ys.Pairwise r)
    (hdisj : ∀ x ∈ xs, x ∉ ys) (hperm : zs.Perm (xs ++ ys)) (hzs : zs.Pairwise r) :
    merge_join_by (fun a b => decide (r a b)) xs ys = some zs := by
  obtain ⟨zs', hmerge, hperm', hzs'⟩ := merge_join_by_spec hxs hys hdisj
  have heq : zs' = zs := (hperm'.trans hperm.symm).eq_of_pairwise
    (fun a b _ _ hab hba => absurd hba (asymm hab)) hzs' hzs
  rw [hmerge, heq]

end MergeJoin
