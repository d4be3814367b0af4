import Mathlib.Order.Defs.LinearOrder
import Mathlib.Data.List.Basic
import Mathlib.Order.Lattice

-- `Itertools::position_minmax` (through `into_option`) and `Vec::swap_remove`.

namespace MinMax

variable {α β : Type*} [LinearOrder β] (key : α → β)

-- The scan from position `index` on, carrying the position and the element of the least and
-- of the greatest element met so far: a later element replaces the least only when it is
-- strictly less, and the greatest whenever it is not less.
def position_minmax_from : List α → Nat → Nat × α → Nat × α → Nat × Nat
  | [], _, min, max => (min.1, max.1)
  | x :: xs, index, min, max =>
    position_minmax_from xs (index + 1) (if key x < key min.2 then (index, x) else min)
      (if key max.2 ≤ key x then (index, x) else max)

def position_minmax : List α → Option (Nat × Nat)
  | [] => none
  | x :: xs => some (position_minmax_from key xs 1 (0, x) (0, x))

-- The element at position `p.1` is `p.2`, and no element of `l` is below it.
def LeastAt (l : List α) (p : Nat × α) : Prop := l[p.1]? = some p.2 ∧ ∀ y ∈ l, key p.2 ≤ key y

-- The element at position `p.1` is `p.2`, and no element of `l` is above it.
def GreatestAt (l : List α) (p : Nat × α) : Prop := l[p.1]? = some p.2 ∧ ∀ y ∈ l, key y ≤ key p.2

variable {key}

theorem getElem?_append_of_eq_some {l : List α} {i : Nat} {a : α} (h : l[i]? = some a)
    (r : List α) : (l ++ r)[i]? = some a := by
  rw [List.getElem?_append_left (List.getElem?_eq_some_iff.mp h).1, h]

theorem LeastAt.concat {l : List α} {min : Nat × α} (h : LeastAt key l min) (x : α) :
    LeastAt key (l ++ [x]) (if key x < key min.2 then (l.length, x) else min) := by
  by_cases hx : key x < key min.2
  · rw [if_pos hx]
    refine ⟨List.getElem?_concat_length, fun y hy => ?_⟩
    rcases List.mem_append.mp hy with hy | hy
    · exact le_of_lt (lt_of_lt_of_le hx (h.2 y hy))
    · rw [List.mem_singleton.mp hy]
  · rw [if_neg hx]
    refine ⟨getElem?_append_of_eq_some h.1 [x], fun y hy => ?_⟩
    rcases List.mem_append.mp hy with hy | hy
    · exact h.2 y hy
    · rw [List.mem_singleton.mp hy]
      exact not_lt.mp hx

theorem GreatestAt.concat {l : List α} {max : Nat × α} (h : GreatestAt key l max) (x : α) :
    GreatestAt key (l ++ [x]) (if key max.2 ≤ key x then (l.length, x) else max) := by
  by_cases hx : key max.2 ≤ key x
  · rw [if_pos hx]
    refine ⟨List.getElem?_concat_length, fun y hy => ?_⟩
    rcases List.mem_append.mp hy with hy | hy
    · exact le_trans (h.2 y hy) hx
    · rw [List.mem_singleton.mp hy]
  · rw [if_neg hx]
    refine ⟨getElem?_append_of_eq_some h.1 [x], fun y hy => ?_⟩
    rcases List.mem_append.mp hy with hy | hy
    · exact h.2 y hy
    · rw [List.mem_singleton.mp hy]
      exact le_of_lt (not_le.mp hx)

-- The scan keeps both invariants over the prefix it has read, one element at a time.
theorem position_minmax_from_spec :
    ∀ (xs l : List α) (min max : Nat × α), LeastAt key l min → GreatestAt key l max →
      ∃ a b, LeastAt key (l ++ xs) ((position_minmax_from key xs l.length min max).1, a) ∧
        GreatestAt key (l ++ xs) ((position_minmax_from key xs l.length min max).2, b)
  | [], l, min, max, hmin, hmax => ⟨min.2, max.2, by simpa [position_minmax_from] using hmin,
    by simpa [position_minmax_from] using hmax⟩
  | x :: xs, l, min, max, hmin, hmax => by
    have hlen : (l ++ [x]).length = l.length + 1 := by simp
    obtain ⟨a, b, ha, hb⟩ :=
      position_minmax_from_spec xs (l ++ [x]) _ _ (hmin.concat x) (hmax.concat x)
    rw [hlen, List.append_assoc, List.singleton_append] at ha hb
    exact ⟨a, b, ha, hb⟩

variable (key) in
theorem position_minmax_spec {l : List α} (hl : l ≠ []) :
    ∃ i j a b, position_minmax key l = some (i, j) ∧ LeastAt key l (i, a) ∧
      GreatestAt key l (j, b) := by
  cases l with
  | nil => exact absurd rfl hl
  | cons x xs =>
    have hleast : LeastAt key [x] (0, x) := ⟨rfl, by simp⟩
    have hgreatest : GreatestAt key [x] (0, x) := ⟨rfl, by simp⟩
    obtain ⟨a, b, ha, hb⟩ := position_minmax_from_spec xs [x] _ _ hleast hgreatest
    exact ⟨_, _, a, b, rfl, ha, hb⟩

-- `Vec::swap_remove`: the last element takes the removed one's place, and a position out of
-- bounds panics.
def swap_remove (l : List α) (index : Nat) : Option (List α) := do
  let last ← l.getLast?
  if index < l.length then some (l.set index last).dropLast else none

theorem set_perm_eraseIdx {l : List α} {index : Nat} (h : index < l.length) (x : α) :
    (l.set index x).Perm (l.eraseIdx index ++ [x]) := by
  rw [List.set_eq_take_cons_drop x h, List.eraseIdx_eq_take_drop_succ]
  exact List.perm_middle.trans (List.perm_append_singleton _ _).symm

-- What a swap-remove in bounds leaves is the list without that position, up to order.
theorem swap_remove_perm {l : List α} {index : Nat} (h : index < l.length) :
    ∃ r, swap_remove l index = some r ∧ r.Perm (l.eraseIdx index) := by
  obtain rfl | ⟨init, last, rfl⟩ := List.eq_nil_or_concat' l
  · simp at h
  refine ⟨((init ++ [last]).set index last).dropLast, by simp only [swap_remove,
    List.getLast?_concat, Option.bind_eq_bind, Option.bind_some, if_pos h], ?_⟩
  rcases Nat.lt_or_ge index init.length with hlt | hge
  -- Inside the prefix the last element moves; at the last position nothing does.
  · rw [List.set_append_left index last hlt, List.dropLast_concat,
      List.eraseIdx_append_of_lt_length hlt]
    exact set_perm_eraseIdx hlt last
  · have hidx : index = init.length := by simp at h; omega
    subst hidx
    rw [List.set_append_right _ _ (Nat.le_refl _), List.eraseIdx_append_of_length_le (Nat.le_refl _)]
    simp

end MinMax
