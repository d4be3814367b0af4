import Mathlib.Data.List.Sort

-- The `k` greatest elements of a list, as a min-heap bounded to `k` elements keeps them.

namespace TopK

variable {α : Type*} [LinearOrder α]

-- The sorted list without its `l.length - k` least elements.
def top (k : Nat) (l : List α) : List α :=
  (l.insertionSort (· ≤ ·)).drop (l.length - k)

section Insert

-- An element at most the head of the second part is inserted into the first part.
theorem orderedInsert_append_of_le {x b : α} (A B : List α) (hx : x ≤ b) :
    (A ++ b :: B).orderedInsert (· ≤ ·) x = A.orderedInsert (· ≤ ·) x ++ b :: B := by
  induction A with
  | nil => simp [hx]
  | cons a A ih =>
    simp only [List.cons_append, List.orderedInsert_cons]
    split_ifs <;> simp [ih]

theorem orderedInsert_of_le_all {x : α} {l : List α} (h : ∀ y ∈ l, x ≤ y) :
    l.orderedInsert (· ≤ ·) x = x :: l := by
  cases l with
  | nil => rfl
  | cons y l => simp [List.orderedInsert_cons, h y List.mem_cons_self]

-- An element at least every element of a sorted first part is inserted into the second.
theorem orderedInsert_append_of_ge {x : α} (A B : List α) (hA : ∀ a ∈ A, a ≤ x)
    (hsorted : (A ++ B).Pairwise (· ≤ ·)) :
    (A ++ B).orderedInsert (· ≤ ·) x = A ++ B.orderedInsert (· ≤ ·) x := by
  induction A with
  | nil => rfl
  | cons a A ih =>
    have hax := hA a List.mem_cons_self
    rw [List.cons_append] at hsorted
    obtain ⟨ha, hsorted'⟩ := List.pairwise_cons.mp hsorted
    rw [List.cons_append, List.orderedInsert_cons, List.cons_append,
      ← ih (fun a' ha' => hA a' (List.mem_cons_of_mem a ha')) hsorted']
    split_ifs with hxa
    -- `x` equals `a`: in front of `a` or right behind it is the same list
    · have heq : x = a := le_antisymm hxa hax
      subst heq
      rw [orderedInsert_of_le_all ha]
    · rfl

end Insert

variable {k : Nat} {l : List α}

theorem length_top (k : Nat) (l : List α) : (top k l).length = min k l.length := by
  simp only [top, List.length_drop, List.length_insertionSort]
  omega

@[simp] theorem top_nil (k : Nat) : top k ([] : List α) = [] := by
  simp [top]

theorem top_zero (l : List α) : top 0 l = [] := by
  simp [top]

-- The selection depends on the elements only.
theorem top_perm {l l' : List α} (h : l.Perm l') (k : Nat) : top k l = top k l' := by
  have hsort : l.insertionSort (· ≤ ·) = l'.insertionSort (· ≤ ·) :=
    List.Perm.eq_of_pairwise' (List.pairwise_insertionSort _ l) (List.pairwise_insertionSort _ l')
      ((List.perm_insertionSort _ l).trans (h.trans (List.perm_insertionSort _ l').symm))
  rw [top, top, hsort, h.length_eq]

-- While there is room a new element is inserted.
theorem top_cons_of_length_lt (x : α) (h : l.length < k) :
    top k (x :: l) = (top k l).orderedInsert (· ≤ ·) x := by
  have h₁ : l.length - k = 0 := by omega
  have h₂ : (x :: l).length - k = 0 := by
    rw [List.length_cons]
    omega
  rw [top, top, h₁, h₂, List.drop_zero, List.drop_zero, List.insertionSort_cons]

-- The sorted list is the elements left out followed by the selection.
theorem insertionSort_eq_append_top (k : Nat) (l : List α) :
    l.insertionSort (· ≤ ·) = (l.insertionSort (· ≤ ·)).take (l.length - k) ++ top k l :=
  (List.take_append_drop _ _).symm

theorem length_take_insertionSort (k : Nat) (l : List α) :
    ((l.insertionSort (· ≤ ·)).take (l.length - k)).length = l.length - k := by
  simp only [List.length_take, List.length_insertionSort]
  omega

-- A full selection refuses an element below its least one.
theorem top_cons_of_lt {x m : α} {rest : List α} (h : k ≤ l.length)
    (htop : top k l = m :: rest) (hx : x < m) : top k (x :: l) = top k l := by
  set left := (l.insertionSort (· ≤ ·)).take (l.length - k)
  have hsplit : l.insertionSort (· ≤ ·) = left ++ m :: rest := by
    rw [← htop]
    exact insertionSort_eq_append_top k l
  have hins : (x :: l).insertionSort (· ≤ ·) = left.orderedInsert (· ≤ ·) x ++ m :: rest := by
    rw [List.insertionSort_cons, hsplit, orderedInsert_append_of_le _ _ hx.le]
  have hlen : (left.orderedInsert (· ≤ ·) x).length = (x :: l).length - k := by
    rw [List.orderedInsert_length, length_take_insertionSort, List.length_cons]
    omega
  rw [top, hins, List.drop_left' hlen, htop]

-- Otherwise the new element takes the place of the least one.
theorem top_cons_of_le {x m : α} {rest : List α} (h : k ≤ l.length)
    (htop : top k l = m :: rest) (hx : m ≤ x) :
    top k (x :: l) = rest.orderedInsert (· ≤ ·) x := by
  set left := (l.insertionSort (· ≤ ·)).take (l.length - k)
  have hsplit : l.insertionSort (· ≤ ·) = (left ++ [m]) ++ rest := by
    rw [List.append_assoc, List.singleton_append, ← htop]
    exact insertionSort_eq_append_top k l
  have hsorted := List.pairwise_insertionSort (· ≤ ·) l
  rw [hsplit] at hsorted
  -- everything left out is at most `m`, so at most `x`
  have hbefore : ∀ a ∈ left ++ [m], a ≤ x := by
    intro a ha
    rcases List.mem_append.mp ha with ha | ha
    · have ham := (List.pairwise_append.mp (List.pairwise_append.mp hsorted).1).2.2 a ha m
        (List.mem_singleton_self m)
      exact ham.trans hx
    · rw [List.mem_singleton.mp ha]
      exact hx
  have hins : (x :: l).insertionSort (· ≤ ·) = (left ++ [m]) ++ rest.orderedInsert (· ≤ ·) x := by
    rw [List.insertionSort_cons, hsplit, orderedInsert_append_of_ge _ _ hbefore hsorted]
  have hlen : (left ++ [m]).length = (x :: l).length - k := by
    rw [List.length_append, length_take_insertionSort, List.length_singleton, List.length_cons]
    have := length_top k l
    rw [htop, List.length_cons] at this
    omega
  rw [top, hins, List.drop_left' hlen]

-- Elements below the least of a full selection never enter it.
theorem top_append_of_lt {m : α} {rest ys : List α} (h : k ≤ l.length)
    (htop : top k l = m :: rest) (hys : ∀ y ∈ ys, y < m) : top k (ys ++ l) = top k l := by
  induction ys with
  | nil => rfl
  | cons y ys ih =>
    have ih' := ih fun y' hy' => hys y' (List.mem_cons_of_mem y hy')
    have hlen : k ≤ (ys ++ l).length := by
      rw [List.length_append]
      omega
    rw [List.cons_append, top_cons_of_lt hlen (ih'.trans htop) (hys y List.mem_cons_self), ih']

end TopK
