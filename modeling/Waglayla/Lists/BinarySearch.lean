import Mathlib.Order.Lattice

-- `binary_search_by_key`, from its documented contract: on strictly increasing keys, as in
-- every use below, the contract leaves one answer. `Result<usize, usize>` is `Except Nat Nat`.

namespace BinarySearch

variable {α β : Type*} [LinearOrder β]

def binary_search_by_key (xs : List α) (b : β) (f : α → β) : Except Nat Nat :=
  let i := (xs.takeWhile fun x => f x < b).length
  match xs[i]? with
  | some x => if f x = b then .ok i else .error i
  | none => .error i

variable {xs : List α} {b : β} {f : α → β}

-- On keys in increasing order, the prefix taken holds the keys below `b`, and what follows
-- the keys from `b` on.
theorem takeWhile_lt_spec (hsorted : xs.Pairwise fun x y => f x < f y) :
    (∀ x ∈ xs.take (xs.takeWhile fun x => f x < b).length, f x < b) ∧
      ∀ x ∈ xs.drop (xs.takeWhile fun x => f x < b).length, b ≤ f x := by
  induction xs with
  | nil => simp
  | cons y ys ih =>
    obtain ⟨hy, hys⟩ := List.pairwise_cons.mp hsorted
    by_cases hlt : f y < b
    · rw [List.takeWhile_cons_of_pos (by simpa using hlt), List.length_cons, List.take_succ_cons,
        List.drop_succ_cons]
      obtain ⟨htake, hdrop⟩ := ih hys
      exact ⟨List.forall_mem_cons.mpr ⟨hlt, htake⟩, hdrop⟩
    · -- the first key is not below `b`, and every later key is above it
      rw [List.takeWhile_cons_of_neg (by simpa using hlt), List.length_nil, List.take_zero,
        List.drop_zero]
      refine ⟨fun _ h => absurd h List.not_mem_nil, List.forall_mem_cons.mpr ⟨not_lt.mp hlt, ?_⟩⟩
      exact fun x hx => (not_lt.mp hlt).trans (hy x hx).le

theorem takeWhile_length_le : (xs.takeWhile fun x => f x < b).length ≤ xs.length :=
  (List.takeWhile_sublist _).length_le

-- `Ok` names an element with the key searched for.
theorem binary_search_by_key_ok {i : Nat} (h : binary_search_by_key xs b f = .ok i) :
    ∃ x, xs[i]? = some x ∧ f x = b := by
  unfold binary_search_by_key at h
  dsimp only at h
  split at h
  · rename_i x hx
    split_ifs at h with hfx
    cases h
    exact ⟨x, hx, hfx⟩
  · cases h

-- `Err` is the place of `b` among keys in increasing order, where none equals it.
theorem binary_search_by_key_error (hsorted : xs.Pairwise fun x y => f x < f y) {i : Nat}
    (h : binary_search_by_key xs b f = .error i) :
    i ≤ xs.length ∧ (∀ x ∈ xs.take i, f x < b) ∧ ∀ x ∈ xs.drop i, b < f x := by
  obtain ⟨htake, hdrop⟩ := takeWhile_lt_spec (b := b) hsorted
  unfold binary_search_by_key at h
  dsimp only at h
  cases hx : xs[(xs.takeWhile fun x => f x < b).length]? with
  | none =>
    -- the prefix is the whole list
    rw [hx, Except.error.injEq] at h
    subst h
    have hlen := List.getElem?_eq_none_iff.mp hx
    rw [List.drop_eq_nil_of_le hlen]
    exact ⟨takeWhile_length_le, htake, fun _ h => absurd h List.not_mem_nil⟩
  | some y =>
    rw [hx] at h
    dsimp only at h
    split_ifs at h with hyb
    rw [Except.error.injEq] at h
    subst h
    obtain ⟨hlt, hxy⟩ := List.getElem?_eq_some_iff.mp hx
    have hsplit := List.drop_eq_getElem_cons hlt
    rw [hxy] at hsplit
    rw [hsplit] at hdrop ⊢
    -- the head of the rest is not `b`, and the keys after it are above its own
    have hy : b < f y := lt_of_le_of_ne (hdrop y List.mem_cons_self) (Ne.symm hyb)
    have hrest := List.pairwise_cons.mp (hsplit ▸ hsorted.drop)
    refine ⟨takeWhile_length_le, htake, List.forall_mem_cons.mpr ⟨hy, fun x hx => ?_⟩⟩
    exact hy.trans (hrest.1 x hx)

-- Inserting at an index splits the list there.
theorem insertIdx_eq_take_append_drop {xs : List α} {i : Nat} (a : α) (hi : i ≤ xs.length) :
    xs.insertIdx i a = xs.take i ++ a :: xs.drop i := by
  induction xs generalizing i with
  | nil => rw [Nat.le_zero.mp hi]; rfl
  | cons y ys ih =>
    cases i with
    | zero => rfl
    | succ i =>
      rw [List.insertIdx_succ_cons, ih (Nat.le_of_succ_le_succ hi)]
      rfl

-- An element inserted where the order puts it, after the elements before the index and before
-- those from it on, keeps the list in order.
theorem pairwise_insertIdx {R : α → α → Prop} {xs : List α} {i : Nat} {a : α}
    (h : xs.Pairwise R) (hi : i ≤ xs.length) (hbefore : ∀ x ∈ xs.take i, R x a)
    (hafter : ∀ x ∈ xs.drop i, R a x) : (xs.insertIdx i a).Pairwise R := by
  rw [← List.take_append_drop i xs] at h
  obtain ⟨htake, hdrop, hcross⟩ := List.pairwise_append.mp h
  rw [insertIdx_eq_take_append_drop a hi]
  refine List.pairwise_append.mpr ⟨htake, List.pairwise_cons.mpr ⟨hafter, hdrop⟩, fun x hx y hy => ?_⟩
  rcases List.mem_cons.mp hy with rfl | hy
  · exact hbefore x hx
  · exact hcross x hx y hy

end BinarySearch
