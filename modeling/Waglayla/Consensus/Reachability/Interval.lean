import Mathlib.Data.List.Forall2
import Mathlib.Algebra.GroupWithZero.Nat

-- Reachability intervals and their splits. Bounds are `Nat`, and the debug assertions of
-- `Interval::new` are left out; the float shares of `exponential_fractions` are a parameter.

namespace Waglayla.Consensus.Reachability

structure Interval where
  start : Nat
  end_ : Nat
  deriving DecidableEq, Repr

namespace Interval

def new (start end_ : Nat) : Interval := ⟨start, end_⟩

-- An empty interval has `end == start - 1`.
def size (self : Interval) : Nat := self.end_ + 1 - self.start

def decrease_end (self : Interval) (offset : Nat) : Interval := new self.start (self.end_ - offset)

def contains (self other : Interval) : Bool := self.start ≤ other.start && other.end_ ≤ self.end_

def strictly_contains (self other : Interval) : Bool :=
  self.start ≤ other.start && other.end_ < self.end_

def empty : Interval := new 1 0

-- `u64::MAX` less one at both ends, so that any interval can be made empty.
def maximal : Interval := new 1 (2 ^ 64 - 2)

def is_empty (self : Interval) : Bool := self.size = 0

def increase (self : Interval) (offset : Nat) : Interval := new (self.start + offset) (self.end_ + offset)

def decrease (self : Interval) (offset : Nat) : Interval := new (self.start - offset) (self.end_ - offset)

def increase_start (self : Interval) (offset : Nat) : Interval := new (self.start + offset) self.end_

def decrease_start (self : Interval) (offset : Nat) : Interval := new (self.start - offset) self.end_

def increase_end (self : Interval) (offset : Nat) : Interval := new self.start (self.end_ + offset)

-- `n as f32`: `n` rounded to 24 significant bits, to nearest with ties to even.
def to_f32 (n : Nat) : Nat :=
  let shift := n.log2 + 1 - 24
  let q := n / 2 ^ shift
  let r := n % 2 ^ shift
  let half := 2 ^ shift / 2
  (if half < r ∨ (r = half ∧ 0 < shift ∧ q % 2 = 1) then q + 1 else q) * 2 ^ shift

-- `split_half`, that is `split_fraction(0.5)`: the left part takes
-- `f32::ceil(size as f32 * 0.5) as u64` of the blocks. Halving is exact in `f32`, and the
-- ceiling of half of a whole `m` is `(m + 1) / 2`.
def split_half (self : Interval) : Interval × Interval :=
  let left_size := (to_f32 self.size + 1) / 2
  (new self.start (self.start + left_size - 1), new (self.start + left_size) self.end_)

-- The map of `split_exact`: each part starts where the previous one ended.
def split_from : Nat → List Nat → List Interval
  | _, [] => []
  | start, size :: sizes => new start (start + size - 1) :: split_from (start + size) sizes

-- `split_exact`; `none` is the failed `assert_eq!` on the sum of the sizes.
def split_exact (self : Interval) (sizes : List Nat) : Option (List Interval) :=
  if sizes.sum = self.size then some (split_from self.start sizes) else none

-- The loop of `split_exponential` over the fractions: every part but the last takes its rounded
-- share of the bias, capped by what remains, and the last takes all that remains.
def biased_sizes (share : Nat → Nat) : Nat → List Nat → Nat → List Nat
  | _, [], _ => []
  | _, [size], remaining_bias => [size + remaining_bias]
  | i, size :: sizes, remaining_bias =>
    let bias := min remaining_bias (share i)
    (size + bias) :: biased_sizes share (i + 1) sizes (remaining_bias - bias)

-- `split_exponential`; `none` is a failed `assert!`. `round total_bias sizes i` stands for
-- `f64::round(total_bias * exponential_fractions(sizes)[i]) as u64`.
def split_exponential (round : Nat → List Nat → Nat → Nat) (self : Interval) (sizes : List Nat) :
    Option (List Interval) :=
  let interval_size := self.size
  let sizes_sum := sizes.sum
  if interval_size < sizes_sum then none
  else if sizes_sum = 0 then none
  else if interval_size = sizes_sum then self.split_exact sizes
  else
    let remaining_bias := interval_size - sizes_sum
    self.split_exact (biased_sizes (round remaining_bias sizes) 0 sizes remaining_bias)

theorem contains_iff {self other : Interval} :
    self.contains other = true ↔ self.start ≤ other.start ∧ other.end_ ≤ self.end_ := by
  unfold contains
  rw [Bool.and_eq_true, decide_eq_true_iff, decide_eq_true_iff]

theorem strictly_contains_iff {self other : Interval} :
    self.strictly_contains other = true ↔ self.start ≤ other.start ∧ other.end_ < self.end_ := by
  unfold strictly_contains
  rw [Bool.and_eq_true, decide_eq_true_iff, decide_eq_true_iff]

-- What a split is for: parts that follow one another and cover the interval.

-- The parts follow one another from `start`, and the last one ends at `end_`.
def Tiles : Nat → List Interval → Nat → Prop
  | start, [], end_ => start = end_ + 1
  | start, p :: ps, end_ => p.start = start ∧ Tiles (p.end_ + 1) ps end_

-- Parts that tile a range lie inside it.
theorem Tiles.bounds : ∀ {start end_ : Nat} {ps : List Interval}, Tiles start ps end_ →
    (∀ p ∈ ps, p.start ≤ p.end_ + 1) → ∀ p ∈ ps, start ≤ p.start ∧ p.end_ ≤ end_
  | _, _, [], _, _, _, hp => nomatch hp
  | start, end_, q :: ps, ⟨hq, hrest⟩, hle, p, hp => by
    have hbound := Tiles.bounds hrest (fun p hp => hle p (List.mem_cons_of_mem _ hp))
    have hq_le := hle q List.mem_cons_self
    rcases List.mem_cons.mp hp with rfl | hp
    · -- the rest starts right after `p` and ends at `end_`, so `p` ends by `end_`
      refine ⟨Nat.le_of_eq hq.symm, ?_⟩
      cases ps with
      | nil => exact Nat.le_of_eq (Nat.succ.inj hrest)
      | cons r ps =>
        have := hbound r List.mem_cons_self
        have := hle r (List.mem_cons_of_mem _ List.mem_cons_self)
        omega
    · have := hbound p hp
      omega

section Split

variable {start end_ : Nat} {sizes : List Nat}

theorem sum_pos (hsizes : ∀ s ∈ sizes, 0 < s) (hne : sizes ≠ []) : 0 < sizes.sum := by
  cases sizes with
  | nil => exact absurd rfl hne
  | cons s sizes =>
    have := hsizes s List.mem_cons_self
    rw [List.sum_cons]
    omega

theorem tiles_split_from (hsizes : ∀ s ∈ sizes, 0 < s) (h : start + sizes.sum = end_ + 1) :
    Tiles start (split_from start sizes) end_ := by
  induction sizes generalizing start with
  | nil => simpa [split_from, Tiles] using h
  | cons s sizes ih =>
    have hs := hsizes s List.mem_cons_self
    refine ⟨rfl, ?_⟩
    show Tiles (start + s - 1 + 1) _ _
    rw [show start + s - 1 + 1 = start + s by omega]
    exact ih (fun s hs => hsizes s (List.mem_cons_of_mem _ hs))
      (by rw [List.sum_cons] at h; omega)

theorem map_size_split_from (hsizes : ∀ s ∈ sizes, 0 < s) :
    (split_from start sizes).map size = sizes := by
  induction sizes generalizing start with
  | nil => rfl
  | cons s sizes ih =>
    have hs := hsizes s List.mem_cons_self
    rw [split_from, List.map_cons, ih fun s hs => hsizes s (List.mem_cons_of_mem _ hs)]
    simp only [Interval.size, new, List.cons.injEq, and_true]
    omega

-- An exact split of sizes that add up to the interval's size tiles it with parts of those sizes.
theorem split_exact_spec (self : Interval) (hsizes : ∀ s ∈ sizes, 0 < s) (hne : sizes ≠ [])
    (hsum : sizes.sum = self.size) :
    ∃ parts, self.split_exact sizes = some parts ∧ Tiles self.start parts self.end_ ∧
      parts.map size = sizes := by
  have hpos := sum_pos hsizes hne
  refine ⟨_, if_pos hsum, tiles_split_from hsizes ?_, map_size_split_from hsizes⟩
  rw [hsum, size] at hpos ⊢
  omega

end Split

theorem forall_pos_of_forall₂ {l₁ l₂ : List Nat} (h : List.Forall₂ (· ≤ ·) l₁ l₂)
    (hpos : ∀ x ∈ l₁, 0 < x) : ∀ y ∈ l₂, 0 < y := by
  induction h with
  | nil => exact fun _ hy => nomatch hy
  | cons hab _ ih =>
    intro y hy
    rcases List.mem_cons.mp hy with rfl | hy
    · exact Nat.lt_of_lt_of_le (hpos _ List.mem_cons_self) hab
    · exact ih (fun x hx => hpos x (List.mem_cons_of_mem _ hx)) y hy

-- The biased sizes keep every size, add the whole bias, and are as many as the sizes.
theorem biased_sizes_spec (share : Nat → Nat) : ∀ (i : Nat) (sizes : List Nat) (remaining : Nat),
    sizes ≠ [] → (biased_sizes share i sizes remaining).sum = sizes.sum + remaining ∧
      List.Forall₂ (· ≤ ·) sizes (biased_sizes share i sizes remaining)
  | _, [], _, hne => absurd rfl hne
  | _, [size], remaining, _ => by
    simp [biased_sizes]
  | i, size :: next :: sizes, remaining, _ => by
    obtain ⟨hsum, hle⟩ := biased_sizes_spec share (i + 1) (next :: sizes)
      (remaining - min remaining (share i)) (List.cons_ne_nil _ _)
    simp only [biased_sizes, List.sum_cons, hsum]
    refine ⟨by omega, .cons (Nat.le_add_right _ _) hle⟩

-- `split_exponential` tiles the interval with one part per size, each at least its size,
-- whatever shares the rounding gives.
theorem split_exponential_spec (round : Nat → List Nat → Nat → Nat) {self : Interval}
    {sizes : List Nat} (hne : sizes ≠ []) (hsizes : ∀ s ∈ sizes, 0 < s)
    (hsum : sizes.sum ≤ self.size) :
    ∃ parts, split_exponential round self sizes = some parts ∧ Tiles self.start parts self.end_ ∧
      List.Forall₂ (fun s p => s ≤ p.size) sizes parts := by
  have hpos := sum_pos hsizes hne
  unfold split_exponential
  dsimp only
  rw [if_neg (by omega), if_neg (by omega)]
  split_ifs with hexact
  · -- no room left over: the parts have exactly the sizes
    obtain ⟨parts, hsplit, htiles, hmap⟩ := split_exact_spec self hsizes hne hexact.symm
    refine ⟨parts, hsplit, htiles, ?_⟩
    rw [← hmap, List.forall₂_map_left_iff]
    exact List.forall₂_same.mpr fun _ _ => Nat.le_refl _
  · -- the bias makes the biased sizes add up to the interval's size
    obtain ⟨hbsum, hble⟩ := biased_sizes_spec (round (self.size - sizes.sum) sizes) 0 sizes
      (self.size - sizes.sum) hne
    obtain ⟨parts, hsplit, htiles, hmap⟩ := split_exact_spec self (forall_pos_of_forall₂ hble hsizes)
      (by rintro h; rw [h] at hble; exact hne (List.forall₂_nil_right_iff.mp hble))
      (by rw [hbsum]; omega)
    refine ⟨parts, hsplit, htiles, ?_⟩
    rw [← hmap] at hble
    exact (List.forall₂_map_right_iff.mp hble)

-- Parts at least as large as positive sizes that tile an interval lie inside it.
theorem contains_of_tiles {self : Interval} {sizes : List Nat} {parts : List Interval}
    (htiles : Tiles self.start parts self.end_)
    (hsizes : List.Forall₂ (fun s p => s ≤ p.size) sizes parts) (hpos : ∀ s ∈ sizes, 0 < s) :
    ∀ p ∈ parts, self.contains p = true := by
  have hparts := forall_pos_of_forall₂ (List.forall₂_map_right_iff.mpr hsizes) hpos
  intro p hp
  have hbounds := htiles.bounds (fun q hq => ?_) p hp
  · simp only [contains, Bool.and_eq_true, decide_eq_true_eq]
    exact hbounds
  · -- a part of positive size does not end before it starts
    have := hparts q.size (List.mem_map_of_mem hq)
    simp only [size] at this
    omega

-- Parts of positive size that tile a range follow one another.
theorem Tiles.pairwise : ∀ {start end_ : Nat} {ps : List Interval}, Tiles start ps end_ →
    (∀ p ∈ ps, 0 < p.size) → ps.Pairwise fun p q => p.end_ < q.start
  | _, _, [], _, _ => List.Pairwise.nil
  | _, _, p :: ps, ⟨_, hrest⟩, hpos => by
    have hbounds := hrest.bounds fun q hq => by
      have := hpos q (List.mem_cons_of_mem _ hq)
      simp only [size] at this
      omega
    refine List.pairwise_cons.mpr ⟨fun q hq => ?_, hrest.pairwise fun q hq => hpos q (List.mem_cons_of_mem _ hq)⟩
    have := (hbounds q hq).1
    omega

-- The rounding of `split_half`.

theorem two_pow_shift_le {n : Nat} (hn : 0 < n) : 2 ^ (n.log2 + 1 - 24) ≤ n :=
  Nat.le_trans (Nat.pow_le_pow_right (by decide) (by omega : n.log2 + 1 - 24 ≤ n.log2))
    (Nat.log2_self_le (by omega))

-- A positive `n` rounds to at least one and at most `2 * n`.
theorem to_f32_bounds {n : Nat} (hn : 0 < n) : 0 < to_f32 n ∧ to_f32 n ≤ 2 * n := by
  have hpow := two_pow_shift_le hn
  have hpos : 0 < 2 ^ (n.log2 + 1 - 24) := Nat.two_pow_pos _
  -- the truncated quotient and its successor, scaled back
  have hq : 0 < n / 2 ^ (n.log2 + 1 - 24) := Nat.div_pos hpow hpos
  have hlow : n / 2 ^ (n.log2 + 1 - 24) * 2 ^ (n.log2 + 1 - 24) ≤ n := Nat.div_mul_le_self _ _
  unfold to_f32
  dsimp only
  split_ifs
  · rw [Nat.succ_mul]
    exact ⟨by omega, by omega⟩
  · exact ⟨Nat.mul_pos hq hpos, by omega⟩

-- The left half of a nonempty interval has at least one block and at most all of them.
theorem split_half_size_bounds {n : Nat} (hn : 0 < n) :
    1 ≤ (to_f32 n + 1) / 2 ∧ (to_f32 n + 1) / 2 ≤ n := by
  have := to_f32_bounds hn
  omega

-- With no share rounded to the first part, the last part takes the whole bias.
example : split_exponential (fun _ _ _ => 0) ⟨1, 10⟩ [2, 3] = some [⟨1, 2⟩, ⟨3, 10⟩] := by
  decide

end Interval

end Waglayla.Consensus.Reachability
