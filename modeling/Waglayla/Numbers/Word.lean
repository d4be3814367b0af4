import Mathlib.Algebra.Order.BigOperators.Group.List
import Mathlib.Algebra.GroupWithZero.Nat

-- `u64` arithmetic as a build with overflow checks runs it: a panic or a `None` is `none`.
-- `Exact r fits n` says that `r` computes `n`, with `fits` the values that must fit in a word.

namespace Word

def MAX : UInt64 := 0xFFFFFFFFFFFFFFFF

def checked_add (a b : UInt64) : Option UInt64 :=
  if a.toNat + b.toNat < 2 ^ 64 then some (a + b) else none

def checked_mul (a b : UInt64) : Option UInt64 :=
  if a.toNat * b.toNat < 2 ^ 64 then some (a * b) else none

def checked_sub (a b : UInt64) : Option UInt64 :=
  if b ≤ a then some (a - b) else none

def checked_div (a b : UInt64) : Option UInt64 :=
  if b = 0 then none else some (a / b)

def saturating_add (a b : UInt64) : UInt64 := (checked_add a b).getD MAX

def saturating_mul (a b : UInt64) : UInt64 := (checked_mul a b).getD MAX

def saturating_sub (a b : UInt64) : UInt64 := (checked_sub a b).getD 0

-- `iter().map(f).sum()`: each element is mapped and then added, in order, from zero.
def sum_map {α : Type*} (f : α → Option UInt64) (l : List α) : Option UInt64 :=
  l.foldlM (fun total x => do checked_add total (← f x)) 0

section Checked

variable {a b : UInt64}

theorem checked_mul_of_lt (h : a.toNat * b.toNat < 2 ^ 64) :
    ∃ c, checked_mul a b = some c ∧ c.toNat = a.toNat * b.toNat :=
  ⟨a * b, if_pos h, by rw [UInt64.toNat_mul, Nat.mod_eq_of_lt h]⟩

theorem checked_add_comm (a b : UInt64) : checked_add a b = checked_add b a := by
  simp only [checked_add, Nat.add_comm a.toNat, UInt64.add_comm a]

theorem checked_sub_of_le (h : b ≤ a) :
    ∃ c, checked_sub a b = some c ∧ c.toNat = a.toNat - b.toNat :=
  ⟨a - b, if_pos h, UInt64.toNat_sub_of_le a b h⟩

end Checked

-- `u64::overflowing_add`: the wrapped sum, and whether it wrapped.
def overflowing_add (a b : UInt64) : UInt64 × Bool :=
  (a + b, decide (2 ^ 64 ≤ a.toNat + b.toNat))

-- `u64::overflowing_sub`: the wrapped difference, and whether it borrowed.
def overflowing_sub (a b : UInt64) : UInt64 × Bool :=
  (a - b, decide (a.toNat < b.toNat))

section Overflowing

-- The wrapped word and the flag together make up the exact sum.
theorem overflowing_add_value (a b : UInt64) :
    (overflowing_add a b).1.toNat + 2 ^ 64 * (overflowing_add a b).2.toNat = a.toNat + b.toNat := by
  have ha := UInt64.toNat_lt a
  have hb := UInt64.toNat_lt b
  by_cases h : 2 ^ 64 ≤ a.toNat + b.toNat <;> simp only [overflowing_add, UInt64.toNat_add, h,
    decide_true, decide_false, Bool.toNat_true, Bool.toNat_false] at ha hb ⊢ <;> omega

-- The borrow lends one word's worth to the minuend.
theorem overflowing_sub_value (a b : UInt64) :
    a.toNat + 2 ^ 64 * (overflowing_sub a b).2.toNat = (overflowing_sub a b).1.toNat + b.toNat := by
  have ha := UInt64.toNat_lt a
  have hb := UInt64.toNat_lt b
  by_cases h : a.toNat < b.toNat <;> simp only [overflowing_sub, UInt64.toNat_sub, h,
    decide_true, decide_false, Bool.toNat_true, Bool.toNat_false] at ha hb ⊢ <;> omega

-- A `u128` below `2 ^ 128` cast to its low word and shifted down to its high word.
theorem low_add_high (n : Nat) (hn : n < 2 ^ 128) :
    (UInt64.ofNat n).toNat + 2 ^ 64 * (UInt64.ofNat (n >>> 64)).toNat = n := by
  have hhigh : n >>> 64 < 2 ^ 64 := by
    rw [Nat.shiftRight_eq_div_pow]
    omega
  rw [UInt64.toNat_ofNat', UInt64.toNat_ofNat', Nat.mod_eq_of_lt hhigh, Nat.shiftRight_eq_div_pow]
  exact Nat.mod_add_div n (2 ^ 64)

-- A product of words plus two more words fits in a `u128`.
theorem mul_add_add_lt (a b c d : Nat) (ha : a < 2 ^ 64) (hb : b < 2 ^ 64) (hc : c < 2 ^ 64)
    (hd : d < 2 ^ 64) : a * b + c + d < 2 ^ 128 := by
  have hab : a * b ≤ (2 ^ 64 - 1) * (2 ^ 64 - 1) :=
    Nat.mul_le_mul (by omega) (by omega)
  omega

end Overflowing

def Exact (r : Option UInt64) (fits : Prop) (n : Nat) : Prop :=
  ∀ c, r = some c ↔ fits ∧ c.toNat = n

section Exact

variable {r : Option UInt64} {fits fits' : Prop} {n m : Nat}

theorem Exact.eq_some (h : Exact r fits n) (hf : fits) (hn : n < 2 ^ 64) :
    r = some (UInt64.ofNat n) :=
  (h _).mpr ⟨hf, UInt64.toNat_ofNat_of_lt' hn⟩

theorem Exact.eq_none (h : Exact r fits n) (hf : ¬(fits ∧ n < 2 ^ 64)) : r = none := by
  cases hr : r with
  | none => rfl
  | some c =>
    obtain ⟨hfits, hc⟩ := (h c).mp hr
    exact absurd ⟨hfits, hc ▸ c.toNat_lt⟩ hf

theorem Exact.of_eq_none (h : Exact r fits n) (hr : r = none) : ¬(fits ∧ n < 2 ^ 64) := by
  rintro ⟨hfits, hn⟩
  rw [h.eq_some hfits hn] at hr
  cases hr

-- Two computations exact for the same value, under conditions equivalent whenever the value
-- fits, are the same computation.
theorem Exact.eq {r' : Option UInt64} (h : Exact r fits n) (h' : Exact r' fits' n)
    (hf : n < 2 ^ 64 → (fits ↔ fits')) : r = r' := by
  by_cases hfit : fits ∧ n < 2 ^ 64
  · rw [h.eq_some hfit.1 hfit.2, h'.eq_some ((hf hfit.2).mp hfit.1) hfit.2]
  · rw [h.eq_none hfit, h'.eq_none fun hfit' => hfit ⟨(hf hfit'.2).mpr hfit'.1, hfit'.2⟩]

-- The conditions only matter where the value fits.
theorem Exact.congr (h : Exact r fits n) (hf : n < 2 ^ 64 → (fits ↔ fits')) : Exact r fits' n := by
  intro c
  rw [h c]
  constructor
  · rintro ⟨hfits, rfl⟩
    exact ⟨(hf c.toNat_lt).mp hfits, rfl⟩
  · rintro ⟨hfits, rfl⟩
    exact ⟨(hf c.toNat_lt).mpr hfits, rfl⟩

theorem Exact.value_congr (h : Exact r fits n) (hn : n = m) : Exact r fits m := hn ▸ h

theorem exact_none (hf : ¬(fits ∧ n < 2 ^ 64)) : Exact none fits n := by
  intro c
  constructor
  · intro h
    cases h
  · rintro ⟨hfits, hc⟩
    exact absurd ⟨hfits, hc ▸ c.toNat_lt⟩ hf

theorem exact_some (a : UInt64) : Exact (some a) True a.toNat := by
  intro c
  rw [Option.some.injEq, true_and, eq_comm, UInt64.toNat_inj]

theorem exact_checked_add (a b : UInt64) : Exact (checked_add a b) True (a.toNat + b.toNat) := by
  intro c
  unfold checked_add
  split_ifs with h
  · rw [Option.some.injEq, true_and, ← UInt64.toNat_inj, UInt64.toNat_add, Nat.mod_eq_of_lt h,
      eq_comm]
  · simp only [true_and, false_iff]
    intro hc
    exact h (hc ▸ c.toNat_lt)

theorem exact_checked_mul (a b : UInt64) : Exact (checked_mul a b) True (a.toNat * b.toNat) := by
  intro c
  unfold checked_mul
  split_ifs with h
  · rw [Option.some.injEq, true_and, ← UInt64.toNat_inj, UInt64.toNat_mul, Nat.mod_eq_of_lt h,
      eq_comm]
  · simp only [true_and, false_iff]
    intro hc
    exact h (hc ▸ c.toNat_lt)

theorem exact_checked_add_of {a b : UInt64} {na nb : Nat} (ha : a.toNat = na) (hb : b.toNat = nb) :
    Exact (checked_add a b) True (na + nb) :=
  ha ▸ hb ▸ exact_checked_add a b

theorem exact_checked_mul_of {a b : UInt64} {na nb : Nat} (ha : a.toNat = na) (hb : b.toNat = nb) :
    Exact (checked_mul a b) True (na * nb) :=
  ha ▸ hb ▸ exact_checked_mul a b

-- A bind returns when its first computation does, with a value that fits, and then its
-- continuation does.
theorem Exact.bind {k : UInt64 → Option UInt64} {fk : Prop} (h : Exact r fits n)
    (hk : ∀ a, a.toNat = n → Exact (k a) fk m) : Exact (r >>= k) (fits ∧ n < 2 ^ 64 ∧ fk) m := by
  intro c
  cases hr : r with
  | none =>
    constructor
    · intro h'
      cases h'
    rintro ⟨⟨hfits, hn, -⟩, -⟩
    rw [h.eq_some hfits hn] at hr
    exact nomatch hr
  | some a =>
    obtain ⟨hfits, ha⟩ := (h a).mp hr
    change k a = some c ↔ _
    rw [hk a ha c]
    constructor
    · rintro ⟨hfk, hc⟩
      exact ⟨⟨hfits, ha ▸ a.toNat_lt, hfk⟩, hc⟩
    · rintro ⟨⟨-, -, hfk⟩, hc⟩
      exact ⟨hfk, hc⟩

-- Adding a computed word: the sum fits only if both parts do, so their own bounds drop out.
theorem Exact.add {r' : Option UInt64} {fits' : Prop} {n' : Nat} (h : Exact r fits n)
    (h' : Exact r' fits' n') :
    Exact (r >>= fun a => r' >>= fun b => checked_add a b) (fits ∧ fits') (n + n') := by
  have hbind := h.bind fun a ha => h'.bind fun b hb =>
    (exact_checked_add a b).value_congr (by rw [ha, hb])
  refine hbind.congr fun hfit => ?_
  constructor
  · rintro ⟨hfits, -, hfits', -⟩
    exact ⟨hfits, hfits'⟩
  · rintro ⟨hfits, hfits'⟩
    exact ⟨hfits, by omega, hfits', by omega, trivial⟩

-- Multiplying by a computed word: a factor that overflows panics even when the other is zero.
theorem Exact.mul {r' : Option UInt64} {fits' : Prop} {n' : Nat} (h : Exact r fits n)
    (h' : Exact r' fits' n') :
    Exact (r >>= fun a => r' >>= fun b => checked_mul a b)
      (fits ∧ n < 2 ^ 64 ∧ fits' ∧ n' < 2 ^ 64) (n * n') := by
  have hbind := h.bind fun a ha => h'.bind fun b hb =>
    (exact_checked_mul a b).value_congr (by rw [ha, hb])
  refine hbind.congr fun _ => ?_
  constructor
  · rintro ⟨hfits, hn, hfits', hn', -⟩
    exact ⟨hfits, hn, hfits', hn'⟩
  · rintro ⟨hfits, hn, hfits', hn'⟩
    exact ⟨hfits, hn, hfits', hn', trivial⟩

end Exact

section Sum

variable {α : Type*} {f : α → Option UInt64} {fits : α → Prop} {n : α → Nat}

-- The additions of a sum never fail on their own: each partial sum is at most the whole.
theorem exact_foldlM_add :
    ∀ (l : List α), (∀ x ∈ l, Exact (f x) (fits x) (n x)) → ∀ acc : UInt64,
      Exact (l.foldlM (fun total x => do checked_add total (← f x)) acc) (∀ x ∈ l, fits x)
        (acc.toNat + (l.map n).sum)
  | [], _, acc => (exact_some acc).congr fun _ => by simp
  | x :: l, hf, acc => by
    have hstep : Exact (do checked_add acc (← f x)) (fits x ∧ n x < 2 ^ 64 ∧ True)
        (acc.toNat + n x) :=
      (hf x List.mem_cons_self).bind fun y hy =>
        (exact_checked_add acc y).value_congr (by rw [hy])
    have hrest := hstep.bind fun a ha =>
      (exact_foldlM_add l (fun y hy => hf y (List.mem_cons_of_mem x hy)) a).value_congr
        (by rw [ha, List.map_cons, List.sum_cons, Nat.add_assoc] : a.toNat + (l.map n).sum =
          acc.toNat + ((x :: l).map n).sum)
    rw [List.foldlM_cons]
    refine hrest.congr fun hfit => ?_
    rw [List.map_cons, List.sum_cons] at hfit
    constructor
    · rintro ⟨⟨hx, -, -⟩, -, hl⟩ y hy
      rcases List.mem_cons.mp hy with rfl | hy
      · exact hx
      · exact hl y hy
    · intro hall
      exact ⟨⟨hall x List.mem_cons_self, by omega, trivial⟩, by omega,
        fun y hy => hall y (List.mem_cons_of_mem x hy)⟩

-- A fold of additions over words already computed.
theorem exact_foldlM_checked_add (l : List UInt64) (acc : UInt64) :
    Exact (l.foldlM checked_add acc) True (acc.toNat + (l.map UInt64.toNat).sum) :=
  (exact_foldlM_add (f := some) l (fun x _ => exact_some x) acc).congr fun _ => by simp

theorem sum_map_map {β : Type*} (g : β → α) (l : List β) :
    sum_map f (l.map g) = sum_map (fun y => f (g y)) l := by
  rw [sum_map, sum_map, List.foldlM_map]

theorem Exact.sum_map {l : List α} (hf : ∀ x ∈ l, Exact (f x) (fits x) (n x)) :
    Exact (sum_map f l) (∀ x ∈ l, fits x) (l.map n).sum :=
  (exact_foldlM_add l hf 0).value_congr (Nat.zero_add _)

end Sum

end Word
