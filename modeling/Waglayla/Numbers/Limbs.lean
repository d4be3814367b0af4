import Mathlib.Data.List.TakeDrop
import Mathlib.Algebra.Order.Group.Nat
import Mathlib.Tactic.Ring

-- Numbers written in 64-bit limbs, lowest limb first.

namespace Limbs

-- The value of a little-endian list of 64-bit limbs.
def value : List UInt64 → Nat
  | [] => 0
  | w :: ws => w.toNat + 2 ^ 64 * value ws

@[simp] theorem value_nil : value [] = 0 := rfl

@[simp] theorem value_cons (w : UInt64) (ws : List UInt64) :
    value (w :: ws) = w.toNat + 2 ^ 64 * value ws := rfl

theorem value_append (xs ys : List UInt64) :
    value (xs ++ ys) = value xs + 2 ^ (64 * xs.length) * value ys := by
  induction xs with
  | nil => simp
  | cons x xs ih =>
    rw [List.cons_append, value_cons, ih, value_cons, List.length_cons,
      show 64 * (xs.length + 1) = 64 + 64 * xs.length by omega, Nat.pow_add]
    ring

theorem value_lt (ws : List UInt64) : value ws < 2 ^ (64 * ws.length) := by
  induction ws with
  | nil => simp
  | cons w ws ih =>
    have hw := UInt64.toNat_lt w
    rw [value_cons, List.length_cons, show 64 * (ws.length + 1) = 64 + 64 * ws.length by omega,
      Nat.pow_add]
    calc w.toNat + 2 ^ 64 * value ws < 2 ^ 64 + 2 ^ 64 * value ws := by omega
      _ = 2 ^ 64 * (value ws + 1) := by ring
      _ ≤ 2 ^ 64 * 2 ^ (64 * ws.length) := Nat.mul_le_mul_left _ ih

-- Limbs of one length are fixed by their value.
theorem eq_of_value_eq : ∀ {xs ys : List UInt64}, xs.length = ys.length → value xs = value ys →
    xs = ys
  | [], [], _, _ => rfl
  | x :: xs, y :: ys, hlen, hvalue => by
    have hx := UInt64.toNat_lt x
    have hy := UInt64.toNat_lt y
    rw [value_cons, value_cons] at hvalue
    have hlow : x.toNat = y.toNat := by omega
    have hhigh : value xs = value ys := by omega
    rw [UInt64.toNat_inj.mp hlow, eq_of_value_eq (Nat.succ.inj hlen) hhigh]

@[simp] theorem value_replicate_zero (k : Nat) : value (List.replicate k 0) = 0 := by
  induction k with
  | zero => rfl
  | succ k ih => simp [List.replicate_succ, ih]

theorem value_eq_zero_iff {ws : List UInt64} : value ws = 0 ↔ ∀ w ∈ ws, w = 0 := by
  induction ws with
  | nil => simp
  | cons w ws ih =>
    rw [value_cons, List.forall_mem_cons, ← ih, ← UInt64.toNat_inj, UInt64.toNat_zero]
    omega

-- The limbs below `k` and those from `k` on.
theorem value_take_add_drop (ws : List UInt64) {k : Nat} (hk : k ≤ ws.length) :
    value ws = value (ws.take k) + 2 ^ (64 * k) * value (ws.drop k) := by
  conv_lhs => rw [← List.take_append_drop k ws]
  rw [value_append, List.length_take_of_le hk]

-- One limb of a carry chain: the limb `z` and the carry `c'` out of `a + c`, below the rest
-- of the chain, which adds `rest` and takes `c'` in.
theorem value_cons_of_carry {z : UInt64} {zs : List UInt64} {a c c' rest carry P : Nat}
    (hstep : z.toNat + 2 ^ 64 * c' = a + c) (hrest : value zs + P * carry = rest + c') :
    value (z :: zs) + 2 ^ 64 * P * carry = a + 2 ^ 64 * rest + c := by
  calc value (z :: zs) + 2 ^ 64 * P * carry = z.toNat + 2 ^ 64 * (value zs + P * carry) := by
        rw [value_cons]
        ring
    _ = z.toNat + 2 ^ 64 * c' + 2 ^ 64 * rest := by
        rw [hrest]
        ring
    _ = a + 2 ^ 64 * rest + c := by
        rw [hstep]
        ring

-- One limb of a borrow chain: `a` lends the borrow `b'` to pay for `z + c + b`, below the
-- rest of the chain.
theorem value_cons_of_borrow {z : UInt64} {zs : List UInt64} {a c b b' rest rest' borrow P : Nat}
    (hstep : a + 2 ^ 64 * b' = z.toNat + c + b)
    (hrest : rest + P * borrow = value zs + rest' + b') :
    a + 2 ^ 64 * rest + 2 ^ 64 * P * borrow = value (z :: zs) + (c + 2 ^ 64 * rest') + b := by
  calc a + 2 ^ 64 * rest + 2 ^ 64 * P * borrow = a + 2 ^ 64 * (rest + P * borrow) := by ring
    _ = a + 2 ^ 64 * b' + 2 ^ 64 * (value zs + rest') := by
        rw [hrest]
        ring
    _ = value (z :: zs) + (c + 2 ^ 64 * rest') + b := by
        rw [hstep, value_cons]
        ring

-- A value below `M` and a count of `M` that add up to `S` are `S` modulo `M` and `S / M`.
theorem eq_mod_of_add_mul {V C S M : Nat} (hV : V < M) (h : V + M * C = S) :
    V = S % M ∧ C = S / M := by
  subst h
  have hM : 0 < M := by omega
  rw [Nat.add_mul_mod_self_left, Nat.mod_eq_of_lt hV, Nat.add_mul_div_left _ _ hM,
    Nat.div_eq_of_lt hV, Nat.zero_add]
  exact ⟨rfl, rfl⟩

-- A flag counted as `S / M` is set exactly when `S` reaches `M`.
theorem bool_iff_of_toNat_eq_div {C : Bool} {S M : Nat} (hM : 0 < M) (h : C.toNat = S / M) :
    C = true ↔ M ≤ S := by
  cases C
  · simp only [Bool.toNat_false, Bool.false_eq_true, false_iff, not_le] at h ⊢
    exact (Nat.div_eq_zero_iff_lt hM).mp h.symm
  · simp only [Bool.toNat_true, true_iff] at h ⊢
    exact (Nat.one_le_div_iff hM).mp (by omega)

section WordBits

-- Bits of a word shifted left by less than a word, read below the word's top.
theorem testBit_shiftLeft_toNat (x : UInt64) {ls b : Nat} (hls : ls < 64) (hb : b < 64) :
    (x <<< ls.toUInt64).toNat.testBit b = (decide (ls ≤ b) && x.toNat.testBit (b - ls)) := by
  have hls' : ls.toUInt64.toNat % 64 = ls := by
    rw [Nat.toUInt64_eq, UInt64.toNat_ofNat', Nat.mod_eq_of_lt (show ls < 2 ^ 64 by omega),
      Nat.mod_eq_of_lt hls]
  rw [UInt64.toNat_shiftLeft, hls', Nat.testBit_mod_two_pow, Nat.testBit_shiftLeft]
  simp [hb]

-- Bits of a word shifted right by less than a word.
theorem testBit_shiftRight_toNat (x : UInt64) {r b : Nat} (hr : r < 64) :
    (x >>> r.toUInt64).toNat.testBit b = x.toNat.testBit (r + b) := by
  have hr' : r.toUInt64.toNat % 64 = r := by
    rw [Nat.toUInt64_eq, UInt64.toNat_ofNat', Nat.mod_eq_of_lt (show r < 2 ^ 64 by omega),
      Nat.mod_eq_of_lt hr]
  rw [UInt64.toNat_shiftRight, hr', Nat.testBit_shiftRight]

-- A word has no bits from the 64th on.
theorem testBit_toNat_of_le (x : UInt64) {j : Nat} (hj : 64 ≤ j) : x.toNat.testBit j = false :=
  Nat.testBit_lt_two_pow (lt_of_lt_of_le (UInt64.toNat_lt x) (Nat.pow_le_pow_right (by norm_num) hj))

end WordBits

-- Bit `k` of the value is bit `k % 64` of limb `k / 64`, and zero past the last limb.
theorem testBit_value (ws : List UInt64) (k : Nat) :
    (value ws).testBit k = (ws.getD (k / 64) 0).toNat.testBit (k % 64) := by
  induction ws generalizing k with
  | nil => simp
  | cons w ws ih =>
    rw [value_cons, Nat.add_comm, Nat.testBit_two_pow_mul_add _ (UInt64.toNat_lt w)]
    by_cases hk : k < 64
    · rw [if_pos hk, Nat.div_eq_of_lt hk, Nat.mod_eq_of_lt hk]
      rfl
    · rw [if_neg hk, ih, show k / 64 = (k - 64) / 64 + 1 by omega,
        show k % 64 = (k - 64) % 64 by omega, List.getD_cons_succ]

-- Setting bit `j` of limb `i` sets bit `64 * i + j` of the value.
theorem value_set_or (ws : List UInt64) {i j : Nat} (hi : i < ws.length) (hj : j < 64) :
    value (ws.set i (ws.getD i 0 ||| 1 <<< j.toUInt64)) = value ws ||| 2 ^ (64 * i + j) := by
  have hbit : (1 <<< j.toUInt64 : UInt64).toNat = 2 ^ j := by
    rw [UInt64.toNat_shiftLeft, UInt64.toNat_one, Nat.one_shiftLeft, Nat.toUInt64_eq,
      UInt64.toNat_ofNat', Nat.mod_eq_of_lt (by omega : j < 2 ^ 64), Nat.mod_eq_of_lt hj,
      Nat.mod_eq_of_lt (Nat.pow_lt_pow_right (by norm_num) hj)]
  apply Nat.eq_of_testBit_eq
  intro k
  rw [testBit_value, Nat.testBit_or, testBit_value, Nat.testBit_two_pow]
  by_cases hk : k / 64 = i
  · rw [hk, List.getD_eq_getElem?_getD, List.getElem?_set_self hi, Option.getD_some,
      UInt64.toNat_or, Nat.testBit_or, hbit, Nat.testBit_two_pow]
    congr 1
    simp only [decide_eq_decide]
    omega
  · rw [List.getD_eq_getElem?_getD, List.getElem?_set_ne (Ne.symm hk), ← List.getD_eq_getElem?_getD]
    have hne : ¬64 * i + j = k := by omega
    simp only [hne, decide_false, Bool.or_false]

end Limbs
