import Waglayla.Numbers.Limbs
import Waglayla.Numbers.Word
import Mathlib.Tactic.Linarith
import Mathlib.Tactic.Positivity
import Mathlib.Data.List.GetD

-- The wide unsigned integers of `construct_uint!`, limbs lowest first, and their arithmetic.
-- The full multiplication's flag only sees the partial products inside the limbs.

namespace Waglayla.Math

open Limbs

-- `construct_uint!($name, $n_words)`: `$name(pub [u64; $n_words])`.
structure Uint (n_words : Nat) where
  limbs : List UInt64
  length_limbs : limbs.length = n_words

namespace Uint

variable {n_words : Nat}

-- `Self::BITS`.
def BITS (n_words : Nat) : Nat := n_words * 64

-- The number the limbs stand for.
def value (self : Uint n_words) : Nat := Limbs.value self.limbs

-- `Self::ZERO`.
def ZERO : Uint n_words := ⟨List.replicate n_words 0, List.length_replicate⟩

section Add

-- `carrying_add_u64`, local to `overflowing_add`.
def carrying_add_u64 (lhs rhs : UInt64) (carry : Bool) : UInt64 × Bool :=
  let (a, b) := Word.overflowing_add lhs rhs
  let (c, d) := Word.overflowing_add a carry.toUInt64
  (c, b != d)

-- The loop of `overflowing_add`, lowest limb first, passing the carry up.
def add_limbs : List UInt64 → List UInt64 → Bool → List UInt64 × Bool
  | x :: xs, y :: ys, carry =>
    let (z, carry_out) := carrying_add_u64 x y carry
    let (zs, carry) := add_limbs xs ys carry_out
    (z :: zs, carry)
  | _, _, carry => ([], carry)

theorem length_add_limbs :
    ∀ (xs ys : List UInt64) (carry : Bool), (add_limbs xs ys carry).1.length = min xs.length ys.length
  | x :: xs, y :: ys, carry => by simp [add_limbs, length_add_limbs xs ys, Nat.add_min_add_right]
  | [], _, _ => by simp [add_limbs]
  | _ :: _, [], _ => by simp [add_limbs]

def overflowing_add (self other : Uint n_words) : Uint n_words × Bool :=
  let r := add_limbs self.limbs other.limbs false
  (⟨r.1, by rw [length_add_limbs, self.length_limbs, other.length_limbs, Nat.min_self]⟩, r.2)

-- The loop of `overflowing_add_u64` above the lowest limb: it adds the carry while there is
-- one and breaks at the first limb that takes it.
def propagate_carry : List UInt64 → Bool → List UInt64 × Bool
  | w :: ws, true =>
    let (w, carry) := Word.overflowing_add w 1
    let (ws, carry) := propagate_carry ws carry
    (w :: ws, carry)
  | ws, carry => (ws, carry)

theorem length_propagate_carry :
    ∀ (ws : List UInt64) (carry : Bool), (propagate_carry ws carry).1.length = ws.length
  | w :: ws, true => by simp [propagate_carry, length_propagate_carry ws]
  | [], true => rfl
  | _, false => by cases ‹List UInt64› <;> rfl

-- `overflowing_add_u64`. Every generated width has limbs: `from_u64` and `from_u128` write
-- limbs 0 and 1, which does not compile below two limbs.
def overflowing_add_u64 (self : Uint n_words) (other : UInt64) : Uint n_words × Bool :=
  match hself : self.limbs with
  | w :: ws =>
    let (w, carry) := Word.overflowing_add w other
    let r := propagate_carry ws carry
    (⟨w :: r.1, by rw [List.length_cons, length_propagate_carry, ← self.length_limbs, hself,
      List.length_cons]⟩, r.2)
  | [] => (self, false)

theorem carrying_add_u64_value (lhs rhs : UInt64) (carry : Bool) :
    (carrying_add_u64 lhs rhs carry).1.toNat + 2 ^ 64 * (carrying_add_u64 lhs rhs carry).2.toNat =
      lhs.toNat + rhs.toNat + carry.toNat := by
  have h1 := Word.overflowing_add_value lhs rhs
  have hlhs := UInt64.toNat_lt lhs
  have hrhs := UInt64.toNat_lt rhs
  have hcarry : carry.toUInt64.toNat = carry.toNat := by cases carry <;> rfl
  have hcarry_le := Bool.toNat_le carry
  rcases ha : Word.overflowing_add lhs rhs with ⟨a, b⟩
  have h2 := Word.overflowing_add_value a carry.toUInt64
  rcases hc : Word.overflowing_add a carry.toUInt64 with ⟨c, d⟩
  simp only [carrying_add_u64, ha, hc]
  rw [ha] at h1
  rw [hc, hcarry] at h2
  -- the two additions never both wrap
  cases b <;> cases d <;> simp only [Bool.toNat_true, Bool.toNat_false, bne_self_eq_false,
    Bool.false_bne, Bool.true_bne, Bool.not_false] at h1 h2 ⊢ <;> omega

-- The loop adds the limbs and the carry in, up to the carry out of the top limb.
theorem add_limbs_value :
    ∀ (xs ys : List UInt64) (carry : Bool), xs.length = ys.length →
      Limbs.value (add_limbs xs ys carry).1 + 2 ^ (64 * xs.length) * (add_limbs xs ys carry).2.toNat =
        Limbs.value xs + Limbs.value ys + carry.toNat
  | x :: xs, y :: ys, carry, hlen => by
    have hrest := add_limbs_value xs ys (carrying_add_u64 x y carry).2 (by simpa using hlen)
    have h := value_cons_of_carry (carrying_add_u64_value x y carry) hrest
    rw [List.length_cons, show 64 * (xs.length + 1) = 64 + 64 * xs.length by omega, Nat.pow_add]
    simp only [add_limbs, value_cons] at h ⊢
    rw [h]
    ring
  | [], [], carry, _ => by simp [add_limbs]
  | [], _ :: _, _, hlen => by simp at hlen
  | _ :: _, [], _, hlen => by simp at hlen

-- Adding 1 up the limbs while it carries.
theorem propagate_carry_value :
    ∀ (ws : List UInt64) (carry : Bool),
      Limbs.value (propagate_carry ws carry).1 + 2 ^ (64 * ws.length) * (propagate_carry ws carry).2.toNat =
        Limbs.value ws + carry.toNat
  | w :: ws, true => by
    have hrest := propagate_carry_value ws (Word.overflowing_add w 1).2
    have h := value_cons_of_carry (Word.overflowing_add_value w 1) hrest
    rw [List.length_cons, show 64 * (ws.length + 1) = 64 + 64 * ws.length by omega, Nat.pow_add]
    simp only [propagate_carry, value_cons, Bool.toNat_true] at h ⊢
    rw [h]
    simp only [UInt64.reduceToNat]
  | [], true => by simp [propagate_carry]
  | ws, false => by cases ws <;> simp [propagate_carry]

end Add

section Sub

-- `borrowing_sub_u64`, local to `overflowing_sub`.
def borrowing_sub_u64 (lhs rhs : UInt64) (borrow : Bool) : UInt64 × Bool :=
  let (a, b) := Word.overflowing_sub lhs rhs
  let (c, d) := Word.overflowing_sub a borrow.toUInt64
  (c, b != d)

-- The loop of `overflowing_sub`, lowest limb first, passing the borrow up.
def sub_limbs : List UInt64 → List UInt64 → Bool → List UInt64 × Bool
  | x :: xs, y :: ys, carry =>
    let (z, carry_out) := borrowing_sub_u64 x y carry
    let (zs, carry) := sub_limbs xs ys carry_out
    (z :: zs, carry)
  | _, _, carry => ([], carry)

theorem length_sub_limbs :
    ∀ (xs ys : List UInt64) (carry : Bool), (sub_limbs xs ys carry).1.length = min xs.length ys.length
  | x :: xs, y :: ys, carry => by simp [sub_limbs, length_sub_limbs xs ys, Nat.add_min_add_right]
  | [], _, _ => by simp [sub_limbs]
  | _ :: _, [], _ => by simp [sub_limbs]

def overflowing_sub (self other : Uint n_words) : Uint n_words × Bool :=
  let r := sub_limbs self.limbs other.limbs false
  (⟨r.1, by rw [length_sub_limbs, self.length_limbs, other.length_limbs, Nat.min_self]⟩, r.2)

theorem borrowing_sub_u64_value (lhs rhs : UInt64) (borrow : Bool) :
    lhs.toNat + 2 ^ 64 * (borrowing_sub_u64 lhs rhs borrow).2.toNat =
      (borrowing_sub_u64 lhs rhs borrow).1.toNat + rhs.toNat + borrow.toNat := by
  have h1 := Word.overflowing_sub_value lhs rhs
  have hlhs := UInt64.toNat_lt lhs
  have hrhs := UInt64.toNat_lt rhs
  have hborrow : borrow.toUInt64.toNat = borrow.toNat := by cases borrow <;> rfl
  have hborrow_le := Bool.toNat_le borrow
  rcases ha : Word.overflowing_sub lhs rhs with ⟨a, b⟩
  have h2 := Word.overflowing_sub_value a borrow.toUInt64
  have ha_lt := UInt64.toNat_lt a
  rcases hc : Word.overflowing_sub a borrow.toUInt64 with ⟨c, d⟩
  have hc_lt := UInt64.toNat_lt c
  simp only [borrowing_sub_u64, ha, hc]
  rw [ha] at h1
  rw [hc, hborrow] at h2
  -- the two subtractions never both borrow
  cases b <;> cases d <;> simp only [Bool.toNat_true, Bool.toNat_false, bne_self_eq_false,
    Bool.false_bne, Bool.true_bne, Bool.not_false] at h1 h2 ⊢ <;> omega

-- The loop subtracts the limbs and the borrow in, lending the borrow out of the top limb.
theorem sub_limbs_value :
    ∀ (xs ys : List UInt64) (borrow : Bool), xs.length = ys.length →
      Limbs.value xs + 2 ^ (64 * xs.length) * (sub_limbs xs ys borrow).2.toNat =
        Limbs.value (sub_limbs xs ys borrow).1 + Limbs.value ys + borrow.toNat
  | x :: xs, y :: ys, borrow, hlen => by
    have hrest := sub_limbs_value xs ys (borrowing_sub_u64 x y borrow).2 (by simpa using hlen)
    have h := value_cons_of_borrow (borrowing_sub_u64_value x y borrow) hrest
    rw [List.length_cons, show 64 * (xs.length + 1) = 64 + 64 * xs.length by omega, Nat.pow_add]
    simp only [sub_limbs, value_cons] at h ⊢
    exact h
  | [], [], borrow, _ => by simp [sub_limbs]
  | [], _ :: _, _, hlen => by simp at hlen
  | _ :: _, [], _, hlen => by simp at hlen

end Sub

section MulU64

-- The loop of `carrying_mul_u64`. The `u128` sum stays below `2 ^ 128`, so it never wraps.
def mul_u64_limbs (other : UInt64) : List UInt64 → Nat → List UInt64 × Nat
  | w :: ws, carry =>
    let n := carry + other.toNat * w.toNat
    let (ws, carry) := mul_u64_limbs other ws (n >>> 64 &&& 0xFFFFFFFFFFFFFFFF)
    (UInt64.ofNat n :: ws, carry)
  | [], carry => ([], carry)

theorem length_mul_u64_limbs (other : UInt64) :
    ∀ (ws : List UInt64) (carry : Nat), (mul_u64_limbs other ws carry).1.length = ws.length
  | w :: ws, carry => by simp [mul_u64_limbs, length_mul_u64_limbs other ws]
  | [], _ => rfl

def carrying_mul_u64 (self : Uint n_words) (other : UInt64) : Uint n_words × UInt64 :=
  let r := mul_u64_limbs other self.limbs 0
  (⟨r.1, by rw [length_mul_u64_limbs, self.length_limbs]⟩, UInt64.ofNat r.2)

-- The high word of the `u128` sum, masked to a word, is the next carry.
theorem mul_u64_step (other w : UInt64) {carry : Nat} (hcarry : carry < 2 ^ 64) :
    (UInt64.ofNat (carry + other.toNat * w.toNat)).toNat +
        2 ^ 64 * ((carry + other.toNat * w.toNat) >>> 64 &&& 0xFFFFFFFFFFFFFFFF) =
      other.toNat * w.toNat + carry ∧
    (carry + other.toNat * w.toNat) >>> 64 &&& 0xFFFFFFFFFFFFFFFF < 2 ^ 64 := by
  have hlt : carry + other.toNat * w.toNat < 2 ^ 128 := by
    have := Word.mul_add_add_lt other.toNat w.toNat carry 0 (UInt64.toNat_lt _) (UInt64.toNat_lt _)
      hcarry (by norm_num)
    omega
  have hmask : (carry + other.toNat * w.toNat) >>> 64 &&& 0xFFFFFFFFFFFFFFFF =
      (carry + other.toNat * w.toNat) / 2 ^ 64 := by
    rw [show (0xFFFFFFFFFFFFFFFF : Nat) = 2 ^ 64 - 1 by norm_num, Nat.and_two_pow_sub_one_eq_mod,
      Nat.shiftRight_eq_div_pow]
    exact Nat.mod_eq_of_lt (by omega)
  rw [hmask, UInt64.toNat_ofNat']
  refine ⟨by rw [Nat.mod_add_div, Nat.add_comm], by omega⟩

-- The loop multiplies the limbs by `other`, with the carry in added at the bottom and the
-- carry out of the top limb left over.
theorem mul_u64_limbs_value (other : UInt64) :
    ∀ (ws : List UInt64) (carry : Nat), carry < 2 ^ 64 →
      Limbs.value (mul_u64_limbs other ws carry).1 +
          2 ^ (64 * ws.length) * (mul_u64_limbs other ws carry).2 =
        other.toNat * Limbs.value ws + carry ∧ (mul_u64_limbs other ws carry).2 < 2 ^ 64
  | w :: ws, carry, hcarry => by
    obtain ⟨hstep, hnext⟩ := mul_u64_step other w hcarry
    obtain ⟨hrest, hbound⟩ := mul_u64_limbs_value other ws _ hnext
    have h := value_cons_of_carry hstep hrest
    refine ⟨?_, hbound⟩
    rw [List.length_cons, show 64 * (ws.length + 1) = 64 + 64 * ws.length by omega, Nat.pow_add]
    simp only [mul_u64_limbs, value_cons] at h ⊢
    rw [h]
    ring
  | [], carry, hcarry => ⟨by simp [mul_u64_limbs], hcarry⟩

end MulU64

section Mul

-- The inner loop of row `j` of `overflowing_mul`: `result[i + j]` takes the low word of
-- `self[i] * other[j] + result[i + j] + carry` while `i + j < LIMBS`; the `u128` sum never
-- wraps.
def mul_row (factor : UInt64) : List UInt64 → List UInt64 → UInt64 → List UInt64 × UInt64
  | a :: as, r :: rs, carry =>
    let n := a.toNat * factor.toNat + r.toNat + carry.toNat
    let (rs, carry) := mul_row factor as rs (UInt64.ofNat (n >>> 64))
    (UInt64.ofNat n :: rs, carry)
  | _, _, carry => ([], carry)

theorem length_mul_row (factor : UInt64) :
    ∀ (as rs : List UInt64) (carry : UInt64),
      (mul_row factor as rs carry).1.length = min as.length rs.length
  | a :: as, r :: rs, carry => by
    simp [mul_row, length_mul_row factor as rs, Nat.add_min_add_right]
  | [], _, _ => by simp [mul_row]
  | _ :: _, [], _ => by simp [mul_row]

-- The rows of `overflowing_mul` from row `j` on, one for each remaining limb of `other`: row
-- `j` rewrites `result[j..]` from `self[..LIMBS - j]`, and a carry out of the top limb sets
-- `carry_out`.
def mul_rows (self : List UInt64) (n_words : Nat) :
    Nat → List UInt64 → List UInt64 → Bool → List UInt64 × Bool
  | j, b :: bs, result, carry_out =>
    let row := mul_row b (self.take (n_words - j)) (result.drop j) 0
    mul_rows self n_words (j + 1) bs (result.take j ++ row.1) (carry_out || row.2 != 0)
  | _, [], result, carry_out => (result, carry_out)

theorem length_mul_rows {self : List UInt64} (hself : self.length = n_words) :
    ∀ (j : Nat) (bs result : List UInt64) (carry_out : Bool), result.length = n_words →
      (mul_rows self n_words j bs result carry_out).1.length = n_words
  | j, b :: bs, result, carry_out, hresult => by
    apply length_mul_rows hself (j + 1) bs
    simp only [List.length_append, List.length_take, length_mul_row, List.length_drop, hself,
      hresult]
    omega
  | _, [], _, _, hresult => hresult

-- The partial products the rows of `overflowing_mul` add from row `j` on: `other[j]` times the
-- limbs of `self` below `LIMBS - j`, placed at limb `j`.
def row_products (self : List UInt64) (n_words : Nat) : Nat → List UInt64 → Nat
  | j, b :: bs =>
    2 ^ (64 * j) * (b.toNat * Limbs.value (self.take (n_words - j))) +
      row_products self n_words (j + 1) bs
  | _, [] => 0

def overflowing_mul (self other : Uint n_words) : Uint n_words × Bool :=
  let r := mul_rows self.limbs n_words 0 other.limbs ZERO.limbs false
  (⟨r.1, length_mul_rows self.length_limbs 0 other.limbs _ false ZERO.length_limbs⟩, r.2)

-- The row adds `factor` times the limbs of `as` to the limbs of `rs`, with the carry in at the
-- bottom and the carry out of the top limb left over.
theorem mul_row_value (factor : UInt64) :
    ∀ (as rs : List UInt64) (carry : UInt64), as.length = rs.length →
      Limbs.value (mul_row factor as rs carry).1 +
          2 ^ (64 * as.length) * (mul_row factor as rs carry).2.toNat =
        factor.toNat * Limbs.value as + Limbs.value rs + carry.toNat
  | a :: as, r :: rs, carry, hlen => by
    have hlt := Word.mul_add_add_lt a.toNat factor.toNat r.toNat carry.toNat (UInt64.toNat_lt _)
      (UInt64.toNat_lt _) (UInt64.toNat_lt _) (UInt64.toNat_lt _)
    have hstep := Word.low_add_high _ hlt
    have hrest := mul_row_value factor as rs
      (UInt64.ofNat ((a.toNat * factor.toNat + r.toNat + carry.toNat) >>> 64)) (by simpa using hlen)
    have h := value_cons_of_carry hstep hrest
    rw [List.length_cons, show 64 * (as.length + 1) = 64 + 64 * as.length by omega, Nat.pow_add]
    simp only [mul_row, value_cons] at h ⊢
    rw [h]
    ring
  | [], [], carry, _ => by simp [mul_row]
  | [], _ :: _, _, hlen => by simp at hlen
  | _ :: _, [], _, hlen => by simp at hlen

-- The rows from row `j` on add their partial products, up to the carries out of the top
-- limb, and the flag records whether any of those carries is not zero.
theorem mul_rows_value {self : List UInt64} (hself : self.length = n_words) :
    ∀ (j : Nat) (bs result : List UInt64) (carry_out : Bool), result.length = n_words →
      j + bs.length ≤ n_words →
      ∃ total, Limbs.value (mul_rows self n_words j bs result carry_out).1 +
          2 ^ (64 * n_words) * total = Limbs.value result + row_products self n_words j bs ∧
        ((mul_rows self n_words j bs result carry_out).2 = true ↔ carry_out = true ∨ 0 < total)
  | j, b :: bs, result, carry_out, hresult, hj => by
    simp only [List.length_cons] at hj
    let row := mul_row b (self.take (n_words - j)) (result.drop j) 0
    have hrow := mul_row_value b (self.take (n_words - j)) (result.drop j) 0
      (by simp [hself, hresult])
    have hlen_take : (self.take (n_words - j)).length = n_words - j := by simp [hself]
    have hlen_row : (result.take j ++ row.1).length = n_words := by
      simp only [List.length_append, List.length_take, row, length_mul_row, List.length_drop,
        hself, hresult]
      omega
    -- the row rewrites the limbs from `j` on, and its carry leaves the top limb
    have hstep : Limbs.value (result.take j ++ row.1) + 2 ^ (64 * n_words) * row.2.toNat =
        Limbs.value result + 2 ^ (64 * j) * (b.toNat * Limbs.value (self.take (n_words - j))) := by
      rw [hlen_take] at hrow
      have hsplit := Limbs.value_take_add_drop result (show j ≤ result.length by omega)
      have hpow : 2 ^ (64 * n_words) = 2 ^ (64 * j) * 2 ^ (64 * (n_words - j)) := by
        rw [← Nat.pow_add]
        congr 1
        omega
      rw [Limbs.value_append, List.length_take_of_le (by omega), hpow, hsplit]
      simp only [UInt64.toNat_zero, Nat.add_zero] at hrow
      calc Limbs.value (result.take j) + 2 ^ (64 * j) * Limbs.value row.1 +
            2 ^ (64 * j) * 2 ^ (64 * (n_words - j)) * row.2.toNat =
          Limbs.value (result.take j) + 2 ^ (64 * j) *
            (Limbs.value row.1 + 2 ^ (64 * (n_words - j)) * row.2.toNat) := by ring
        _ = _ := by
          rw [hrow]
          ring
    obtain ⟨total, hval, hflag⟩ :=
      mul_rows_value hself (j + 1) bs _ (carry_out || row.2 != 0) hlen_row (by omega)
    refine ⟨row.2.toNat + total, ?_, ?_⟩
    · show Limbs.value (mul_rows self n_words (j + 1) bs (result.take j ++ row.1)
          (carry_out || row.2 != 0)).1 + 2 ^ (64 * n_words) * (row.2.toNat + total) =
        Limbs.value result + (2 ^ (64 * j) * (b.toNat * Limbs.value (self.take (n_words - j))) +
          row_products self n_words (j + 1) bs)
      calc _ = Limbs.value (mul_rows self n_words (j + 1) bs (result.take j ++ row.1)
              (carry_out || row.2 != 0)).1 + 2 ^ (64 * n_words) * total +
            2 ^ (64 * n_words) * row.2.toNat := by ring
        _ = Limbs.value (result.take j ++ row.1) + 2 ^ (64 * n_words) * row.2.toNat +
            row_products self n_words (j + 1) bs := by
          rw [hval]
          ring
        _ = _ := by
          rw [hstep]
          ring
    · show (mul_rows self n_words (j + 1) bs (result.take j ++ row.1)
          (carry_out || row.2 != 0)).2 = true ↔ _
      rw [hflag]
      have hcarry : (row.2 != 0) = true ↔ 0 < row.2.toNat := by
        rw [bne_iff_ne, ne_eq, ← UInt64.toNat_inj, UInt64.toNat_zero]
        omega
      rw [Bool.or_eq_true, hcarry, or_assoc, Nat.add_pos_iff_pos_or_pos]
  | j, [], result, carry_out, _, _ => ⟨0, by simp [mul_rows, row_products], by simp [mul_rows]⟩

-- The partial products left out, those that land at limb `LIMBS` or above, are a multiple of
-- `2 ^ BITS`: the rows add the product modulo `2 ^ BITS`.
theorem row_products_add {self : List UInt64} (hself : self.length = n_words) :
    ∀ (j : Nat) (bs : List UInt64), j + bs.length ≤ n_words →
      ∃ Q, row_products self n_words j bs + 2 ^ (64 * n_words) * Q =
        2 ^ (64 * j) * Limbs.value bs * Limbs.value self
  | j, b :: bs, hj => by
    simp only [List.length_cons] at hj
    obtain ⟨Q, hQ⟩ := row_products_add hself (j + 1) bs (by omega)
    have hsplit := Limbs.value_take_add_drop self (show n_words - j ≤ self.length by omega)
    have hpow : 2 ^ (64 * n_words) = 2 ^ (64 * j) * 2 ^ (64 * (n_words - j)) := by
      rw [← Nat.pow_add]
      congr 1
      omega
    refine ⟨Q + b.toNat * Limbs.value (self.drop (n_words - j)), ?_⟩
    have hpow' : 2 ^ (64 * (j + 1)) = 2 ^ (64 * j) * 2 ^ 64 := by
      rw [← Nat.pow_add, Nat.mul_succ]
    simp only [row_products, value_cons]
    calc _ = 2 ^ (64 * j) * (b.toNat * Limbs.value (self.take (n_words - j))) +
          2 ^ (64 * n_words) * (b.toNat * Limbs.value (self.drop (n_words - j))) +
          (row_products self n_words (j + 1) bs + 2 ^ (64 * n_words) * Q) := by ring
      _ = _ := by
        rw [hQ, hpow', hpow, hsplit]
        ring
  | j, [], _ => ⟨0, by simp [row_products]⟩

theorem BITS_eq : BITS n_words = 64 * n_words := Nat.mul_comm _ _

theorem two_pow_BITS : 2 ^ BITS n_words = 2 ^ (64 * n_words) := by
  rw [BITS_eq]

theorem value_lt (self : Uint n_words) : self.value < 2 ^ BITS n_words := by
  have h := Limbs.value_lt self.limbs
  rw [self.length_limbs] at h
  rw [two_pow_BITS]
  exact h

-- `overflowing_mul` returns the product modulo `2 ^ BITS`, and its flag is set exactly when
-- the partial products inside the limbs reach `2 ^ BITS`.
theorem overflowing_mul_spec (self other : Uint n_words) :
    (self.overflowing_mul other).1.value = self.value * other.value % 2 ^ BITS n_words ∧
      ((self.overflowing_mul other).2 = true ↔
        2 ^ BITS n_words ≤ row_products self.limbs n_words 0 other.limbs) := by
  obtain ⟨total, hval, hflag⟩ := mul_rows_value self.length_limbs 0 other.limbs ZERO.limbs false
    ZERO.length_limbs (by rw [other.length_limbs, Nat.zero_add])
  obtain ⟨Q, hQ⟩ := row_products_add self.length_limbs 0 other.limbs
    (by rw [other.length_limbs, Nat.zero_add])
  have hlt : Limbs.value (mul_rows self.limbs n_words 0 other.limbs (ZERO : Uint n_words).limbs false).1 <
      2 ^ (64 * n_words) := by
    have h := (self.overflowing_mul other).1.value_lt
    rw [two_pow_BITS] at h
    exact h
  have hzero : Limbs.value (ZERO : Uint n_words).limbs = 0 := value_replicate_zero n_words
  rw [hzero, Nat.zero_add] at hval
  simp only [Nat.mul_zero, Nat.pow_zero, Nat.one_mul] at hQ
  obtain ⟨hmod, hdiv⟩ := eq_mod_of_add_mul hlt hval
  refine ⟨?_, ?_⟩
  · -- the rows and the full product differ by a multiple of `2 ^ BITS`
    show Limbs.value (mul_rows self.limbs n_words 0 other.limbs (ZERO : Uint n_words).limbs false).1 = _
    rw [two_pow_BITS, hmod, show self.value * other.value =
      Limbs.value other.limbs * Limbs.value self.limbs from Nat.mul_comm _ _, ← hQ,
      Nat.add_mul_mod_self_left]
  · show (mul_rows self.limbs n_words 0 other.limbs (ZERO : Uint n_words).limbs false).2 = true ↔ _
    rw [hflag, hdiv, two_pow_BITS]
    simp only [Bool.false_eq_true, false_or]
    exact Nat.div_pos_iff.trans (and_iff_right (Nat.two_pow_pos _))

-- `Mul for Uint` in a debug build: the product, or a panic of its overflow assertion
-- (`none`) when the flag is set.
def mul (self other : Uint n_words) : Option (Uint n_words) :=
  let (product, carry) := self.overflowing_mul other
  if carry then none else some product

/-- `2 ^ (64 * (k + 1))`: a one in the top limb of `k + 2` limbs. -/
def top_limb_one (k : Nat) : Uint (k + 2) := ⟨List.replicate (k + 1) 0 ++ [1], by simp⟩

/-- `2 ^ 64`: a one in the second limb of `k + 2` limbs. -/
def second_limb_one (k : Nat) : Uint (k + 2) := ⟨0 :: 1 :: List.replicate k 0, by simp⟩

theorem value_top_limb_one (k : Nat) : (top_limb_one k).value = 2 ^ (64 * (k + 1)) := by
  simp [top_limb_one, value, value_append]

theorem value_second_limb_one (k : Nat) : (second_limb_one k).value = 2 ^ 64 := by
  simp [second_limb_one, value]

theorem row_products_replicate_zero (self : List UInt64) (n_words : Nat) :
    ∀ (k j : Nat), row_products self n_words j (List.replicate k 0) = 0
  | 0, _ => rfl
  | k + 1, j => by
    simp [List.replicate_succ, row_products, row_products_replicate_zero self n_words k]

-- At every width of two limbs or more, `2 ^ (64 * (LIMBS - 1)) * 2 ^ 64 = 2 ^ BITS` overflows,
-- but its only limb product that lands inside the limbs is `1 * 1` placed at limb `LIMBS`,
-- which the row loop `i + j < LIMBS` never forms: the flag stays clear, the product wraps to
-- zero, and the overflow assertion of `Mul` does not fire.
theorem mul_misses_overflow (k : Nat) :
    (top_limb_one k).value * (second_limb_one k).value = 2 ^ BITS (k + 2) ∧
      ((top_limb_one k).overflowing_mul (second_limb_one k)).1.value = 0 ∧
      ((top_limb_one k).overflowing_mul (second_limb_one k)).2 = false ∧
      (top_limb_one k).mul (second_limb_one k) =
        some ((top_limb_one k).overflowing_mul (second_limb_one k)).1 := by
  obtain ⟨hval, hflag⟩ := overflowing_mul_spec (top_limb_one k) (second_limb_one k)
  have hprod : (top_limb_one k).value * (second_limb_one k).value = 2 ^ BITS (k + 2) := by
    rw [value_top_limb_one, value_second_limb_one, two_pow_BITS, ← Nat.pow_add]
    ring_nf
  -- row 1 multiplies the low `k + 1` limbs of the top-limb operand, which are all zero
  have hrows : row_products (top_limb_one k).limbs (k + 2) 0 (second_limb_one k).limbs = 0 := by
    simp [top_limb_one, second_limb_one, row_products, row_products_replicate_zero]
  have hfalse : ((top_limb_one k).overflowing_mul (second_limb_one k)).2 = false := by
    rw [Bool.eq_false_iff]
    intro h
    have hle := hflag.mp h
    rw [hrows] at hle
    exact absurd hle (Nat.not_le.mpr (Nat.two_pow_pos _))
  refine ⟨hprod, by rw [hval, hprod, Nat.mod_self], hfalse, ?_⟩
  simp only [mul, hfalse]
  rfl

theorem mul_misses_overflow_uint256 :
    (top_limb_one 2).value * (second_limb_one 2).value = 2 ^ BITS 4 ∧
      ((top_limb_one 2).overflowing_mul (second_limb_one 2)).1.value = 0 ∧
      ((top_limb_one 2).overflowing_mul (second_limb_one 2)).2 = false ∧
      (top_limb_one 2).mul (second_limb_one 2) =
        some ((top_limb_one 2).overflowing_mul (second_limb_one 2)).1 :=
  mul_misses_overflow 2

end Mul

section Shift

-- The two loops of `overflowing_shl` over the limbs, for a shift by `left_words` limbs and
-- `left_shifts` bits: when the bit shift is not zero, the second loop brings up the bits that
-- cross into the next limb.
def shl_limbs (limbs : List UInt64) (n_words left_words left_shifts : Nat) : List UInt64 :=
  let ret := (List.range n_words).map fun i =>
    if left_words ≤ i then limbs.getD (i - left_words) 0 <<< left_shifts.toUInt64 else 0
  if left_shifts > 0 then
    let left_over := 64 - left_shifts
    (List.range n_words).map fun i =>
      if left_words + 1 ≤ i then
        ret.getD i 0 ||| limbs.getD (i - 1 - left_words) 0 >>> left_over.toUInt64
      else ret.getD i 0
  else ret

theorem length_shl_limbs (limbs : List UInt64) (n_words left_words left_shifts : Nat) :
    (shl_limbs limbs n_words left_words left_shifts).length = n_words := by
  unfold shl_limbs
  split <;> simp

-- `overflowing_shl`: the shift is taken modulo `BITS`, in whole limbs and then in bits.
def overflowing_shl (self : Uint n_words) (s : UInt32) : Uint n_words × Bool :=
  let overflows := decide (BITS n_words ≤ s.toNat)
  let s := s.toNat % BITS n_words
  let left_words := s / 64
  let left_shifts := s % 64
  (⟨shl_limbs self.limbs n_words left_words left_shifts, length_shl_limbs _ _ _ _⟩, overflows)

-- The two loops of `overflowing_shr`, the mirror image: limbs move down and the bits that
-- cross come from the limb above.
def shr_limbs (limbs : List UInt64) (n_words left_words left_shifts : Nat) : List UInt64 :=
  let ret := (List.range n_words).map fun k =>
    if k + left_words < n_words then limbs.getD (k + left_words) 0 >>> left_shifts.toUInt64
    else 0
  if left_shifts > 0 then
    let left_over := 64 - left_shifts
    (List.range n_words).map fun k =>
      if k + left_words + 1 < n_words then
        ret.getD k 0 ||| limbs.getD (k + left_words + 1) 0 <<< left_over.toUInt64
      else ret.getD k 0
  else ret

theorem length_shr_limbs (limbs : List UInt64) (n_words left_words left_shifts : Nat) :
    (shr_limbs limbs n_words left_words left_shifts).length = n_words := by
  unfold shr_limbs
  split <;> simp

def overflowing_shr (self : Uint n_words) (s : UInt32) : Uint n_words × Bool :=
  let overflows := decide (BITS n_words ≤ s.toNat)
  let s := s.toNat % BITS n_words
  let left_words := s / 64
  let left_shifts := s % 64
  (⟨shr_limbs self.limbs n_words left_words left_shifts, length_shr_limbs _ _ _ _⟩, overflows)

theorem getD_map_range (f : Nat → UInt64) (n i : Nat) :
    ((List.range n).map f).getD i 0 = if i < n then f i else 0 := by
  by_cases h : i < n <;> simp [h, List.getD_eq_getElem?_getD]

-- Limb `i` of the result of the two loops of `overflowing_shl`.
theorem shl_limbs_getD (limbs : List UInt64) (n_words left_words left_shifts i : Nat) :
    (shl_limbs limbs n_words left_words left_shifts).getD i 0 =
      if i < n_words then
        (if left_words ≤ i then limbs.getD (i - left_words) 0 <<< left_shifts.toUInt64 else 0) |||
          (if 0 < left_shifts ∧ left_words + 1 ≤ i then
            limbs.getD (i - 1 - left_words) 0 >>> (64 - left_shifts).toUInt64 else 0)
      else 0 := by
  unfold shl_limbs
  split
  · rename_i hls
    rw [getD_map_range, getD_map_range]
    by_cases hi : i < n_words
    · by_cases hlw : left_words + 1 ≤ i
      · simp [hi, hlw, show left_words ≤ i by omega, hls]
      · simp [hi, hlw]
    · simp [hi]
  · rename_i hls
    rw [getD_map_range]
    by_cases hi : i < n_words
    · simp [hi, show ¬0 < left_shifts by omega]
    · simp [hi]

-- Limb `k` of the result of the two loops of `overflowing_shr`.
theorem shr_limbs_getD (limbs : List UInt64) (n_words left_words left_shifts k : Nat) :
    (shr_limbs limbs n_words left_words left_shifts).getD k 0 =
      if k < n_words then
        (if k + left_words < n_words then
            limbs.getD (k + left_words) 0 >>> left_shifts.toUInt64 else 0) |||
          (if 0 < left_shifts ∧ k + left_words + 1 < n_words then
            limbs.getD (k + left_words + 1) 0 <<< (64 - left_shifts).toUInt64 else 0)
      else 0 := by
  unfold shr_limbs
  split
  · rename_i hls
    rw [getD_map_range, getD_map_range]
    by_cases hk : k < n_words
    · by_cases hlw : k + left_words + 1 < n_words
      · simp [hk, hlw, show k + left_words < n_words by omega, hls]
      · simp [hk, hlw]
    · simp [hk]
  · rename_i hls
    rw [getD_map_range]
    by_cases hk : k < n_words
    · simp [hk, show ¬0 < left_shifts by omega]
    · simp [hk]

-- The loops of `overflowing_shl` multiply by `2 ^ (64 * left_words + left_shifts)` modulo
-- `2 ^ (64 * LIMBS)`: bit `k` of the result is bit `k - s` of the limbs, and it comes from the
-- limb `left_words` below when it sits at or above `left_shifts` in its limb, and from the one
-- below that, through the second loop, when it sits lower.
theorem value_shl_limbs (limbs : List UInt64) {left_words left_shifts : Nat}
    (hls : left_shifts < 64) :
    Limbs.value (shl_limbs limbs n_words left_words left_shifts) =
      Limbs.value limbs * 2 ^ (64 * left_words + left_shifts) % 2 ^ (64 * n_words) := by
  apply Nat.eq_of_testBit_eq
  intro k
  rw [testBit_value, shl_limbs_getD, Nat.testBit_mod_two_pow, ← Nat.shiftLeft_eq,
    Nat.testBit_shiftLeft, testBit_value]
  have hb : k % 64 < 64 := Nat.mod_lt _ (by norm_num)
  by_cases hk : k / 64 < n_words
  · rw [if_pos hk, UInt64.toNat_or, Nat.testBit_or, decide_eq_true (show k < 64 * n_words by omega),
      Bool.true_and]
    by_cases hbl : left_shifts ≤ k % 64
    · -- the bit comes from the limb `left_words` below, shifted up inside it
      have hB : (if 0 < left_shifts ∧ left_words + 1 ≤ k / 64 then
          limbs.getD (k / 64 - 1 - left_words) 0 >>> (64 - left_shifts).toUInt64
          else 0).toNat.testBit (k % 64) = false := by
        split_ifs with h
        · rw [testBit_shiftRight_toNat _ (by omega)]
          exact testBit_toNat_of_le _ (by omega)
        · simp
      rw [hB, Bool.or_false]
      by_cases hi : left_words ≤ k / 64
      · rw [if_pos hi, testBit_shiftLeft_toNat _ hls hb, decide_eq_true hbl, Bool.true_and,
          decide_eq_true (show k ≥ 64 * left_words + left_shifts by omega), Bool.true_and,
          show (k - (64 * left_words + left_shifts)) / 64 = k / 64 - left_words by omega,
          show (k - (64 * left_words + left_shifts)) % 64 = k % 64 - left_shifts by omega]
      · rw [if_neg hi, decide_eq_false (show ¬k ≥ 64 * left_words + left_shifts by omega)]
        simp
    · -- the bit comes from the limb below that, through the second loop
      have hA : (if left_words ≤ k / 64 then limbs.getD (k / 64 - left_words) 0 <<<
          left_shifts.toUInt64 else 0).toNat.testBit (k % 64) = false := by
        split_ifs with h
        · rw [testBit_shiftLeft_toNat _ hls hb, decide_eq_false hbl, Bool.false_and]
        · simp
      rw [hA, Bool.false_or]
      by_cases hi : left_words + 1 ≤ k / 64
      · rw [if_pos ⟨by omega, hi⟩, testBit_shiftRight_toNat _ (by omega),
          decide_eq_true (show k ≥ 64 * left_words + left_shifts by omega), Bool.true_and,
          show (k - (64 * left_words + left_shifts)) / 64 = k / 64 - 1 - left_words by omega,
          show (k - (64 * left_words + left_shifts)) % 64 = 64 - left_shifts + k % 64 by omega]
      · rw [if_neg (fun h => hi h.2),
          decide_eq_false (show ¬k ≥ 64 * left_words + left_shifts by omega)]
        simp
  · rw [if_neg hk, decide_eq_false (show ¬k < 64 * n_words by omega)]
    simp

-- The loops of `overflowing_shr` divide by `2 ^ (64 * left_words + left_shifts)`: bit `k` of
-- the result is bit `k + s` of the limbs, from the limb `left_words` above when it stays in
-- it, and from the one above that, through the second loop, when it crosses.
theorem value_shr_limbs {limbs : List UInt64} (hlen : limbs.length = n_words)
    {left_words left_shifts : Nat} (hls : left_shifts < 64) :
    Limbs.value (shr_limbs limbs n_words left_words left_shifts) =
      Limbs.value limbs / 2 ^ (64 * left_words + left_shifts) := by
  apply Nat.eq_of_testBit_eq
  intro k
  rw [testBit_value, shr_limbs_getD, Nat.testBit_div_two_pow, testBit_value]
  have hb : k % 64 < 64 := Nat.mod_lt _ (by norm_num)
  -- a limb past the top reads as zero
  have hpast : ∀ j, n_words ≤ j → limbs.getD j 0 = 0 := fun j hj =>
    List.getD_eq_default _ _ (by omega)
  by_cases hk : k / 64 < n_words
  · rw [if_pos hk, UInt64.toNat_or, Nat.testBit_or]
    by_cases hcross : left_shifts + k % 64 < 64
    · -- the bit stays in the limb `left_words` above
      have hB : (if 0 < left_shifts ∧ k / 64 + left_words + 1 < n_words then
          limbs.getD (k / 64 + left_words + 1) 0 <<< (64 - left_shifts).toUInt64
          else 0).toNat.testBit (k % 64) = false := by
        split_ifs with h
        · rw [testBit_shiftLeft_toNat _ (by omega) hb,
            decide_eq_false (show ¬64 - left_shifts ≤ k % 64 by omega), Bool.false_and]
        · simp
      rw [hB, Bool.or_false, show (k + (64 * left_words + left_shifts)) / 64 = k / 64 + left_words by
        omega, show (k + (64 * left_words + left_shifts)) % 64 = left_shifts + k % 64 by omega]
      split_ifs with hin
      · rw [testBit_shiftRight_toNat _ hls]
      · rw [hpast _ (by omega)]
        simp
    · -- the bit crosses from the limb above that
      have hA : (if k / 64 + left_words < n_words then limbs.getD (k / 64 + left_words) 0 >>>
          left_shifts.toUInt64 else 0).toNat.testBit (k % 64) = false := by
        split_ifs with h
        · rw [testBit_shiftRight_toNat _ hls]
          exact testBit_toNat_of_le _ (by omega)
        · simp
      rw [hA, Bool.false_or, show (k + (64 * left_words + left_shifts)) / 64 =
        k / 64 + left_words + 1 by omega, show (k + (64 * left_words + left_shifts)) % 64 =
        k % 64 - (64 - left_shifts) by omega]
      split_ifs with hin
      · rw [testBit_shiftLeft_toNat _ (by omega) hb,
          decide_eq_true (show 64 - left_shifts ≤ k % 64 by omega), Bool.true_and]
      · rw [hpast _ (by omega)]
        simp
  · rw [if_neg hk, hpast _ (by omega)]
    simp

end Shift

section Spec

-- `overflowing_add` adds modulo `2 ^ BITS` and flags exactly the sums that reach `2 ^ BITS`.
theorem overflowing_add_spec (self other : Uint n_words) :
    (self.overflowing_add other).1.value = (self.value + other.value) % 2 ^ BITS n_words ∧
      (self.overflowing_add other).2 = decide (2 ^ BITS n_words ≤ self.value + other.value) := by
  have h := add_limbs_value self.limbs other.limbs false
    (self.length_limbs.trans other.length_limbs.symm)
  rw [self.length_limbs, Bool.toNat_false, Nat.add_zero] at h
  obtain ⟨hmod, hdiv⟩ := eq_mod_of_add_mul (by
    have := Limbs.value_lt (add_limbs self.limbs other.limbs false).1
    rwa [length_add_limbs, self.length_limbs, other.length_limbs, Nat.min_self] at this) h
  rw [two_pow_BITS]
  exact ⟨hmod, Bool.eq_iff_iff.mpr ((bool_iff_of_toNat_eq_div (Nat.two_pow_pos _) hdiv).trans
    decide_eq_true_iff.symm)⟩

-- `overflowing_add_u64` adds a word modulo `2 ^ BITS` and flags exactly the sums that reach
-- `2 ^ BITS`.
theorem overflowing_add_u64_spec (self : Uint n_words) (other : UInt64) (hn : 0 < n_words) :
    (self.overflowing_add_u64 other).1.value = (self.value + other.toNat) % 2 ^ BITS n_words ∧
      (self.overflowing_add_u64 other).2 = decide (2 ^ BITS n_words ≤ self.value + other.toNat) := by
  obtain ⟨w, ws, hself⟩ : ∃ w ws, self.limbs = w :: ws := by
    cases h : self.limbs with
    | nil => rw [← self.length_limbs, h] at hn; cases hn
    | cons w ws => exact ⟨w, ws, rfl⟩
  have hlen : ws.length + 1 = n_words := by rw [← self.length_limbs, hself, List.length_cons]
  -- the lowest limb takes the word, and the carry runs up the rest
  have hrest := propagate_carry_value ws (Word.overflowing_add w other).2
  have h := value_cons_of_carry (Word.overflowing_add_value w other) hrest
  have hlt := Limbs.value_lt ((Word.overflowing_add w other).1 ::
    (propagate_carry ws (Word.overflowing_add w other).2).1)
  rw [List.length_cons, length_propagate_carry, hlen] at hlt
  have hpow : 2 ^ 64 * 2 ^ (64 * ws.length) = 2 ^ (64 * n_words) := by
    rw [← Nat.pow_add, ← hlen]
    ring_nf
  have hfold : w.toNat + other.toNat + 2 ^ 64 * Limbs.value ws = Limbs.value (w :: ws) + other.toNat := by
    rw [value_cons]
    ring
  rw [hpow, Nat.add_right_comm, hfold] at h
  obtain ⟨hmod, hdiv⟩ := eq_mod_of_add_mul hlt h
  have hvalue : self.value = Limbs.value (w :: ws) := by rw [value, hself]
  have hres : self.overflowing_add_u64 other = (⟨(Word.overflowing_add w other).1 ::
      (propagate_carry ws (Word.overflowing_add w other).2).1, by
        rw [List.length_cons, length_propagate_carry, hlen]⟩,
      (propagate_carry ws (Word.overflowing_add w other).2).2) := by
    unfold overflowing_add_u64
    split
    · rename_i w' ws' hself'
      rw [hself] at hself'
      obtain ⟨rfl, rfl⟩ := List.cons.inj hself'
      rfl
    · rename_i hself'
      rw [hself] at hself'
      cases hself'
  rw [hres, two_pow_BITS, hvalue]
  exact ⟨hmod, Bool.eq_iff_iff.mpr ((bool_iff_of_toNat_eq_div (Nat.two_pow_pos _) hdiv).trans
    decide_eq_true_iff.symm)⟩

-- `overflowing_sub` subtracts modulo `2 ^ BITS` and borrows exactly when the subtrahend is the
-- larger.
theorem overflowing_sub_spec (self other : Uint n_words) :
    ((self.overflowing_sub other).1.value : ℤ) = ((self.value : ℤ) - other.value) % 2 ^ BITS n_words ∧
      (self.overflowing_sub other).2 = decide (self.value < other.value) := by
  have h := sub_limbs_value self.limbs other.limbs false
    (self.length_limbs.trans other.length_limbs.symm)
  rw [self.length_limbs, Bool.toNat_false, Nat.add_zero] at h
  have hlt := Limbs.value_lt (sub_limbs self.limbs other.limbs false).1
  rw [length_sub_limbs, self.length_limbs, other.length_limbs, Nat.min_self] at hlt
  have hself := self.value_lt
  have hother := other.value_lt
  rw [two_pow_BITS] at hself hother
  rw [BITS_eq]
  change Limbs.value self.limbs < _ at hself
  change Limbs.value other.limbs < _ at hother
  -- the borrow out of the top limb is one exactly when the difference is negative
  have hborrow : (sub_limbs self.limbs other.limbs false).2 =
      decide (Limbs.value self.limbs < Limbs.value other.limbs) := by
    cases hb : (sub_limbs self.limbs other.limbs false).2 <;>
      simp only [hb, Bool.toNat_false, Bool.toNat_true, Nat.mul_zero, Nat.mul_one,
        Nat.add_zero] at h <;> simp only [Bool.false_eq, Bool.true_eq, decide_eq_false_iff_not,
        decide_eq_true_eq, not_lt] <;> omega
  refine ⟨?_, hborrow⟩
  show (Limbs.value (sub_limbs self.limbs other.limbs false).1 : ℤ) =
    ((Limbs.value self.limbs : ℤ) - Limbs.value other.limbs) % 2 ^ (64 * n_words)
  have hz : (Limbs.value (sub_limbs self.limbs other.limbs false).1 : ℤ) =
      (Limbs.value self.limbs : ℤ) - Limbs.value other.limbs +
        2 ^ (64 * n_words) * (sub_limbs self.limbs other.limbs false).2.toNat := by
    have := congrArg (fun n : Nat => (n : ℤ)) h
    push_cast at this
    linarith
  rw [← Int.add_mul_emod_self_left _ _ ((sub_limbs self.limbs other.limbs false).2.toNat : ℤ), ← hz,
    Int.emod_eq_of_lt (by positivity) (by exact_mod_cast hlt)]

-- `carrying_mul_u64` returns the product by a word modulo `2 ^ BITS` and the word above it.
theorem carrying_mul_u64_spec (self : Uint n_words) (other : UInt64) :
    (self.carrying_mul_u64 other).1.value = self.value * other.toNat % 2 ^ BITS n_words ∧
      (self.carrying_mul_u64 other).2.toNat = self.value * other.toNat / 2 ^ BITS n_words := by
  obtain ⟨h, hcarry⟩ := mul_u64_limbs_value other self.limbs 0 (Nat.two_pow_pos _)
  rw [self.length_limbs, Nat.add_zero, Nat.mul_comm other.toNat] at h
  have hlt := Limbs.value_lt (mul_u64_limbs other self.limbs 0).1
  rw [length_mul_u64_limbs, self.length_limbs] at hlt
  obtain ⟨hmod, hdiv⟩ := eq_mod_of_add_mul hlt h
  rw [two_pow_BITS]
  refine ⟨hmod, ?_⟩
  show (UInt64.ofNat (mul_u64_limbs other self.limbs 0).2).toNat = _
  rw [UInt64.toNat_ofNat', Nat.mod_eq_of_lt hcarry, hdiv]
  rfl

-- `overflowing_shl` multiplies by `2 ^ (s mod BITS)` modulo `2 ^ BITS` and flags the shifts by
-- `BITS` or more.
theorem overflowing_shl_spec (self : Uint n_words) (s : UInt32) :
    (self.overflowing_shl s).1.value =
        self.value * 2 ^ (s.toNat % BITS n_words) % 2 ^ BITS n_words ∧
      (self.overflowing_shl s).2 = decide (BITS n_words ≤ s.toNat) := by
  refine ⟨?_, rfl⟩
  show Limbs.value (shl_limbs self.limbs n_words (s.toNat % BITS n_words / 64)
    (s.toNat % BITS n_words % 64)) = _
  rw [value_shl_limbs _ (Nat.mod_lt _ (by norm_num)), Nat.div_add_mod, two_pow_BITS]
  rfl

-- `overflowing_shr` divides by `2 ^ (s mod BITS)` and flags the shifts by `BITS` or more.
theorem overflowing_shr_spec (self : Uint n_words) (s : UInt32) :
    (self.overflowing_shr s).1.value = self.value / 2 ^ (s.toNat % BITS n_words) ∧
      (self.overflowing_shr s).2 = decide (BITS n_words ≤ s.toNat) := by
  refine ⟨?_, rfl⟩
  show Limbs.value (shr_limbs self.limbs n_words (s.toNat % BITS n_words / 64)
    (s.toNat % BITS n_words % 64)) = _
  rw [value_shr_limbs self.length_limbs (Nat.mod_lt _ (by norm_num)), Nat.div_add_mod]
  rfl

theorem uint_arithmetic_exact (hn : 0 < n_words) (a b : Uint n_words) (w : UInt64) (s : UInt32) :
    ((a.overflowing_add b).1.value = (a.value + b.value) % 2 ^ BITS n_words ∧
      (a.overflowing_add b).2 = decide (2 ^ BITS n_words ≤ a.value + b.value)) ∧
    ((a.overflowing_add_u64 w).1.value = (a.value + w.toNat) % 2 ^ BITS n_words ∧
      (a.overflowing_add_u64 w).2 = decide (2 ^ BITS n_words ≤ a.value + w.toNat)) ∧
    (((a.overflowing_sub b).1.value : ℤ) = ((a.value : ℤ) - b.value) % 2 ^ BITS n_words ∧
      (a.overflowing_sub b).2 = decide (a.value < b.value)) ∧
    ((a.carrying_mul_u64 w).1.value = a.value * w.toNat % 2 ^ BITS n_words ∧
      (a.carrying_mul_u64 w).2.toNat = a.value * w.toNat / 2 ^ BITS n_words) ∧
    ((a.overflowing_shl s).1.value = a.value * 2 ^ (s.toNat % BITS n_words) % 2 ^ BITS n_words ∧
      (a.overflowing_shl s).2 = decide (BITS n_words ≤ s.toNat)) ∧
    ((a.overflowing_shr s).1.value = a.value / 2 ^ (s.toNat % BITS n_words) ∧
      (a.overflowing_shr s).2 = decide (BITS n_words ≤ s.toNat)) :=
  ⟨overflowing_add_spec a b, overflowing_add_u64_spec a w hn, overflowing_sub_spec a b,
    carrying_mul_u64_spec a w, overflowing_shl_spec a s, overflowing_shr_spec a s⟩

-- All ones plus one wraps to zero with the carry out, and a shift by 300 bits, past the 256
-- of the number, shifts by 44 and reports the overflow.
theorem uint_arithmetic_exact_uint256 :
    let a : Uint 4 := ⟨List.replicate 4 0xffffffffffffffff, rfl⟩
    let b : Uint 4 := ⟨[1, 0, 0, 0], rfl⟩
    let w : UInt64 := 0xffffffffffffffff
    let s : UInt32 := 300
    (a.overflowing_add b).1.value = 0 ∧ (a.overflowing_add b).2 = true ∧
    (a.overflowing_shl s).2 = true ∧
    ((a.overflowing_add b).1.value = (a.value + b.value) % 2 ^ BITS 4 ∧
      (a.overflowing_add b).2 = decide (2 ^ BITS 4 ≤ a.value + b.value)) ∧
    ((a.overflowing_add_u64 w).1.value = (a.value + w.toNat) % 2 ^ BITS 4 ∧
      (a.overflowing_add_u64 w).2 = decide (2 ^ BITS 4 ≤ a.value + w.toNat)) ∧
    (((a.overflowing_sub b).1.value : ℤ) = ((a.value : ℤ) - b.value) % 2 ^ BITS 4 ∧
      (a.overflowing_sub b).2 = decide (a.value < b.value)) ∧
    ((a.carrying_mul_u64 w).1.value = a.value * w.toNat % 2 ^ BITS 4 ∧
      (a.carrying_mul_u64 w).2.toNat = a.value * w.toNat / 2 ^ BITS 4) ∧
    ((a.overflowing_shl s).1.value = a.value * 2 ^ (s.toNat % BITS 4) % 2 ^ BITS 4 ∧
      (a.overflowing_shl s).2 = decide (BITS 4 ≤ s.toNat)) ∧
    ((a.overflowing_shr s).1.value = a.value / 2 ^ (s.toNat % BITS 4) ∧
      (a.overflowing_shr s).2 = decide (BITS 4 ≤ s.toNat)) := by
  intro a b w s
  exact ⟨by decide, by decide, by decide,
    uint_arithmetic_exact (by decide) a b w s⟩

end Spec

end Uint

end Waglayla.Math
