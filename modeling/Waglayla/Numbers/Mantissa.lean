import Mathlib.Data.Nat.Find
import Mathlib.Tactic.Positivity
import Mathlib.Tactic.NormNum

-- Rounding a number down to an `m`-bit mantissa times a power of 256.

namespace Mantissa

theorem exists_shift (m x : Nat) : ∃ k, x / 256 ^ k < 2 ^ m :=
  ⟨x, by
    rw [Nat.div_eq_of_lt (Nat.lt_pow_self (by norm_num))]
    exact Nat.two_pow_pos m⟩

-- The least number of low bytes to drop.
def shift (m x : Nat) : Nat := Nat.find (exists_shift m x)

def trunc (m x : Nat) : Nat := x / 256 ^ shift m x * 256 ^ shift m x

variable {m x y k : Nat}

theorem div_shift_lt (m x : Nat) : x / 256 ^ shift m x < 2 ^ m :=
  Nat.find_spec (exists_shift m x)

theorem lt_of_shift (m x : Nat) : x < 2 ^ m * 256 ^ shift m x :=
  (Nat.div_lt_iff_lt_mul (by positivity)).mp (div_shift_lt m x)

theorem shift_le (h : x / 256 ^ k < 2 ^ m) : shift m x ≤ k :=
  Nat.find_min' _ h

theorem le_div_of_lt_shift (h : k < shift m x) : 2 ^ m ≤ x / 256 ^ k :=
  not_lt.mp (Nat.find_min (exists_shift m x) h)

theorem shift_eq_zero (h : x < 2 ^ m) : shift m x = 0 :=
  Nat.le_zero.mp (shift_le (by simpa using h))

-- Dropping `k + 1` bytes is needed, and enough.
theorem shift_eq_succ (hlt : x / 256 ^ (k + 1) < 2 ^ m) (hle : 2 ^ m ≤ x / 256 ^ k) :
    shift m x = k + 1 := by
  apply le_antisymm (shift_le hlt)
  by_contra hk
  have hshift : shift m x ≤ k := by omega
  have hmono : x / 256 ^ k ≤ x / 256 ^ shift m x :=
    Nat.div_le_div_left (Nat.pow_le_pow_right (by norm_num) hshift) (by positivity)
  have := div_shift_lt m x
  omega

theorem shift_mono (h : x ≤ y) : shift m x ≤ shift m y :=
  shift_le (lt_of_le_of_lt (Nat.div_le_div_right h) (div_shift_lt m y))

theorem trunc_le (m x : Nat) : trunc m x ≤ x :=
  Nat.div_mul_le_self _ _

theorem trunc_of_lt (h : x < 2 ^ m) : trunc m x = x := by
  simp [trunc, shift_eq_zero h]

theorem trunc_eq_of_shift (h : shift m x = k) : trunc m x = x / 256 ^ k * 256 ^ k := by
  rw [trunc, h]

-- A larger value drops at least as many bytes; when it drops more, what it keeps has the top
-- byte of its mantissa set, which is beyond every value that drops fewer.
theorem trunc_mono (hm : 8 ≤ m) (h : x ≤ y) : trunc m x ≤ trunc m y := by
  rcases (shift_mono h : shift m x ≤ shift m y).eq_or_lt with heq | hlt
  · rw [trunc, trunc, heq]
    exact Nat.mul_le_mul_right _ (Nat.div_le_div_right h)
  · obtain ⟨k, hk⟩ : ∃ k, shift m y = k + 1 := ⟨shift m y - 1, by omega⟩
    have hy : 2 ^ m ≤ y / 256 ^ k := le_div_of_lt_shift (by omega)
    have hbyte : 2 ^ (m - 8) * 256 = 2 ^ m := by
      rw [show (256 : Nat) = 2 ^ 8 by norm_num, ← pow_add, Nat.sub_add_cancel hm]
    have hq : 2 ^ (m - 8) ≤ y / 256 ^ (k + 1) := by
      rw [pow_succ, ← Nat.div_div_eq_div_mul]
      exact (Nat.le_div_iff_mul_le (by norm_num)).mpr (hbyte ▸ hy)
    calc trunc m x ≤ x := trunc_le m x
      _ ≤ 2 ^ m * 256 ^ shift m x := (lt_of_shift m x).le
      _ ≤ 2 ^ m * 256 ^ k := Nat.mul_le_mul_left _ (Nat.pow_le_pow_right (by norm_num) (by omega))
      _ = 2 ^ (m - 8) * 256 ^ (k + 1) := by rw [pow_succ, ← mul_assoc, mul_comm _ 256, ← mul_assoc,
          mul_comm 256, hbyte]
      _ ≤ y / 256 ^ (k + 1) * 256 ^ (k + 1) := Nat.mul_le_mul_right _ hq
      _ = trunc m y := (trunc_eq_of_shift hk).symm

end Mantissa
