import Mathlib.Data.List.Basic
import Mathlib.Data.Nat.Bitwise

-- Fixed-width little-endian integers over byte lists: `to_le_bytes` and `from_le_bytes`.

namespace LittleEndian

-- The low `width` bytes of `value`, least significant first.
def encode : Nat → Nat → List UInt8
  | 0, _ => []
  | width + 1, value => value.toUInt8 :: encode width (value / 256)

-- The number a byte list stands for, least significant byte first.
def decode (bytes : List UInt8) : Nat :=
  bytes.foldr (fun b acc => b.toNat + 256 * acc) 0

@[simp] theorem encode_zero (value : Nat) : encode 0 value = [] := rfl

@[simp] theorem encode_succ (width value : Nat) :
    encode (width + 1) value = value.toUInt8 :: encode width (value / 256) := rfl

@[simp] theorem decode_nil : decode [] = 0 := rfl

@[simp] theorem decode_cons (b : UInt8) (bytes : List UInt8) :
    decode (b :: bytes) = b.toNat + 256 * decode bytes := rfl

@[simp] theorem length_encode (width value : Nat) : (encode width value).length = width := by
  induction width generalizing value with
  | zero => rfl
  | succ width ih => simp [ih]

theorem decode_lt (bytes : List UInt8) : decode bytes < 256 ^ bytes.length := by
  induction bytes with
  | nil => simp
  | cons b bytes ih =>
    have hb := b.toNat_lt
    simp only [decode_cons, List.length_cons, Nat.pow_succ]
    omega

-- Writing and then reading keeps the low `width` bytes.
@[simp] theorem decode_encode (width value : Nat) :
    decode (encode width value) = value % 256 ^ width := by
  induction width generalizing value with
  | zero => simp [Nat.mod_one]
  | succ width ih =>
    simp only [encode_succ, decode_cons, Nat.toUInt8, ih]
    rw [Nat.pow_succ, Nat.mul_comm (256 ^ width) 256, Nat.mod_mul]
    rfl

theorem decode_encode_of_lt {width value : Nat} (h : value < 256 ^ width) :
    decode (encode width value) = value := by
  rw [decode_encode, Nat.mod_eq_of_lt h]

-- Every byte list is written back from its value at its own length.
@[simp] theorem encode_decode (bytes : List UInt8) : encode bytes.length (decode bytes) = bytes := by
  induction bytes with
  | nil => rfl
  | cons b bytes ih =>
    have hb := b.toNat_lt
    have low : (b.toNat + 256 * decode bytes).toUInt8 = b := by
      apply UInt8.toNat_inj.mp
      simp
    have high : (b.toNat + 256 * decode bytes) / 256 = decode bytes := by omega
    simp only [List.length_cons, decode_cons, encode_succ, low, high, ih]

-- A list read back at another list's encoding is that list, once the lengths agree.
theorem eq_encode_of_decode_eq {bytes : List UInt8} {width value : Nat}
    (hlen : bytes.length = width) (h : decode bytes = value) : bytes = encode width value := by
  rw [← hlen, ← h, encode_decode]

theorem decode_append_singleton (bytes : List UInt8) (b : UInt8) :
    decode (bytes ++ [b]) = decode bytes + 256 ^ bytes.length * b.toNat := by
  induction bytes with
  | nil => simp
  | cons x bytes ih =>
    rw [List.cons_append, decode_cons, decode_cons, ih, List.length_cons, Nat.pow_succ,
      Nat.mul_add, Nat.mul_comm (256 ^ bytes.length) 256, Nat.mul_assoc, Nat.add_assoc]

theorem decode_append (xs ys : List UInt8) :
    decode (xs ++ ys) = decode xs + 256 ^ xs.length * decode ys := by
  induction xs with
  | nil => simp
  | cons x xs ih =>
    rw [List.cons_append, decode_cons, decode_cons, ih, List.length_cons, Nat.pow_succ,
      Nat.mul_add, Nat.mul_comm (256 ^ xs.length) 256, Nat.mul_assoc, Nat.add_assoc]

-- Zero bytes stand for nothing.
theorem decode_eq_zero_of_forall {bytes : List UInt8} (h : ∀ b ∈ bytes, b = 0) :
    decode bytes = 0 := by
  induction bytes with
  | nil => rfl
  | cons b bytes ih =>
    rw [decode_cons, h b List.mem_cons_self, ih fun c hc => h c (List.mem_cons_of_mem _ hc)]
    rfl

-- Sign-magnitude numbers: the top bit of the last byte is the sign.

-- `width` bytes hold `value` with the top bit of the last byte free, and one byte fewer
-- would not.
def SignWidth (value width : Nat) : Prop :=
  1 ≤ width ∧ value < 128 * 256 ^ (width - 1) ∧ (2 ≤ width → 128 * 256 ^ (width - 2) ≤ value)

theorem SignWidth.unique {value w₁ w₂ : Nat} (h₁ : SignWidth value w₁) (h₂ : SignWidth value w₂) :
    w₁ = w₂ := by
  -- the lower bound of the wider one would pass the upper bound of the narrower one
  have key : ∀ {a b}, SignWidth value a → SignWidth value b → a < b → False := by
    intro a b ha hb hab
    have ha₁ := ha.1
    have hlt : 128 * 256 ^ (b - 2) < 128 * 256 ^ (a - 1) :=
      Nat.lt_of_le_of_lt (hb.2.2 (by omega)) ha.2.1
    have hpow : 256 ^ (b - 2) < 256 ^ (a - 1) := Nat.lt_of_mul_lt_mul_left hlt
    have := (Nat.pow_lt_pow_iff_right (by decide)).mp hpow
    omega
  rcases Nat.lt_trichotomy w₁ w₂ with h | h | h
  · exact (key h₁ h₂ h).elim
  · exact h
  · exact (key h₂ h₁ h).elim

-- A value below 2^63 takes at most eight bytes.
theorem SignWidth.le_eight {value width : Nat} (h : SignWidth value width) (hlt : value < 2 ^ 63) :
    width ≤ 8 := by
  by_contra hgt
  have hpow : 128 * 256 ^ 7 ≤ 128 * 256 ^ (width - 2) :=
    Nat.mul_le_mul_left 128 (Nat.pow_le_pow_right (by decide) (by omega))
  have htop : (128 : Nat) * 256 ^ 7 = 2 ^ 63 := rfl
  have := h.2.2 (by omega)
  omega

-- The bits of a byte, read as numbers.

theorem toNat_and_0x7f (b : UInt8) : (b &&& 0x7f).toNat = b.toNat % 128 := by
  rw [UInt8.toNat_and]
  exact Nat.and_two_pow_sub_one_eq_mod b.toNat 7

theorem toNat_shiftRight_7 (b : UInt8) : (b >>> 7).toNat = b.toNat / 128 := by
  rw [UInt8.toNat_shiftRight, Nat.shiftRight_eq_div_pow]
  rfl

theorem toNat_and_0x0f (b : UInt8) : (b &&& 0x0f).toNat = b.toNat % 16 := by
  rw [UInt8.toNat_and]
  exact Nat.and_two_pow_sub_one_eq_mod b.toNat 4

theorem toNat_shiftRight_4 (b : UInt8) : (b >>> 4).toNat = b.toNat / 16 := by
  rw [UInt8.toNat_shiftRight, Nat.shiftRight_eq_div_pow]
  rfl

theorem and_0x80_eq_zero_iff (n : Nat) (h : n < 256) : n &&& 0x80 = 0 ↔ n < 128 := by
  rw [show (0x80 : Nat) = 2 ^ 7 from rfl, Nat.and_two_pow, Nat.testBit_eq_decide_div_mod_eq]
  by_cases hbit : n / 2 ^ 7 % 2 = 1
  · simp only [hbit, decide_true, Bool.toNat_true]
    omega
  · simp only [hbit, decide_false, Bool.toNat_false]
    omega

theorem and_0x80_eq_zero (b : UInt8) : b &&& 0x80 = 0 ↔ b.toNat < 128 := by
  rw [← UInt8.toNat_inj, UInt8.toNat_and]
  exact and_0x80_eq_zero_iff _ b.toNat_lt

theorem toNat_or_0x80 (b : UInt8) (h : b.toNat < 128) : (b ||| 0x80).toNat = b.toNat + 128 := by
  rw [UInt8.toNat_or]
  have h80 : (0x80 : UInt8).toNat = 2 ^ 7 * 1 := rfl
  rw [h80, Nat.or_comm, ← Nat.two_pow_add_eq_or_of_lt h]
  omega

theorem toNat_toUInt8_of_lt {n : Nat} (h : n < 256) : n.toUInt8.toNat = n := by
  rw [Nat.toUInt8_eq, UInt8.toNat_ofNat']
  exact Nat.mod_eq_of_lt h

end LittleEndian

-- Byte strings compare byte by byte. The instance is named so that every decision of
-- membership among byte strings (hashes, transaction ids) cites this one proof.
instance instLawfulBEqBytes : LawfulBEq (List UInt8) := inferInstance
