import Waglayla.Consensus.Ghostdag.Protocol
import Waglayla.Numbers.Mantissa
import Mathlib.Data.Nat.Size
import Mathlib.Data.Nat.Bitwise

-- The compact encoding of difficulty targets (`compact_target_bits`): decoding an encoded
-- target gives it rounded down to a 23-bit mantissa.

namespace Waglayla.Consensus

-- `Uint256::compact_target_bits`, on the value of the word: `bits()` is `Nat.size`, and
-- `as_u64() as u32` keeps the low bits.
def compact_target_bits (self : Nat) : UInt32 :=
  let size := (Nat.size self + 7) / 8
  let compact : UInt32 :=
    if size ≤ 3 then UInt32.ofNat ((self % 2 ^ 64) <<< (8 * (3 - size)) % 2 ^ 64)
    else UInt32.ofNat (self >>> (8 * (size - 3)) % 2 ^ 64)
  if compact &&& 0x00800000 ≠ 0 then (compact >>> 8) ||| (UInt32.ofNat (size + 1) <<< 24)
  else compact ||| (UInt32.ofNat size <<< 24)

-- The number of bytes of a value, and its three leading bytes: what `compact_target_bits`
-- puts into a word before it checks the mantissa's sign bit.
def byte_size (x : Nat) : Nat := (Nat.size x + 7) / 8

def leading_bytes (x : Nat) : Nat :=
  if byte_size x ≤ 3 then x * 256 ^ (3 - byte_size x) else x / 256 ^ (byte_size x - 3)

section Fields

variable {c e : Nat}

-- The word with the mantissa `c` in its low three bytes and the size `e` in its top byte.
theorem toNat_fields (hc : c < 2 ^ 24) (he : e < 256) :
    (UInt32.ofNat c ||| UInt32.ofNat e <<< 24).toNat = e * 2 ^ 24 + c := by
  have he' : e * 2 ^ 24 < 2 ^ 32 := by omega
  rw [UInt32.toNat_or, UInt32.toNat_shiftLeft, UInt32.toNat_ofNat', UInt32.toNat_ofNat',
    show (24 : UInt32).toNat % 32 = 24 from rfl, Nat.mod_eq_of_lt (by omega : c < 2 ^ 32),
    Nat.mod_eq_of_lt (by omega : e < 2 ^ 32), Nat.shiftLeft_eq, Nat.mod_eq_of_lt he',
    ← Nat.shiftLeft_eq, Nat.or_comm, ← Nat.shiftLeft_add_eq_or_of_lt hc, Nat.shiftLeft_eq]

theorem fields_shiftRight (hc : c < 2 ^ 24) (he : e < 256) :
    (UInt32.ofNat c ||| UInt32.ofNat e <<< 24) >>> 24 = UInt32.ofNat e := by
  apply UInt32.toNat_inj.mp
  rw [UInt32.toNat_shiftRight, toNat_fields hc he, show (24 : UInt32).toNat % 32 = 24 from rfl,
    Nat.shiftRight_eq_div_pow, UInt32.toNat_ofNat']
  omega

theorem fields_and (hc : c < 2 ^ 24) (he : e < 256) :
    (UInt32.ofNat c ||| UInt32.ofNat e <<< 24) &&& 0xFFFFFF = UInt32.ofNat c := by
  apply UInt32.toNat_inj.mp
  rw [UInt32.toNat_and, toNat_fields hc he, show (0xFFFFFF : UInt32).toNat = 2 ^ 24 - 1 from rfl,
    Nat.and_two_pow_sub_one_eq_mod, UInt32.toNat_ofNat']
  omega

-- Decoding reads the size back from the top byte and shifts the mantissa by it.
theorem from_compact_target_bits_fields (hc : c < 2 ^ 23) (he : e < 35) :
    from_compact_target_bits (UInt32.ofNat c ||| UInt32.ofNat e <<< 24) =
      if e ≤ 3 then c / 256 ^ (3 - e) else c * 256 ^ (e - 3) % 2 ^ 256 := by
  have he' : (UInt32.ofNat e).toNat = e := by
    rw [UInt32.toNat_ofNat']
    omega
  have hc' : (UInt32.ofNat c).toNat = c := by
    rw [UInt32.toNat_ofNat']
    omega
  simp only [from_compact_target_bits, fields_shiftRight (by omega : c < 2 ^ 24) (by omega : e < 256),
    fields_and (by omega : c < 2 ^ 24) (by omega : e < 256)]
  by_cases h3 : e ≤ 3
  · -- a short target: the mantissa is shifted down, into bytes of its own
    have hle : UInt32.ofNat e ≤ 3 := UInt32.le_iff_toNat_le.mpr (by rw [he']; exact h3)
    have hshift : (8 * (3 - UInt32.ofNat e)).toNat % 32 = 8 * (3 - e) := by
      rw [UInt32.toNat_mul, UInt32.toNat_sub_of_le _ _ hle, he']
      simp only [show (8 : UInt32).toNat = 8 from rfl, show (3 : UInt32).toNat = 3 from rfl]
      omega
    have hmant : (UInt32.ofNat c >>> (8 * (3 - UInt32.ofNat e))).toNat = c / 256 ^ (3 - e) := by
      rw [UInt32.toNat_shiftRight, hshift, hc', Nat.shiftRight_eq_div_pow, pow_mul]
      norm_num
    have hsmall : c / 256 ^ (3 - e) < 2 ^ 23 := lt_of_le_of_lt (Nat.div_le_self _ _) hc
    simp only [hle, if_true, h3, gt_iff_lt, UInt32.lt_iff_toNat_lt, hmant]
    rw [if_neg (by simp only [show (0x7FFFFF : UInt32).toNat = 2 ^ 23 - 1 from rfl]; omega)]
    simp only [show (0 : UInt32).toNat = 0 from rfl, Nat.zero_mod, Nat.shiftLeft_zero]
    exact Nat.mod_eq_of_lt (by omega)
  · -- a long target: the mantissa is shifted up by the bytes below it
    have hgt : ¬UInt32.ofNat e ≤ 3 := fun h => h3 (he' ▸ UInt32.le_iff_toNat_le.mp h)
    have hexpt : (8 * (UInt32.ofNat e - 3)).toNat % 256 = 8 * (e - 3) := by
      have hle : (3 : UInt32) ≤ UInt32.ofNat e := UInt32.le_iff_toNat_le.mpr (by rw [he']; simp; omega)
      rw [UInt32.toNat_mul, UInt32.toNat_sub_of_le _ _ hle, he']
      simp only [show (8 : UInt32).toNat = 8 from rfl, show (3 : UInt32).toNat = 3 from rfl]
      omega
    simp only [hgt, if_false, h3, gt_iff_lt, UInt32.lt_iff_toNat_lt, hc', hexpt]
    rw [if_neg (by simp only [show (0x7FFFFF : UInt32).toNat = 2 ^ 23 - 1 from rfl]; omega),
      Nat.shiftLeft_eq, pow_mul]
    norm_num

theorem from_compact_target_bits_lt (bits : UInt32) : from_compact_target_bits bits < 2 ^ 256 := by
  simp only [from_compact_target_bits]
  -- whichever exponent branch, the value is zero or reduced modulo the word
  split <;> split_ifs <;> first | positivity | exact Nat.mod_lt _ (by positivity)

end Fields

section Size

variable {x : Nat}

theorem lt_pow_byte_size (x : Nat) : x < 256 ^ byte_size x := by
  calc x < 2 ^ Nat.size x := Nat.lt_size_self x
    _ ≤ 2 ^ (8 * byte_size x) := Nat.pow_le_pow_right (by norm_num) (by unfold byte_size; omega)
    _ = 256 ^ byte_size x := by rw [pow_mul]; norm_num

theorem pow_byte_size_le (h : 0 < byte_size x) : 256 ^ (byte_size x - 1) ≤ x := by
  have hlt : 8 * (byte_size x - 1) < Nat.size x := by unfold byte_size at h ⊢; omega
  calc 256 ^ (byte_size x - 1) = 2 ^ (8 * (byte_size x - 1)) := by rw [pow_mul]; norm_num
    _ ≤ x := Nat.lt_size.mp hlt

theorem byte_size_le (hx : x < 2 ^ 256) : byte_size x ≤ 32 := by
  have := Nat.size_le.mpr hx
  unfold byte_size
  omega

theorem leading_bytes_lt (x : Nat) : leading_bytes x < 2 ^ 24 := by
  have hlt := lt_pow_byte_size x
  unfold leading_bytes
  split_ifs with h
  · calc x * 256 ^ (3 - byte_size x) < 256 ^ byte_size x * 256 ^ (3 - byte_size x) :=
          Nat.mul_lt_mul_of_pos_right hlt (by positivity)
      _ = 2 ^ 24 := by rw [← pow_add, Nat.add_sub_cancel' h]; norm_num
  · apply (Nat.div_lt_iff_lt_mul (by positivity)).mpr
    calc x < 256 ^ byte_size x := hlt
      _ = 2 ^ 24 * 256 ^ (byte_size x - 3) := by
        rw [show (2 : Nat) ^ 24 = 256 ^ 3 by norm_num, ← pow_add]
        congr 1
        omega

end Size

-- The encoder in terms of the leading bytes: one byte more is dropped when the mantissa's
-- sign bit is set.
theorem compact_target_bits_eq (x : Nat) :
    compact_target_bits x =
      if 2 ^ 23 ≤ leading_bytes x then
        UInt32.ofNat (leading_bytes x / 256) ||| UInt32.ofNat (byte_size x + 1) <<< 24
      else UInt32.ofNat (leading_bytes x) ||| UInt32.ofNat (byte_size x) <<< 24 := by
  have hlead := leading_bytes_lt x
  have hcompact : (if byte_size x ≤ 3 then
      UInt32.ofNat ((x % 2 ^ 64) <<< (8 * (3 - byte_size x)) % 2 ^ 64)
      else UInt32.ofNat (x >>> (8 * (byte_size x - 3)) % 2 ^ 64)) = UInt32.ofNat (leading_bytes x) := by
    have hsmall : byte_size x ≤ 3 → x < 2 ^ 64 := fun h =>
      lt_of_lt_of_le (lt_pow_byte_size x) (le_trans (Nat.pow_le_pow_right (by norm_num) h) (by norm_num))
    by_cases h : byte_size x ≤ 3
    · have hl : x * 256 ^ (3 - byte_size x) < 2 ^ 24 := by simpa [leading_bytes, h] using hlead
      rw [if_pos h, leading_bytes, if_pos h, Nat.mod_eq_of_lt (hsmall h), Nat.shiftLeft_eq, pow_mul,
        show (2 : Nat) ^ 8 = 256 by norm_num, Nat.mod_eq_of_lt (by omega)]
    · have hl : x / 256 ^ (byte_size x - 3) < 2 ^ 24 := by simpa [leading_bytes, h] using hlead
      rw [if_neg h, leading_bytes, if_neg h, Nat.shiftRight_eq_div_pow, pow_mul,
        show (2 : Nat) ^ 8 = 256 by norm_num, Nat.mod_eq_of_lt (by omega)]
  have hsign : (UInt32.ofNat (leading_bytes x) &&& 0x00800000 ≠ 0) ↔ 2 ^ 23 ≤ leading_bytes x := by
    rw [ne_eq, ← UInt32.toNat_inj, UInt32.toNat_and, UInt32.toNat_ofNat',
      Nat.mod_eq_of_lt (by omega), show (0x00800000 : UInt32).toNat = 2 ^ 23 from rfl,
      Nat.and_two_pow, Nat.testBit_eq_decide_div_mod_eq]
    simp
    omega
  have hdrop : UInt32.ofNat (leading_bytes x) >>> 8 = UInt32.ofNat (leading_bytes x / 256) := by
    apply UInt32.toNat_inj.mp
    rw [UInt32.toNat_shiftRight, UInt32.toNat_ofNat', UInt32.toNat_ofNat',
      show (8 : UInt32).toNat % 32 = 8 from rfl, Nat.shiftRight_eq_div_pow]
    omega
  simp only [compact_target_bits]
  rw [show (Nat.size x + 7) / 8 = byte_size x from rfl, hcompact]
  by_cases hge : 2 ^ 23 ≤ leading_bytes x
  · rw [if_pos (hsign.mpr hge), if_pos hge, hdrop]
  · rw [if_neg (fun h => hge (hsign.mp h)), if_neg hge]

section RoundTrip

variable {x : Nat}

theorem leading_bytes_of_le_three (h : byte_size x ≤ 3) :
    leading_bytes x = x * 256 ^ (3 - byte_size x) := by
  rw [leading_bytes, if_pos h]

theorem leading_bytes_of_gt_three (h : ¬byte_size x ≤ 3) :
    leading_bytes x = x / 256 ^ (byte_size x - 3) := by
  rw [leading_bytes, if_neg h]

-- A target of at most three bytes decodes to itself, its mantissa moved down a byte or not.
theorem decode_short (k : Nat) : x * 256 ^ k / 256 ^ k = x :=
  Nat.mul_div_cancel _ (by positivity)

theorem decode_short_drop (h : byte_size x ≤ 2) :
    x * 256 ^ (3 - byte_size x) / 256 / 256 ^ (3 - (byte_size x + 1)) = x := by
  rw [Nat.div_div_eq_div_mul, ← pow_succ', show 3 - (byte_size x + 1) + 1 = 3 - byte_size x by omega]
  exact decode_short _

-- A long target drops the bytes below its mantissa.
theorem trunc_of_shift {k : Nat} (hlt : x / 256 ^ (k + 1) < 2 ^ 23)
    (hle : 2 ^ 23 ≤ x / 256 ^ k) :
    Mantissa.trunc 23 x = x / 256 ^ (k + 1) * 256 ^ (k + 1) :=
  Mantissa.trunc_eq_of_shift (Mantissa.shift_eq_succ hlt hle)

end RoundTrip

section Idempotence

variable {x : Nat}

-- The byte length is fixed by the powers of 256 around the value.
theorem byte_size_eq_of_le_of_lt {n : Nat} (hn : 0 < n) (hlow : 256 ^ (n - 1) ≤ x)
    (hhigh : x < 256 ^ n) : byte_size x = n := by
  have hle : Nat.size x ≤ 8 * n := Nat.size_le.mpr (by rw [pow_mul]; norm_num; exact hhigh)
  have hgt : 8 * (n - 1) < Nat.size x := Nat.lt_size.mpr (by rw [pow_mul]; norm_num; exact hlow)
  unfold byte_size
  omega

-- What the encoder writes, case by case: a mantissa `m` below the sign bit and the byte length
-- `e` in the top byte. A length of at most three decodes to the target itself; a longer one
-- keeps `e - 3` bytes of the target below a mantissa of at least two bytes.
theorem compact_target_bits_cases (hx : x < 2 ^ 256) :
    ∃ m e, compact_target_bits x = UInt32.ofNat m ||| UInt32.ofNat e <<< 24 ∧ m < 2 ^ 23 ∧
      e < 35 ∧ (e ≤ 3 ∧ m / 256 ^ (3 - e) = x ∨ 3 < e ∧ 2 ^ 15 ≤ m ∧ m = x / 256 ^ (e - 3)) := by
  have hsize := byte_size_le hx
  have hlead := leading_bytes_lt x
  rw [compact_target_bits_eq]
  by_cases hge : 2 ^ 23 ≤ leading_bytes x
  · -- the sign bit is set: the mantissa loses its low byte and the length grows by one
    rw [if_pos hge]
    refine ⟨leading_bytes x / 256, byte_size x + 1, rfl, by omega, by omega, ?_⟩
    by_cases h3 : byte_size x ≤ 3
    · rw [leading_bytes_of_le_three h3] at hge ⊢
      by_cases h2 : byte_size x ≤ 2
      · exact .inl ⟨by omega, decode_short_drop h2⟩
      · have h3' : byte_size x = 3 := by omega
        rw [h3'] at hge ⊢
        simp only [Nat.sub_self, pow_zero, Nat.mul_one] at hge ⊢
        exact .inr ⟨by omega, by omega, by norm_num⟩
    · rw [leading_bytes_of_gt_three h3] at hge ⊢
      refine .inr ⟨by omega, by omega, ?_⟩
      rw [Nat.div_div_eq_div_mul, ← pow_succ]
      congr 2
      omega
  · rw [if_neg hge]
    refine ⟨leading_bytes x, byte_size x, rfl, by omega, by omega, ?_⟩
    by_cases h3 : byte_size x ≤ 3
    · rw [leading_bytes_of_le_three h3]
      exact .inl ⟨h3, decode_short _⟩
    · -- four bytes or more: the three leading bytes, the top one not zero
      rw [leading_bytes_of_gt_three h3] at hge ⊢
      have hbig := pow_byte_size_le (x := x) (by omega)
      have hlow : 256 ^ 2 ≤ x / 256 ^ (byte_size x - 3) := by
        apply (Nat.le_div_iff_mul_le (by positivity)).mpr
        calc 256 ^ 2 * 256 ^ (byte_size x - 3) = 256 ^ (byte_size x - 1) := by
              rw [← pow_add]; congr 1; omega
          _ ≤ x := hbig
      exact .inr ⟨by omega, by omega, rfl⟩

-- Decoding the encoding of a target gives the target with everything below its 23-bit
-- mantissa dropped: a short target is below the mantissa's bound, and a long one keeps the
-- bytes of a mantissa whose top byte is not zero.
theorem from_compact_target_bits_compact_target_bits {x : Nat} (hx : x < 2 ^ 256) :
    from_compact_target_bits (compact_target_bits x) = Mantissa.trunc 23 x := by
  obtain ⟨m, e, hc, hm, he, hcase⟩ := compact_target_bits_cases hx
  rw [hc, from_compact_target_bits_fields hm he]
  rcases hcase with ⟨he3, hdecode⟩ | ⟨he3, hm15, hmx⟩
  · have hsmall : x < 2 ^ 23 := by
      rw [← hdecode]
      exact lt_of_le_of_lt (Nat.div_le_self _ _) hm
    rw [if_pos he3, hdecode, Mantissa.trunc_of_lt hsmall]
  · have hk : e - 3 = e - 4 + 1 := by omega
    have hlow : 2 ^ 23 ≤ x / 256 ^ (e - 4) := by
      have hdiv : x / 256 ^ (e - 4) / 256 = m := by
        rw [hmx, Nat.div_div_eq_div_mul, ← pow_succ, ← hk]
      omega
    rw [if_neg (by omega), hmx, hk, trunc_of_shift (by rw [← hk, ← hmx]; exact hm) hlow]
    exact Nat.mod_eq_of_lt (lt_of_le_of_lt (Nat.div_mul_le_self _ _) hx)

-- A mantissa of two or three bytes scaled by `k ≥ 1` bytes encodes back to itself and
-- `k + 3`: with a third byte directly, with two through the sign-bit bump.
theorem compact_target_bits_mul_pow {m k : Nat} (hm : 2 ^ 15 ≤ m) (hm' : m < 2 ^ 23)
    (hk : 1 ≤ k) :
    compact_target_bits (m * 256 ^ k) = UInt32.ofNat m ||| UInt32.ofNat (k + 3) <<< 24 := by
  have hpos : 0 < 256 ^ k := by positivity
  rw [compact_target_bits_eq]
  by_cases h16 : 2 ^ 16 ≤ m
  · have hsize : byte_size (m * 256 ^ k) = k + 3 := by
      apply byte_size_eq_of_le_of_lt (by omega)
      · calc 256 ^ (k + 3 - 1) = 2 ^ 16 * 256 ^ k := by
              rw [show k + 3 - 1 = 2 + k by omega, pow_add]; norm_num
          _ ≤ m * 256 ^ k := Nat.mul_le_mul_right _ h16
      · calc m * 256 ^ k < 2 ^ 24 * 256 ^ k := Nat.mul_lt_mul_of_pos_right (by omega) hpos
          _ = 256 ^ (k + 3) := by rw [pow_add, Nat.mul_comm]; norm_num
    have hlead : leading_bytes (m * 256 ^ k) = m := by
      rw [leading_bytes_of_gt_three (by omega), hsize, show k + 3 - 3 = k by omega,
        Nat.mul_div_cancel _ hpos]
    rw [hlead, if_neg (by omega), hsize]
  · have hsize : byte_size (m * 256 ^ k) = k + 2 := by
      apply byte_size_eq_of_le_of_lt (by omega)
      · calc 256 ^ (k + 2 - 1) = 256 * 256 ^ k := by
              rw [show k + 2 - 1 = 1 + k by omega, pow_add, pow_one]
          _ ≤ m * 256 ^ k := Nat.mul_le_mul_right _ (by omega)
      · calc m * 256 ^ k < 2 ^ 16 * 256 ^ k := Nat.mul_lt_mul_of_pos_right (by omega) hpos
          _ = 256 ^ (k + 2) := by rw [pow_add, Nat.mul_comm]; norm_num
    -- the leading three bytes are the mantissa and a zero byte, so the sign bit is set
    have hlead : leading_bytes (m * 256 ^ k) = m * 256 := by
      by_cases h3 : k + 2 ≤ 3
      · have hk1 : k = 1 := by omega
        subst hk1
        rw [leading_bytes_of_le_three (by omega), hsize]
        norm_num
      · rw [leading_bytes_of_gt_three (by omega), hsize, show k + 2 - 3 = k - 1 by omega]
        calc m * 256 ^ k / 256 ^ (k - 1) = m * 256 * 256 ^ (k - 1) / 256 ^ (k - 1) := by
              rw [Nat.mul_assoc, ← pow_succ', show k - 1 + 1 = k by omega]
          _ = m * 256 := Nat.mul_div_cancel _ (by positivity)
    rw [hlead, if_pos (by omega), hsize, Nat.mul_div_cancel _ (by norm_num)]

end Idempotence

-- Encoding a 256-bit target, then decoding it, clears the bits below the mantissa: those under
-- position `8 * (e - 3)` for the length `e` in the top byte, none when `e ≤ 3`. The mantissa
-- never has its sign bit, and the decoded target encodes back to the same word.
theorem compact_target_bits_round_trip {x : Nat} (hx : x < 2 ^ 256) :
    (let c := compact_target_bits x
    let y := from_compact_target_bits c
    ((c >>> 24).toNat ≤ 3 → y = x) ∧
      y = x / 2 ^ (8 * ((c >>> 24).toNat - 3)) * 2 ^ (8 * ((c >>> 24).toNat - 3)) ∧
      (c &&& 0xFFFFFF).toNat ≤ 0x7FFFFF ∧ compact_target_bits y = c) := by
  obtain ⟨m, e, hc, hm, he, hcase⟩ := compact_target_bits_cases hx
  intro c y
  have hexp : (c >>> 24).toNat = e := by
    show (compact_target_bits x >>> 24).toNat = e
    rw [hc, fields_shiftRight (by omega) (by omega), UInt32.toNat_ofNat', Nat.mod_eq_of_lt (by omega)]
  have hmant : (c &&& 0xFFFFFF).toNat ≤ 0x7FFFFF := by
    show (compact_target_bits x &&& 0xFFFFFF).toNat ≤ 0x7FFFFF
    rw [hc, fields_and (by omega) (by omega), UInt32.toNat_ofNat', Nat.mod_eq_of_lt (by omega)]
    omega
  have hy : y = if e ≤ 3 then m / 256 ^ (3 - e) else m * 256 ^ (e - 3) % 2 ^ 256 := by
    show from_compact_target_bits (compact_target_bits x) = _
    rw [hc, from_compact_target_bits_fields hm he]
  rw [hexp]
  rcases hcase with ⟨he3, hdecode⟩ | ⟨he3, hm15, hmx⟩
  · -- a short target comes back whole
    have hyx : y = x := by rw [hy, if_pos he3, hdecode]
    refine ⟨fun _ => hyx, ?_, hmant, ?_⟩
    · rw [hyx, show e - 3 = 0 by omega]
      simp
    · rw [hyx]
  · -- a long target comes back with the bytes below its mantissa cleared
    have hscaled : m * 256 ^ (e - 3) = x / 256 ^ (e - 3) * 256 ^ (e - 3) := by rw [hmx]
    have hyx : y = m * 256 ^ (e - 3) := by
      rw [hy, if_neg (by omega), hscaled]
      exact Nat.mod_eq_of_lt (lt_of_le_of_lt (Nat.div_mul_le_self _ _) hx)
    refine ⟨fun h => absurd h (by omega), ?_, hmant, ?_⟩
    · rw [hyx, hscaled, pow_mul]
      norm_num
    · show compact_target_bits y = compact_target_bits x
      rw [hyx, compact_target_bits_mul_pow hm15 hm (by omega), hc, show e - 3 + 3 = e by omega]

-- The target of `0x1d00ffff`, as in `test_uint256_alignment_with_python_sdk`.
theorem compact_target_bits_round_trip_ffff : 0xffff * 2 ^ 208 < 2 ^ 256 ∧
    let c := compact_target_bits (0xffff * 2 ^ 208)
    let y := from_compact_target_bits c
    ((c >>> 24).toNat ≤ 3 → y = 0xffff * 2 ^ 208) ∧
      y = 0xffff * 2 ^ 208 / 2 ^ (8 * ((c >>> 24).toNat - 3)) *
        2 ^ (8 * ((c >>> 24).toNat - 3)) ∧
      (c &&& 0xFFFFFF).toNat ≤ 0x7FFFFF ∧ compact_target_bits y = c :=
  ⟨by norm_num, compact_target_bits_round_trip (by norm_num)⟩

end Waglayla.Consensus
