import Mathlib.Data.Nat.Size
import Waglayla.Math.Uint

-- Comparison, bit length and the two divisions of the `construct_uint!` integers.

namespace Waglayla.Math

namespace Uint

variable {n_words : Nat}

section Compare

-- `Iterator::cmp` of two sequences of limbs.
def cmp_limbs : List UInt64 → List UInt64 → Ordering
  | [], [] => .eq
  | [], _ :: _ => .lt
  | _ :: _, [] => .gt
  | a :: as, b :: bs =>
    match compare a b with
    | .eq => cmp_limbs as bs
    | ord => ord

-- `Ord for Uint`: the limbs from the top, as a derived order would compare big-endian ones.
def cmp (self other : Uint n_words) : Ordering := cmp_limbs self.limbs.reverse other.limbs.reverse

theorem compare_add_add (x y c : Nat) : compare (x + c) (y + c) = compare x y := by
  rcases Nat.lt_trichotomy x y with h | rfl | h
  · rw [Nat.compare_eq_lt.mpr h, Nat.compare_eq_lt.mpr (by omega)]
  · rw [Nat.compare_eq_eq.mpr rfl, Nat.compare_eq_eq.mpr rfl]
  · rw [Nat.compare_eq_gt.mpr h, Nat.compare_eq_gt.mpr (by omega)]

-- Two big-endian limb sequences of one length compare as their values.
theorem cmp_limbs_eq_compare :
    ∀ (as bs : List UInt64), as.length = bs.length →
      cmp_limbs as bs = compare (Limbs.value as.reverse) (Limbs.value bs.reverse)
  | [], [], _ => rfl
  | a :: as, b :: bs, hlen => by
    have hlen' : as.length = bs.length := Nat.succ.inj hlen
    have ha := Limbs.value_lt as.reverse
    have hb := Limbs.value_lt bs.reverse
    rw [List.length_reverse] at ha hb
    rw [hlen'] at ha
    simp only [List.reverse_cons, Limbs.value_append, Limbs.value_cons, Limbs.value_nil,
      List.length_reverse, Nat.mul_zero, Nat.add_zero, hlen']
    -- the top limbs decide unless they are equal
    have hcmp := UInt64.compare_eq_toNat_compare_toNat a b
    unfold cmp_limbs
    rcases Nat.lt_trichotomy a.toNat b.toNat with hlt | heq | hgt
    · rw [hcmp, Nat.compare_eq_lt.mpr hlt, Nat.compare_eq_lt.mpr]
      calc Limbs.value as.reverse + 2 ^ (64 * bs.length) * a.toNat
          < 2 ^ (64 * bs.length) * (a.toNat + 1) := by rw [Nat.mul_succ]; omega
        _ ≤ 2 ^ (64 * bs.length) * b.toNat := Nat.mul_le_mul_left _ hlt
        _ ≤ _ := Nat.le_add_left _ _
    · rw [hcmp, Nat.compare_eq_eq.mpr heq, cmp_limbs_eq_compare as bs hlen', heq]
      exact (compare_add_add _ _ _).symm
    · rw [hcmp, Nat.compare_eq_gt.mpr hgt, Nat.compare_eq_gt.mpr]
      calc Limbs.value bs.reverse + 2 ^ (64 * bs.length) * b.toNat
          < 2 ^ (64 * bs.length) * (b.toNat + 1) := by rw [Nat.mul_succ]; omega
        _ ≤ 2 ^ (64 * bs.length) * a.toNat := Nat.mul_le_mul_left _ hgt
        _ ≤ _ := Nat.le_add_left _ _

-- `cmp` agrees with the order of the values.
theorem cmp_eq_compare (self other : Uint n_words) :
    cmp self other = compare self.value other.value := by
  unfold cmp
  rw [cmp_limbs_eq_compare _ _ (by simp [self.length_limbs, other.length_limbs]),
    List.reverse_reverse, List.reverse_reverse]
  rfl

end Compare

section Bits

-- `u64::leading_zeros`.
def leading_zeros (word : UInt64) : Nat := 64 - Nat.size word.toNat

-- `bits`: from the top, the first limb that is not zero, less its leading zeros.
def bits (self : Uint n_words) : Nat :=
  match self.limbs.zipIdx.reverse.find? fun (word, _) => word != 0 with
  | some (word, i) => 64 * (i + 1) - leading_zeros word
  | none => 0

-- A word of `w` above `n` lower bits: its bit length sits on top of theirs.
theorem size_add_two_pow_mul {lo w n : Nat} (hlo : lo < 2 ^ n) (hw : 0 < w) :
    Nat.size (lo + 2 ^ n * w) = n + Nat.size w := by
  have hpos : 0 < Nat.size w := Nat.size_pos.mpr hw
  have hlow : 2 ^ (Nat.size w - 1) ≤ w := Nat.lt_size.mp (by omega)
  apply le_antisymm
  · apply Nat.size_le.mpr
    rw [Nat.pow_add]
    calc lo + 2 ^ n * w < 2 ^ n * (w + 1) := by rw [Nat.mul_succ]; omega
      _ ≤ 2 ^ n * 2 ^ Nat.size w := Nat.mul_le_mul_left _ (Nat.lt_size_self w)
  · have hlt : n + (Nat.size w - 1) < Nat.size (lo + 2 ^ n * w) := by
      apply Nat.lt_size.mpr
      calc 2 ^ (n + (Nat.size w - 1)) = 2 ^ n * 2 ^ (Nat.size w - 1) := Nat.pow_add _ _ _
        _ ≤ 2 ^ n * w := Nat.mul_le_mul_left _ hlow
        _ ≤ _ := Nat.le_add_left _ _
    omega

-- The bit length of a limb list, read from its top limb down.
theorem bits_limbs_eq_size (ws : List UInt64) :
    (match ws.zipIdx.reverse.find? fun (word, _) => word != 0 with
      | some (word, i) => 64 * (i + 1) - leading_zeros word
      | none => 0) = Nat.size (Limbs.value ws) := by
  induction ws using List.reverseRecOn with
  | nil => simp
  | append_singleton ws w ih =>
    rw [List.zipIdx_append, List.reverse_append, Limbs.value_append]
    simp only [List.zipIdx_singleton, Nat.zero_add, List.reverse_singleton, List.singleton_append,
      List.find?_cons, Limbs.value_cons, Limbs.value_nil, Nat.mul_zero, Nat.add_zero]
    by_cases hw : w = 0
    · -- a zero top limb adds nothing
      simp only [hw, bne_self_eq_false, UInt64.toNat_zero, Nat.mul_zero, Nat.add_zero]
      exact ih
    · -- the top limb that is not zero fixes the length: it is its own length above the others
      have hw' : 0 < w.toNat := by
        rcases Nat.eq_zero_or_pos w.toNat with h | h
        · exact absurd (UInt64.toNat_inj.mp (h.trans UInt64.toNat_zero.symm)) hw
        · exact h
      have hsize : Nat.size w.toNat ≤ 64 := Nat.size_le.mpr (UInt64.toNat_lt w)
      simp only [bne_iff_ne.mpr hw, leading_zeros]
      have hexp : 64 * (ws.length + 1) - (64 - Nat.size w.toNat) =
          64 * ws.length + Nat.size w.toNat := by omega
      rw [hexp, size_add_two_pow_mul (Limbs.value_lt ws) hw']

-- `bits` is the bit length of the value.
theorem bits_eq_size (self : Uint n_words) : self.bits = Nat.size self.value :=
  bits_limbs_eq_size self.limbs

end Bits

section DivU64

-- The `for_each` of `div_rem_u64` over the limbs from the top: each limb under the remainder
-- so far, `(rem as u128) << 64 | d`, is divided as a `u128`, which panics on a zero divisor.
def div_rem_u64_limbs (other : UInt64) : List UInt64 → Option (List UInt64 × UInt64)
  | [] => some ([], 0)
  | d :: ds => do
    let (quotient, rem) ← div_rem_u64_limbs other ds
    if other = 0 then none
    else
      let n := rem.toNat * 2 ^ 64 + d.toNat
      return (UInt64.ofNat (n / other.toNat) :: quotient, UInt64.ofNat (n % other.toNat))

theorem length_div_rem_u64_limbs {other : UInt64} :
    ∀ {ws quotient : List UInt64} {rem : UInt64},
      div_rem_u64_limbs other ws = some (quotient, rem) → quotient.length = ws.length
  | [], quotient, rem, h => by
    simp only [div_rem_u64_limbs, Option.some.injEq, Prod.mk.injEq] at h
    rw [← h.1]
  | d :: ds, quotient, rem, h => by
    simp only [div_rem_u64_limbs, Option.bind_eq_bind] at h
    obtain ⟨⟨quotient', rem'⟩, hds, h⟩ := Option.bind_eq_some_iff.mp h
    split_ifs at h
    simp only [Option.pure_def, Option.some.injEq, Prod.mk.injEq] at h
    rw [← h.1, List.length_cons, List.length_cons, length_div_rem_u64_limbs hds]

-- `div_rem_u64`: the limbs divided in place, and the last remainder.
def div_rem_u64 (self : Uint n_words) (other : UInt64) : Option (Uint n_words × UInt64) :=
  match h : div_rem_u64_limbs other self.limbs with
  | some (quotient, rem) =>
    some (⟨quotient, (length_div_rem_u64_limbs h).trans self.length_limbs⟩, rem)
  | none => none

-- Each step divides a number below `other * 2 ^ 64`, so its quotient fits a limb, and the
-- remainders carry the division down the limbs.
theorem div_rem_u64_limbs_spec {other : UInt64} (hother : other ≠ 0) :
    ∀ ws : List UInt64, ∃ quotient rem, div_rem_u64_limbs other ws = some (quotient, rem) ∧
      Limbs.value quotient * other.toNat + rem.toNat = Limbs.value ws ∧ rem.toNat < other.toNat
  | [] => ⟨[], 0, rfl, by simp, UInt64.pos_iff_ne_zero.mpr hother⟩
  | d :: ds => by
    obtain ⟨quotient, rem, hds, hvalue, hrem⟩ := div_rem_u64_limbs_spec hother ds
    have hw : 0 < other.toNat := UInt64.pos_iff_ne_zero.mpr hother
    have hd := UInt64.toNat_lt d
    set n := rem.toNat * 2 ^ 64 + d.toNat with hn
    have hn_lt : n < other.toNat * 2 ^ 64 := by
      calc n < (rem.toNat + 1) * 2 ^ 64 := by rw [Nat.succ_mul]; omega
        _ ≤ other.toNat * 2 ^ 64 := Nat.mul_le_mul_right _ hrem
    have hq : n / other.toNat < 2 ^ 64 := (Nat.div_lt_iff_lt_mul hw).mpr (by linarith)
    have hr : n % other.toNat < other.toNat := Nat.mod_lt _ hw
    have hr' : n % other.toNat < 2 ^ 64 := hr.trans (UInt64.toNat_lt other)
    refine ⟨UInt64.ofNat (n / other.toNat) :: quotient, UInt64.ofNat (n % other.toNat), ?_, ?_, ?_⟩
    · simp only [div_rem_u64_limbs, hds, if_neg hother, Option.bind_eq_bind, Option.bind_some]
      rfl
    · have hdiv := Nat.div_add_mod n other.toNat
      rw [Limbs.value_cons, Limbs.value_cons, UInt64.toNat_ofNat', UInt64.toNat_ofNat',
        Nat.mod_eq_of_lt hq, Nat.mod_eq_of_lt hr', ← hvalue]
      calc (n / other.toNat + 2 ^ 64 * Limbs.value quotient) * other.toNat + n % other.toNat
          = (other.toNat * (n / other.toNat) + n % other.toNat) +
            2 ^ 64 * (Limbs.value quotient * other.toNat) := by ring
        _ = d.toNat + 2 ^ 64 * (Limbs.value quotient * other.toNat + rem.toNat) := by
          rw [hdiv, hn]
          ring
    · rw [UInt64.toNat_ofNat', Nat.mod_eq_of_lt hr']
      exact hr

theorem div_rem_u64_spec (self : Uint n_words) {other : UInt64} (hother : other ≠ 0) :
    ∃ quotient rem, self.div_rem_u64 other = some (quotient, rem) ∧
      quotient.value * other.toNat + rem.toNat = self.value ∧ rem.toNat < other.toNat := by
  obtain ⟨quotient, rem, h, hvalue, hrem⟩ := div_rem_u64_limbs_spec hother self.limbs
  refine ⟨⟨quotient, (length_div_rem_u64_limbs h).trans self.length_limbs⟩, rem, ?_, hvalue, hrem⟩
  unfold div_rem_u64
  split
  · rename_i quotient' rem' h'
    rw [h, Option.some.injEq, Prod.mk.injEq] at h'
    obtain ⟨rfl, rfl⟩ := h'
    rfl
  · rename_i h'
    rw [h] at h'
    cases h'

end DivU64

section DivRem

-- `ret[shift / 64] |= 1 << (shift % 64)`; the loop only sets bits below `BITS`, so the index
-- is in range.
def set_bit (ret : Uint n_words) (shift : Nat) : Uint n_words :=
  ⟨ret.limbs.set (shift / 64) (ret.limbs.getD (shift / 64) 0 ||| 1 <<< (shift % 64).toUInt64),
    by rw [List.length_set, ret.length_limbs]⟩

-- The body of the `loop` at bit `shift`: when the aligned divisor fits, its bit goes into the
-- quotient and it is subtracted.
def div_rem_round (ret sub_copy shift_copy : Uint n_words) (shift : Nat) :
    Uint n_words × Uint n_words :=
  if cmp sub_copy shift_copy ≠ .lt then (ret.set_bit shift, (sub_copy.overflowing_sub shift_copy).1)
  else (ret, sub_copy)

-- The `loop` from bit `shift` down: each round is followed by `shift_copy >> 1`, and the loop
-- breaks after the round at bit 0, whose shifted divisor is not read.
def div_rem_loop (ret sub_copy shift_copy : Uint n_words) : Nat → Uint n_words × Uint n_words
  | 0 => div_rem_round ret sub_copy shift_copy 0
  | shift + 1 =>
    let (ret, sub_copy) := div_rem_round ret sub_copy shift_copy (shift + 1)
    div_rem_loop ret sub_copy (shift_copy.overflowing_shr 1).1 shift

-- `div_rem`; a zero divisor fails its assertion. The divisor is aligned with the dividend by
-- the difference of their bit lengths.
def div_rem (self other : Uint n_words) : Option (Uint n_words × Uint n_words) :=
  let my_bits := self.bits
  let your_bits := other.bits
  if your_bits = 0 then none
  else if my_bits < your_bits then some (ZERO, self)
  else
    let shift := my_bits - your_bits
    let shift_copy := (other.overflowing_shl shift.toUInt32).1
    some (div_rem_loop ZERO self shift_copy shift)

@[simp] theorem value_ZERO : (ZERO : Uint n_words).value = 0 := Limbs.value_replicate_zero _

theorem value_set_bit (ret : Uint n_words) {shift : Nat} (hshift : shift < BITS n_words) :
    (ret.set_bit shift).value = ret.value ||| 2 ^ shift := by
  have hi : shift / 64 < ret.limbs.length := by
    rw [ret.length_limbs]
    rw [BITS_eq] at hshift
    omega
  unfold set_bit value
  rw [Limbs.value_set_or _ hi (Nat.mod_lt _ (by norm_num)), Nat.div_add_mod]

-- A subtraction that does not borrow is exact.
theorem value_overflowing_sub_of_le {self other : Uint n_words} (h : other.value ≤ self.value) :
    (self.overflowing_sub other).1.value = self.value - other.value := by
  have hspec := (overflowing_sub_spec self other).1
  have hlt : (self.value : ℤ) < 2 ^ BITS n_words := by exact_mod_cast self.value_lt
  rw [Int.emod_eq_of_lt (by omega) (by omega)] at hspec
  omega

-- Setting a bit below the set ones adds it.
theorem or_two_pow_of_dvd {x s : Nat} (h : 2 ^ (s + 1) ∣ x) : x ||| 2 ^ s = x + 2 ^ s := by
  obtain ⟨m, rfl⟩ := h
  exact (Nat.two_pow_add_eq_or_of_lt (Nat.pow_lt_pow_right (by norm_num) (Nat.lt_succ_self s))
    m).symm

section Rounds

variable {b : Nat}

-- One round keeps `sub_copy + ret * b` and brings the remainder below the aligned divisor;
-- the quotient bits set so far stay above `shift`.
theorem div_rem_round_spec {ret sub_copy shift_copy : Uint n_words} {shift : Nat}
    (hshift : shift < BITS n_words) (hcopy : shift_copy.value = b * 2 ^ shift)
    (hsub : sub_copy.value < b * 2 ^ (shift + 1)) (hret : 2 ^ (shift + 1) ∣ ret.value) :
    (div_rem_round ret sub_copy shift_copy shift).2.value +
        (div_rem_round ret sub_copy shift_copy shift).1.value * b =
      sub_copy.value + ret.value * b ∧
    (div_rem_round ret sub_copy shift_copy shift).2.value < b * 2 ^ shift ∧
    2 ^ shift ∣ (div_rem_round ret sub_copy shift_copy shift).1.value := by
  have hret' : 2 ^ shift ∣ ret.value := (Nat.pow_dvd_pow 2 (Nat.le_succ shift)).trans hret
  unfold div_rem_round
  simp only [cmp_eq_compare, ne_eq, Nat.compare_eq_lt, not_lt]
  have hdouble : b * 2 ^ (shift + 1) = 2 * (b * 2 ^ shift) := by rw [Nat.pow_succ]; ring
  rw [hdouble] at hsub
  rw [hcopy]
  by_cases hfit : b * 2 ^ shift ≤ sub_copy.value
  · -- the aligned divisor fits: subtract it and set its bit
    rw [if_pos hfit, value_set_bit ret hshift, or_two_pow_of_dvd hret,
      value_overflowing_sub_of_le (hcopy ▸ hfit)]
    refine ⟨?_, by omega, Nat.dvd_add hret' (Nat.dvd_refl _)⟩
    rw [Nat.add_mul, Nat.mul_comm (2 ^ shift) b, hcopy]
    omega
  · rw [if_neg hfit]
    exact ⟨rfl, Nat.lt_of_not_le hfit, hret'⟩

-- The rounds from bit `shift` down to 0 end with a remainder below the divisor.
theorem div_rem_loop_spec (hb : 0 < b) :
    ∀ (shift : Nat) {ret sub_copy shift_copy : Uint n_words}, shift < BITS n_words →
      shift_copy.value = b * 2 ^ shift → sub_copy.value < b * 2 ^ (shift + 1) →
      2 ^ (shift + 1) ∣ ret.value →
      (div_rem_loop ret sub_copy shift_copy shift).2.value +
          (div_rem_loop ret sub_copy shift_copy shift).1.value * b =
        sub_copy.value + ret.value * b ∧
      (div_rem_loop ret sub_copy shift_copy shift).2.value < b
  | 0, ret, sub_copy, shift_copy, hshift, hcopy, hsub, hret => by
    obtain ⟨hsum, hlt, -⟩ := div_rem_round_spec hshift hcopy hsub hret
    rw [Nat.pow_zero, Nat.mul_one] at hlt
    exact ⟨hsum, hlt⟩
  | shift + 1, ret, sub_copy, shift_copy, hshift, hcopy, hsub, hret => by
    obtain ⟨hsum, hlt, hdvd⟩ := div_rem_round_spec hshift hcopy hsub hret
    -- the divisor moves down one bit, exactly
    have hcopy' : (shift_copy.overflowing_shr 1).1.value = b * 2 ^ shift := by
      rw [(overflowing_shr_spec shift_copy 1).1, hcopy, UInt32.toNat_one,
        Nat.mod_eq_of_lt (by omega), Nat.pow_succ, ← Nat.mul_assoc, Nat.pow_one,
        Nat.mul_div_cancel _ (by norm_num)]
    obtain ⟨hsum', hlt'⟩ := div_rem_loop_spec hb shift (by omega) hcopy' hlt hdvd
    exact ⟨hsum'.trans hsum, hlt'⟩

end Rounds

-- `div_rem` divides exactly: the quotient times the divisor plus the remainder is the
-- dividend, and the remainder is below the divisor.
theorem div_rem_spec (hbits : BITS n_words < 2 ^ 32) (self other : Uint n_words)
    (hother : other.value ≠ 0) :
    ∃ quotient rem, self.div_rem other = some (quotient, rem) ∧
      quotient.value * other.value + rem.value = self.value ∧ rem.value < other.value := by
  have hsize : Nat.size other.value ≠ 0 := fun h => hother (Nat.size_eq_zero.mp h)
  have hlow : 2 ^ (Nat.size other.value - 1) ≤ other.value := Nat.lt_size.mp (by omega)
  have hb := Nat.lt_size_self other.value
  have ha := Nat.lt_size_self self.value
  have hself : Nat.size self.value ≤ BITS n_words := Nat.size_le.mpr self.value_lt
  unfold div_rem
  simp only [bits_eq_size, if_neg hsize]
  by_cases hsmall : Nat.size self.value < Nat.size other.value
  · -- a dividend shorter than the divisor is the remainder
    rw [if_pos hsmall]
    refine ⟨ZERO, self, rfl, by simp, ?_⟩
    calc self.value < 2 ^ Nat.size self.value := ha
      _ ≤ 2 ^ (Nat.size other.value - 1) := Nat.pow_le_pow_right (by norm_num) (by omega)
      _ ≤ other.value := hlow
  rw [if_neg hsmall]
  set shift := Nat.size self.value - Nat.size other.value with hshift_def
  have hshift : shift < BITS n_words := by omega
  -- the aligned divisor is not cut off at the top
  have hcopy : (other.overflowing_shl shift.toUInt32).1.value = other.value * 2 ^ shift := by
    have hfit : other.value * 2 ^ shift < 2 ^ BITS n_words :=
      calc other.value * 2 ^ shift < 2 ^ Nat.size other.value * 2 ^ shift :=
            Nat.mul_lt_mul_of_pos_right hb (Nat.two_pow_pos _)
        _ = 2 ^ Nat.size self.value := by rw [← Nat.pow_add]; congr 1; omega
        _ ≤ 2 ^ BITS n_words := Nat.pow_le_pow_right (by norm_num) hself
    rw [(overflowing_shl_spec other _).1, Nat.toUInt32_eq, UInt32.toNat_ofNat',
      Nat.mod_eq_of_lt (by omega : shift < 2 ^ 32), Nat.mod_eq_of_lt hshift,
      Nat.mod_eq_of_lt hfit]
  have hsub : self.value < other.value * 2 ^ (shift + 1) :=
    calc self.value < 2 ^ Nat.size self.value := ha
      _ = 2 ^ (Nat.size other.value - 1) * 2 ^ (shift + 1) := by
        rw [← Nat.pow_add]; congr 1; omega
      _ ≤ other.value * 2 ^ (shift + 1) := Nat.mul_le_mul_right _ hlow
  obtain ⟨hsum, hlt⟩ := div_rem_loop_spec (Nat.pos_of_ne_zero hother) shift hshift hcopy hsub
    (by rw [value_ZERO]; exact Nat.dvd_zero _)
  refine ⟨_, _, rfl, ?_, hlt⟩
  rw [value_ZERO, Nat.zero_mul, Nat.add_zero] at hsum
  omega

end DivRem

-- Both divisions of every `construct_uint!` width are Euclidean. The width's `BITS` is a `u32`
-- constant, which does not compile past `2 ^ 32`.
theorem div_rem_euclidean (hbits : BITS n_words < 2 ^ 32) :
    (∀ a b : Uint n_words, b.value ≠ 0 → ∃ q r, a.div_rem b = some (q, r) ∧
      q.value * b.value + r.value = a.value ∧ r.value < b.value) ∧
    ∀ (a : Uint n_words) (w : UInt64), w ≠ 0 → ∃ q r, a.div_rem_u64 w = some (q, r) ∧
      q.value * w.toNat + r.toNat = a.value ∧ r.toNat < w.toNat :=
  ⟨fun a b hb => div_rem_spec hbits a b hb, fun a _ hw => div_rem_u64_spec a hw⟩

-- The dividend and the divisor of the `div_rem_u3072_bug` regression test, in `Uint3072`.
def div_rem_u3072_bug_r : Uint 48 :=
  ⟨[
    18446744073708447899, 18446744069733351423, 18446744073709551615, 18446744073709551615,
    18446744073709551615, 18446744073709551615, 18446744073709551615, 18446744073709551615,
    18446744073709551615, 18446744073709551615, 18446744073709551615, 18446744073709551615,
    18446744073709551615, 18446744073709551615, 18446744073709551615, 18446744073709551615,
    18446744073709551615, 18446744073709551615, 18446744073709551615, 18446744073709551615,
    18446744073709551615, 18446744073709551615, 18446744073709551615, 18446744073709551615,
    18446744073709551615, 18446744073642442751, 18446744073709551615, 18446744073709551615,
    18446744073709551615, 18446744073709551615, 18446744073709551615, 18446744073709551615,
    18446744073709551615, 18446744073709551615, 18446744073709551615, 18446744073709551615,
    18446744073709551615, 18446744073709551615, 18446744073709551615, 18446744073709551615,
    18446744073709551615, 18446744073709551615, 18446744073709551615, 18446744073709551615,
    18446744073709551615, 18446744073709551615, 18446744073709551615, 18446744073709551615], rfl⟩

def div_rem_u3072_bug_newr : Uint 48 :=
  ⟨[
    0, 3976200192, 0, 0,
    0, 0, 0, 0,
    0, 0, 0, 0,
    0, 0, 0, 0,
    0, 0, 0, 0,
    0, 0, 0, 0,
    0, 67108864, 0, 0,
    0, 0, 0, 0,
    0, 0, 0, 0,
    0, 0, 0, 0,
    0, 0, 0, 0,
    0, 0, 0, 0], rfl⟩

theorem div_rem_euclidean_u3072_bug : BITS 48 < 2 ^ 32 ∧ div_rem_u3072_bug_newr.value ≠ 0 ∧
    (∃ q r, div_rem_u3072_bug_r.div_rem div_rem_u3072_bug_newr = some (q, r) ∧
      q.value * div_rem_u3072_bug_newr.value + r.value = div_rem_u3072_bug_r.value ∧
      r.value < div_rem_u3072_bug_newr.value) ∧
    (∃ q r, div_rem_u3072_bug_r.div_rem_u64 10 = some (q, r) ∧
      q.value * (10 : UInt64).toNat + r.toNat = div_rem_u3072_bug_r.value ∧
      r.toNat < (10 : UInt64).toNat) :=
  ⟨by decide, by decide, (div_rem_euclidean (by decide)).1 _ _ (by decide),
    (div_rem_euclidean (by decide)).2 _ _ (by decide)⟩

end Uint

end Waglayla.Math
