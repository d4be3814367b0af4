import Waglayla.TxScript.Opcodes
import Waglayla.Bytes.LittleEndian
import Mathlib.Tactic.Ring

-- Script numbers: the little-endian magnitude with the sign in the top bit of the last byte.

namespace Waglayla.TxScript

open LittleEndian

-- `{v:x?}`: the bytes in lowercase hexadecimal, as a list.
def hex_debug (v : Bytes) : String :=
  "[" ++ ", ".intercalate (v.map fun b => String.ofList (Nat.toDigits 16 b.toNat)) ++ "]"

def check_minimal_data_encoding (v : Bytes) : Except TxScriptError Unit :=
  match v.reverse with
  | [] => .ok ()
  | msb :: rest =>
    -- `v.len() == 1 || v[v.len() - 2] & 0x80 == 0`
    if msb &&& 0x7f = 0 ∧ rest.head?.all (· &&& 0x80 == 0) then
      .error (.NotMinimalData
        ("numeric value encoded as " ++ hex_debug v ++ " is not minimally encoded"))
    else .ok ()

-- The bytes below the most significant one, most significant first, folded into the
-- accumulator. With at most eight bytes the accumulator stays below 2^63, so the `i64` shift
-- drops no bit and the addition, into the zero byte the shift leaves, never overflows.
def fold_magnitude (first_byte : Int) (rest : Bytes) : Int :=
  rest.foldl (fun accum item => accum * 256 + item.toNat) first_byte

def deserialize_i64 (v : Bytes) : Except TxScriptError Int64 :=
  if v.length > 8 then
    .error (.NotMinimalData
      ("numeric value encoded as " ++ hex_debug v ++ " is longer than 8 bytes"))
  else
    match v.reverse with
    | [] => .ok 0
    | msb :: rest => do
      check_minimal_data_encoding v
      let sign : Int := 1 - 2 * (msb >>> 7).toNat
      let first_byte : Int := (msb &&& 0x7f).toNat
      return Int64.ofInt (fold_magnitude first_byte rest * sign)

-- The `iter::from_fn` closure of `serialize`: the low byte while the magnitude is not zero,
-- then one zero byte when the last byte had its top bit set.
def serialize_bytes (positive : Nat) (last_saturated : Bool) : Bytes :=
  if positive = 0 then if last_saturated then [0] else []
  else
    let value := positive &&& 0xff
    value.toUInt8 :: serialize_bytes (positive >>> 8) (value &&& 0x80 != 0)
termination_by positive
decreasing_by
  rw [Nat.shiftRight_eq_div_pow]
  omega

-- `OpcodeData::<i64>::serialize`; `from.abs()` overflows at `i64::MIN`, and the last byte of
-- a negative number takes the sign bit.
def serialize (n : Int64) : Option Bytes :=
  if n = Int64.minValue then none
  else
    let number_vec := serialize_bytes n.toInt.natAbs false
    if n < 0 then
      match number_vec.reverse with
      | num :: rest => some ((num ||| 0x80) :: rest).reverse
      | [] => none
    else some number_vec

section Serialize

theorem pow_eq_mul_pow_pred {k : Nat} (hk : 1 ≤ k) : 256 ^ k = 256 * 256 ^ (k - 1) := by
  obtain ⟨j, rfl⟩ := Nat.exists_eq_add_of_le' hk
  rw [Nat.add_sub_cancel, Nat.pow_succ']

theorem serialize_bytes_zero (last_saturated : Bool) :
    serialize_bytes 0 last_saturated = if last_saturated then [0] else [] := by
  rw [serialize_bytes, if_pos rfl]

-- One step of the closure, on numbers: `& 0xff` is the remainder by 256, `>> 8` the quotient.
theorem serialize_bytes_pos {positive : Nat} (hpos : 0 < positive) (last_saturated : Bool) :
    serialize_bytes positive last_saturated =
      (positive % 256).toUInt8 ::
        serialize_bytes (positive / 256) (decide (128 ≤ positive % 256)) := by
  rw [serialize_bytes, if_neg (by omega)]
  have hlow : positive &&& 0xff = positive % 256 := Nat.and_two_pow_sub_one_eq_mod positive 8
  have hbit : (positive % 256 &&& 0x80 != 0) = decide (128 ≤ positive % 256) := by
    have := and_0x80_eq_zero_iff (positive % 256) (Nat.mod_lt _ (by decide))
    by_cases h128 : 128 ≤ positive % 256
    · simp only [h128, decide_true, bne_iff_ne, ne_eq, this]
      omega
    · simp only [h128, decide_false, bne_eq_false_iff_eq, this]
      omega
  rw [hlow]
  dsimp only
  rw [hbit, Nat.shiftRight_eq_div_pow]

theorem decode_serialize_bytes (positive : Nat) (last_saturated : Bool) :
    decode (serialize_bytes positive last_saturated) = positive := by
  induction positive using Nat.strong_induction_on generalizing last_saturated with
  | _ p ih =>
    rcases Nat.eq_zero_or_pos p with rfl | hp
    · rw [serialize_bytes_zero]
      cases last_saturated <;> rfl
    · have hbyte : (p % 256).toUInt8.toNat = p % 256 := by simp
      rw [serialize_bytes_pos hp, decode_cons, ih (p / 256) (by omega), hbyte]
      omega

-- The magnitude bytes of a non-zero value take its sign width: the top bit of the last byte
-- is free, and one byte fewer would not leave it free.
theorem sign_width_serialize_bytes {positive : Nat} (hpos : 0 < positive)
    (last_saturated : Bool) : SignWidth positive (serialize_bytes positive last_saturated).length := by
  induction positive using Nat.strong_induction_on generalizing last_saturated with
  | _ p ih =>
    rw [serialize_bytes_pos hpos, List.length_cons]
    rcases Nat.eq_zero_or_pos (p / 256) with hq | hq
    -- one byte, and a zero byte behind it when its top bit is set
    · rw [hq, serialize_bytes_zero]
      by_cases h128 : 128 ≤ p % 256
      · simp only [h128, decide_true, if_true, List.length_singleton]
        refine ⟨by omega, ?_, fun _ => ?_⟩ <;> simp <;> omega
      · simp only [h128, decide_false, Bool.false_eq_true, if_false, List.length_nil]
        refine ⟨by omega, ?_, fun h => by omega⟩
        simp
        omega
    -- more bytes: the rest has the sign width of the quotient
    · obtain ⟨hk, hupper, hlower⟩ := ih (p / 256) (by omega) hq (decide (128 ≤ p % 256))
      set k := (serialize_bytes (p / 256) (decide (128 ≤ p % 256))).length
      have hpow := pow_eq_mul_pow_pred hk
      refine ⟨by omega, ?_, fun _ => ?_⟩
      · rw [Nat.add_sub_cancel, hpow]
        omega
      · rw [show k + 1 - 2 = k - 1 by omega]
        rcases Nat.lt_or_ge k 2 with hk2 | hk2
        · rw [show k - 1 = 0 by omega, Nat.pow_zero]
          omega
        · have hpow' : 256 ^ (k - 1) = 256 * 256 ^ (k - 2) := pow_eq_mul_pow_pred (by omega)
          have := hlower hk2
          rw [hpow']
          omega

end Serialize

section Deserialize

theorem fold_magnitude_eq (first_byte : Int) (rest : Bytes) :
    fold_magnitude first_byte rest = first_byte * 256 ^ rest.length + decode rest.reverse := by
  induction rest generalizing first_byte with
  | nil => simp [fold_magnitude]
  | cons item rest ih =>
    have hstep : fold_magnitude first_byte (item :: rest) =
        fold_magnitude (first_byte * 256 + item.toNat) rest := rfl
    rw [hstep, ih, List.reverse_cons, decode_append_singleton, List.length_reverse,
      List.length_cons]
    push_cast
    ring

-- The minimal-encoding check on a vector split at its most significant byte.
theorem check_minimal_data_encoding_append (lo : Bytes) (msb : UInt8) :
    check_minimal_data_encoding (lo ++ [msb]) = .ok () ↔
      (msb.toNat % 128 = 0 → ∃ lo' next, lo = lo' ++ [next] ∧ 128 ≤ next.toNat) := by
  have hmsb : msb &&& 0x7f = 0 ↔ msb.toNat % 128 = 0 := by
    rw [← toNat_and_0x7f, ← UInt8.toNat_inj]
    rfl
  unfold check_minimal_data_encoding
  rw [List.reverse_append, List.reverse_singleton, List.singleton_append]
  dsimp only
  rcases List.eq_nil_or_concat' lo with rfl | ⟨lo', next, rfl⟩
  · simp only [List.reverse_nil, List.head?_nil, Option.all_none, and_true, hmsb]
    split_ifs with h
    · simp [h]
    · simp [h]
  · have hnext : (next &&& 0x80 == 0) = decide (next.toNat < 128) := by
      rw [Bool.eq_iff_iff, beq_iff_eq, decide_eq_true_eq, and_0x80_eq_zero]
    simp only [List.reverse_append, List.reverse_singleton, List.singleton_append,
      List.head?_cons, Option.all_some, hnext, decide_eq_true_eq, hmsb]
    split_ifs with h
    · simp only [false_iff, not_forall, not_exists, not_and]
      refine ⟨h.1, fun lo'' next' heq => ?_⟩
      obtain ⟨-, hnext'⟩ := List.append_inj' heq rfl
      rw [List.singleton_inj] at hnext'
      subst hnext'
      exact Nat.not_le_of_lt h.2
    · simp only [true_iff]
      intro h0
      push Not at h
      exact ⟨lo', next, rfl, h h0⟩

-- What a vector of at most eight bytes that passes the check reads as.
theorem deserialize_i64_append {lo : Bytes} {msb : UInt8} (hlen : lo.length + 1 ≤ 8)
    (hmin : check_minimal_data_encoding (lo ++ [msb]) = .ok ()) :
    deserialize_i64 (lo ++ [msb]) =
      .ok (Int64.ofInt (decode (lo ++ [msb &&& 0x7f]) * (1 - 2 * (msb.toNat / 128 : Nat)))) := by
  unfold deserialize_i64
  rw [if_neg (by simp only [List.length_append, List.length_singleton]; omega)]
  rw [List.reverse_append, List.reverse_singleton, List.singleton_append]
  dsimp only
  rw [hmin]
  show Except.ok _ = _
  congr 2
  rw [fold_magnitude_eq, List.reverse_reverse, List.length_reverse, decode_append_singleton,
    toNat_shiftRight_7]
  push_cast
  ring

-- A vector that passes the check stands for a non-zero magnitude of its own sign width.
theorem sign_width_of_check {lo : Bytes} {msb : UInt8}
    (hmin : check_minimal_data_encoding (lo ++ [msb]) = .ok ()) :
    0 < decode (lo ++ [msb &&& 0x7f]) ∧
      SignWidth (decode (lo ++ [msb &&& 0x7f])) (lo.length + 1) := by
  rw [check_minimal_data_encoding_append] at hmin
  rw [decode_append_singleton, toNat_and_0x7f]
  have hlo := decode_lt lo
  have htop : msb.toNat % 128 ≤ 127 := Nat.le_of_lt_succ (Nat.mod_lt _ (by decide))
  -- every byte below, and seven bits of the top one
  have hupper : decode lo + 256 ^ lo.length * (msb.toNat % 128) < 128 * 256 ^ lo.length := by
    have := Nat.mul_le_mul_left (256 ^ lo.length) htop
    omega
  refine ⟨?_, by omega, by rw [Nat.add_sub_cancel]; exact hupper, fun h2 => ?_⟩
  all_goals by_cases h0 : msb.toNat % 128 = 0
  -- a zero top byte: the byte below has its top bit set
  · obtain ⟨lo', next, rfl, hnext⟩ := hmin h0
    rw [decode_append_singleton]
    have := Nat.mul_le_mul_left (256 ^ lo'.length) hnext
    have := Nat.pow_pos (n := lo'.length) (show 0 < 256 by decide)
    omega
  · have := Nat.mul_le_mul_left (256 ^ lo.length) (Nat.one_le_iff_ne_zero.mpr h0)
    have := Nat.pow_pos (n := lo.length) (show 0 < 256 by decide)
    omega
  · obtain ⟨lo', next, rfl, hnext⟩ := hmin h0
    rw [decode_append_singleton, List.length_append, List.length_singleton,
      show lo'.length + 1 + 1 - 2 = lo'.length by omega]
    have := Nat.mul_le_mul_left (256 ^ lo'.length) hnext
    omega
  · have hpow := pow_eq_mul_pow_pred (k := lo.length) (by omega)
    have := Nat.mul_le_mul_left (256 ^ lo.length) (Nat.one_le_iff_ne_zero.mpr h0)
    rw [show lo.length + 1 - 2 = lo.length - 1 by omega]
    omega

-- A single byte with its sign bit clear is the number it holds.
theorem deserialize_i64_singleton {b : UInt8} (hb : b.toNat < 128) (h0 : b ≠ 0) :
    deserialize_i64 [b] = .ok (Int64.ofNat b.toNat) := by
  have hpos : b.toNat % 128 ≠ 0 := by
    rw [Nat.mod_eq_of_lt hb]
    exact fun h => h0 (UInt8.toNat_inj.mp h)
  have hmin : check_minimal_data_encoding ([] ++ [b]) = .ok () :=
    (check_minimal_data_encoding_append [] b).mpr fun h => absurd h hpos
  have h := deserialize_i64_append (by simp) hmin
  rw [List.nil_append] at h
  rw [h, List.nil_append, decode_cons, decode_nil, toNat_and_0x7f, Nat.mod_eq_of_lt hb,
    Nat.div_eq_of_lt hb, ← Int64.ofInt_eq_ofNat]
  congr 2
  omega

end Deserialize

section RoundTrip

-- The magnitude bytes of a non-zero value end in a byte with its top bit free, and a zero top
-- byte stands above a byte with its top bit set.
theorem serialize_bytes_split {positive : Nat} (hpos : 0 < positive) :
    ∃ lo top, serialize_bytes positive false = lo ++ [top] ∧ top.toNat < 128 ∧
      (top.toNat = 0 → ∃ lo' next, lo = lo' ++ [next] ∧ 128 ≤ next.toNat) := by
  have hw := sign_width_serialize_bytes hpos false
  have hdec := decode_serialize_bytes positive false
  rcases List.eq_nil_or_concat' (serialize_bytes positive false) with hnil | ⟨lo, top, hsplit⟩
  · rw [hnil] at hw
    exact absurd hw.1 (by simp)
  rw [hsplit, decode_append_singleton] at hdec
  rw [hsplit, List.length_append, List.length_singleton] at hw
  obtain ⟨-, hupper, hlower⟩ := hw
  rw [Nat.add_sub_cancel] at hupper
  refine ⟨lo, top, hsplit, ?_, fun h0 => ?_⟩
  · by_contra hge
    have := Nat.mul_le_mul_left (256 ^ lo.length) (Nat.le_of_not_lt hge)
    omega
  · rw [h0, Nat.mul_zero, Nat.add_zero] at hdec
    rcases List.eq_nil_or_concat' lo with rfl | ⟨lo', next, rfl⟩
    · simp at hdec
      omega
    · refine ⟨lo', next, rfl, Nat.le_of_not_lt fun hlt => ?_⟩
      rw [decode_append_singleton] at hdec
      have hlo' := decode_lt lo'
      have := Nat.mul_le_mul_left (256 ^ lo'.length) (Nat.le_of_lt_succ hlt)
      have hl := hlower (by simp)
      rw [List.length_append, List.length_singleton,
        show lo'.length + 1 + 1 - 2 = lo'.length by omega] at hl
      omega

-- `serialize` of a value whose magnitude bytes are `lo ++ [top]`.
theorem serialize_eq_append {n : Int64} (hn : n ≠ Int64.minValue) {lo : Bytes} {top : UInt8}
    (hsplit : serialize_bytes n.toInt.natAbs false = lo ++ [top]) :
    serialize n = some (lo ++ [if n < 0 then top ||| 0x80 else top]) := by
  unfold serialize
  rw [if_neg hn]
  dsimp only
  rw [hsplit]
  split_ifs with hneg
  · rw [List.reverse_append, List.reverse_singleton, List.singleton_append]
    dsimp only
    rw [List.reverse_cons, List.reverse_reverse]
  · rfl

-- The sign bit goes on a top byte whose own top bit is free, and comes off again.
theorem and_0x7f_sign_byte {top : UInt8} (htop : top.toNat < 128) (negative : Prop)
    [Decidable negative] :
    (if negative then top ||| 0x80 else top) &&& 0x7f = top ∧
      (if negative then top ||| 0x80 else top).toNat / 128 = if negative then 1 else 0 := by
  split_ifs
  · have hor := toNat_or_0x80 top htop
    refine ⟨UInt8.toNat_inj.mp ?_, by omega⟩
    rw [toNat_and_0x7f, hor]
    omega
  · refine ⟨UInt8.toNat_inj.mp ?_, by omega⟩
    rw [toNat_and_0x7f]
    omega

theorem serialize_minValue : serialize Int64.minValue = none := by
  rw [serialize, if_pos rfl]

theorem serialize_zero : serialize 0 = some [] := by
  rw [serialize, if_neg (by decide)]
  simp [serialize_bytes_zero]

-- The magnitude times the sign the top bit gives back.
theorem natAbs_mul_sign (x : Int) (negative : Prop) [Decidable negative] (h : negative ↔ x < 0) :
    (x.natAbs : Int) * (1 - 2 * ((if negative then 1 else 0 : Nat) : Int)) = x := by
  split_ifs with hneg
  · have := h.mp hneg
    simp only [Nat.cast_one]
    omega
  · have := h.not.mp hneg
    simp only [Nat.cast_zero]
    omega

-- Every value but `i64::MIN` is written in at most eight bytes that pass the check and read
-- back as the value.
theorem serialize_spec {n : Int64} (hn : n ≠ Int64.minValue) :
    ∃ v, serialize n = some v ∧ v.length ≤ 8 ∧ check_minimal_data_encoding v = .ok () ∧
      deserialize_i64 v = .ok n := by
  by_cases hzero : n = 0
  · subst hzero
    exact ⟨[], serialize_zero, by simp, rfl, rfl⟩
  -- the magnitude, below 2^63 since `n` is not `i64::MIN`
  have hlow : -2 ^ 63 < n.toInt := by
    have := n.le_toInt
    have hne : n.toInt ≠ -2 ^ 63 := fun h =>
      hn (Int64.toInt_inj.mp (h.trans Int64.toInt_minValue.symm))
    omega
  have hnz : n.toInt ≠ 0 := fun h => hzero (Int64.toInt_inj.mp (h.trans Int64.toInt_zero.symm))
  have hM : 0 < n.toInt.natAbs ∧ n.toInt.natAbs < 2 ^ 63 := by
    have := n.toInt_lt
    omega
  obtain ⟨lo, top, hsplit, htop, hzero_top⟩ := serialize_bytes_split hM.1
  obtain ⟨hclear, hsign⟩ := and_0x7f_sign_byte htop (n < 0)
  set msb := if n < 0 then top ||| 0x80 else top
  have hcheck : check_minimal_data_encoding (lo ++ [msb]) = .ok () := by
    rw [check_minimal_data_encoding_append]
    intro h0
    apply hzero_top
    rw [← hclear, toNat_and_0x7f]
    exact h0
  have hlen : lo.length + 1 ≤ 8 := by
    have := (sign_width_serialize_bytes hM.1 false).le_eight hM.2
    rwa [hsplit, List.length_append, List.length_singleton] at this
  refine ⟨lo ++ [msb], serialize_eq_append hn hsplit, by simpa using hlen, hcheck, ?_⟩
  rw [deserialize_i64_append hlen hcheck, hclear, ← hsplit, decode_serialize_bytes, hsign]
  congr 1
  -- the magnitude with the sign read off the top bit is the value itself
  refine (congrArg Int64.ofInt ?_).trans (Int64.ofInt_toInt n)
  exact natAbs_mul_sign n.toInt (n < 0) (by rw [Int64.lt_iff_toInt_lt, Int64.toInt_zero])

-- A vector that reads as `n` is what `n` is written as.
theorem serialize_of_deserialize_i64 {v : Bytes} {n : Int64} (h : deserialize_i64 v = .ok n) :
    serialize n = some v := by
  rcases List.eq_nil_or_concat' v with rfl | ⟨lo, msb, rfl⟩
  · have hn : n = 0 := by
      have h0 : deserialize_i64 [] = .ok 0 := rfl
      rw [h0, Except.ok.injEq] at h
      exact h.symm
    subst hn
    exact serialize_zero
  have hlen : lo.length + 1 ≤ 8 := by
    by_contra hgt
    rw [deserialize_i64, if_pos (by simp only [List.length_append, List.length_singleton]; omega)]
      at h
    cases h
  have hmin : check_minimal_data_encoding (lo ++ [msb]) = .ok () := by
    cases hc : check_minimal_data_encoding (lo ++ [msb]) with
    | ok u => rfl
    | error e =>
      unfold deserialize_i64 at h
      rw [if_neg (by simp only [List.length_append, List.length_singleton]; omega),
        List.reverse_append, List.reverse_singleton, List.singleton_append] at h
      dsimp only at h
      rw [hc] at h
      cases h
  rw [deserialize_i64_append hlen hmin, Except.ok.injEq] at h
  obtain ⟨hpos, hw⟩ := sign_width_of_check hmin
  set M := decode (lo ++ [msb &&& 0x7f])
  -- seven bytes and seven bits at most: the value fits an `i64`
  have hM63 : M < 2 ^ 63 := by
    have hpow : 128 * 256 ^ lo.length ≤ 128 * 256 ^ 7 :=
      Nat.mul_le_mul_left 128 (Nat.pow_le_pow_right (by decide) (by omega))
    have := hw.2.1
    rw [Nat.add_sub_cancel] at this
    have htop : (128 : Nat) * 256 ^ 7 = 2 ^ 63 := rfl
    omega
  have hsign : msb.toNat / 128 ≤ 1 := by
    have := msb.toNat_lt
    omega
  have htoInt : n.toInt = M * (1 - 2 * (msb.toNat / 128 : Nat)) := by
    have hrange : -2 ^ 63 ≤ (M : Int) * (1 - 2 * (msb.toNat / 128 : Nat)) ∧
        (M : Int) * (1 - 2 * (msb.toNat / 128 : Nat)) < 2 ^ 63 := by
      rcases Nat.le_one_iff_eq_zero_or_eq_one.mp hsign with h0 | h0 <;> rw [h0] <;> push_cast <;>
        omega
    rw [← h, Int64.toInt_ofInt_of_le hrange.1 hrange.2]
  have hn : n ≠ Int64.minValue := fun hmin' => by
    rw [hmin', Int64.toInt_minValue] at htoInt
    rcases Nat.le_one_iff_eq_zero_or_eq_one.mp hsign with h0 | h0 <;> rw [h0] at htoInt <;>
      push_cast at htoInt <;> omega
  -- the magnitude bytes are the vector with the sign bit cleared
  have hbytes : serialize_bytes n.toInt.natAbs false = lo ++ [msb &&& 0x7f] := by
    have hnat : n.toInt.natAbs = M := by
      rcases Nat.le_one_iff_eq_zero_or_eq_one.mp hsign with h0 | h0 <;> rw [h0] at htoInt <;>
        push_cast at htoInt <;> omega
    rw [hnat]
    have hwidth := hw.unique (sign_width_serialize_bytes hpos false)
    rw [eq_encode_of_decode_eq hwidth.symm (decode_serialize_bytes M false),
      @eq_encode_of_decode_eq (lo ++ [msb &&& 0x7f]) (lo.length + 1) M (by simp) rfl]
  have htop : (msb &&& 0x7f).toNat < 128 := by
    rw [toNat_and_0x7f]
    exact Nat.mod_lt _ (by decide)
  rw [serialize_eq_append hn hbytes]
  congr 2
  rw [List.singleton_inj]
  have hneg : n < 0 ↔ 128 ≤ msb.toNat := by
    rw [Int64.lt_iff_toInt_lt, Int64.toInt_zero, htoInt]
    have := msb.toNat_lt
    rcases Nat.le_one_iff_eq_zero_or_eq_one.mp hsign with h0 | h0 <;> rw [h0] <;> push_cast <;>
      constructor <;> intro <;> omega
  apply UInt8.toNat_inj.mp
  split_ifs with hlt
  · rw [toNat_or_0x80 _ htop, toNat_and_0x7f]
    have := hneg.mp hlt
    have := msb.toNat_lt
    omega
  · rw [toNat_and_0x7f]
    have := hneg.not.mp hlt
    omega

theorem script_num_round_trip :
    (∀ n : Int64, n ≠ Int64.minValue → ∃ v, serialize n = some v ∧ v.length ≤ 8 ∧
      check_minimal_data_encoding v = .ok () ∧ deserialize_i64 v = .ok n) ∧
    (∀ (v : Bytes) (n : Int64), v.length ≤ 8 → deserialize_i64 v = .ok n →
      serialize n = some v) ∧
    (∀ v : Bytes, v.length ≤ 8 →
      (check_minimal_data_encoding v = .ok () ↔
        ∃ n, n ≠ Int64.minValue ∧ serialize n = some v)) := by
  refine ⟨fun n hn => serialize_spec hn, fun v n _ h => serialize_of_deserialize_i64 h,
    fun v hlen => ⟨fun hcheck => ?_, ?_⟩⟩
  -- a vector that passes the check reads as a value, which is written as the vector
  · rcases List.eq_nil_or_concat' v with rfl | ⟨lo, msb, rfl⟩
    · exact ⟨0, by decide, serialize_zero⟩
    · have hread := deserialize_i64_append (by simpa using hlen) hcheck
      have hwrite := serialize_of_deserialize_i64 hread
      refine ⟨_, fun hmin => ?_, hwrite⟩
      rw [hmin, serialize_minValue] at hwrite
      cases hwrite
  · rintro ⟨n, hn, hwrite⟩
    obtain ⟨v', hwrite', -, hcheck, -⟩ := serialize_spec hn
    rw [hwrite, Option.some_inj] at hwrite'
    rw [hwrite']
    exact hcheck

-- -300 is written in two bytes, 0x2c and 0x81 with the sign bit, and read back; the three bytes
-- 0x2c 0x01 0x00 end in a zero the value does not need, so no value is written as them.
theorem script_num_round_trip_minus_300 :
    deserialize_i64 [0x2c, 0x81] = .ok (-300) ∧ serialize (-300) = some [0x2c, 0x81] ∧
    (∃ v, serialize (-300) = some v ∧ v.length ≤ 8 ∧ check_minimal_data_encoding v = .ok () ∧
      deserialize_i64 v = .ok (-300)) ∧
    check_minimal_data_encoding [0x2c, 0x01, 0x00] ≠ .ok () ∧
    (check_minimal_data_encoding [0x2c, 0x01, 0x00] = .ok () ↔
      ∃ n, n ≠ Int64.minValue ∧ serialize n = some [0x2c, 0x01, 0x00]) := by
  have hread : deserialize_i64 [0x2c, 0x81] = .ok (-300) := by decide
  exact ⟨hread, script_num_round_trip.2.1 _ _ (by decide) hread,
    script_num_round_trip.1 (-300) (by decide), by decide,
    script_num_round_trip.2.2 _ (by decide)⟩

end RoundTrip

section StackItems

-- The stack items the opcodes read and write (`OpcodeData<i32>`, `OpcodeData<bool>`) and
-- `pop_items`.

def DEFAULT_SCRIPT_NUM_LEN : Nat := 4

namespace OpcodeData

-- `OpcodeData::<i64>::deserialize`: a number on the stack takes at most four bytes.
def deserialize_i64 (v : Bytes) : Except TxScriptError Int64 :=
  if v.length > DEFAULT_SCRIPT_NUM_LEN then
    .error (.NumberTooBig ("numeric value encoded as " ++ hex_debug v ++ " is " ++
      toString v.length ++ " bytes which exceeds the max allowed of " ++
      toString DEFAULT_SCRIPT_NUM_LEN))
  else TxScript.deserialize_i64 v

-- `OpcodeData::<i32>::deserialize`: the number clamped to the `i32` range, so `try_from` never
-- fails.
def deserialize_i32 (v : Bytes) : Except TxScriptError Int32 := do
  let res ← deserialize_i64 v
  return Int32.ofInt (max (min res.toInt Int32.maxValue.toInt) Int32.minValue.toInt)

def serialize_bool : Bool → Bytes
  | true => [1]
  | false => []

end OpcodeData

-- `pop_items::<SIZE, T>`: the top `size` items are split off, then each is read.
def pop_items {T : Type} (deserialize : Bytes → Except TxScriptError T) (size : Nat)
    (dstack : List Bytes) : List Bytes × Except TxScriptError (List T) :=
  if dstack.length < size then (dstack, .error (.InvalidStackOperation size dstack.length))
  else (dstack.take (dstack.length - size), (dstack.drop (dstack.length - size)).mapM deserialize)

theorem pop_items_one {T : Type} (deserialize : Bytes → Except TxScriptError T)
    (dstack : List Bytes) (item : Bytes) {value : T} (h : deserialize item = .ok value) :
    pop_items deserialize 1 (dstack ++ [item]) = (dstack, .ok [value]) := by
  have hlen : (dstack ++ [item]).length - 1 = dstack.length := by simp
  unfold pop_items
  rw [if_neg (by simp), hlen, List.take_left' rfl, List.drop_left' rfl]
  simp [h]

end StackItems

end Waglayla.TxScript
