import Mathlib.Data.List.TakeWhile
import Waglayla.Bytes.LittleEndian
import Waglayla.Math.UintDiv

-- The byte and text forms of the `construct_uint!` integers; hexadecimal goes through the
-- `faster_hex` functions, which are parameters with their round-trip contract.

namespace Waglayla.Math

namespace Uint

variable {n_words : Nat}

theorem eq_of_value_eq {a b : Uint n_words} (h : a.value = b.value) : a = b := by
  obtain ⟨limbs, hlimbs⟩ := a
  obtain ⟨limbs', hlimbs'⟩ := b
  have heq : limbs = limbs' := Limbs.eq_of_value_eq (hlimbs.trans hlimbs'.symm) h
  subst heq
  rfl

section Bytes

-- `u64::to_le_bytes` and `u64::from_le_bytes`, and their big-endian counterparts.
def word_to_le_bytes (word : UInt64) : List UInt8 := LittleEndian.encode 8 word.toNat

def word_from_le_bytes (bytes : List UInt8) : UInt64 := UInt64.ofNat (LittleEndian.decode bytes)

def word_to_be_bytes (word : UInt64) : List UInt8 := (word_to_le_bytes word).reverse

def word_from_be_bytes (bytes : List UInt8) : UInt64 := word_from_le_bytes bytes.reverse

-- `chunks_exact(8)` zipped with `k` limbs: the limb read from each chunk of eight bytes.
def chunk_words (read : List UInt8 → UInt64) : Nat → List UInt8 → List UInt64
  | 0, _ => []
  | k + 1, bytes => read (bytes.take 8) :: chunk_words read k (bytes.drop 8)

theorem length_chunk_words (read : List UInt8 → UInt64) (k : Nat) (bytes : List UInt8) :
    (chunk_words read k bytes).length = k := by
  induction k generalizing bytes with
  | zero => rfl
  | succ k ih => rw [chunk_words, List.length_cons, ih]

def from_le_bytes (bytes : List UInt8) : Uint n_words :=
  ⟨chunk_words word_from_le_bytes n_words bytes, length_chunk_words _ _ _⟩

-- `from_be_bytes`: the limbs filled from the top.
def from_be_bytes (bytes : List UInt8) : Uint n_words :=
  ⟨(chunk_words word_from_be_bytes n_words bytes).reverse,
    by rw [List.length_reverse, length_chunk_words]⟩

def to_le_bytes (self : Uint n_words) : List UInt8 := self.limbs.flatMap word_to_le_bytes

def to_be_bytes (self : Uint n_words) : List UInt8 := self.limbs.reverse.flatMap word_to_be_bytes

-- `to_be_bytes_var`: the big-endian bytes from the first one that is not zero.
def to_be_bytes_var (self : Uint n_words) : List UInt8 := self.to_be_bytes.dropWhile (· == 0)

-- `from_be_bytes_var`: at most `BYTES` bytes, placed at the end of a zeroed array.
def from_be_bytes_var (bytes : List UInt8) : Except Unit (Uint n_words) :=
  if bytes.length > 8 * n_words then .error ()
  else .ok (from_be_bytes (List.replicate (8 * n_words - bytes.length) 0 ++ bytes))

theorem length_word_to_le_bytes (word : UInt64) : (word_to_le_bytes word).length = 8 :=
  LittleEndian.length_encode _ _

-- The little-endian bytes are those of the value.
theorem to_le_bytes_eq (self : Uint n_words) :
    self.to_le_bytes = LittleEndian.encode (8 * n_words) self.value := by
  have hdecode : ∀ ws : List UInt64,
      LittleEndian.decode (ws.flatMap word_to_le_bytes) = Limbs.value ws ∧
        (ws.flatMap word_to_le_bytes).length = 8 * ws.length := by
    intro ws
    induction ws with
    | nil => simp
    | cons w ws ih =>
      rw [List.flatMap_cons, LittleEndian.decode_append, length_word_to_le_bytes, ih.1,
        List.length_append, length_word_to_le_bytes, ih.2, Limbs.value_cons, word_to_le_bytes,
        LittleEndian.decode_encode_of_lt (UInt64.toNat_lt w)]
      exact ⟨by norm_num, by rw [List.length_cons]; ring⟩
  obtain ⟨hvalue, hlen⟩ := hdecode self.limbs
  rw [self.length_limbs] at hlen
  exact LittleEndian.eq_encode_of_decode_eq hlen hvalue

-- The big-endian bytes are the little-endian ones backwards.
theorem to_be_bytes_eq (self : Uint n_words) : self.to_be_bytes = self.to_le_bytes.reverse := by
  unfold to_be_bytes to_le_bytes
  induction self.limbs with
  | nil => rfl
  | cons w ws ih =>
    rw [List.reverse_cons, List.flatMap_append, ih, List.flatMap_singleton, List.flatMap_cons,
      List.reverse_append, word_to_be_bytes]

-- Reading chunks of eight bytes gives the value the bytes stand for.
theorem value_chunk_words_le (k : Nat) (bytes : List UInt8) (hlen : bytes.length = 8 * k) :
    Limbs.value (chunk_words word_from_le_bytes k bytes) = LittleEndian.decode bytes := by
  induction k generalizing bytes with
  | zero =>
    rw [List.eq_nil_of_length_eq_zero hlen]
    rfl
  | succ k ih =>
    have htake : (bytes.take 8).length = 8 := by rw [List.length_take]; omega
    have hword : (word_from_le_bytes (bytes.take 8)).toNat = LittleEndian.decode (bytes.take 8) := by
      have hlt := LittleEndian.decode_lt (bytes.take 8)
      rw [htake] at hlt
      rw [word_from_le_bytes, UInt64.toNat_ofNat', Nat.mod_eq_of_lt (by norm_num at hlt ⊢; omega)]
    conv_rhs => rw [← List.take_append_drop 8 bytes]
    rw [chunk_words, Limbs.value_cons, hword, ih _ (by rw [List.length_drop]; omega),
      LittleEndian.decode_append, htake]
    norm_num

theorem value_from_le_bytes {bytes : List UInt8} (hlen : bytes.length = 8 * n_words) :
    (from_le_bytes bytes : Uint n_words).value = LittleEndian.decode bytes :=
  value_chunk_words_le n_words bytes hlen

-- The limbs read from the top stand for the bytes read backwards.
theorem value_from_be_bytes {bytes : List UInt8} (hlen : bytes.length = 8 * n_words) :
    (from_be_bytes bytes : Uint n_words).value = LittleEndian.decode bytes.reverse := by
  show Limbs.value (chunk_words word_from_be_bytes n_words bytes).reverse = _
  induction n_words generalizing bytes with
  | zero =>
    rw [List.eq_nil_of_length_eq_zero hlen]
    rfl
  | succ k ih =>
    have htake : (bytes.take 8).length = 8 := by rw [List.length_take]; omega
    have hword : (word_from_be_bytes (bytes.take 8)).toNat =
        LittleEndian.decode (bytes.take 8).reverse := by
      have hlt := LittleEndian.decode_lt (bytes.take 8).reverse
      rw [List.length_reverse, htake] at hlt
      rw [word_from_be_bytes, word_from_le_bytes, UInt64.toNat_ofNat',
        Nat.mod_eq_of_lt (by norm_num at hlt ⊢; omega)]
    have hdrop : (bytes.drop 8).length = 8 * k := by rw [List.length_drop]; omega
    conv_rhs => rw [← List.take_append_drop 8 bytes]
    rw [chunk_words, List.reverse_cons, Limbs.value_append, ih hdrop, List.reverse_append,
      LittleEndian.decode_append, List.length_reverse, List.length_reverse, hdrop,
      length_chunk_words, Limbs.value_cons,
      Limbs.value_nil, hword]
    rw [show 64 * k = 8 * (8 * k) by ring, Nat.pow_mul]
    norm_num

theorem from_le_bytes_to_le_bytes (self : Uint n_words) : from_le_bytes self.to_le_bytes = self := by
  apply eq_of_value_eq
  rw [value_from_le_bytes (by rw [to_le_bytes_eq, LittleEndian.length_encode]), to_le_bytes_eq,
    LittleEndian.decode_encode_of_lt]
  have hlt := self.value_lt
  rw [BITS_eq, Nat.pow_mul] at hlt
  rw [Nat.pow_mul]
  norm_num at hlt ⊢
  exact hlt

theorem from_be_bytes_to_be_bytes (self : Uint n_words) : from_be_bytes self.to_be_bytes = self := by
  have hlen : self.to_be_bytes.length = 8 * n_words := by
    rw [to_be_bytes_eq, List.length_reverse, to_le_bytes_eq, LittleEndian.length_encode]
  apply eq_of_value_eq
  rw [value_from_be_bytes hlen, to_be_bytes_eq, List.reverse_reverse,
    ← value_from_le_bytes (by rw [to_le_bytes_eq, LittleEndian.length_encode]),
    from_le_bytes_to_le_bytes]

-- Zero bytes in front do not change what big-endian bytes stand for.
theorem decode_reverse_zeros_append (k : Nat) (bytes : List UInt8) :
    LittleEndian.decode (List.replicate k 0 ++ bytes).reverse =
      LittleEndian.decode bytes.reverse := by
  have hzero : LittleEndian.decode (List.replicate k (0 : UInt8)).reverse = 0 :=
    LittleEndian.decode_eq_zero_of_forall fun b hb =>
      List.eq_of_mem_replicate (List.mem_reverse.mp hb)
  rw [List.reverse_append, LittleEndian.decode_append, hzero, Nat.mul_zero, Nat.add_zero]

theorem from_be_bytes_var_to_be_bytes_var (self : Uint n_words) :
    from_be_bytes_var self.to_be_bytes_var = .ok self := by
  have hlen : self.to_be_bytes.length = 8 * n_words := by
    rw [to_be_bytes_eq, List.length_reverse, to_le_bytes_eq, LittleEndian.length_encode]
  have hvar : self.to_be_bytes_var.length ≤ 8 * n_words :=
    hlen ▸ (List.dropWhile_suffix _).length_le
  -- the bytes dropped in front are zeros
  have hsplit : self.to_be_bytes = List.takeWhile (· == 0) self.to_be_bytes ++ self.to_be_bytes_var :=
    (List.takeWhile_append_dropWhile).symm
  have hzeros : ∀ b ∈ List.takeWhile (· == 0) self.to_be_bytes, b = 0 := fun b hb =>
    beq_iff_eq.mp (List.mem_takeWhile_imp (p := (· == 0)) hb)
  rw [from_be_bytes_var, if_neg (by omega)]
  congr 1
  apply eq_of_value_eq
  rw [value_from_be_bytes (by rw [List.length_append, List.length_replicate]; omega),
    decode_reverse_zeros_append, ← from_be_bytes_to_be_bytes self, value_from_be_bytes hlen,
    from_be_bytes_to_be_bytes]
  conv_rhs => rw [hsplit]
  rw [List.reverse_append, LittleEndian.decode_append,
    LittleEndian.decode_eq_zero_of_forall fun b hb => hzeros b (List.mem_reverse.mp hb),
    Nat.mul_zero, Nat.add_zero]

end Bytes

section Compare

-- `as_u64` and `as_u128`: the low limb, and the two low limbs joined.
def as_u64 (self : Uint n_words) : Option UInt64 := self.limbs.head?

def as_u128 (self : Uint n_words) : Option (BitVec 128) :=
  match self.limbs with
  | w0 :: w1 :: _ => some (w0.toBitVec.setWidth 128 ||| w1.toBitVec.setWidth 128 <<< 64)
  | _ => none

-- `PartialOrd<u64>::partial_cmp`: greater when a limb above the first is set, else the order of
-- the first limb. The source always answers `Some`; `none` is the panic of `self.0[1..]` and
-- `self.0[0]` on a type without limbs.
def partial_cmp_u64 (self : Uint n_words) (other : UInt64) : Option Ordering :=
  match self.limbs with
  | low :: high => if high.any (· != 0) then some .gt else some (compare low other)
  | [] => none

-- `PartialOrd<u128>::partial_cmp`, the same with the two low limbs read as a `u128`.
def partial_cmp_u128 (self : Uint n_words) (other : BitVec 128) : Option Ordering :=
  match self.limbs with
  | _ :: _ :: high =>
    if high.any (· != 0) then some .gt else self.as_u128.map fun low => compare low other
  | _ => none

theorem any_ne_zero_eq_false_iff {ws : List UInt64} :
    ws.any (· != 0) = false ↔ Limbs.value ws = 0 := by
  rw [Limbs.value_eq_zero_iff, List.any_eq_false]
  simp

theorem compare_bitVec_eq {w : Nat} (x y : BitVec w) : compare x y = compare x.toNat y.toNat := by
  simp only [compare, compareOfLessAndEq, BitVec.lt_def, ← BitVec.toNat_inj]

-- The two low limbs as a `u128` stand for their value.
theorem toNat_join_u128 (w0 w1 : UInt64) :
    (w0.toBitVec.setWidth 128 ||| w1.toBitVec.setWidth 128 <<< 64).toNat =
      w0.toNat + 2 ^ 64 * w1.toNat := by
  have h0 := UInt64.toNat_lt w0
  have h1 := UInt64.toNat_lt w1
  have hw0 : w0.toNat % 2 ^ 128 = w0.toNat := Nat.mod_eq_of_lt (by omega)
  have hw1 : w1.toNat % 2 ^ 128 = w1.toNat := Nat.mod_eq_of_lt (by omega)
  have hshift : w1.toNat <<< 64 % 2 ^ 128 = w1.toNat <<< 64 :=
    Nat.mod_eq_of_lt (by rw [Nat.shiftLeft_eq]; omega)
  rw [BitVec.toNat_or, BitVec.toNat_shiftLeft, BitVec.toNat_setWidth, BitVec.toNat_setWidth,
    UInt64.toNat_toBitVec, UInt64.toNat_toBitVec, hw0, hw1, hshift, Nat.or_comm,
    ← Nat.shiftLeft_add_eq_or_of_lt h0, Nat.shiftLeft_eq]
  ring

-- A value with a limb set above the low ones is greater than any number those can hold.
theorem compare_of_high_ne_zero {low high : List UInt64} {x : Nat}
    (hhigh : high.any (· != 0) = true) (hx : x < 2 ^ (64 * low.length)) :
    compare (Limbs.value (low ++ high)) x = .gt := by
  have hpos : Limbs.value high ≠ 0 := fun h => by
    rw [← any_ne_zero_eq_false_iff, hhigh] at h
    contradiction
  have hle : 2 ^ (64 * low.length) ≤ 2 ^ (64 * low.length) * Limbs.value high :=
    Nat.le_mul_of_pos_right _ (Nat.pos_of_ne_zero hpos)
  rw [Limbs.value_append, Nat.compare_eq_gt]
  omega

theorem partial_cmp_u64_eq (hn : 0 < n_words) (self : Uint n_words) (other : UInt64) :
    self.partial_cmp_u64 other = some (compare self.value other.toNat) := by
  obtain ⟨limbs, hlen⟩ := self
  cases limbs with
  | nil =>
    rw [List.length_nil] at hlen
    omega
  | cons low high =>
    simp only [partial_cmp_u64, value]
    cases hany : high.any (· != 0) with
    | true =>
      rw [if_pos rfl, show low :: high = [low] ++ high from rfl,
        compare_of_high_ne_zero hany (UInt64.toNat_lt other)]
    | false =>
      rw [if_neg (by decide), UInt64.compare_eq_toNat_compare_toNat, Limbs.value_cons,
        any_ne_zero_eq_false_iff.mp hany, Nat.mul_zero, Nat.add_zero]

theorem partial_cmp_u128_eq (hn : 2 ≤ n_words) (self : Uint n_words) (other : BitVec 128) :
    self.partial_cmp_u128 other = some (compare self.value other.toNat) := by
  obtain ⟨limbs, hlen⟩ := self
  match limbs, hlen with
  | w0 :: w1 :: high, _ =>
    simp only [partial_cmp_u128, as_u128, value, Option.map_some]
    cases hany : high.any (· != 0) with
    | true =>
      rw [if_pos rfl, show w0 :: w1 :: high = [w0, w1] ++ high from rfl,
        compare_of_high_ne_zero hany other.isLt]
    | false =>
      rw [if_neg (by decide), compare_bitVec_eq, toNat_join_u128, Limbs.value_cons, Limbs.value_cons,
        any_ne_zero_eq_false_iff.mp hany, Nat.mul_zero, Nat.add_zero]
  | [], hlen | [_], hlen =>
    simp only [List.length_nil, List.length_singleton] at hlen
    omega

end Compare

section Hex

inductive HexError
  | InvalidChar
  | InvalidLength (len : Nat)
  deriving DecidableEq, Repr

-- `faster_hex` is an external crate, so its encoder and decoder are parameters. The code relies
-- on the encoder writing two digits for each byte, which its `expect` states, and on the decoder
-- reading back what the encoder writes.
variable (hex_encode : List UInt8 → List UInt8)
  (hex_decode : List UInt8 → Nat → Except HexError (List UInt8))

-- `LowerHex::fmt`: the digits of the big-endian bytes from the first that is not `'0'`, or the
-- last digit when all are; `hex.len() - 1` is computed before the search is read.
def lower_hex (self : Uint n_words) : Option (List UInt8) :=
  let hex := hex_encode self.to_be_bytes
  if hex.length < 1 then none
  else some (hex.drop ((hex.findIdx? (· != 48)).getD (hex.length - 1)))

-- `from_hex`: at most `BYTES * 2` digits, padded in front with `'0'` and decoded big-endian.
def from_hex (hex : List UInt8) : Except HexError (Uint n_words) :=
  if hex.length > 8 * n_words * 2 then .error (.InvalidLength hex.length)
  else do
    let out ← hex_decode (List.replicate (8 * n_words * 2 - hex.length) 48 ++ hex) (8 * n_words)
    pure (from_be_bytes out)

variable {hex_encode hex_decode}

-- What `LowerHex` leaves out in front are `'0'` digits.
theorem lower_hex_eq (hex_len : ∀ bytes, (hex_encode bytes).length = 2 * bytes.length)
    (hn : 0 < n_words) (self : Uint n_words) :
    ∃ i ≤ (hex_encode self.to_be_bytes).length,
      self.lower_hex hex_encode = some ((hex_encode self.to_be_bytes).drop i) ∧
        (hex_encode self.to_be_bytes).take i = List.replicate i 48 := by
  set hex := hex_encode self.to_be_bytes with hhex
  have hlen : hex.length = 16 * n_words := by
    rw [hhex, hex_len, to_be_bytes_eq, List.length_reverse, to_le_bytes_eq,
      LittleEndian.length_encode]
    ring
  -- the digits before a position are `'0'` when none of them differs from it
  have hzeros : ∀ i ≤ hex.length, (∀ j (hj : j < i) (hji : j < hex.length), hex[j] = 48) →
      hex.take i = List.replicate i 48 := by
    intro i hi hall
    rw [List.eq_replicate_iff, List.length_take, Nat.min_eq_left hi]
    refine ⟨rfl, fun b hb => ?_⟩
    obtain ⟨j, hj, rfl⟩ := List.mem_take_iff_getElem.mp hb
    exact hall j (lt_of_lt_of_le hj (Nat.min_le_left _ _)) _
  simp only [lower_hex]
  rw [← hhex, if_neg (by omega)]
  cases hfind : hex.findIdx? (· != 48) with
  | some i =>
    obtain ⟨hi, -, hbefore⟩ := List.findIdx?_eq_some_iff_getElem.mp hfind
    refine ⟨i, hi.le, rfl, hzeros i hi.le fun j hj _ => ?_⟩
    simpa using hbefore j hj
  | none =>
    have hall := List.findIdx?_eq_none_iff.mp hfind
    refine ⟨hex.length - 1, by omega, rfl, hzeros _ (by omega) fun j _ hj => ?_⟩
    simpa using hall _ (List.getElem_mem hj)

-- `from_hex` reads back what `LowerHex` writes: the padding puts back the `'0'` digits left out.
theorem from_hex_lower_hex (hex_len : ∀ bytes, (hex_encode bytes).length = 2 * bytes.length)
    (hex_round_trip : ∀ bytes, hex_decode (hex_encode bytes) bytes.length = .ok bytes)
    (hn : 0 < n_words) (self : Uint n_words) :
    ∃ s, self.lower_hex hex_encode = some s ∧ from_hex hex_decode s = .ok self := by
  obtain ⟨i, hi, hlower, htake⟩ := lower_hex_eq hex_len hn self
  refine ⟨_, hlower, ?_⟩
  have hbytes : self.to_be_bytes.length = 8 * n_words := by
    rw [to_be_bytes_eq, List.length_reverse, to_le_bytes_eq, LittleEndian.length_encode]
  have hlen : (hex_encode self.to_be_bytes).length = 8 * n_words * 2 := by
    rw [hex_len, hbytes]
    ring
  have hpad : List.replicate (8 * n_words * 2 - ((hex_encode self.to_be_bytes).drop i).length) 48 ++
      (hex_encode self.to_be_bytes).drop i = hex_encode self.to_be_bytes := by
    rw [List.length_drop, hlen, show 8 * n_words * 2 - (8 * n_words * 2 - i) = i by omega, ← htake,
      List.take_append_drop]
  rw [from_hex, if_neg (by rw [List.length_drop]; omega), hpad, ← hbytes, hex_round_trip]
  show Except.ok (from_be_bytes self.to_be_bytes) = _
  rw [from_be_bytes_to_be_bytes]

end Hex

section Display

-- The two digits of `k`, as `DEC_DIGITS_LUT` holds them at `2 * k`.
def lut_pair (k : Nat) : List UInt8 := [48 + (k / 10).toUInt8, 48 + (k % 10).toUInt8]

-- `DEC_DIGITS_LUT`, the 200 bytes `b"000102…9899"`.
def DEC_DIGITS_LUT : List UInt8 := (List.range 100).flatMap lut_pair

-- `buf[curr] = DEC_DIGITS_LUT[d]; buf[curr + 1] = DEC_DIGITS_LUT[d + 1]`. The buffer is modelled by
-- what is written of it, `buf[curr..]`, which is all the output reads.
def push_pair (d : Nat) (buf : List UInt8) : Option (List UInt8) := do
  let hi ← DEC_DIGITS_LUT[d]?
  let lo ← DEC_DIGITS_LUT[d + 1]?
  pure (hi :: lo :: buf)

def STEP : UInt64 := 10000

-- `while n >= STEP`: four digits per division by `STEP`; `curr -= 4` below zero is a panic.
def display_loop (n : Uint n_words) (curr : Nat) (buf : List UInt8) :
    Option (Uint n_words × Nat × List UInt8) := do
  let ord ← n.partial_cmp_u64 STEP
  if ord = .lt then some (n, curr, buf)
  else
    let (n, rem) ← n.div_rem_u64 STEP
    let d1 := (rem.toNat / 100) <<< 1
    let d2 := (rem.toNat % 100) <<< 1
    if curr < 4 then none
    else
      -- the pairs land at `curr + 2` and `curr`
      let buf ← push_pair d2 buf
      let buf ← push_pair d1 buf
      display_loop n (curr - 4) buf
termination_by curr

-- `decode last 1 or 2 chars`
def display_last (n curr : Nat) (buf : List UInt8) : Option (List UInt8) :=
  if n < 10 then
    if curr < 1 then none else some ((n.toUInt8 + 48) :: buf)
  else if curr < 2 then none else push_pair (n <<< 1) buf

-- `decode 2 more chars, if > 2 chars`, then the last ones.
def display_tail (n curr : Nat) (buf : List UInt8) : Option (List UInt8) :=
  if n ≥ 100 then
    if curr < 2 then none
    else (push_pair ((n % 100) <<< 1) buf).bind (display_last (n / 100) (curr - 2))
  else display_last n curr buf

-- `Display::fmt`: the digits written from the end of a buffer of `LIMBS * 20` bytes, the last
-- four or fewer from `n.as_u64() as usize`.
def display (self : Uint n_words) : Option (List UInt8) := do
  let (n, curr, buf) ← display_loop self (n_words * 20) []
  let n ← n.as_u64
  display_tail n.toNat curr buf

-- The ASCII bytes of the decimal numeral of `m`.
def decimal_bytes (m : Nat) : List UInt8 := (Nat.toDigits 10 m).map fun c => c.toNat.toUInt8

theorem digitChar_toUInt8 {d : Nat} (hd : d < 10) :
    (Nat.digitChar d).toNat.toUInt8 = 48 + d.toUInt8 := by
  have hdigits : ∀ k : Fin 10, (Nat.digitChar k.val).toNat.toUInt8 = 48 + k.val.toUInt8 := by
    decide
  exact hdigits ⟨d, hd⟩

theorem decimal_bytes_of_lt {m : Nat} (hm : m < 10) : decimal_bytes m = [48 + m.toUInt8] := by
  rw [decimal_bytes, Nat.toDigits_of_lt_base hm, List.map_singleton, digitChar_toUInt8 hm]

theorem decimal_bytes_of_le {m : Nat} (hm : 10 ≤ m) :
    decimal_bytes m = decimal_bytes (m / 10) ++ [48 + (m % 10).toUInt8] := by
  rw [decimal_bytes, Nat.toDigits_of_base_le (by norm_num) hm, List.map_append, List.map_singleton,
    digitChar_toUInt8 (Nat.mod_lt _ (by norm_num))]
  rfl

theorem decimal_bytes_of_lt_hundred {m : Nat} (h10 : 10 ≤ m) (h100 : m < 100) :
    decimal_bytes m = lut_pair m := by
  rw [decimal_bytes_of_le h10, decimal_bytes_of_lt (by omega)]
  rfl

-- The numeral of a number from 100 on ends in the pair of its last two digits.
theorem decimal_bytes_of_hundred_le {m : Nat} (hm : 100 ≤ m) :
    decimal_bytes m = decimal_bytes (m / 100) ++ lut_pair (m % 100) := by
  have hdiv : m / 10 / 10 = m / 100 := by omega
  have htens : m / 10 % 10 = m % 100 / 10 := by omega
  have hunits : m % 10 = m % 100 % 10 := by omega
  rw [decimal_bytes_of_le (by omega), decimal_bytes_of_le (show 10 ≤ m / 10 by omega), hdiv,
    htens, hunits, List.append_assoc]
  rfl

theorem length_decimal_bytes_pos (m : Nat) : 0 < (decimal_bytes m).length := by
  rw [decimal_bytes, List.length_map]
  exact List.length_pos_of_ne_nil Nat.toDigits_ne_nil

theorem length_decimal_bytes_le {k : Nat} : ∀ {m : Nat}, m < 10 ^ (k + 1) →
    (decimal_bytes m).length ≤ k + 1 := by
  induction k with
  | zero =>
    intro m hm
    rw [decimal_bytes_of_lt (by simpa using hm), List.length_singleton]
  | succ k ih =>
    intro m hm
    by_cases h10 : m < 10
    · rw [decimal_bytes_of_lt h10, List.length_singleton]
      omega
    · have hdiv : m / 10 < 10 ^ (k + 1) := by
        rw [Nat.div_lt_iff_lt_mul (by norm_num), ← Nat.pow_succ]
        exact hm
      rw [decimal_bytes_of_le (by omega), List.length_append, List.length_singleton]
      exact Nat.succ_le_succ (ih hdiv)

-- A value of `n_words` limbs has at most `20 * n_words` digits: `2 ^ 64 < 10 ^ 20`.
theorem length_decimal_bytes_value (hn : 0 < n_words) (self : Uint n_words) :
    (decimal_bytes self.value).length ≤ n_words * 20 := by
  have hpow : 2 ^ (64 * n_words) ≤ 10 ^ (20 * n_words) := by
    rw [Nat.pow_mul, Nat.pow_mul]
    exact Nat.pow_le_pow_left (by norm_num) _
  have hlt : self.value < 10 ^ (n_words * 20 - 1 + 1) := by
    rw [Nat.sub_add_cancel (by omega), Nat.mul_comm]
    exact lt_of_lt_of_le (@two_pow_BITS n_words ▸ self.value_lt) hpow
  have := length_decimal_bytes_le hlt
  omega

-- `DEC_DIGITS_LUT` holds the pair of `k` at `2 * k`.
theorem getElem?_flatMap_range_lut_pair : ∀ {m k j : Nat}, k < m → j < 2 →
    ((List.range m).flatMap lut_pair)[2 * k + j]? = (lut_pair k)[j]? ∧
      ((List.range m).flatMap lut_pair).length = 2 * m
  | 0, _, _, hk, _ => absurd hk (Nat.not_lt_zero _)
  | m + 1, k, j, hk, hj => by
    have hlen : ((List.range m).flatMap lut_pair).length = 2 * m := by
      cases m with
      | zero => rfl
      | succ m => exact (getElem?_flatMap_range_lut_pair (Nat.lt_succ_self m) hj).2
    rw [List.range_succ, List.flatMap_append, List.flatMap_singleton, List.length_append, hlen]
    refine ⟨?_, rfl⟩
    rcases Nat.lt_succ_iff_lt_or_eq.mp hk with hk | rfl
    · rw [List.getElem?_append_left (by rw [hlen]; omega)]
      exact (getElem?_flatMap_range_lut_pair hk hj).1
    · rw [List.getElem?_append_right (by omega), hlen, Nat.add_sub_cancel_left]

theorem push_pair_eq {k : Nat} (hk : k < 100) (buf : List UInt8) :
    push_pair (k <<< 1) buf = some (lut_pair k ++ buf) := by
  have hhi := (getElem?_flatMap_range_lut_pair hk (show 0 < 2 by norm_num)).1
  have hlo := (getElem?_flatMap_range_lut_pair hk (show 1 < 2 by norm_num)).1
  rw [Nat.add_zero] at hhi
  rw [Nat.shiftLeft_eq, pow_one, Nat.mul_comm]
  simp only [push_pair, DEC_DIGITS_LUT, hhi, hlo]
  rfl

theorem display_last_spec {m curr : Nat} (hm : m < 100) (hcurr : (decimal_bytes m).length ≤ curr)
    (buf : List UInt8) : display_last m curr buf = some (decimal_bytes m ++ buf) := by
  by_cases h10 : m < 10
  · rw [decimal_bytes_of_lt h10, List.length_singleton] at *
    rw [display_last, if_pos h10, if_neg (by omega), UInt8.add_comm]
    rfl
  · rw [decimal_bytes_of_lt_hundred (by omega) hm] at *
    rw [display_last, if_neg h10, if_neg (by simp only [lut_pair, List.length_cons] at hcurr; omega),
      push_pair_eq hm]

theorem display_tail_spec {m curr : Nat} (hm : m < 10000) (hcurr : (decimal_bytes m).length ≤ curr)
    (buf : List UInt8) : display_tail m curr buf = some (decimal_bytes m ++ buf) := by
  by_cases h100 : 100 ≤ m
  · have hsplit := decimal_bytes_of_hundred_le h100
    have hpos := length_decimal_bytes_pos (m / 100)
    have hlen : (decimal_bytes (m / 100)).length + 2 ≤ curr := by
      rw [hsplit, List.length_append] at hcurr
      simpa [lut_pair] using hcurr
    rw [display_tail, if_pos h100, if_neg (by omega), push_pair_eq (Nat.mod_lt _ (by norm_num)),
      Option.bind_some, display_last_spec (by omega) (by omega), hsplit, List.append_assoc]
  · rw [display_tail, if_neg h100, display_last_spec (by omega) hcurr]

-- Each round of the loop writes the last four digits of what is left, `curr` keeps room for
-- the digits still to come, and the loop stops below `STEP`.
theorem display_loop_spec (hn : 0 < n_words) : ∀ (curr : Nat) (n : Uint n_words)
    (buf : List UInt8), (decimal_bytes n.value).length ≤ curr →
      ∃ n' curr' buf', display_loop n curr buf = some (n', curr', buf') ∧ n'.value < 10000 ∧
        (decimal_bytes n'.value).length ≤ curr' ∧
          decimal_bytes n.value ++ buf = decimal_bytes n'.value ++ buf' := by
  intro curr
  induction curr using Nat.strong_induction_on with
  | _ curr ih =>
    intro n buf hcurr
    have hcmp := partial_cmp_u64_eq hn n STEP
    rw [show STEP.toNat = 10000 from rfl] at hcmp
    by_cases hlt : n.value < 10000
    · refine ⟨n, curr, buf, ?_, hlt, hcurr, rfl⟩
      rw [display_loop, hcmp, Nat.compare_eq_lt.mpr hlt]
      rfl
    -- one division by `STEP` leaves the quotient's digits and four more
    obtain ⟨q, r, hdiv, hvalue, hr⟩ := div_rem_u64_spec n (show STEP ≠ 0 by decide)
    rw [show STEP.toNat = 10000 from rfl] at hvalue hr
    have hsplit : decimal_bytes n.value =
        decimal_bytes q.value ++ (lut_pair (r.toNat / 100) ++ lut_pair (r.toNat % 100)) := by
      have hq : n.value / 100 / 100 = q.value := by omega
      have hhigh : n.value / 100 % 100 = r.toNat / 100 := by omega
      have hlow : n.value % 100 = r.toNat % 100 := by omega
      rw [decimal_bytes_of_hundred_le (by omega), decimal_bytes_of_hundred_le (by omega), hq,
        hhigh, hlow, List.append_assoc]
    have hlen : (decimal_bytes q.value).length + 4 ≤ curr := by
      rw [hsplit, List.length_append] at hcurr
      simpa [lut_pair] using hcurr
    have hpos := length_decimal_bytes_pos q.value
    have hstep : display_loop n curr buf = display_loop q (curr - 4)
        (lut_pair (r.toNat / 100) ++ lut_pair (r.toNat % 100) ++ buf) := by
      have hne : compare n.value 10000 ≠ .lt := fun h => hlt (Nat.compare_eq_lt.mp h)
      rw [display_loop, hcmp]
      simp only [Option.bind_eq_bind, Option.bind_some, if_neg hne, hdiv, if_neg (show ¬curr < 4 by omega),
        push_pair_eq (Nat.mod_lt _ (show 0 < 100 by norm_num)),
        push_pair_eq (show r.toNat / 100 < 100 by omega), List.append_assoc]
    obtain ⟨n', curr', buf', hloop, hlt', hlen', heq⟩ :=
      ih (curr - 4) (by omega) q _ (by omega)
    refine ⟨n', curr', buf', hstep.trans hloop, hlt', hlen', ?_⟩
    rw [hsplit, List.append_assoc, ← heq, List.append_assoc]

-- Below `2 ^ 64` a value is its low limb.
theorem as_u64_eq (hn : 0 < n_words) (self : Uint n_words) (hlt : self.value < 2 ^ 64) :
    ∃ low, self.as_u64 = some low ∧ low.toNat = self.value := by
  obtain ⟨limbs, hlen⟩ := self
  cases limbs with
  | nil =>
    rw [List.length_nil] at hlen
    omega
  | cons low high =>
    refine ⟨low, rfl, ?_⟩
    have hhigh : Limbs.value high = 0 := by
      simp only [value, Limbs.value_cons] at hlt
      by_contra hne
      have : 2 ^ 64 ≤ 2 ^ 64 * Limbs.value high := Nat.le_mul_of_pos_right _ (Nat.pos_of_ne_zero hne)
      omega
    simp only [value, Limbs.value_cons, hhigh, Nat.mul_zero, Nat.add_zero]

-- `Display` writes the decimal numeral of the value.
theorem display_eq (hn : 0 < n_words) (self : Uint n_words) :
    self.display = some (decimal_bytes self.value) := by
  obtain ⟨n', curr', buf', hloop, hlt, hlen, heq⟩ :=
    display_loop_spec hn _ self [] (length_decimal_bytes_value hn self)
  obtain ⟨low, hlow, hvalue⟩ := as_u64_eq hn n' (by omega)
  rw [List.append_nil] at heq
  rw [display, hloop]
  simp only [Option.bind_eq_bind, Option.bind_some, hlow]
  rw [hvalue, display_tail_spec hlt hlen, heq]

end Display

-- Every form reads back to the value it was written from, `Display` writes the decimal numeral
-- and every comparison is that of the values. A `construct_uint!` type has two limbs at least:
-- `from_u128` writes `ret.0[1]`, a constant index the compiler rejects on fewer.
theorem uint_codecs_round_trip (hn : 2 ≤ n_words) (hex_encode : List UInt8 → List UInt8)
    (hex_decode : List UInt8 → Nat → Except HexError (List UInt8))
    (hex_len : ∀ bytes, (hex_encode bytes).length = 2 * bytes.length)
    (hex_round_trip : ∀ bytes, hex_decode (hex_encode bytes) bytes.length = .ok bytes) :
    (∀ a : Uint n_words, from_le_bytes a.to_le_bytes = a) ∧
    (∀ a : Uint n_words, from_be_bytes a.to_be_bytes = a) ∧
    (∀ a : Uint n_words, from_be_bytes_var a.to_be_bytes_var = .ok a) ∧
    (∀ a : Uint n_words, ∃ s, a.lower_hex hex_encode = some s ∧ from_hex hex_decode s = .ok a) ∧
    (∀ a : Uint n_words,
      a.display = some ((Nat.repr a.value).toList.map fun c => c.toNat.toUInt8)) ∧
    (∀ a b : Uint n_words, a.cmp b = compare a.value b.value) ∧
    (∀ (a : Uint n_words) (w : UInt64), a.partial_cmp_u64 w = some (compare a.value w.toNat)) ∧
    (∀ (a : Uint n_words) (x : BitVec 128),
      a.partial_cmp_u128 x = some (compare a.value x.toNat)) := by
  have hpos : 0 < n_words := by omega
  refine ⟨from_le_bytes_to_le_bytes, from_be_bytes_to_be_bytes, from_be_bytes_var_to_be_bytes_var,
    from_hex_lower_hex hex_len hex_round_trip hpos, fun a => ?_, cmp_eq_compare, partial_cmp_u64_eq hpos,
    partial_cmp_u128_eq hn⟩
  rw [Nat.repr_eq_ofList_toDigits, String.toList_ofList]
  exact display_eq hpos a

-- A codec that meets the contract, with `faster_hex`'s digit table `b"0123456789abcdef"`: two
-- lower-case digits for each byte, the high half first, and either case read back.
def table_hex_digit (d : UInt8) : UInt8 := if d < 10 then 48 + d else 87 + d

def table_hex_encode (src : List UInt8) : List UInt8 :=
  src.flatMap fun (b : UInt8) => [table_hex_digit (b >>> 4), table_hex_digit (b &&& 0x0f)]

def table_hex_val (c : UInt8) : Option UInt8 :=
  if 48 ≤ c ∧ c ≤ 57 then some (c - 48)
  else if 97 ≤ c ∧ c ≤ 102 then some (c - 87)
  else if 65 ≤ c ∧ c ≤ 70 then some (c - 55)
  else none

def table_decode_pairs : List UInt8 → Option (List UInt8)
  | hi :: lo :: rest => do
    let hi ← table_hex_val hi
    let lo ← table_hex_val lo
    let rest ← table_decode_pairs rest
    pure ((hi <<< 4 ||| lo) :: rest)
  | _ => some []

def table_hex_decode (src : List UInt8) (dst_len : Nat) : Except HexError (List UInt8) :=
  if src.length ≠ 2 * dst_len then .error (.InvalidLength (2 * dst_len))
  else match table_decode_pairs src with
    | some dst => .ok dst
    | none => .error .InvalidChar

theorem table_hex_val_digit {d : UInt8} (hd : d.toNat < 16) :
    table_hex_val (table_hex_digit d) = some d := by
  have hdigits : ∀ k : Fin 16,
      table_hex_val (table_hex_digit k.val.toUInt8) = some k.val.toUInt8 := by
    decide
  simpa using hdigits ⟨d.toNat, hd⟩

-- A byte is its high half shifted back over its low half.
theorem shiftLeft_or_and (b : UInt8) : (b >>> 4) <<< 4 ||| (b &&& 0x0f) = b := by
  apply UInt8.toNat_inj.mp
  have hb := b.toNat_lt
  have hhigh : ((b >>> 4) <<< 4).toNat = (b.toNat / 16) <<< 4 := by
    rw [UInt8.toNat_shiftLeft, LittleEndian.toNat_shiftRight_4,
      show (4 : UInt8).toNat % 8 = 4 from rfl, Nat.mod_eq_of_lt (by rw [Nat.shiftLeft_eq]; omega)]
  have hlow : b.toNat % 16 < 2 ^ 4 := Nat.mod_lt _ (by norm_num)
  rw [UInt8.toNat_or, LittleEndian.toNat_and_0x0f, hhigh, ← Nat.shiftLeft_add_eq_or_of_lt hlow,
    Nat.shiftLeft_eq]
  omega

theorem table_decode_pairs_encode (bytes : List UInt8) :
    table_decode_pairs (table_hex_encode bytes) = some bytes := by
  induction bytes with
  | nil => rfl
  | cons b bytes ih =>
    have hb := b.toNat_lt
    have hhigh : (b >>> 4).toNat < 16 := by
      rw [LittleEndian.toNat_shiftRight_4]
      omega
    have hlow : (b &&& 0x0f).toNat < 16 := by
      rw [LittleEndian.toNat_and_0x0f]
      omega
    show table_decode_pairs (table_hex_digit (b >>> 4) :: table_hex_digit (b &&& 0x0f) ::
      table_hex_encode bytes) = _
    simp only [table_decode_pairs, table_hex_val_digit hhigh, table_hex_val_digit hlow, ih,
      Option.bind_eq_bind, Option.bind_some, shiftLeft_or_and]
    rfl

theorem length_table_hex_encode (bytes : List UInt8) :
    (table_hex_encode bytes).length = 2 * bytes.length := by
  induction bytes with
  | nil => rfl
  | cons b bytes ih =>
    show (table_hex_digit (b >>> 4) :: table_hex_digit (b &&& 0x0f) ::
      table_hex_encode bytes).length = _
    rw [List.length_cons, List.length_cons, ih, List.length_cons]
    ring

theorem table_hex_decode_encode (bytes : List UInt8) :
    table_hex_decode (table_hex_encode bytes) bytes.length = .ok bytes := by
  rw [table_hex_decode, if_neg (by rw [length_table_hex_encode]; exact not_not.mpr rfl),
    table_decode_pairs_encode]

-- The tests' `Uint128`, at `2 ^ 64 + 10000`, with the table codec.
theorem uint_codecs_round_trip_u128 : 2 ≤ 2 ∧
    (∀ bytes, (table_hex_encode bytes).length = 2 * bytes.length) ∧
    (∀ bytes, table_hex_decode (table_hex_encode bytes) bytes.length = .ok bytes) ∧
    (∃ s, (⟨[10000, 1], rfl⟩ : Uint 2).lower_hex table_hex_encode = some s ∧
      from_hex table_hex_decode s = .ok ⟨[10000, 1], rfl⟩) ∧
    (⟨[10000, 1], rfl⟩ : Uint 2).display =
      some ((Nat.repr (2 ^ 64 + 10000)).toList.map fun c => c.toNat.toUInt8) :=
  ⟨le_rfl, length_table_hex_encode, table_hex_decode_encode,
    (uint_codecs_round_trip le_rfl _ _ length_table_hex_encode table_hex_decode_encode).2.2.2.1 _,
    (uint_codecs_round_trip le_rfl _ _ length_table_hex_encode table_hex_decode_encode).2.2.2.2.1 _⟩

end Uint

end Waglayla.Math
