import Waglayla.Bits.Regroup
import Waglayla.Maps.AListFold

-- BIP39 mnemonic phrases. The word list is any 2048 distinct words without a space, SHA-256 is
-- a parameter, and strings are lists of characters.

namespace Waglayla.Wallet.Bip32

open Regroup (bitsOf)

-- `Bits11`: a word index.
structure Bits11 where
  value : UInt16
  deriving DecidableEq, Repr

namespace Bits11

def SIZE : Nat := 11

def bits (self : Bits11) : UInt32 := self.value.toUInt32

end Bits11

-- The bits of bytes, each most significant first.
def bytes_bits (bytes : List UInt8) : List Bool := bytes.flatMap fun b => bitsOf 8 b.toNat

@[simp] theorem bytes_bits_append (xs ys : List UInt8) :
    bytes_bits (xs ++ ys) = bytes_bits xs ++ bytes_bits ys := List.flatMap_append

@[simp] theorem bytes_bits_cons (b : UInt8) (bs : List UInt8) :
    bytes_bits (b :: bs) = bitsOf 8 b.toNat ++ bytes_bits bs := rfl

@[simp] theorem bytes_bits_nil : bytes_bits [] = [] := rfl

@[simp] theorem length_bytes_bits (bytes : List UInt8) : (bytes_bits bytes).length = 8 * bytes.length := by
  induction bytes with
  | nil => rfl
  | cons b bs ih => simp [ih, Nat.mul_add, Nat.add_comm]

theorem bytes_bits_inj {xs ys : List UInt8} (h : bytes_bits xs = bytes_bits ys) : xs = ys := by
  have hlen : xs.length = ys.length := by
    have := congrArg List.length h
    simp only [length_bytes_bits] at this
    omega
  have hmap : xs.map UInt8.toNat = ys.map UInt8.toNat := by
    refine Regroup.flatMap_bitsOf_inj (w := 8) ?_ ?_ (by simp [hlen]) ?_
    · simpa using fun b _ => b.toNat_lt
    · simpa using fun b _ => b.toNat_lt
    · rw [List.flatMap_map, List.flatMap_map]
      exact h
  exact List.map_injective_iff.mpr (fun _ _ hb => UInt8.toNat_inj.mp hb) hmap

-- The bits of word indices, 11 each.
def words_bits (words : List Bits11) : List Bool := words.flatMap fun w => bitsOf 11 w.value.toNat

@[simp] theorem words_bits_nil : words_bits [] = [] := rfl

@[simp] theorem words_bits_cons (w : Bits11) (ws : List Bits11) :
    words_bits (w :: ws) = bitsOf 11 w.value.toNat ++ words_bits ws := rfl

@[simp] theorem length_words_bits (words : List Bits11) :
    (words_bits words).length = 11 * words.length := by
  induction words with
  | nil => rfl
  | cons w ws ih => simp [ih, Nat.mul_add, Nat.add_comm]

-- Words below `2 ^ 11` are fixed by their bits.
theorem words_bits_inj {xs ys : List Bits11} (hx : ∀ w ∈ xs, w.value.toNat < 2 ^ 11)
    (hy : ∀ w ∈ ys, w.value.toNat < 2 ^ 11) (hlen : xs.length = ys.length)
    (h : words_bits xs = words_bits ys) : xs = ys := by
  have hmap : xs.map (·.value.toNat) = ys.map (·.value.toNat) := by
    refine Regroup.flatMap_bitsOf_inj (w := 11) ?_ ?_ (by simp [hlen]) ?_
    · simpa using hx
    · simpa using hy
    · rw [List.flatMap_map, List.flatMap_map]
      exact h
  refine List.map_injective_iff.mpr (fun a b hab => ?_) hmap
  cases a; cases b
  simpa using UInt16.toNat_inj.mp hab

-- `BitWriter`: the pending bits are the top `offset` bits of `remainder`.
structure BitWriter where
  offset : Nat
  remainder : UInt32
  inner : List UInt8

namespace BitWriter

-- The capacity only reserves space.
def with_capacity (_capacity : Nat) : BitWriter := ⟨0, 0, []⟩

-- `while self.offset >= 8`: the top byte of the remainder goes out.
def flush (self : BitWriter) : BitWriter :=
  if self.offset ≥ 8 then
    flush ⟨self.offset - 8, self.remainder <<< 8, self.inner ++ [(self.remainder >>> 24).toUInt8]⟩
  else self
termination_by self.offset

def push (self : BitWriter) (source : Bits11) : BitWriter :=
  let shift := 32 - Bits11.SIZE
  flush { self with
    remainder := self.remainder ||| (source.bits <<< shift.toUInt32) >>> self.offset.toUInt32,
    offset := self.offset + Bits11.SIZE }

def into_bytes (self : BitWriter) : List UInt8 :=
  if self.offset ≠ 0 then self.inner ++ [(self.remainder >>> 24).toUInt8] else self.inner

-- The writer holds `bits`: its bytes, then its `offset` pending bits `P` at the top of the
-- remainder.
structure Holds (self : BitWriter) (bits : List Bool) : Prop where
  offset_le : self.offset ≤ 32
  pending : ∃ P < 2 ^ self.offset, self.remainder.toNat = P * 2 ^ (32 - self.offset) ∧
    bytes_bits self.inner ++ bitsOf self.offset P = bits

theorem with_capacity_holds (capacity : Nat) : (with_capacity capacity).Holds [] :=
  ⟨Nat.zero_le _, 0, Nat.two_pow_pos _, by simp [with_capacity], rfl⟩

-- The top byte of the remainder leaves the register, its next bits move up.
theorem toNat_remainder_flush {R : UInt32} {o P : Nat} (h8 : 8 ≤ o) (ho : o ≤ 32)
    (hR : R.toNat = P * 2 ^ (32 - o)) :
    (R >>> 24).toUInt8.toNat = P / 2 ^ (o - 8) % 2 ^ 8 ∧
      (R <<< 8).toNat = P % 2 ^ (o - 8) * 2 ^ (32 - (o - 8)) := by
  constructor
  · rw [UInt32.toNat_toUInt8, UInt32.toNat_shiftRight, hR, Nat.shiftRight_eq_div_pow]
    rw [← Regroup.take_top_div h8 ho]
    rfl
  · rw [UInt32.toNat_shiftLeft, hR, Nat.shiftLeft_eq, ← Regroup.take_top_mod h8 ho]
    rfl

theorem flush_holds {self : BitWriter} {bits : List Bool} (h : self.Holds bits) :
    (flush self).Holds bits ∧ (flush self).offset = self.offset % 8 := by
  fun_induction flush self with
  | case1 self h8 ih =>
    obtain ⟨ho, P, hP, hR, hbits⟩ := h
    obtain ⟨hbyte, hrem⟩ := toNat_remainder_flush h8 ho hR
    refine (ih ⟨by dsimp only; omega, P % 2 ^ (self.offset - 8), Nat.mod_lt _ (Nat.two_pow_pos _), hrem, ?_⟩).imp_right ?_
    · rw [bytes_bits_append, bytes_bits_cons, bytes_bits_nil, List.append_nil, hbyte,
        Regroup.bitsOf_mod, List.append_assoc, ← Regroup.bitsOf_div_mod h8, hbits]
    · intro hoff
      rw [hoff]
      dsimp only
      omega
  | case2 self h8 =>
    exact ⟨h, (Nat.mod_eq_of_lt (by omega)).symm⟩

-- A shift amount below the width reads back as itself.
theorem toNat_toUInt32_mod {n : Nat} (hn : n < 32) : n.toUInt32.toNat % 32 = n := by
  rw [Nat.toUInt32_eq, UInt32.toNat_ofNat', Nat.mod_eq_of_lt (show n < 2 ^ 32 by omega),
    Nat.mod_eq_of_lt hn]

-- The word's 11 bits, put at the top of the register and then under the `o` pending bits.
theorem toNat_word_under (w : Bits11) {o : Nat} (ho : o < 8) :
    ((w.bits <<< (32 - Bits11.SIZE).toUInt32) >>> o.toUInt32).toNat =
      w.value.toNat % 2 ^ 11 * 2 ^ (32 - (o + 11)) := by
  have hsplit : 2 ^ 21 = 2 ^ (32 - (o + 11)) * 2 ^ o := by
    rw [← Nat.pow_add]; congr 1; omega
  rw [UInt32.toNat_shiftRight, UInt32.toNat_shiftLeft, show Bits11.SIZE = 11 from rfl,
    toNat_toUInt32_mod (show 32 - 11 < 32 by omega), toNat_toUInt32_mod (show o < 32 by omega),
    Bits11.bits, UInt16.toNat_toUInt32, Nat.shiftLeft_eq, Nat.shiftRight_eq_div_pow,
    show (2 : Nat) ^ 32 = 2 ^ 11 * 2 ^ 21 from rfl, Nat.mul_mod_mul_right, hsplit,
    ← Nat.mul_assoc, Nat.mul_div_cancel _ (Nat.two_pow_pos _)]

theorem push_holds {self : BitWriter} {bits : List Bool} (h : self.Holds bits)
    (ho : self.offset < 8) (w : Bits11) :
    (self.push w).Holds (bits ++ bitsOf 11 w.value.toNat) ∧
      (self.push w).offset = (self.offset + 11) % 8 := by
  obtain ⟨-, P, hP, hR, hbits⟩ := h
  have hc : w.value.toNat % 2 ^ 11 < 2 ^ 11 := Nat.mod_lt _ (Nat.two_pow_pos _)
  -- before the flush the word sits under the pending bits
  have hput : ({ self with
      remainder := self.remainder ||| (w.bits <<< (32 - Bits11.SIZE).toUInt32) >>>
        self.offset.toUInt32,
      offset := self.offset + Bits11.SIZE } : BitWriter).Holds
        (bits ++ bitsOf 11 w.value.toNat) := by
    have hsize : Bits11.SIZE = 11 := rfl
    refine ⟨by dsimp only; omega, P * 2 ^ 11 + w.value.toNat % 2 ^ 11, ?_, ?_, ?_⟩
    · dsimp only
      rw [hsize, Nat.pow_add]
      calc P * 2 ^ 11 + w.value.toNat % 2 ^ 11 < P * 2 ^ 11 + 2 ^ 11 := by omega
        _ = (P + 1) * 2 ^ 11 := by rw [Nat.succ_mul]
        _ ≤ 2 ^ self.offset * 2 ^ 11 := Nat.mul_le_mul_right _ hP
    · dsimp only
      rw [UInt32.toNat_or, hR, toNat_word_under w ho, hsize, Regroup.put_under_or (by omega) hc]
    · dsimp only
      rw [hsize, Regroup.bitsOf_mul_add hc, Regroup.bitsOf_mod, ← List.append_assoc, hbits]
  exact flush_holds hput

theorem into_bytes_bits {self : BitWriter} {bits : List Bool} (h : self.Holds bits)
    (ho : self.offset < 8) :
    bytes_bits self.into_bytes = bits ++ List.replicate ((8 - self.offset) % 8) false := by
  obtain ⟨-, P, hP, hR, hbits⟩ := h
  unfold into_bytes
  split_ifs with hzero
  · -- the last byte holds the pending bits and zeros below them
    have hbyte : (self.remainder >>> 24).toUInt8.toNat = (P <<< (8 - self.offset)) % 2 ^ 8 := by
      rw [UInt32.toNat_toUInt8, UInt32.toNat_shiftRight, hR, Nat.shiftRight_eq_div_pow,
        ← Regroup.take_top_pad (show self.offset ≤ 8 by omega) (show 8 ≤ 32 by omega)]
      rfl
    rw [bytes_bits_append, bytes_bits_cons, bytes_bits_nil, List.append_nil, hbyte,
      Regroup.bitsOf_mod, Regroup.bitsOf_shiftLeft_pad _ (by omega), ← List.append_assoc, hbits,
      Nat.mod_eq_of_lt (show 8 - self.offset < 8 by omega)]
  · have h0 : self.offset = 0 := by omega
    rw [h0] at hbits
    simp [h0, ← hbits, bitsOf]

end BitWriter

-- `BitIter` over bytes, giving `Bits11`: the pending bits are the top `read` bits of `buffer`.
structure BitIter where
  source : List UInt8
  read : Nat
  buffer : UInt64

namespace BitIter

def new (source : List UInt8) : BitIter := ⟨source, 0, 0⟩

-- `while self.read < Out::SIZE`: bytes go under the pending bits; the source running out ends
-- the iteration.
def fill : List UInt8 → Nat → UInt64 → Option BitIter
  | source, read, buffer =>
    if read < Bits11.SIZE then
      match source with
      | [] => none
      | byte :: source =>
        let read := read + 8
        fill source read (buffer ||| byte.toUInt64 <<< (64 - read).toUInt64)
    else some ⟨source, read, buffer⟩

def next (self : BitIter) : Option (Bits11 × BitIter) := do
  let ⟨source, read, buffer⟩ ← fill self.source self.read self.buffer
  let result := (buffer >>> (64 - Bits11.SIZE).toUInt64).toUInt16
  some (⟨result⟩, ⟨source, read - Bits11.SIZE, buffer <<< Bits11.SIZE.toUInt64⟩)

-- The iteration to its end. Each word takes at least one byte from the source, so one round
-- more than there are bytes is enough.
def collect : Nat → BitIter → List Bits11
  | 0, _ => []
  | fuel + 1, self =>
    match self.next with
    | some (word, self) => word :: collect fuel self
    | none => []

-- The iterator holds `bits`: its `read` pending bits `P` at the top of the buffer, then the
-- bytes it has not pulled in.
structure Holds (self : BitIter) (bits : List Bool) : Prop where
  read_le : self.read ≤ 18
  pending : ∃ P < 2 ^ self.read, self.buffer.toNat = P * 2 ^ (64 - self.read) ∧
    bitsOf self.read P ++ bytes_bits self.source = bits

theorem new_holds (source : List UInt8) : (new source).Holds (bytes_bits source) :=
  ⟨Nat.zero_le _, 0, Nat.two_pow_pos _, by simp [new], rfl⟩

theorem toNat_toUInt64_mod {n : Nat} (hn : n < 64) : n.toUInt64.toNat % 64 = n := by
  rw [Nat.toUInt64_eq, UInt64.toNat_ofNat', Nat.mod_eq_of_lt (show n < 2 ^ 64 by omega),
    Nat.mod_eq_of_lt hn]

-- A byte put under `r - 8` pending bits.
theorem toNat_byte_under (b : UInt8) {r : Nat} (hr : 8 ≤ r) (hr' : r ≤ 64) :
    (b.toUInt64 <<< (64 - r).toUInt64).toNat = b.toNat * 2 ^ (64 - r) := by
  have hlt : b.toNat * 2 ^ (64 - r) < 2 ^ 64 := by
    calc b.toNat * 2 ^ (64 - r) < 2 ^ 8 * 2 ^ (64 - r) :=
          Nat.mul_lt_mul_of_pos_right b.toNat_lt (Nat.two_pow_pos _)
      _ ≤ 2 ^ 64 := by rw [← Nat.pow_add]; exact Nat.pow_le_pow_right (by omega) (by omega)
  rw [UInt64.toNat_shiftLeft, toNat_toUInt64_mod (by omega), UInt8.toNat_toUInt64,
    Nat.shiftLeft_eq, Nat.mod_eq_of_lt hlt]

-- A byte pulled in goes under the pending bits.
theorem Holds.pull {byte : UInt8} {source : List UInt8} {read : Nat} {buffer : UInt64}
    {bits : List Bool} (h : (⟨byte :: source, read, buffer⟩ : BitIter).Holds bits)
    (hread : read < 11) :
    (⟨source, read + 8, buffer ||| byte.toUInt64 <<< (64 - (read + 8)).toUInt64⟩ :
      BitIter).Holds bits := by
  obtain ⟨-, P, hP, hB, hbits⟩ := h
  dsimp only at hP hB hbits
  refine ⟨by dsimp only; omega, P * 2 ^ 8 + byte.toNat, ?_, ?_, ?_⟩
  · rw [Nat.pow_add]
    calc P * 2 ^ 8 + byte.toNat < P * 2 ^ 8 + 2 ^ 8 := by have := byte.toNat_lt; omega
      _ = (P + 1) * 2 ^ 8 := by rw [Nat.succ_mul]
      _ ≤ 2 ^ read * 2 ^ 8 := Nat.mul_le_mul_right _ hP
  · dsimp only
    rw [UInt64.toNat_or, hB, toNat_byte_under byte (by omega) (by omega),
      Regroup.put_under_or (by omega) byte.toNat_lt]
  · rw [Regroup.bitsOf_mul_add byte.toNat_lt, List.append_assoc, ← bytes_bits_cons, hbits]

-- The loop of `fill` pulls bytes until 11 bits are pending, or fails with fewer than 11 bits
-- left; a pull takes at least one byte when fewer than 11 bits were pending.
theorem fill_spec : ∀ {source : List UInt8} {read : Nat} {buffer : UInt64} {bits : List Bool},
    (⟨source, read, buffer⟩ : BitIter).Holds bits →
      (fill source read buffer = none → bits.length < 11) ∧
      ∀ it, fill source read buffer = some it → it.Holds bits ∧ 11 ≤ it.read ∧
        it.source.length ≤ source.length ∧ (read < 11 → it.source.length < source.length)
  | source, read, buffer, bits, h => by
    by_cases hread : read < Bits11.SIZE
    · cases source with
      | nil =>
        -- the source ran out: what is pending is all that is left
        obtain ⟨-, P, -, -, hbits⟩ := h
        rw [fill, if_pos hread]
        refine ⟨fun _ => ?_, fun _ hnone => nomatch hnone⟩
        rw [← hbits]
        simpa [Bits11.SIZE] using hread
      | cons byte source =>
        obtain ⟨hnone, hsome⟩ := fill_spec (h.pull hread)
        rw [fill, if_pos hread]
        refine ⟨hnone, fun it hit => ?_⟩
        obtain ⟨hH, h11, hle, -⟩ := hsome it hit
        exact ⟨hH, h11, by simp only [List.length_cons]; omega, fun _ => by
          simp only [List.length_cons]; omega⟩
    · have hfill : fill source read buffer = some ⟨source, read, buffer⟩ := by
        cases source <;> rw [fill, if_neg hread]
      rw [hfill]
      refine ⟨fun hnone => (nomatch hnone), fun it hit => ?_⟩
      cases hit
      exact ⟨h, Nat.le_of_not_lt hread, le_refl _, fun h' => absurd h' hread⟩

-- The top 11 pending bits leave the buffer, the others move up.
theorem toNat_buffer_next {B : UInt64} {r P : Nat} (h11 : 11 ≤ r) (hr : r ≤ 64)
    (hP : P < 2 ^ r) (hB : B.toNat = P * 2 ^ (64 - r)) :
    (B >>> (64 - Bits11.SIZE).toUInt64).toUInt16.toNat = P / 2 ^ (r - 11) ∧
      (B <<< Bits11.SIZE.toUInt64).toNat = P % 2 ^ (r - 11) * 2 ^ (64 - (r - 11)) := by
  have hsize : Bits11.SIZE = 11 := rfl
  have htop : P / 2 ^ (r - 11) < 2 ^ 16 := by
    rw [Nat.div_lt_iff_lt_mul (Nat.two_pow_pos _), ← Nat.pow_add]
    exact Nat.lt_of_lt_of_le hP (Nat.pow_le_pow_right (by omega) (by omega))
  constructor
  · rw [UInt64.toNat_toUInt16, UInt64.toNat_shiftRight, hsize,
      toNat_toUInt64_mod (show 64 - 11 < 64 by omega), hB, Nat.shiftRight_eq_div_pow,
      Regroup.take_top_div h11 hr, Nat.mod_eq_of_lt htop]
  · rw [UInt64.toNat_shiftLeft, hsize, toNat_toUInt64_mod (show 11 < 64 by omega), hB,
      Nat.shiftLeft_eq, Regroup.take_top_mod h11 hr]

-- One word of the iteration: the next 11 bits, or the end with fewer than 11 bits left.
theorem next_spec {self : BitIter} {bits : List Bool} (h : self.Holds bits)
    (hread : self.read < 11) :
    (self.next = none ∧ bits.length < 11) ∨
      ∃ w it rest, self.next = some (w, it) ∧ w.value.toNat < 2 ^ 11 ∧
        bits = bitsOf 11 w.value.toNat ++ rest ∧ it.Holds rest ∧ it.read < 11 ∧
        it.source.length < self.source.length := by
  obtain ⟨source, read, buffer⟩ := self
  obtain ⟨hnone, hsome⟩ := fill_spec h
  cases hfill : fill source read buffer with
  | none => exact .inl ⟨by simp [next, hfill], hnone hfill⟩
  | some it =>
    obtain ⟨⟨hr, P, hP, hB, hbits⟩, h11, -, hlen⟩ := hsome it hfill
    obtain ⟨hword, hbuffer⟩ := toNat_buffer_next h11 (by omega) hP hB
    have hword_lt : P / 2 ^ (it.read - 11) < 2 ^ 11 := by
      rw [Nat.div_lt_iff_lt_mul (Nat.two_pow_pos _), ← Nat.pow_add]
      exact Nat.lt_of_lt_of_le hP (Nat.pow_le_pow_right (by omega) (by omega))
    refine .inr ⟨⟨(it.buffer >>> (64 - Bits11.SIZE).toUInt64).toUInt16⟩, ⟨it.source, it.read - Bits11.SIZE, it.buffer <<< Bits11.SIZE.toUInt64⟩,
      bitsOf (it.read - 11) (P % 2 ^ (it.read - 11)) ++ bytes_bits it.source,
      by simp [next, hfill], ?_, ?_, ?_, ?_, hlen hread⟩
    · rw [hword]; exact hword_lt
    · rw [hword, ← List.append_assoc, ← Regroup.bitsOf_div_mod h11, hbits]
    · exact ⟨by dsimp only [Bits11.SIZE]; omega, _, Nat.mod_lt _ (Nat.two_pow_pos _), hbuffer, rfl⟩
    · dsimp only [Bits11.SIZE]; omega

-- The whole iteration: every word of 11 bits, in order, until fewer than 11 bits are left;
-- each word takes a byte, so fuel past the number of bytes is enough.
theorem collect_spec : ∀ (fuel : Nat) {self : BitIter} {bits : List Bool}, self.Holds bits →
    self.read < 11 → self.source.length < fuel →
      (∀ w ∈ collect fuel self, w.value.toNat < 2 ^ 11) ∧
        ∃ rest, rest.length < 11 ∧
          words_bits (collect fuel self) ++ rest = bits
  | 0, _, _, _, _, hfuel => absurd hfuel (Nat.not_lt_zero _)
  | fuel + 1, self, bits, h, hread, hfuel => by
    rcases next_spec h hread with ⟨hnext, hlen⟩ | ⟨w, it, rest, hnext, hw, hbits, hH, hr, hlen⟩
    · simp only [collect, hnext]
      exact ⟨fun _ hw => (nomatch hw), bits, hlen, rfl⟩
    · obtain ⟨hws, rest', hrest', hcollect⟩ := collect_spec fuel hH hr (by omega)
      simp only [collect, hnext]
      refine ⟨?_, rest', hrest', ?_⟩
      · intro w' hw'
        rcases List.mem_cons.mp hw' with rfl | hw'
        · exact hw
        · exact hws w' hw'
      · rw [words_bits_cons, List.append_assoc, hcollect, hbits]

end BitIter

-- `IterExt::bits`, from bytes to word indices.
def bits (source : List UInt8) : List Bits11 := BitIter.collect (source.length + 1) (BitIter.new source)

-- `bits` gives every whole 11-bit word of the bytes and drops fewer than 11 bits at the end.
theorem bits_spec (source : List UInt8) :
    (∀ w ∈ bits source, w.value.toNat < 2 ^ 11) ∧
      ∃ rest, rest.length < 11 ∧ words_bits (bits source) ++ rest = bytes_bits source :=
  BitIter.collect_spec _ (BitIter.new_holds source) (Nat.zero_lt_succ _) (Nat.lt_succ_self _)

namespace BitWriter

-- Packing word indices one after another.
theorem foldl_push_holds {self : BitWriter} {bits : List Bool} (h : self.Holds bits)
    (ho : self.offset < 8) (words : List Bits11) :
    (words.foldl push self).Holds (bits ++ words_bits words) ∧
      (words.foldl push self).offset = (self.offset + 11 * words.length) % 8 := by
  induction words generalizing self bits with
  | nil => simpa using ⟨h, (Nat.mod_eq_of_lt ho).symm⟩
  | cons w ws ih =>
    obtain ⟨hpush, hoff⟩ := push_holds h ho w
    obtain ⟨hH, hoff'⟩ := ih hpush (by rw [hoff]; omega)
    rw [List.foldl_cons, words_bits_cons, ← List.append_assoc]
    refine ⟨hH, ?_⟩
    rw [hoff', hoff, List.length_cons]
    omega

-- The packed bytes hold the words' bits and fewer than 8 zeros that pad the last byte.
theorem into_bytes_foldl_push (capacity : Nat) (words : List Bits11) :
    bytes_bits ((words.foldl push (with_capacity capacity)).into_bytes) =
      words_bits words ++ List.replicate ((8 - 11 * words.length % 8) % 8) false := by
  have h0 : (with_capacity capacity).offset = 0 := rfl
  obtain ⟨hH, hoff⟩ := foldl_push_holds (with_capacity_holds capacity) (by rw [h0]; omega) words
  have ho : (words.foldl push (with_capacity capacity)).offset = 11 * words.length % 8 := by
    rw [hoff, h0, Nat.zero_add]
  rw [into_bytes_bits hH (by rw [ho]; omega), ho, List.nil_append]

end BitWriter

-- Packing the words of bytes gives back the bytes when the bits the iteration dropped are
-- fewer than 8 zeros, which the writer's padding puts back.
theorem into_bytes_bits_eq {source : List UInt8} {k : Nat} (hk : k < 8) (capacity : Nat)
    (hrest : words_bits (bits source) ++ List.replicate k false = bytes_bits source) :
    ((bits source).foldl BitWriter.push (BitWriter.with_capacity capacity)).into_bytes = source := by
  have hlen := congrArg List.length hrest
  simp only [List.length_append, length_words_bits, List.length_replicate,
    length_bytes_bits] at hlen
  apply bytes_bits_inj
  rw [BitWriter.into_bytes_foldl_push, ← hrest]
  congr 2
  omega

-- The words of packed words are those words.
theorem bits_into_bytes {words : List Bits11} (hwords : ∀ w ∈ words, w.value.toNat < 2 ^ 11)
    (capacity : Nat) :
    bits ((words.foldl BitWriter.push (BitWriter.with_capacity capacity)).into_bytes) = words := by
  obtain ⟨hws, rest, hrest, hbits⟩ := bits_spec
    ((words.foldl BitWriter.push (BitWriter.with_capacity capacity)).into_bytes)
  rw [BitWriter.into_bytes_foldl_push] at hbits
  have hlen := congrArg List.length hbits
  simp only [List.length_append, length_words_bits, List.length_replicate] at hlen
  -- both sides are whole words followed by fewer than 11 bits
  have hcount : (bits ((words.foldl BitWriter.push (BitWriter.with_capacity capacity)).into_bytes)).length =
      words.length := by omega
  have hsplit := List.append_inj hbits (by simp only [length_words_bits, hcount])
  exact words_bits_inj hws hwords hcount hsplit.1

-- A BIP39 word list: `gen_wordlist` splits the list file on whitespace, so no word holds a
-- space, and BIP39 fixes 2048 distinct words.
structure WordList where
  inner : List (List Char)
  length_inner : inner.length = 2048
  nodup : inner.Nodup
  no_space : ∀ word ∈ inner, ' ' ∉ word

namespace WordList

-- `get_word` indexes the list, which panics past its end.
def get_word (self : WordList) (bits : Bits11) : Option (List Char) :=
  self.inner[bits.bits.toNat]?

-- `gen_wordmap`: the words with their indices collected into a map, a later index replacing an
-- earlier one.
def wordmap (self : WordList) : AList fun _ : List Char => Bits11 :=
  self.inner.zipIdx.foldl (fun map (item, i) => map.insert item ⟨i.toUInt16⟩) ∅

def get_bits (self : WordList) (word : List Char) : Option Bits11 := self.wordmap.lookup word

variable (self : WordList)

theorem wordmap_eq :
    self.wordmap = self.inner.zipIdx.foldl (fun m p => m.insert p.1 (⟨p.2.toUInt16⟩ : Bits11)) ∅ :=
  rfl

theorem get_word_eq (b : Bits11) : self.get_word b = self.inner[b.value.toNat]? := by
  rw [get_word, Bits11.bits, UInt16.toNat_toUInt32]

-- The index of the `i`-th word is `i`: the words are distinct, so no later entry replaces it.
theorem get_bits_getElem {i : Nat} (hi : i < self.inner.length) :
    self.get_bits self.inner[i] = some ⟨i.toUInt16⟩ := by
  have hmem : (self.inner[i], i) ∈ self.inner.zipIdx :=
    List.mk_mem_zipIdx_iff_getElem?.mpr (List.getElem?_eq_getElem hi)
  have hnd : (self.inner.zipIdx.map Prod.fst).Nodup := by
    rw [List.zipIdx_map_fst]; exact self.nodup
  rw [get_bits, wordmap_eq]
  exact AListFold.lookup_foldl_insert_of_mem Prod.fst (fun p => (⟨p.2.toUInt16⟩ : Bits11)) ∅ hnd hmem

-- A word found in the map is the word at its index.
theorem get_bits_eq_some {word : List Char} {b : Bits11} (h : self.get_bits word = some b) :
    b.value.toNat < 2 ^ 11 ∧ self.get_word b = some word := by
  rw [get_bits, wordmap_eq] at h
  rcases AListFold.lookup_foldl_insert_eq_some Prod.fst _ h with h | ⟨⟨word', i⟩, hmem, rfl, rfl⟩
  · exact nomatch h
  · have hget := List.mk_mem_zipIdx_iff_getElem?.mp hmem
    have hi : i < 2 ^ 11 := by
      have := (List.getElem?_eq_some_iff.mp hget).1
      rw [self.length_inner] at this
      exact this
    have hval : (i.toUInt16).toNat = i := by
      rw [Nat.toUInt16_eq, UInt16.toNat_ofNat', Nat.mod_eq_of_lt (by omega)]
    exact ⟨by rw [hval]; exact hi, by rw [get_word_eq, hval, hget]⟩

-- An index below 2048 names a word, whose index it is.
theorem get_word_eq_some {b : Bits11} (hb : b.value.toNat < 2 ^ 11) :
    ∃ word, self.get_word b = some word ∧ self.get_bits word = some b := by
  have hi : b.value.toNat < self.inner.length := by rw [self.length_inner]; exact hb
  refine ⟨self.inner[b.value.toNat], by rw [get_word_eq, List.getElem?_eq_getElem hi], ?_⟩
  rw [get_bits_getElem self hi, Nat.toUInt16_eq, UInt16.ofNat_toNat]

theorem mem_of_get_word {b : Bits11} {word : List Char} (h : self.get_word b = some word) :
    word ∈ self.inner := by
  rw [get_word_eq] at h
  exact List.mem_of_getElem? h

-- Word indices below 2048 give words that give them back.
theorem mapM_get_word_eq_some : ∀ {idx : List Bits11}, (∀ b ∈ idx, b.value.toNat < 2 ^ 11) →
    ∃ words, idx.mapM self.get_word = some words ∧ words.mapM self.get_bits = some idx
  | [], _ => ⟨[], rfl, rfl⟩
  | b :: idx, hidx => by
    obtain ⟨word, hword, hbits⟩ := get_word_eq_some self (hidx b List.mem_cons_self)
    obtain ⟨words, hwords, hidx'⟩ :=
      mapM_get_word_eq_some fun b' hb' => hidx b' (List.mem_cons_of_mem _ hb')
    exact ⟨word :: words, by simp [hword, hwords], by simp [hbits, hidx']⟩

-- Words found in the map give indices below 2048 that give the words back.
theorem mapM_get_bits_eq_some : ∀ {words : List (List Char)} {idx : List Bits11},
    words.mapM self.get_bits = some idx →
      (∀ b ∈ idx, b.value.toNat < 2 ^ 11) ∧ idx.mapM self.get_word = some words
  | [], idx, h => by
    cases h
    exact ⟨fun _ hb => (nomatch hb), rfl⟩
  | word :: words, idx, h => by
    simp only [List.mapM_cons, Option.bind_eq_bind, Option.bind_eq_some_iff,
      Option.pure_def, Option.some.injEq] at h
    obtain ⟨b, hb, idx', hidx', rfl⟩ := h
    obtain ⟨hlt, hword⟩ := get_bits_eq_some self hb
    obtain ⟨hlt', hwords⟩ := mapM_get_bits_eq_some hidx'
    refine ⟨fun b' hb' => ?_, by simp [hword, hwords]⟩
    rcases List.mem_cons.mp hb' with rfl | hb'
    · exact hlt
    · exact hlt' b' hb'

-- The words named by indices are as many as the indices, all from the list.
theorem mapM_get_word_spec : ∀ {idx : List Bits11} {words : List (List Char)},
    idx.mapM self.get_word = some words → words.length = idx.length ∧ ∀ word ∈ words, word ∈ self.inner
  | [], words, h => by
    cases h
    exact ⟨rfl, fun _ hw => (nomatch hw)⟩
  | b :: idx, words, h => by
    simp only [List.mapM_cons, Option.bind_eq_bind, Option.bind_eq_some_iff,
      Option.pure_def, Option.some.injEq] at h
    obtain ⟨word, hword, words', hwords', rfl⟩ := h
    obtain ⟨hlen, hmem⟩ := mapM_get_word_spec hwords'
    refine ⟨by rw [List.length_cons, List.length_cons, hlen], fun w hw => ?_⟩
    rcases List.mem_cons.mp hw with rfl | hw
    · exact mem_of_get_word self hword
    · exact hmem w hw

end WordList

inductive Error
  | Bip39
  | String (message : String)
  deriving DecidableEq, Repr

structure Mnemonic where
  entropy : List UInt8
  phrase : List Char
  deriving DecidableEq, Repr

namespace Mnemonic

variable (wordlist : WordList) (sha256 : List UInt8 → Vector UInt8 32)

-- The checksum keeps the first four bits of the digest for 16 bytes of entropy, and its first
-- byte for 32.
def build_checksum (entropy : List UInt8) : Except Error UInt8 :=
  let bytes := sha256 entropy
  match entropy.length with
  | 16 => .ok (bytes[0] &&& 0b11110000)
  | 32 => .ok bytes[0]
  | _ => .error .Bip39

-- `IterExt::join(" ")`.
def join (words : List (List Char)) : List Char := [' '].intercalate words

-- `from_entropy`; `none` is a panic of `get_word`.
def from_entropy (entropy : List UInt8) : Option (Except Error Mnemonic) :=
  if entropy.length ≠ 16 ∧ entropy.length ≠ 32 then
    some (.error (.String "Entropy length should be 16 or 32."))
  else
    match build_checksum sha256 entropy with
    | .error e => some (.error e)
    | .ok checksum_byte =>
      match (bits (entropy ++ [checksum_byte])).mapM wordlist.get_word with
      | some words => some (.ok ⟨entropy, join words⟩)
      | none => none

-- The loop of `new` over the words, which stops at the first word not in the list.
def push_words : BitWriter → List (List Char) → Except Error BitWriter
  | bits, [] => .ok bits
  | bits, word :: words =>
    match wordlist.get_bits word with
    | some index => push_words (bits.push index) words
    | none => .error .Bip39

-- `Mnemonic::new`: the words split at each space, packed, and the checksum byte checked.
def new (phrase : List Char) : Option (Except Error Mnemonic) :=
  match push_words wordlist (BitWriter.with_capacity 264) (phrase.splitOn ' ') with
  | .error e => some (.error e)
  | .ok bits =>
    let entropy := bits.into_bytes
    let key_size := match entropy.length with
      | 17 => some 16
      | 33 => some 32
      | _ => none
    match key_size with
    | none => some (.error .Bip39)
    | some key_size =>
      match entropy[key_size]? with
      | none => none
      | some actual_checksum =>
        -- the byte holding the checksum is cut off
        let entropy := entropy.take key_size
        match build_checksum sha256 entropy with
        | .error e => some (.error e)
        | .ok expected_checksum =>
          if actual_checksum ≠ expected_checksum then
            some (.error (.String ("BIP39: actual checksum(" ++ toString actual_checksum ++
              ") != expected checksum(" ++ toString expected_checksum ++ ")")))
          else from_entropy wordlist sha256 entropy

theorem splitOn_join {words : List (List Char)} (hspace : ∀ word ∈ words, ' ' ∉ word)
    (hne : words ≠ []) : (Mnemonic.join words).splitOn ' ' = words :=
  List.splitOn_intercalate ' ' hspace hne

-- The loop of `new` looks every word up, then packs the indices.
theorem push_words_eq : ∀ (bits : BitWriter) (words : List (List Char)),
    push_words wordlist bits words = match words.mapM wordlist.get_bits with
      | some idx => .ok (idx.foldl BitWriter.push bits)
      | none => .error .Bip39
  | _, [] => rfl
  | bits, word :: words => by
    rw [push_words, List.mapM_cons]
    cases wordlist.get_bits word with
    | none => rfl
    | some index =>
      dsimp only
      rw [push_words_eq]
      cases words.mapM wordlist.get_bits <;> rfl

-- A checksum is the digest's first byte, masked to four bits for 16 bytes of entropy.
theorem build_checksum_eq_ok {entropy : List UInt8} {c : UInt8}
    (h : build_checksum sha256 entropy = .ok c) :
    (entropy.length = 16 ∧ c = (sha256 entropy)[0] &&& 0b11110000) ∨
      (entropy.length = 32 ∧ c = (sha256 entropy)[0]) := by
  unfold build_checksum at h
  split at h
  · cases h; exact .inl ⟨by assumption, rfl⟩
  · cases h; exact .inr ⟨by assumption, rfl⟩
  · cases h

-- Past the checksum, `from_entropy` names the words of the entropy and its checksum byte.
theorem from_entropy_of_checksum {entropy : List UInt8} {c : UInt8}
    (h : build_checksum sha256 entropy = .ok c) :
    from_entropy wordlist sha256 entropy =
      match (bits (entropy ++ [c])).mapM wordlist.get_word with
      | some words => some (.ok ⟨entropy, join words⟩)
      | none => none := by
  have hlen : ¬(entropy.length ≠ 16 ∧ entropy.length ≠ 32) := by
    rcases build_checksum_eq_ok sha256 h with ⟨hlen, -⟩ | ⟨hlen, -⟩ <;> omega
  rw [from_entropy, if_neg hlen, h]

theorem from_entropy_eq_ok {entropy : List UInt8} {m : Mnemonic}
    (h : from_entropy wordlist sha256 entropy = some (.ok m)) :
    ∃ c words, build_checksum sha256 entropy = .ok c ∧
      (bits (entropy ++ [c])).mapM wordlist.get_word = some words ∧ m = ⟨entropy, join words⟩ := by
  cases hc : build_checksum sha256 entropy with
  | error e =>
    rw [from_entropy, hc] at h
    split_ifs at h <;> simp at h
  | ok c =>
    rw [from_entropy_of_checksum wordlist sha256 hc] at h
    cases hwords : (bits (entropy ++ [c])).mapM wordlist.get_word with
    | none => rw [hwords] at h; cases h
    | some words =>
      rw [hwords] at h
      cases h
      exact ⟨c, words, rfl, hwords, rfl⟩

-- The bits the iteration drops after the checksum byte are its low four bits for 16 bytes of
-- entropy, which the mask clears, and none for 32.
theorem bits_checksum {entropy : List UInt8} {c : UInt8}
    (h : build_checksum sha256 entropy = .ok c) :
    ∃ k < 8, words_bits (bits (entropy ++ [c])) ++ List.replicate k false =
      bytes_bits (entropy ++ [c]) ∧
      (bits (entropy ++ [c])).length = if entropy.length = 16 then 12 else 24 := by
  obtain ⟨-, rest, hrest, hbits⟩ := bits_spec (entropy ++ [c])
  have hlen := congrArg List.length hbits
  simp only [List.length_append, length_words_bits, length_bytes_bits, List.length_singleton]
    at hlen
  rcases build_checksum_eq_ok sha256 h with ⟨h16, rfl⟩ | ⟨h32, -⟩
  · -- 136 bits: twelve words and the checksum's low four bits
    have hrest4 : rest.length = 4 := by omega
    have hsplit : bytes_bits (entropy ++ [(sha256 entropy)[0] &&& 0b11110000]) =
        (bytes_bits entropy ++ bitsOf 4 (((sha256 entropy)[0] &&& 0b11110000).toNat / 2 ^ 4)) ++
          bitsOf 4 (((sha256 entropy)[0] &&& 0b11110000).toNat % 2 ^ 4) := by
      rw [bytes_bits_append, bytes_bits_cons, bytes_bits_nil, List.append_nil, List.append_assoc,
        ← Regroup.bitsOf_div_mod (show 4 ≤ 8 by omega)]
    have hlow : ((sha256 entropy)[0] &&& 0b11110000).toNat % 2 ^ 4 = 0 := by
      rw [UInt8.toNat_and, ← Nat.and_two_pow_sub_one_eq_mod, Nat.and_assoc]
      exact Nat.and_zero _
    rw [hsplit, hlow] at hbits
    have hrest0 := (List.append_inj' hbits (by rw [hrest4]; rfl)).2
    refine ⟨4, by omega, ?_, by rw [if_pos h16]; omega⟩
    rw [hsplit, hlow, ← hrest0, ← (List.append_inj' hbits (by rw [hrest4]; rfl)).1, hrest0]
    rfl
  · -- 264 bits: twenty-four words and nothing left
    have hrest0 : rest = [] := List.eq_nil_of_length_eq_zero (by omega)
    rw [hrest0] at hbits
    exact ⟨0, by omega, hbits, by rw [if_neg (by omega)]; omega⟩

-- `new` on a phrase whose words pack into entropy and its checksum byte checks the byte and
-- gives the mnemonic of the entropy.
theorem new_of_pack {phrase : List Char} {idx : List Bits11} {entropy : List UInt8} {c : UInt8}
    (hidx : (phrase.splitOn ' ').mapM wordlist.get_bits = some idx)
    (hpack : (idx.foldl BitWriter.push (BitWriter.with_capacity 264)).into_bytes = entropy ++ [c])
    (hc : build_checksum sha256 entropy = .ok c) :
    new wordlist sha256 phrase = from_entropy wordlist sha256 entropy := by
  rw [new, push_words_eq, hidx]
  dsimp only
  rw [hpack]
  -- the byte after the entropy is the checksum, whatever the key size
  have hget : ∀ n, entropy.length = n → (entropy ++ [c])[n]? = some c := fun n hn =>
    hn ▸ List.getElem?_concat_length
  rcases build_checksum_eq_ok sha256 hc with ⟨hlen, -⟩ | ⟨hlen, -⟩
  · simp only [List.length_append, hlen, List.length_singleton, hget 16 hlen,
      List.take_left' hlen, hc, ne_eq, not_true_eq_false, if_false]
  · simp only [List.length_append, hlen, List.length_singleton, hget 32 hlen,
      List.take_left' hlen, hc, ne_eq, not_true_eq_false, if_false]

-- What an accepted phrase went through: its words' indices, packed into entropy and a checksum
-- byte that `build_checksum` gives back, and the mnemonic of that entropy.
theorem new_eq_ok {phrase : List Char} {m : Mnemonic}
    (h : new wordlist sha256 phrase = some (.ok m)) :
    ∃ idx entropy c, (phrase.splitOn ' ').mapM wordlist.get_bits = some idx ∧
      (idx.foldl BitWriter.push (BitWriter.with_capacity 264)).into_bytes = entropy ++ [c] ∧
      build_checksum sha256 entropy = .ok c ∧ from_entropy wordlist sha256 entropy = some (.ok m) := by
  rw [new, push_words_eq] at h
  cases hidx : (phrase.splitOn ' ').mapM wordlist.get_bits with
  | none => rw [hidx] at h; cases h
  | some idx =>
    rw [hidx] at h
    dsimp only at h
    generalize hout : (idx.foldl BitWriter.push (BitWriter.with_capacity 264)).into_bytes = out at h
    split at h
    · cases h
    · rename_i key hkey
      have hlen : out.length = key + 1 := by
        split at hkey <;> cases hkey <;> omega
      split at h
      · cases h
      · rename_i actual hget
        split at h
        · cases h
        · rename_i expected hc
          split_ifs at h with hne
          · cases h
          · rw [not_not] at hne
            subst hne
            -- the entropy and the checksum byte make up the packed bytes
            have hsplit : out = out.take key ++ [actual] := by
              have hkey' : key < out.length := by omega
              rw [List.getElem?_eq_getElem hkey', Option.some.injEq] at hget
              conv_lhs => rw [← List.take_append_drop key out]
              rw [List.drop_eq_getElem_cons hkey', List.drop_eq_nil_of_le (by omega), hget]
            exact ⟨idx, out.take key, actual, rfl, hout.trans hsplit, hc, h⟩

theorem build_checksum_of_length {entropy : List UInt8}
    (hlen : entropy.length = 16 ∨ entropy.length = 32) :
    ∃ c, build_checksum sha256 entropy = .ok c := by
  rcases hlen with hlen | hlen
  · exact ⟨_, by rw [build_checksum, hlen]; rfl⟩
  · exact ⟨_, by rw [build_checksum, hlen]; rfl⟩

-- Entropy of 16 or 32 bytes has a mnemonic: every 11-bit index names a word.
theorem from_entropy_of_length {entropy : List UInt8}
    (hlen : entropy.length = 16 ∨ entropy.length = 32) :
    ∃ m, from_entropy wordlist sha256 entropy = some (.ok m) := by
  obtain ⟨c, hc⟩ := build_checksum_of_length sha256 hlen
  obtain ⟨words, hwords, -⟩ := wordlist.mapM_get_word_eq_some (bits_spec (entropy ++ [c])).1
  exact ⟨_, by rw [from_entropy_of_checksum wordlist sha256 hc, hwords]⟩

-- The phrase of a mnemonic is accepted and gives the mnemonic back; it has 12 or 24 words.
theorem new_from_entropy {entropy : List UInt8} {m : Mnemonic}
    (h : from_entropy wordlist sha256 entropy = some (.ok m)) :
    m.entropy = entropy ∧ new wordlist sha256 m.phrase = some (.ok m) ∧
      (m.phrase.splitOn ' ').length = if entropy.length = 16 then 12 else 24 := by
  obtain ⟨c, words, hc, hwords, rfl⟩ := from_entropy_eq_ok wordlist sha256 h
  obtain ⟨k, hk, hrest, hcount⟩ := bits_checksum sha256 hc
  -- the words give back their indices
  obtain ⟨words', hwords', hidx⟩ := wordlist.mapM_get_word_eq_some (bits_spec (entropy ++ [c])).1
  obtain rfl : words = words' := Option.some.inj (hwords.symm.trans hwords')
  obtain ⟨hlen, hmem⟩ := wordlist.mapM_get_word_spec hwords
  have hne : words ≠ [] := by
    intro hnil
    rw [hnil, List.length_nil, hcount] at hlen
    split_ifs at hlen
  have hsplit : (join words).splitOn ' ' = words :=
    splitOn_join (fun word hw => wordlist.no_space word (hmem word hw)) hne
  refine ⟨rfl, ?_, by rw [hsplit, hlen, hcount]⟩
  rw [new_of_pack wordlist sha256 (by rw [hsplit]; exact hidx) (into_bytes_bits_eq hk 264 hrest) hc]
  exact h

-- An accepted phrase is the phrase of the mnemonic it gives.
theorem new_phrase {phrase : List Char} {m : Mnemonic}
    (h : new wordlist sha256 phrase = some (.ok m)) :
    m.phrase = phrase ∧ from_entropy wordlist sha256 m.entropy = some (.ok m) := by
  obtain ⟨idx, entropy, c, hidx, hpack, hc, hfrom⟩ := new_eq_ok wordlist sha256 h
  obtain ⟨c', words, hc', hwords, rfl⟩ := from_entropy_eq_ok wordlist sha256 hfrom
  obtain rfl : c' = c := Except.ok.inj (hc'.symm.trans hc)
  obtain ⟨hlt, hget⟩ := wordlist.mapM_get_bits_eq_some hidx
  -- the packed bytes cut back into the same indices
  have hbits : bits (entropy ++ [c']) = idx := by rw [← hpack]; exact bits_into_bytes hlt 264
  rw [hbits, hget, Option.some.injEq] at hwords
  exact ⟨by rw [← hwords]; exact List.intercalate_splitOn ' ', hfrom⟩

end Mnemonic

theorem mnemonic_round_trip (wordlist : WordList) (sha256 : List UInt8 → Vector UInt8 32) :
    (∀ entropy : List UInt8, entropy.length = 16 ∨ entropy.length = 32 →
      ∃ m, Mnemonic.from_entropy wordlist sha256 entropy = some (.ok m) ∧ m.entropy = entropy ∧
        Mnemonic.new wordlist sha256 m.phrase = some (.ok m) ∧
        (m.phrase.splitOn ' ').length = if entropy.length = 16 then 12 else 24) ∧
    ∀ (phrase : List Char) (m : Mnemonic), Mnemonic.new wordlist sha256 phrase = some (.ok m) →
      m.phrase = phrase ∧ Mnemonic.from_entropy wordlist sha256 m.entropy = some (.ok m) := by
  refine ⟨fun entropy hlen => ?_, fun phrase m h => Mnemonic.new_phrase wordlist sha256 h⟩
  obtain ⟨m, hm⟩ := Mnemonic.from_entropy_of_length wordlist sha256 hlen
  exact ⟨m, hm, Mnemonic.new_from_entropy wordlist sha256 hm⟩

-- A word list for tests: the `i`-th word is `i + 1` letters `a`.
def WordList.unary : WordList where
  inner := (List.range 2048).map fun i => List.replicate (i + 1) 'a'
  length_inner := by simp
  nodup := List.Nodup.map (fun i j h => by simpa using congrArg List.length h) List.nodup_range
  no_space := by
    intro word hword
    obtain ⟨i, -, rfl⟩ := List.mem_map.mp hword
    simp [List.mem_replicate]

-- A digest for tests in place of SHA-256: every byte is the sum of the input bytes.
def byte_sum_digest (bytes : List UInt8) : Vector UInt8 32 :=
  Vector.replicate 32 (bytes.foldl (· + ·) 0)

-- Sixteen and thirty-two bytes of entropy, with a checksum that depends on them, give phrases
-- of twelve and twenty-four words that parse back.
theorem mnemonic_round_trip_unary :
    let entropy₁₆ : List UInt8 := (List.range 16).map fun i => (i + 1).toUInt8
    let entropy₃₂ : List UInt8 := (List.range 32).map fun i => (7 * i + 3).toUInt8
    (∃ m, Mnemonic.from_entropy WordList.unary byte_sum_digest entropy₁₆ = some (.ok m) ∧
      m.entropy = entropy₁₆ ∧ Mnemonic.new WordList.unary byte_sum_digest m.phrase = some (.ok m) ∧
      (m.phrase.splitOn ' ').length = 12) ∧
    ∃ m, Mnemonic.from_entropy WordList.unary byte_sum_digest entropy₃₂ = some (.ok m) ∧
      m.entropy = entropy₃₂ ∧ Mnemonic.new WordList.unary byte_sum_digest m.phrase = some (.ok m) ∧
      (m.phrase.splitOn ' ').length = 24 := by
  intro entropy₁₆ entropy₃₂
  have hround := (mnemonic_round_trip WordList.unary byte_sum_digest).1
  exact ⟨hround entropy₁₆ (.inl rfl), hround entropy₃₂ (.inr rfl)⟩

end Waglayla.Wallet.Bip32
