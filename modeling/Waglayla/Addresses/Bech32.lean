import Waglayla.Addresses.Address
import Waglayla.Bits.Regroup

namespace Waglayla.Addresses

open Regroup

def CHARSET : List UInt8 := ascii "qpzry9x8gf2tvdw0s3jn54khce6mua7l"

def REV_CHARSET : List UInt8 :=
  [100, 100, 100, 100, 100, 100, 100, 100, 100, 100, 100, 100, 100, 100, 100, 100, 100, 100, 100, 100,
    100, 100, 100, 100, 100, 100, 100, 100, 100, 100, 100, 100, 100, 100, 100, 100, 100, 100, 100, 100,
    100, 100, 100, 100, 100, 100, 100, 100, 15, 100, 10, 17, 21, 20, 26, 30, 7, 5, 100, 100,
    100, 100, 100, 100, 100, 100, 100, 100, 100, 100, 100, 100, 100, 100, 100, 100, 100, 100, 100, 100,
    100, 100, 100, 100, 100, 100, 100, 100, 100, 100, 100, 100, 100, 100, 100, 100, 100, 29, 100, 24,
    13, 25, 9, 8, 23, 100, 18, 22, 31, 27, 19, 100, 1, 0, 3, 16, 11, 28, 12, 14,
    6, 4, 2]

-- `if c0 & bit != 0 { c ^= generator; }`, once for each generator of the BCH code
def xor_if (c0 bit generator c : UInt64) : UInt64 :=
  if c0 &&& bit ≠ 0 then c ^^^ generator else c

-- One round of the loop of `polymod`.
def polymod_step (c : UInt64) (d : UInt8) : UInt64 :=
  let c0 := c >>> 35
  let c := ((c &&& 0x07ffffffff) <<< 5) ^^^ d.toUInt64
  let c := xor_if c0 0x01 0x98f2bc8e61 c
  let c := xor_if c0 0x02 0x79b76d99e2 c
  let c := xor_if c0 0x04 0xf33e5fb3c4 c
  let c := xor_if c0 0x08 0xae2eabe2a8 c
  xor_if c0 0x10 0x1e4f43e470 c

def polymod (values : List UInt8) : UInt64 :=
  values.foldl polymod_step 1 ^^^ 1

def checksum (payload prefix_ : List UInt8) : UInt64 :=
  polymod (prefix_ ++ [0] ++ payload ++ List.replicate 8 0)

-- `u64::to_be_bytes` and `u64::from_be_bytes`, most significant byte first
def to_be_bytes (x : UInt64) : List UInt8 :=
  ([56, 48, 40, 32, 24, 16, 8, 0] : List UInt64).map fun s => (x >>> s).toUInt8

def from_be_bytes (bytes : List UInt8) : UInt64 :=
  bytes.foldl (fun acc b => acc * 256 + b.toUInt64) 0

-- `vec![0u8; len]` filled at indices 0, 1, 2, ... by `v[current_idx] = x as u8`; an
-- index past the end panics.
def write_vec (len : Nat) (writes : List Nat) : Option (List UInt8) :=
  if writes.length ≤ len then
    some (writes.map Nat.toUInt8 ++ List.replicate (len - writes.length) 0)
  else none

-- The `u16` buffers of the two conversions never hold more than 13 bits, so they are
-- `Nat`s here; the inner `while bits >= w` loops are `Regroup.feed`.
def conv8to5 (payload : List UInt8) : Option (List UInt8) :=
  let padding := if payload.length % 5 = 0 then 0 else 1
  let r := feed 8 5 0 0 (payload.map UInt8.toNat)
  let buff := r.2.1
  let bits := r.2.2
  write_vec (payload.length * 8 / 5 + padding) (r.1 ++ if bits > 0 then [buff <<< (5 - bits)] else [])

def conv5to8 (payload : List UInt8) : Option (List UInt8) :=
  write_vec (payload.length * 5 / 8) (feed 5 8 0 0 (payload.map UInt8.toNat)).1

-- `*REV_CHARSET.get(*b as usize).unwrap_or(&100)`, where 100 marks a byte outside the
-- charset
def rev_charset (b : UInt8) : Except AddressError UInt8 :=
  let i := REV_CHARSET[b.toNat]?.getD 100
  if i = 100 then .error (.DecodingError (Char.ofNat b.toNat)) else .ok i

section Checksum

theorem xor_if_lt {c0 bit generator c : UInt64} (hg : generator.toNat < 2 ^ 40)
    (hc : c.toNat < 2 ^ 40) : (xor_if c0 bit generator c).toNat < 2 ^ 40 := by
  unfold xor_if
  split
  · rw [UInt64.toNat_xor]
    exact Nat.xor_lt_two_pow hc hg
  · exact hc

-- Whatever the register held, a round keeps 35 of its bits, shifts them up by 5 and
-- xors in values below 2^40.
theorem polymod_step_lt (c : UInt64) (d : UInt8) : (polymod_step c d).toNat < 2 ^ 40 := by
  have hshift : (((c &&& 0x07ffffffff) <<< 5) ^^^ d.toUInt64).toNat < 2 ^ 40 := by
    rw [UInt64.toNat_xor]
    apply Nat.xor_lt_two_pow
    · have hand : c.toNat &&& 34359738367 ≤ 34359738367 := Nat.and_le_right
      have hval : ((c &&& 0x07ffffffff) <<< 5).toNat = (c.toNat &&& 34359738367) * 32 := by
        simp [UInt64.toNat_shiftLeft, Nat.shiftLeft_eq]
        omega
      omega
    · have := d.toNat_lt
      simp only [UInt8.toNat_toUInt64]
      omega
  unfold polymod_step
  refine xor_if_lt (by decide) (xor_if_lt (by decide) (xor_if_lt (by decide)
    (xor_if_lt (by decide) (xor_if_lt (by decide) hshift))))

theorem foldl_polymod_step_lt (values : List UInt8) {c : UInt64} (hc : c.toNat < 2 ^ 40) :
    (values.foldl polymod_step c).toNat < 2 ^ 40 := by
  induction values generalizing c with
  | nil => exact hc
  | cons d ds ih => exact ih (polymod_step_lt c d)

theorem polymod_lt (values : List UInt8) : (polymod values).toNat < 2 ^ 40 := by
  unfold polymod
  rw [UInt64.toNat_xor]
  exact Nat.xor_lt_two_pow (foldl_polymod_step_lt values (by decide)) (by decide)

-- A checksum fits the five low bytes the encoder keeps, so the decoder's three zero
-- bytes in front rebuild it.
theorem from_be_bytes_to_be_bytes_drop {c : UInt64} (hc : c.toNat < 2 ^ 40) :
    from_be_bytes ([0, 0, 0] ++ (to_be_bytes c).drop 3) = c := by
  apply UInt64.toNat_inj.mp
  simp [to_be_bytes, from_be_bytes, UInt64.toNat_add, UInt64.toNat_shiftRight,
    Nat.shiftRight_eq_div_pow]
  omega

end Checksum

section Conversions

theorem write_vec_of_length {len : Nat} {writes : List Nat} (h : writes.length = len) :
    write_vec len writes = some (writes.map Nat.toUInt8) := by
  simp [write_vec, h]

-- Values below 2^8 survive the `as u8` casts.
theorem map_toNat_toUInt8 {xs : List Nat} (h : ∀ x ∈ xs, x < 2 ^ 8) :
    (xs.map Nat.toUInt8).map UInt8.toNat = xs := by
  rw [List.map_map]
  conv_rhs => rw [← List.map_id xs]
  apply List.map_congr_left
  intro x hx
  simpa using h x hx

theorem bytes_lt (payload : List UInt8) : ∀ c ∈ payload.map UInt8.toNat, c < 2 ^ 8 := by
  simp only [List.mem_map]
  rintro _ ⟨b, -, rfl⟩
  exact b.toNat_lt

-- `conv8to5` writes every bit of its input, then fewer than five zero bits, as 5-bit
-- digits.
theorem conv8to5_spec (payload : List UInt8) :
    ∃ out, conv8to5 payload = some out ∧ (∀ o ∈ out, o.toNat < 2 ^ 5) ∧
      ∃ p < 5, (out.map UInt8.toNat).flatMap (bitsOf 5) =
        (payload.map UInt8.toNat).flatMap (bitsOf 8) ++ List.replicate p false := by
  obtain ⟨hlt, p, hp, hbits⟩ := feed_padded_bits (by decide : 0 < 5) _ (bytes_lt payload)
  obtain ⟨hlen, hrem⟩ := feed_counts (by decide : 0 < 5) _ (bytes_lt payload)
  simp only [List.length_map] at hlen hrem
  set r := feed 8 5 0 0 (payload.map UInt8.toNat)
  set digits := r.1 ++ if r.2.2 > 0 then [r.2.1 <<< (5 - r.2.2)] else []
  -- a partial digit is left exactly when five does not divide the byte count, which is
  -- when the source adds its one padding slot
  have hsize : digits.length =
      payload.length * 8 / 5 + if payload.length % 5 = 0 then 0 else 1 := by
    simp only [digits, List.length_append, hlen, hrem]
    split_ifs <;> simp <;> omega
  have hconv : conv8to5 payload = some (digits.map Nat.toUInt8) :=
    write_vec_of_length hsize
  have hdigits : (digits.map Nat.toUInt8).map UInt8.toNat = digits :=
    map_toNat_toUInt8 fun x hx => Nat.lt_trans (hlt x hx) (by decide)
  refine ⟨_, hconv, ?_, p, hp, ?_⟩
  · intro o ho
    obtain ⟨x, hx, rfl⟩ := List.mem_map.mp ho
    have hx5 := hlt x hx
    simp only [Nat.toUInt8, UInt8.toNat_ofNat']
    omega
  · rw [hdigits]
    exact hbits

-- `conv5to8` drops fewer than eight trailing bits and regroups the rest into bytes.
theorem conv5to8_of_bits {out payload : List UInt8} {p : Nat} (hp : p < 8)
    (hout : ∀ o ∈ out, o.toNat < 2 ^ 5)
    (hbits : (out.map UInt8.toNat).flatMap (bitsOf 5) =
      (payload.map UInt8.toNat).flatMap (bitsOf 8) ++ List.replicate p false) :
    conv5to8 out = some payload := by
  have hds : ∀ d ∈ out.map UInt8.toNat, d < 2 ^ 5 := by
    simp only [List.mem_map]
    rintro _ ⟨o, ho, rfl⟩
    exact hout o ho
  have hfeed := feed_of_padded (by decide : 0 < 8) _ _ p hp (bytes_lt payload) hds hbits
  have hlen := congrArg List.length hbits
  simp only [length_flatMap_bitsOf, List.length_append, List.length_replicate,
    List.length_map] at hlen
  unfold conv5to8
  rw [hfeed, write_vec_of_length (by simp only [List.length_map]; omega), List.map_map]
  conv_rhs => rw [← List.map_id payload]
  exact congrArg some (List.map_congr_left fun b _ => by simp [Nat.toUInt8])

theorem conv5to8_conv8to5 {payload out : List UInt8} (h : conv8to5 payload = some out) :
    conv5to8 out = some payload := by
  obtain ⟨out', h', hout, p, hp, hbits⟩ := conv8to5_spec payload
  rw [h] at h'
  cases h'
  exact conv5to8_of_bits (by omega) hout hbits

theorem conv8to5_length {payload out : List UInt8} (h : conv8to5 payload = some out) :
    out.length = (payload.length * 8 + 4) / 5 := by
  obtain ⟨out', h', -, p, hp, hbits⟩ := conv8to5_spec payload
  rw [h] at h'
  cases h'
  have hlen := congrArg List.length hbits
  simp only [length_flatMap_bitsOf, List.length_append, List.length_replicate,
    List.length_map] at hlen
  omega

end Conversions

section Charset

theorem rev_charset_charset : ∀ i : Fin 32,
    (CHARSET[i.val]?).map rev_charset = some (.ok i.val.toUInt8) := by
  decide

-- Spelling 5-bit digits with `CHARSET` is undone letter by letter by `REV_CHARSET`.
theorem mapM_charset {digits : List UInt8} (h : ∀ d ∈ digits, d.toNat < 2 ^ 5) :
    ∃ s, digits.mapM (fun c => CHARSET[c.toNat]?) = some s ∧ s.length = digits.length ∧
      s.mapM rev_charset = .ok digits := by
  induction digits with
  | nil => exact ⟨[], rfl, rfl, rfl⟩
  | cons d ds ih =>
    obtain ⟨s, hs, hlen, hrev⟩ := ih fun x hx => h x (List.mem_cons_of_mem _ hx)
    have hd := rev_charset_charset ⟨d.toNat, h d List.mem_cons_self⟩
    obtain ⟨b, hb, hrevb⟩ : ∃ b, CHARSET[d.toNat]? = some b ∧ rev_charset b = .ok d := by
      cases hget : CHARSET[d.toNat]? with
      | none => rw [hget] at hd; cases hd
      | some b =>
        rw [hget] at hd
        refine ⟨b, rfl, ?_⟩
        simpa using hd
    refine ⟨b :: s, ?_, ?_, ?_⟩
    · simp [List.mapM_cons, hb, hs]
    · simp [hlen]
    · rw [List.mapM_cons, hrevb, hrev]
      rfl

end Charset

namespace Address

-- The string is built from `CHARSET` bytes only, so `String::from_utf8(..).expect(..)`
-- returns them as they are.
def encode_payload (self : Address) : Option (List UInt8) := do
  let fivebit_payload ← conv8to5 (self.version.to_u8 :: self.payload)
  let fivebit_prefix := self.prefix_.as_str.map (· &&& 0x1f)
  let checksum := checksum fivebit_payload fivebit_prefix
  let fivebit_checksum ← conv8to5 ((to_be_bytes checksum).drop 3)
  (fivebit_payload ++ fivebit_checksum).mapM fun c => CHARSET[c.toNat]?

-- The `scan` stops at the first byte outside the charset and `err?` returns its error.
-- Below 8 bytes `address.len() - 8` underflows, or `split_at` is past the end: a panic.
def decode_payload (prefix_ : Prefix) (address : List UInt8) :
    Option (Except AddressError Address) :=
  match address.mapM rev_charset with
  | .error e => some (.error e)
  | .ok address_u5 =>
    if address.length < 8 then none
    else do
      let payload_u5 := address_u5.take (address.length - 8)
      let checksum_u5 := address_u5.drop (address.length - 8)
      let fivebit_prefix := prefix_.as_str.map (· &&& 0x1f)
      let checksum_bytes := [0, 0, 0] ++ (← conv5to8 checksum_u5)
      -- `try_into().expect("Is exactly 8 bytes")`
      if checksum_bytes.length ≠ 8 then none
      else if checksum payload_u5 fivebit_prefix ≠ from_be_bytes checksum_bytes then
        some (.error .BadChecksum)
      else
        let payload_u8 ← conv5to8 payload_u5
        let version_byte ← payload_u8.head?
        match Version.try_from version_byte with
        | .error e => some (.error e)
        | .ok version => (new prefix_ version payload_u8.tail).map .ok

-- Decoding what `encode_payload` wrote gives the address back: its digits spell the
-- 5-bit payload and the eight digits of the checksum, which is below 2^40.
theorem decode_payload_encode_payload (a : Address)
    (hlen : a.payload.length = a.version.public_key_len) :
    ∃ s, a.encode_payload = some s ∧ decode_payload a.prefix_ s = some (.ok a) := by
  obtain ⟨fp, hfp, hfp_lt, -⟩ := conv8to5_spec (a.version.to_u8 :: a.payload)
  set c := checksum fp (a.prefix_.as_str.map (· &&& 0x1f)) with hc
  obtain ⟨fc, hfc, hfc_lt, -⟩ := conv8to5_spec ((to_be_bytes c).drop 3)
  have hfc_len : fc.length = 8 := by
    rw [conv8to5_length hfc]
    simp [to_be_bytes]
  have hdigits : ∀ d ∈ fp ++ fc, d.toNat < 2 ^ 5 := by
    intro d hd
    rcases List.mem_append.mp hd with hd | hd
    · exact hfp_lt d hd
    · exact hfc_lt d hd
  obtain ⟨s, hs, hslen, hrev⟩ := mapM_charset hdigits
  have henc : a.encode_payload = some s := by
    simp only [encode_payload, hfp, Option.bind_eq_bind, Option.bind_some, ← hc, hfc]
    exact hs
  refine ⟨s, henc, ?_⟩
  -- the last eight digits are the checksum's, the rest the payload's
  have hs8 : ¬ s.length < 8 := by
    rw [hslen, List.length_append, hfc_len]
    omega
  have htake : (fp ++ fc).take (s.length - 8) = fp := by
    rw [hslen, List.length_append, hfc_len, Nat.add_sub_cancel, List.take_left]
  have hdrop : (fp ++ fc).drop (s.length - 8) = fc := by
    rw [hslen, List.length_append, hfc_len, Nat.add_sub_cancel, List.drop_left]
  have hsum : from_be_bytes ([0, 0, 0] ++ (to_be_bytes c).drop 3) = c :=
    from_be_bytes_to_be_bytes_drop (polymod_lt _)
  have hsize : ([0, 0, 0] ++ (to_be_bytes c).drop 3).length = 8 := by
    simp [to_be_bytes]
  unfold decode_payload
  rw [hrev]
  simp only [hs8, if_false, htake, hdrop, conv5to8_conv8to5 hfc, conv5to8_conv8to5 hfp,
    Option.bind_eq_bind, Option.bind_some, hsize, ← hc, hsum]
  -- the version byte leads the payload, and `Address::new` accepts the rest
  have hnew : new a.prefix_ a.version a.payload = some a := by
    simp [new, hlen]
  simp [Version.try_from_to_u8, hnew]

-- Whatever string it came from, an address `decode_payload` accepts passed the length
-- check of `Address::new`.
theorem decode_payload_ok {prefix_ : Prefix} {address : List UInt8} {a : Address}
    (h : decode_payload prefix_ address = some (.ok a)) :
    a.payload.length = a.version.public_key_len := by
  unfold decode_payload at h
  split at h
  · cases h
  · split_ifs at h
    simp only [Option.bind_eq_bind, Option.bind_eq_some_iff] at h
    obtain ⟨_, -, h⟩ := h
    -- a bad checksum is an error, not an address
    split_ifs at h
    · cases h
    simp only [Option.bind_eq_some_iff] at h
    obtain ⟨_, -, _, -, h⟩ := h
    split at h
    · cases h
    · obtain ⟨_, hnew, hok⟩ := Option.map_eq_some_iff.mp h
      cases hok
      obtain ⟨hlen, rfl⟩ := new_eq_some_iff.mp hnew
      exact hlen

end Address

end Waglayla.Addresses
