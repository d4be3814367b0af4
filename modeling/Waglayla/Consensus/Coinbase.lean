import Waglayla.TxScript.SigOpCount
import Waglayla.Bytes.LittleEndian

-- The coinbase payload codec of `CoinbaseManager`, all little-endian: blue score, subsidy,
-- script version, one-byte script length, script, then the miner's data unframed.

namespace Waglayla.Consensus

open Waglayla.TxScript (ScriptPublicKey Bytes)

structure MinerData where
  script_public_key : ScriptPublicKey
  extra_data : Bytes
  deriving DecidableEq, Repr

structure CoinbaseData where
  blue_score : UInt64
  subsidy : UInt64
  miner_data : MinerData
  deriving DecidableEq, Repr

inductive CoinbaseError where
  | PayloadLenBelowMin (len min : Nat)
  | PayloadLenAboveMax (len max : Nat)
  | PayloadScriptPublicKeyLenAboveMax (len : Nat) (max : UInt8)
  | PayloadCantContainScriptPublicKey (len min : Nat)
  deriving DecidableEq, Repr

namespace Coinbase

def LENGTH_OF_BLUE_SCORE : Nat := 8
def LENGTH_OF_SUBSIDY : Nat := 8
def LENGTH_OF_SCRIPT_PUB_KEY_VERSION : Nat := 2
def LENGTH_OF_SCRIPT_PUB_KEY_LENGTH : Nat := 1

def MIN_PAYLOAD_LENGTH : Nat :=
  LENGTH_OF_BLUE_SCORE + LENGTH_OF_SUBSIDY + LENGTH_OF_SCRIPT_PUB_KEY_VERSION +
    LENGTH_OF_SCRIPT_PUB_KEY_LENGTH

-- The two settings of `CoinbaseManager` the payload codec reads.
structure CoinbaseManager where
  coinbase_payload_script_public_key_max_len : UInt8
  max_coinbase_payload_len : Nat
  deriving DecidableEq, Repr

-- `PayloadParser::take`: the first `n` bytes and the rest; `split_at` panics past the end.
def PayloadParser.take (remaining : Bytes) (n : Nat) : Option (Bytes × Bytes) :=
  if n ≤ remaining.length then some (remaining.take n, remaining.drop n) else none

-- `uN::from_le_bytes(segment.try_into().unwrap())`: the conversion to `[u8; N]` panics
-- unless the segment has `N` bytes.
def from_le_bytes (width : Nat) (segment : Bytes) : Option Nat :=
  if segment.length = width then some (LittleEndian.decode segment) else none

namespace CoinbaseManager

def serialize_coinbase_payload (self : CoinbaseManager) (data : CoinbaseData) :
    Except CoinbaseError Bytes :=
  let script_pub_key_len := data.miner_data.script_public_key.script.length
  if script_pub_key_len > self.coinbase_payload_script_public_key_max_len.toNat then
    .error (.PayloadScriptPublicKeyLenAboveMax script_pub_key_len
      self.coinbase_payload_script_public_key_max_len)
  else
    .ok (LittleEndian.encode 8 data.blue_score.toNat ++
      LittleEndian.encode 8 data.subsidy.toNat ++
      LittleEndian.encode 2 data.miner_data.script_public_key.version.toNat ++
      -- `(script_pub_key_len as u8).to_le_bytes()`
      [script_pub_key_len.toUInt8] ++
      data.miner_data.script_public_key.script ++
      data.miner_data.extra_data)

-- The payload keeps its blue score and subsidy (`truncate`) and gets the new miner data.
def modify_coinbase_payload (self : CoinbaseManager) (payload : Bytes) (miner_data : MinerData) :
    Except CoinbaseError Bytes :=
  let script_pub_key_len := miner_data.script_public_key.script.length
  if script_pub_key_len > self.coinbase_payload_script_public_key_max_len.toNat then
    .error (.PayloadScriptPublicKeyLenAboveMax script_pub_key_len
      self.coinbase_payload_script_public_key_max_len)
  else
    .ok (payload.take (LENGTH_OF_BLUE_SCORE + LENGTH_OF_SUBSIDY) ++
      LittleEndian.encode 2 miner_data.script_public_key.version.toNat ++
      [script_pub_key_len.toUInt8] ++
      miner_data.script_public_key.script ++
      miner_data.extra_data)

-- `none` is a panic of the parser; the extra data is whatever follows the script.
def deserialize_coinbase_payload (self : CoinbaseManager) (payload : Bytes) :
    Option (Except CoinbaseError CoinbaseData) :=
  if payload.length < MIN_PAYLOAD_LENGTH then
    some (.error (.PayloadLenBelowMin payload.length MIN_PAYLOAD_LENGTH))
  else if payload.length > self.max_coinbase_payload_len then
    some (.error (.PayloadLenAboveMax payload.length self.max_coinbase_payload_len))
  else do
    let (segment, remaining) ← PayloadParser.take payload LENGTH_OF_BLUE_SCORE
    let blue_score ← from_le_bytes LENGTH_OF_BLUE_SCORE segment
    let (segment, remaining) ← PayloadParser.take remaining LENGTH_OF_SUBSIDY
    let subsidy ← from_le_bytes LENGTH_OF_SUBSIDY segment
    let (segment, remaining) ← PayloadParser.take remaining LENGTH_OF_SCRIPT_PUB_KEY_VERSION
    let script_pub_key_version ← from_le_bytes LENGTH_OF_SCRIPT_PUB_KEY_VERSION segment
    let (segment, remaining) ← PayloadParser.take remaining LENGTH_OF_SCRIPT_PUB_KEY_LENGTH
    let script_pub_key_len ← from_le_bytes LENGTH_OF_SCRIPT_PUB_KEY_LENGTH segment
    if script_pub_key_len > self.coinbase_payload_script_public_key_max_len.toNat then
      some (.error (.PayloadScriptPublicKeyLenAboveMax script_pub_key_len
        self.coinbase_payload_script_public_key_max_len))
    else if remaining.length < script_pub_key_len then
      some (.error (.PayloadCantContainScriptPublicKey payload.length
        (MIN_PAYLOAD_LENGTH + script_pub_key_len)))
    else do
      let (script, extra_data) ← PayloadParser.take remaining script_pub_key_len
      some (.ok
        { blue_score := blue_score.toUInt64
          subsidy := subsidy.toUInt64
          miner_data :=
            { script_public_key := ⟨script_pub_key_version.toUInt16, script⟩
              extra_data } })

end CoinbaseManager

end Coinbase

end Waglayla.Consensus

namespace Waglayla.Consensus.Coinbase

open Waglayla.TxScript (Bytes)

section Parser

theorem PayloadParser.take_append {pre remaining : Bytes} {n : Nat} (h : pre.length = n) :
    PayloadParser.take (pre ++ remaining) n = some (pre, remaining) := by
  subst h
  simp [PayloadParser.take]

theorem PayloadParser.take_of_le {remaining : Bytes} {n : Nat} (h : n ≤ remaining.length) :
    PayloadParser.take remaining n = some (remaining.take n, remaining.drop n) :=
  if_pos h

theorem from_le_bytes_of_length {segment : Bytes} {width : Nat} (h : segment.length = width) :
    from_le_bytes width segment = some (LittleEndian.decode segment) :=
  if_pos h

end Parser

namespace CoinbaseManager

variable (self : CoinbaseManager)

theorem deserialize_coinbase_payload_split {blue_score subsidy version length remaining : Bytes}
    (h1 : blue_score.length = 8) (h2 : subsidy.length = 8) (h3 : version.length = 2)
    (h4 : length.length = 1)
    (hmax : MIN_PAYLOAD_LENGTH + remaining.length ≤ self.max_coinbase_payload_len) :
    self.deserialize_coinbase_payload (blue_score ++ subsidy ++ version ++ length ++ remaining) =
      if LittleEndian.decode length > self.coinbase_payload_script_public_key_max_len.toNat then
        some (.error (.PayloadScriptPublicKeyLenAboveMax (LittleEndian.decode length)
          self.coinbase_payload_script_public_key_max_len))
      else if remaining.length < LittleEndian.decode length then
        some (.error (.PayloadCantContainScriptPublicKey (MIN_PAYLOAD_LENGTH + remaining.length)
          (MIN_PAYLOAD_LENGTH + LittleEndian.decode length)))
      else
        some (.ok
          { blue_score := (LittleEndian.decode blue_score).toUInt64
            subsidy := (LittleEndian.decode subsidy).toUInt64
            miner_data :=
              { script_public_key := ⟨(LittleEndian.decode version).toUInt16,
                  remaining.take (LittleEndian.decode length)⟩
                extra_data := remaining.drop (LittleEndian.decode length) } }) := by
  have hlen : (blue_score ++ subsidy ++ version ++ length ++ remaining).length =
      MIN_PAYLOAD_LENGTH + remaining.length := by
    simp [MIN_PAYLOAD_LENGTH, LENGTH_OF_BLUE_SCORE, LENGTH_OF_SUBSIDY,
      LENGTH_OF_SCRIPT_PUB_KEY_VERSION, LENGTH_OF_SCRIPT_PUB_KEY_LENGTH, h1, h2, h3, h4]
    omega
  unfold deserialize_coinbase_payload
  rw [hlen, if_neg (by omega), if_neg (by omega)]
  simp only [List.append_assoc, LENGTH_OF_BLUE_SCORE, LENGTH_OF_SUBSIDY,
    LENGTH_OF_SCRIPT_PUB_KEY_VERSION, LENGTH_OF_SCRIPT_PUB_KEY_LENGTH,
    PayloadParser.take_append h1, PayloadParser.take_append h2, PayloadParser.take_append h3,
    PayloadParser.take_append h4, from_le_bytes_of_length h1, from_le_bytes_of_length h2,
    from_le_bytes_of_length h3, from_le_bytes_of_length h4, Option.bind_eq_bind, Option.bind_some]
  split_ifs with habove hshort
  · rfl
  · rfl
  · rw [PayloadParser.take_of_le (Nat.le_of_not_lt hshort)]
    rfl

-- A payload long enough for the fixed fields splits into them and the rest.
theorem exists_split {payload : Bytes} (h : MIN_PAYLOAD_LENGTH ≤ payload.length) :
    ∃ blue_score subsidy version length remaining : Bytes,
      blue_score.length = 8 ∧ subsidy.length = 8 ∧ version.length = 2 ∧ length.length = 1 ∧
      payload = blue_score ++ subsidy ++ version ++ length ++ remaining := by
  simp only [MIN_PAYLOAD_LENGTH, LENGTH_OF_BLUE_SCORE, LENGTH_OF_SUBSIDY,
    LENGTH_OF_SCRIPT_PUB_KEY_VERSION, LENGTH_OF_SCRIPT_PUB_KEY_LENGTH] at h
  refine ⟨payload.take 8, (payload.drop 8).take 8, ((payload.drop 8).drop 8).take 2,
    (((payload.drop 8).drop 8).drop 2).take 1, (((payload.drop 8).drop 8).drop 2).drop 1,
    by simp; omega, by simp; omega, by simp; omega, by simp; omega, ?_⟩
  simp only [List.append_assoc, List.take_append_drop]

-- `to_le_bytes` and `from_le_bytes` of the fixed-width fields undo each other.
theorem toUInt64_decode_encode (x : UInt64) :
    (LittleEndian.decode (LittleEndian.encode 8 x.toNat)).toUInt64 = x := by
  rw [LittleEndian.decode_encode_of_lt (by simpa using x.toNat_lt)]
  exact UInt64.ofNat_toNat

theorem toUInt16_decode_encode (x : UInt16) :
    (LittleEndian.decode (LittleEndian.encode 2 x.toNat)).toUInt16 = x := by
  rw [LittleEndian.decode_encode_of_lt (by simpa using x.toNat_lt)]
  exact UInt16.ofNat_toNat

theorem encode_toUInt64_decode {bytes : Bytes} (h : bytes.length = 8) :
    LittleEndian.encode 8 (LittleEndian.decode bytes).toUInt64.toNat = bytes := by
  have hlt : LittleEndian.decode bytes < 18446744073709551616 := by
    simpa [h] using LittleEndian.decode_lt bytes
  rw [← h]
  simp [Nat.mod_eq_of_lt hlt]

theorem encode_toUInt16_decode {bytes : Bytes} (h : bytes.length = 2) :
    LittleEndian.encode 2 (LittleEndian.decode bytes).toUInt16.toNat = bytes := by
  have hlt : LittleEndian.decode bytes < 65536 := by
    simpa [h] using LittleEndian.decode_lt bytes
  rw [← h]
  simp [Nat.mod_eq_of_lt hlt]

-- The length byte is the one-byte little-endian encoding of the script length.
theorem encode_one (n : Nat) : LittleEndian.encode 1 n = [n.toUInt8] := rfl

theorem serialize_coinbase_payload_eq {data : CoinbaseData}
    (hscript : data.miner_data.script_public_key.script.length ≤
      self.coinbase_payload_script_public_key_max_len.toNat) :
    self.serialize_coinbase_payload data =
      .ok (LittleEndian.encode 8 data.blue_score.toNat ++ LittleEndian.encode 8 data.subsidy.toNat ++
        LittleEndian.encode 2 data.miner_data.script_public_key.version.toNat ++
        LittleEndian.encode 1 data.miner_data.script_public_key.script.length ++
        (data.miner_data.script_public_key.script ++ data.miner_data.extra_data)) := by
  simp only [serialize_coinbase_payload, encode_one, List.append_assoc]
  rw [if_neg (Nat.not_lt.mpr hscript)]

-- Every payload the serializer writes within the limits reads back as the data it came from.
theorem deserialize_serialize_coinbase_payload {data : CoinbaseData}
    (hscript : data.miner_data.script_public_key.script.length ≤
      self.coinbase_payload_script_public_key_max_len.toNat)
    (hlen : MIN_PAYLOAD_LENGTH + data.miner_data.script_public_key.script.length +
      data.miner_data.extra_data.length ≤ self.max_coinbase_payload_len) :
    ∃ payload, self.serialize_coinbase_payload data = .ok payload ∧
      self.deserialize_coinbase_payload payload = some (.ok data) := by
  refine ⟨_, serialize_coinbase_payload_eq self hscript, ?_⟩
  have hbyte : data.miner_data.script_public_key.script.length < 256 ^ 1 := by
    have : self.coinbase_payload_script_public_key_max_len.toNat < 2 ^ 8 := UInt8.toNat_lt _
    omega
  rw [deserialize_coinbase_payload_split self (LittleEndian.length_encode _ _)
    (LittleEndian.length_encode _ _) (LittleEndian.length_encode _ _)
    (LittleEndian.length_encode _ _) (by simp only [List.length_append]; omega),
    LittleEndian.decode_encode_of_lt hbyte, if_neg (Nat.not_lt.mpr hscript),
    if_neg (by simp), toUInt64_decode_encode, toUInt64_decode_encode, toUInt16_decode_encode]
  simp

-- `modify_coinbase_payload` on a serialized payload serializes the data with the new
-- miner data: the blue score and the subsidy are the first sixteen bytes it keeps.
theorem modify_coinbase_payload_serialize {data : CoinbaseData} {miner_data : MinerData}
    {payload : Bytes} (h : self.serialize_coinbase_payload data = .ok payload) :
    self.modify_coinbase_payload payload miner_data =
      self.serialize_coinbase_payload { data with miner_data } := by
  unfold serialize_coinbase_payload at h
  dsimp only at h
  split_ifs at h
  cases h
  have hkeep : (LittleEndian.encode 8 data.blue_score.toNat ++
      LittleEndian.encode 8 data.subsidy.toNat ++
      LittleEndian.encode 2 data.miner_data.script_public_key.version.toNat ++
      [data.miner_data.script_public_key.script.length.toUInt8] ++
      data.miner_data.script_public_key.script ++ data.miner_data.extra_data).take
        (LENGTH_OF_BLUE_SCORE + LENGTH_OF_SUBSIDY) =
      LittleEndian.encode 8 data.blue_score.toNat ++ LittleEndian.encode 8 data.subsidy.toNat := by
    simp only [List.append_assoc]
    rw [← List.append_assoc]
    exact List.take_left' (by simp [LENGTH_OF_BLUE_SCORE, LENGTH_OF_SUBSIDY])
  simp only [modify_coinbase_payload, serialize_coinbase_payload, hkeep]

-- Every payload the parser accepts is the serialization of what it returns.
theorem serialize_deserialize_coinbase_payload {payload : Bytes} {data : CoinbaseData}
    (h : self.deserialize_coinbase_payload payload = some (.ok data)) :
    self.serialize_coinbase_payload data = .ok payload := by
  have hmin : MIN_PAYLOAD_LENGTH ≤ payload.length := by
    by_contra hlt
    rw [deserialize_coinbase_payload, if_pos (Nat.lt_of_not_le hlt)] at h
    cases h
  have hmax : payload.length ≤ self.max_coinbase_payload_len := by
    by_contra hgt
    rw [deserialize_coinbase_payload, if_neg (Nat.not_lt.mpr hmin),
      if_pos (Nat.lt_of_not_le hgt)] at h
    cases h
  obtain ⟨blue_score, subsidy, version, length, remaining, h1, h2, h3, h4, rfl⟩ := exists_split hmin
  have hrest : MIN_PAYLOAD_LENGTH + remaining.length ≤ self.max_coinbase_payload_len := by
    simp only [List.length_append, h1, h2, h3, h4] at hmax
    simp only [MIN_PAYLOAD_LENGTH, LENGTH_OF_BLUE_SCORE, LENGTH_OF_SUBSIDY,
      LENGTH_OF_SCRIPT_PUB_KEY_VERSION, LENGTH_OF_SCRIPT_PUB_KEY_LENGTH]
    omega
  rw [deserialize_coinbase_payload_split self h1 h2 h3 h4 hrest] at h
  split_ifs at h with habove hshort
  · cases h
  · cases h
  cases h
  have hscript : (remaining.take (LittleEndian.decode length)).length = LittleEndian.decode length :=
    List.length_take_of_le (Nat.le_of_not_lt hshort)
  rw [serialize_coinbase_payload_eq self (by rw [hscript]; exact Nat.le_of_not_lt habove)]
  simp only [hscript, encode_toUInt64_decode h1, encode_toUInt64_decode h2,
    encode_toUInt16_decode h3, List.take_append_drop, List.append_assoc]
  have hlength : LittleEndian.encode 1 (LittleEndian.decode length) = length := by
    rw [← h4]
    exact LittleEndian.encode_decode length
  rw [hlength]

-- The parser never panics: every `take` it makes is within the payload.
theorem deserialize_coinbase_payload_ne_none (payload : Bytes) :
    self.deserialize_coinbase_payload payload ≠ none := by
  by_cases hmin : payload.length < MIN_PAYLOAD_LENGTH
  · simp [deserialize_coinbase_payload, hmin]
  by_cases hmax : payload.length > self.max_coinbase_payload_len
  · simp [deserialize_coinbase_payload, hmin, hmax]
  obtain ⟨blue_score, subsidy, version, length, remaining, h1, h2, h3, h4, rfl⟩ :=
    exists_split (Nat.le_of_not_lt hmin)
  have hrest : MIN_PAYLOAD_LENGTH + remaining.length ≤ self.max_coinbase_payload_len := by
    simp only [List.length_append, h1, h2, h3, h4] at hmax
    simp only [MIN_PAYLOAD_LENGTH, LENGTH_OF_BLUE_SCORE, LENGTH_OF_SUBSIDY,
      LENGTH_OF_SCRIPT_PUB_KEY_VERSION, LENGTH_OF_SCRIPT_PUB_KEY_LENGTH]
    omega
  rw [deserialize_coinbase_payload_split self h1 h2 h3 h4 hrest]
  split_ifs <;> simp

theorem deserialize_coinbase_payload_above_max {payload : Bytes}
    (hmin : MIN_PAYLOAD_LENGTH ≤ payload.length) (hmax : self.max_coinbase_payload_len < payload.length) :
    self.deserialize_coinbase_payload payload =
      some (.error (.PayloadLenAboveMax payload.length self.max_coinbase_payload_len)) := by
  rw [deserialize_coinbase_payload, if_neg (Nat.not_lt.mpr hmin), if_pos hmax]

-- The codec round trips both ways within the limits, for the original miner data and for
-- any replacement that also fits, and the parser never panics.
theorem coinbase_payload_round_trip :
    (∀ data : CoinbaseData,
      data.miner_data.script_public_key.script.length ≤
        self.coinbase_payload_script_public_key_max_len.toNat →
      MIN_PAYLOAD_LENGTH + data.miner_data.script_public_key.script.length +
        data.miner_data.extra_data.length ≤ self.max_coinbase_payload_len →
      ∃ payload, self.serialize_coinbase_payload data = .ok payload ∧
        self.deserialize_coinbase_payload payload = some (.ok data) ∧
        ∀ miner_data : MinerData,
          miner_data.script_public_key.script.length ≤
            self.coinbase_payload_script_public_key_max_len.toNat →
          MIN_PAYLOAD_LENGTH + miner_data.script_public_key.script.length +
            miner_data.extra_data.length ≤ self.max_coinbase_payload_len →
          ∃ payload', self.modify_coinbase_payload payload miner_data = .ok payload' ∧
            self.deserialize_coinbase_payload payload' = some (.ok { data with miner_data })) ∧
    (∀ payload data, self.deserialize_coinbase_payload payload = some (.ok data) →
      self.serialize_coinbase_payload data = .ok payload) ∧
    (∀ payload, self.deserialize_coinbase_payload payload ≠ none) := by
  refine ⟨fun data hscript hlen => ?_, fun _ _ h => serialize_deserialize_coinbase_payload self h,
    deserialize_coinbase_payload_ne_none self⟩
  obtain ⟨payload, hser, hde⟩ := deserialize_serialize_coinbase_payload self hscript hlen
  refine ⟨payload, hser, hde, fun miner_data hscript' hlen' => ?_⟩
  rw [modify_coinbase_payload_serialize self hser]
  exact deserialize_serialize_coinbase_payload self hscript' hlen'

end CoinbaseManager

-- With the mainnet limits, the payload for a 34-byte script and eight bytes of extra data is
-- 61 bytes long and parses back, and its change to empty miner data parses back as well.
theorem coinbase_payload_round_trip_mainnet :
    let manager : CoinbaseManager := ⟨150, 204⟩
    let data : CoinbaseData := ⟨1000, 5000, ⟨⟨0, List.replicate 34 7⟩, List.replicate 8 1⟩⟩
    (manager.serialize_coinbase_payload data).toOption.map List.length = some 61 ∧
    ∃ payload, manager.serialize_coinbase_payload data = .ok payload ∧
      manager.deserialize_coinbase_payload payload = some (.ok data) ∧
      ∃ payload', manager.modify_coinbase_payload payload ⟨⟨0, []⟩, []⟩ = .ok payload' ∧
        manager.deserialize_coinbase_payload payload' =
          some (.ok { data with miner_data := ⟨⟨0, []⟩, []⟩ }) := by
  intro manager data
  obtain ⟨payload, hser, hde, hmod⟩ :=
    (CoinbaseManager.coinbase_payload_round_trip manager).1 data (by decide) (by decide)
  exact ⟨by decide, payload, hser, hde, hmod _ (by decide) (by decide)⟩

-- With the mainnet limits, replacing the empty miner data of a 19-byte payload by miner data
-- with 186 bytes of extra data gives a payload the parser rejects as too long.
set_option maxRecDepth 4000 in
theorem modify_coinbase_payload_exceeds_max_len :
    let manager : CoinbaseManager := ⟨150, 204⟩
    let data : CoinbaseData := ⟨0, 0, ⟨⟨0, []⟩, []⟩⟩
    let miner_data : MinerData := ⟨⟨0, []⟩, List.replicate 186 0⟩
    manager.serialize_coinbase_payload data = .ok (List.replicate 19 0) ∧
      manager.modify_coinbase_payload (List.replicate 19 0) miner_data =
        .ok (List.replicate 205 0) ∧
      manager.deserialize_coinbase_payload (List.replicate 205 0) =
        some (.error (.PayloadLenAboveMax 205 204)) := by
  intro manager data miner_data
  have hlen : (List.replicate 205 (0 : UInt8)).length = 205 := List.length_replicate
  refine ⟨by decide, by decide, ?_⟩
  rw [CoinbaseManager.deserialize_coinbase_payload_above_max manager (by rw [hlen]; decide)
    (by rw [hlen]; decide), hlen]

end Waglayla.Consensus.Coinbase
