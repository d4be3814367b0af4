import Waglayla.Consensus.Ghostdag.Data
import Waglayla.Consensus.Hashing.Tx
import Waglayla.Math.UintCodec

-- The preimage `hash_override_nonce_time` feeds its hasher; read back field by field, the
-- stream fixes every field it writes.

namespace Waglayla.Consensus

open Waglayla.Math (Uint)
open Waglayla.TxScript (Bytes)

namespace Hashing

-- `BlueWorkType`, the `Uint192` of `waglayla_math`.
abbrev BlueWorkType := Uint 3

-- The fields of a `Header` its hash reads; the cached `hash` is left out. (The header processor
-- keeps its own view of a header, `Waglayla.Consensus.Header`.)
structure Header where
  version : UInt16
  parents_by_level : List (List Hash)
  hash_merkle_root : Hash
  accepted_id_merkle_root : Hash
  utxo_commitment : Hash
  timestamp : UInt64
  bits : UInt32
  nonce : UInt64
  daa_score : UInt64
  blue_work : BlueWorkType
  blue_score : UInt64
  pruning_point : Hash

-- What the Rust types hold of every header: each `Hash` (and `Blake2Hash`) has 32 bytes, and no
-- vector has `2 ^ 64` elements.
structure Header.Sized (header : Header) : Prop where
  parents_by_level : header.parents_by_level.length < 2 ^ 64 ∧
    ∀ level ∈ header.parents_by_level, level.length < 2 ^ 64 ∧ ∀ hash ∈ level, hash.length = 32
  hash_merkle_root : header.hash_merkle_root.length = 32
  accepted_id_merkle_root : header.accepted_id_merkle_root.length = 32
  utxo_commitment : header.utxo_commitment.length = 32
  pruning_point : header.pruning_point.length = 32

namespace Hasher

-- `write_var_array`: the count, then each element.
def write_var_array (self : Hasher) (arr : List Bytes) : Hasher :=
  arr.foldl update (self.write_len arr.length)

-- `write_blue_work`: the big-endian bytes from the first that is not zero, behind their count.
def write_blue_work (self : Hasher) (work : BlueWorkType) : Hasher :=
  let be_bytes := work.to_be_bytes
  let start := (be_bytes.findIdx? (· != 0)).getD be_bytes.length
  self.write_var_bytes (be_bytes.drop start)

theorem stream_write_var_array (self : Hasher) (arr : List Bytes) :
    (self.write_var_array arr).stream =
      self.stream ++ (LittleEndian.encode 8 arr.length ++ arr.flatMap fun hash => hash) := by
  rw [write_var_array, stream_foldl fun hasher x => by rw [stream_update, stream_update, stream_new,
    List.nil_append], stream_write_len, List.append_assoc]
  simp only [stream_update, stream_new, List.nil_append]

theorem stream_write_var_array_new (self : Hasher) (arr : List Bytes) :
    (self.write_var_array arr).stream = self.stream ++ (new.write_var_array arr).stream := by
  rw [stream_write_var_array, stream_write_var_array, stream_new, List.nil_append]

-- Skipping to the first byte that is not zero drops the leading zeros.
theorem drop_findIdx?_getD (bytes : Bytes) :
    bytes.drop ((bytes.findIdx? (· != 0)).getD bytes.length) = bytes.dropWhile (· == 0) := by
  induction bytes with
  | nil => rfl
  | cons b bytes ih =>
    by_cases hb : b = 0
    · subst hb
      rw [List.findIdx?_cons, List.dropWhile_cons_of_pos (by decide), ← ih]
      cases bytes.findIdx? (· != 0) <;> rfl
    · rw [List.findIdx?_cons, if_pos (bne_iff_ne.mpr hb), List.dropWhile_cons_of_neg
        (by simpa using hb)]
      rfl

theorem stream_write_blue_work (self : Hasher) (work : BlueWorkType) :
    (self.write_blue_work work).stream = self.stream ++
      (LittleEndian.encode 8 work.to_be_bytes_var.length ++ work.to_be_bytes_var) := by
  rw [write_blue_work, stream_write_var_bytes, drop_findIdx?_getD]
  rfl

end Hasher

namespace header

-- The hasher `hash_override_nonce_time` feeds, before `finalize`.
def hash_override_nonce_time_hasher (header : Header) (nonce timestamp : UInt64) : Hasher :=
  let hasher := (Hasher.new.write_u16 header.version).write_len header.parents_by_level.length
  let hasher := header.parents_by_level.foldl Hasher.write_var_array hasher
  (((((((((hasher.update header.hash_merkle_root).update header.accepted_id_merkle_root).update
    header.utxo_commitment).write_u64 timestamp).write_u32 header.bits).write_u64 nonce).write_u64
    header.daa_score).write_u64 header.blue_score).write_blue_work header.blue_work).update
    header.pruning_point

-- `hash_override_nonce_time` and `hash`, with the digest of `BlockHash` as a parameter.
def hash_override_nonce_time (block_hash : Bytes → Bytes) (header : Header)
    (nonce timestamp : UInt64) : Bytes :=
  block_hash (hash_override_nonce_time_hasher header nonce timestamp).stream

def hash (block_hash : Bytes → Bytes) (header : Header) : Bytes :=
  hash_override_nonce_time block_hash header header.nonce header.timestamp

section Preimage

open PrefixCode

-- The stream of a header, word by word.
theorem stream_hash_override_nonce_time_hasher (header : Header) (nonce timestamp : UInt64) :
    (hash_override_nonce_time_hasher header nonce timestamp).stream =
      LittleEndian.encode 2 header.version.toNat ++
        ((LittleEndian.encode 8 header.parents_by_level.length ++
            header.parents_by_level.flatMap fun level =>
              LittleEndian.encode 8 level.length ++ level.flatMap fun hash => hash) ++
          (header.hash_merkle_root ++ (header.accepted_id_merkle_root ++ (header.utxo_commitment ++
            (LittleEndian.encode 8 timestamp.toNat ++ (LittleEndian.encode 4 header.bits.toNat ++
              (LittleEndian.encode 8 nonce.toNat ++ (LittleEndian.encode 8 header.daa_score.toNat ++
                (LittleEndian.encode 8 header.blue_score.toNat ++
                  ((LittleEndian.encode 8 header.blue_work.to_be_bytes_var.length ++
                      header.blue_work.to_be_bytes_var) ++
                    header.pruning_point)))))))))) := by
  have hlevels := Hasher.stream_foldl Hasher.stream_write_var_array_new
  unfold hash_override_nonce_time_hasher
  simp only [Hasher.stream_update, Hasher.stream_write_blue_work, Hasher.stream_write_u64,
    Hasher.stream_write_u32, hlevels, Hasher.stream_write_var_array, Hasher.stream_write_len,
    Hasher.stream_write_u16, Hasher.stream_new, List.nil_append, List.append_assoc]

-- The blue work behind its count fixes the blue work.
theorem decodes_blue_work : Decodes (fun _ : BlueWorkType => True) id
    fun work => LittleEndian.encode 8 work.to_be_bytes_var.length ++ work.to_be_bytes_var := by
  refine (Decodes.var_bytes decodes_len).comap (fun work _ => ?_) fun a b h => ?_
  · have hlen : work.to_be_bytes.length = 8 * 3 := by
      rw [Uint.to_be_bytes_eq, List.length_reverse, Uint.to_le_bytes_eq, LittleEndian.length_encode]
    have hle : work.to_be_bytes_var.length ≤ work.to_be_bytes.length :=
      (List.dropWhile_suffix _).length_le
    omega
  · have hread := Uint.from_be_bytes_var_to_be_bytes_var a
    rw [h, Uint.from_be_bytes_var_to_be_bytes_var] at hread
    exact (Except.ok.inj hread).symm

-- Two headers fed with their nonces and timestamps into the same stream agree on every field
-- written.
theorem hash_override_nonce_time_hasher_injective {h1 h2 : Header}
    {nonce1 timestamp1 nonce2 timestamp2 : UInt64} (hs1 : h1.Sized) (hs2 : h2.Sized)
    (heq : (hash_override_nonce_time_hasher h1 nonce1 timestamp1).stream =
      (hash_override_nonce_time_hasher h2 nonce2 timestamp2).stream) :
    h1.version = h2.version ∧ h1.parents_by_level = h2.parents_by_level ∧
      h1.hash_merkle_root = h2.hash_merkle_root ∧
      h1.accepted_id_merkle_root = h2.accepted_id_merkle_root ∧
      h1.utxo_commitment = h2.utxo_commitment ∧ timestamp1 = timestamp2 ∧ h1.bits = h2.bits ∧
      nonce1 = nonce2 ∧ h1.daa_score = h2.daa_score ∧ h1.blue_score = h2.blue_score ∧
      h1.blue_work = h2.blue_work ∧ h1.pruning_point = h2.pruning_point := by
  rw [stream_hash_override_nonce_time_hasher, stream_hash_override_nonce_time_hasher] at heq
  simp only [List.append_assoc] at heq
  -- the fields are read back in the order they were written
  obtain ⟨hversion, heq⟩ := decodes_u16 trivial trivial heq
  obtain ⟨hparents, heq⟩ := Decodes.counted_cancel decodes_len
    (Decodes.counted decodes_len (Decodes.fixed 32)) hs1.parents_by_level hs2.parents_by_level heq
  obtain ⟨hhash_merkle_root, heq⟩ :=
    Decodes.fixed 32 hs1.hash_merkle_root hs2.hash_merkle_root heq
  obtain ⟨haccepted_id_merkle_root, heq⟩ :=
    Decodes.fixed 32 hs1.accepted_id_merkle_root hs2.accepted_id_merkle_root heq
  obtain ⟨hutxo_commitment, heq⟩ := Decodes.fixed 32 hs1.utxo_commitment hs2.utxo_commitment heq
  obtain ⟨htimestamp, heq⟩ := decodes_u64 trivial trivial heq
  obtain ⟨hbits, heq⟩ := decodes_u32 trivial trivial heq
  obtain ⟨hnonce, heq⟩ := decodes_u64 trivial trivial heq
  obtain ⟨hdaa_score, heq⟩ := decodes_u64 trivial trivial heq
  obtain ⟨hblue_score, heq⟩ := decodes_u64 trivial trivial heq
  obtain ⟨hblue_work, hpruning_point⟩ := decodes_blue_work trivial trivial heq
  simp only [List.map_id_fun, List.map_id] at hparents
  exact ⟨hversion, hparents, hhash_merkle_root, haccepted_id_merkle_root, hutxo_commitment,
    htimestamp, hbits, hnonce, hdaa_score, hblue_score, hblue_work, hpruning_point⟩

end Preimage

end header

-- The hash preimages are read back field by field: equal streams of two transactions under the
-- same flags give equal fields, the signature scripts and sig-op counts when the flags keep them
-- and the mass when it is written for either; equal streams of two headers give equal fields,
-- nonces and timestamps.
theorem hash_preimages_injective :
    (∀ (hasher : Hasher) (t1 t2 : Transaction) (encoding_flags : TxEncodingFlags)
      (include_mass_field : Bool), t1.Sized → t2.Sized →
      (write_transaction hasher t1 encoding_flags include_mass_field).stream =
        (write_transaction hasher t2 encoding_flags include_mass_field).stream →
      t1.version = t2.version ∧
      t1.inputs.map (fun input => (input.previous_outpoint, input.sequence)) =
        t2.inputs.map (fun input => (input.previous_outpoint, input.sequence)) ∧
      (encoding_flags &&& TX_ENCODING_EXCLUDE_SIGNATURE_SCRIPT ≠
        TX_ENCODING_EXCLUDE_SIGNATURE_SCRIPT → t1.inputs = t2.inputs) ∧
      t1.outputs = t2.outputs ∧ t1.lock_time = t2.lock_time ∧
      t1.subnetwork_id = t2.subnetwork_id ∧ t1.gas = t2.gas ∧ t1.payload = t2.payload ∧
      (include_mass_field = true → t1.mass ≠ 0 ∨ t2.mass ≠ 0 → t1.mass = t2.mass)) ∧
    (∀ (h1 h2 : Header) (nonce1 timestamp1 nonce2 timestamp2 : UInt64), h1.Sized → h2.Sized →
      (header.hash_override_nonce_time_hasher h1 nonce1 timestamp1).stream =
        (header.hash_override_nonce_time_hasher h2 nonce2 timestamp2).stream →
      h1.version = h2.version ∧ h1.parents_by_level = h2.parents_by_level ∧
      h1.hash_merkle_root = h2.hash_merkle_root ∧
      h1.accepted_id_merkle_root = h2.accepted_id_merkle_root ∧
      h1.utxo_commitment = h2.utxo_commitment ∧ timestamp1 = timestamp2 ∧ h1.bits = h2.bits ∧
      nonce1 = nonce2 ∧ h1.daa_score = h2.daa_score ∧ h1.blue_score = h2.blue_score ∧
      h1.blue_work.value = h2.blue_work.value ∧ h1.pruning_point = h2.pruning_point) := by
  refine ⟨fun hasher t1 t2 encoding_flags include_mass_field h1 h2 heq => ?_,
    fun h1 h2 nonce1 timestamp1 nonce2 timestamp2 hs1 hs2 heq => ?_⟩
  · obtain ⟨hversion, hinputs, houtputs, hlock_time, hsubnetwork_id, hgas, hpayload, hmass⟩ :=
      write_transaction_injective h1 h2 heq
    refine ⟨hversion, map_input_key_outpoints hinputs,
      fun hflags => eq_of_map_input_key (bne_iff_ne.mpr hflags) hinputs, houtputs, hlock_time,
      hsubnetwork_id, hgas, hpayload, fun hinclude hset => ?_⟩
    subst hinclude
    exact mass_eq_of_mass_word_eq hmass hset
  · obtain ⟨hversion, hparents, hhash_merkle_root, haccepted_id_merkle_root, hutxo_commitment,
      htimestamp, hbits, hnonce, hdaa_score, hblue_score, hblue_work, hpruning_point⟩ :=
      header.hash_override_nonce_time_hasher_injective hs1 hs2 heq
    exact ⟨hversion, hparents, hhash_merkle_root, haccepted_id_merkle_root, hutxo_commitment,
      htimestamp, hbits, hnonce, hdaa_score, hblue_score, congrArg Uint.value hblue_work,
      hpruning_point⟩

-- The third transaction of the transaction-hashing tests, and the header of the header-hashing
-- test (`1.into()` is the hash with the word 1 in its last eight bytes).
def hashing_test_transaction : Transaction :=
  ⟨1, [⟨⟨List.replicate 32 0, 2⟩, [1, 2], 7, 5⟩], [⟨1564, ⟨7, [1, 2, 3, 4, 5]⟩⟩], 0,
    SubnetworkId.from_byte 0, 0, [], 0, List.replicate 32 0⟩

def hashing_test_header : Header :=
  ⟨1, [[List.replicate 24 0 ++ [1, 0, 0, 0, 0, 0, 0, 0]]], List.replicate 32 0,
    List.replicate 32 0, List.replicate 32 0, 234, 23, 567, 0, Uint.ZERO, 0, List.replicate 32 0⟩

theorem hash_preimages_injective_hashing_tests :
    hashing_test_transaction.Sized ∧ hashing_test_header.Sized ∧
      hashing_test_transaction.outputs = hashing_test_transaction.outputs ∧
      hashing_test_header.pruning_point = hashing_test_header.pruning_point := by
  have hinputs : ∀ input ∈ hashing_test_transaction.inputs, input.Sized := by
    simp only [hashing_test_transaction, List.mem_singleton]
    rintro _ rfl
    exact ⟨rfl, by decide⟩
  have houtputs : ∀ output ∈ hashing_test_transaction.outputs,
      output.script_public_key.script.length < 2 ^ 64 := by
    simp only [hashing_test_transaction, List.mem_singleton]
    rintro _ rfl
    decide
  have hlevels : ∀ level ∈ hashing_test_header.parents_by_level,
      level.length < 2 ^ 64 ∧ ∀ hash ∈ level, hash.length = 32 := by
    simp only [hashing_test_header, List.mem_singleton]
    rintro _ rfl
    exact ⟨by decide, by simp⟩
  have htx : hashing_test_transaction.Sized :=
    ⟨⟨by decide, hinputs⟩, ⟨by decide, houtputs⟩, rfl, by decide⟩
  have hheader : hashing_test_header.Sized := ⟨⟨by decide, hlevels⟩, rfl, rfl, rfl, rfl⟩
  exact ⟨htx, hheader,
    (hash_preimages_injective.1 Hasher.new _ _ TX_ENCODING_FULL true htx htx rfl).2.2.2.1,
    (hash_preimages_injective.2 _ _ 567 234 567 234 hheader hheader rfl).2.2.2.2.2.2.2.2.2.2.2⟩

end Hashing

end Waglayla.Consensus
