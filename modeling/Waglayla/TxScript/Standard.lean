import Waglayla.TxScript.SigOpCount
import Waglayla.Addresses.Address

-- The standard script templates, their classifier and the extraction of their address.

namespace Waglayla.TxScript

open codes
open Waglayla.Addresses

def MAX_SCRIPT_PUBLIC_KEY_VERSION : UInt16 := 0

inductive ScriptClass where
  | NonStandard
  | PubKey
  | PubKeyECDSA
  | ScriptHash
  deriving DecidableEq, Repr

namespace ScriptClass

-- Returns true if the script is a pay-to-pubkey script: 2 opcodes and 32 bytes of data.
def is_pay_to_pubkey (script_public_key : Bytes) : Bool :=
  script_public_key.length == 34 &&
    script_public_key[0]? == some OpData32 &&
    script_public_key[33]? == some OpCheckSig

-- Returns true if the script is an ECDSA pay-to-pubkey script: 2 opcodes and 33 bytes of data.
def is_pay_to_pubkey_ecdsa (script_public_key : Bytes) : Bool :=
  script_public_key.length == 35 &&
    script_public_key[0]? == some OpData33 &&
    script_public_key[34]? == some OpCheckSigECDSA

-- The probes run in this order; an ECDSA pay-to-pubkey script and a P2SH script have the same
-- length and are told apart by their first byte.
def from_script (script_public_key : ScriptPublicKey) : ScriptClass :=
  let script_public_key_ := script_public_key.script
  if script_public_key.version == MAX_SCRIPT_PUBLIC_KEY_VERSION then
    if is_pay_to_pubkey script_public_key_ then PubKey
    else if is_pay_to_pubkey_ecdsa script_public_key_ then PubKeyECDSA
    else if is_pay_to_script_hash script_public_key_ then ScriptHash
    else NonStandard
  else NonStandard

def version : ScriptClass → UInt16
  | NonStandard => 0
  | PubKey => MAX_SCRIPT_PUBLIC_KEY_VERSION
  | PubKeyECDSA => MAX_SCRIPT_PUBLIC_KEY_VERSION
  | ScriptHash => MAX_SCRIPT_PUBLIC_KEY_VERSION

-- `From<Version> for ScriptClass`
def from_version : Version → ScriptClass
  | .PubKey => PubKey
  | .PubKeyECDSA => PubKeyECDSA
  | .ScriptHash => ScriptHash

end ScriptClass

open ScriptClass

-- The three templates of `standard.rs`: the opcodes `head`, a payload of `payload_len` bytes
-- and one closing opcode. The `assert_eq!` on the payload length is the `none` branch.
def pay_to_template (head : Bytes) (payload_len : Nat) (tail : UInt8) (payload : Bytes) :
    Option Bytes :=
  if payload.length = payload_len then some (head ++ payload ++ [tail]) else none

def pay_to_pub_key (address_payload : Bytes) : Option Bytes :=
  pay_to_template [OpData32] 32 OpCheckSig address_payload

def pay_to_pub_key_ecdsa (address_payload : Bytes) : Option Bytes :=
  pay_to_template [OpData33] 33 OpCheckSigECDSA address_payload

def pay_to_script_hash (script_hash : Bytes) : Option Bytes :=
  pay_to_template [OpBlake3, OpData32] 32 OpEqual script_hash

def pay_to_address_script (address : Address) : Option ScriptPublicKey := do
  let script ← match address.version with
    | .PubKey => pay_to_pub_key address.payload
    | .PubKeyECDSA => pay_to_pub_key_ecdsa address.payload
    | .ScriptHash => pay_to_script_hash address.payload
  return ⟨(from_version address.version).version, script⟩

-- `none` is a panic: of a slice out of range or of the length assertion of `Address::new`.
-- The slices are `script[1..33]`, `script[1..34]` and `script[2..34]`.
def extract_script_pub_key_address (script_public_key : ScriptPublicKey) (prefix_ : Prefix) :
    Option (Except TxScriptError Address) :=
  let class_ := from_script script_public_key
  if script_public_key.version > class_.version then some (.error .PubKeyFormat)
  else
    let script := script_public_key.script
    match class_ with
    | .NonStandard => some (.error .PubKeyFormat)
    | .PubKey =>
      if 33 ≤ script.length then .ok <$> Address.new prefix_ .PubKey ((script.drop 1).take 32)
      else none
    | .PubKeyECDSA =>
      if 34 ≤ script.length then .ok <$> Address.new prefix_ .PubKeyECDSA ((script.drop 1).take 33)
      else none
    | .ScriptHash =>
      if 34 ≤ script.length then .ok <$> Address.new prefix_ .ScriptHash ((script.drop 2).take 32)
      else none

section Templates

-- A list of `k + 2` bytes is its first byte, the `k` bytes after it and its last byte.
theorem eq_cons_take_append_of_length {s : Bytes} {x y : UInt8} {k : Nat}
    (hlen : s.length = k + 2) (hx : s[0]? = some x) (hy : s[k + 1]? = some y) :
    s = x :: ((s.drop 1).take k ++ [y]) := by
  cases s with
  | nil => simp at hlen
  | cons x' t =>
    simp only [List.length_cons, Nat.add_right_cancel_iff, List.getElem?_cons_zero,
      Option.some.injEq, List.getElem?_cons_succ, List.drop_one, List.tail_cons] at hlen hx hy ⊢
    subst hx
    -- the tail is its first `k` bytes and the one byte after them
    have hdrop : t.drop k = [y] := by
      rw [List.drop_eq_getElem_cons (by omega), List.drop_eq_nil_of_le (by omega)]
      rw [List.getElem?_eq_getElem (by omega), Option.some.injEq] at hy
      rw [hy]
    rw [← hdrop, List.take_append_drop]

theorem pay_to_template_eq_some {head payload script : Bytes} {payload_len : Nat} {tail : UInt8} :
    pay_to_template head payload_len tail payload = some script ↔
      payload.length = payload_len ∧ script = head ++ payload ++ [tail] := by
  unfold pay_to_template
  split <;> simp_all [eq_comm]

theorem is_pay_to_pubkey_template (key : Bytes) (hkey : key.length = 32) :
    is_pay_to_pubkey ([OpData32] ++ key ++ [OpCheckSig]) = true := by
  simp [is_pay_to_pubkey, hkey]

theorem is_pay_to_pubkey_ecdsa_template (key : Bytes) (hkey : key.length = 33) :
    is_pay_to_pubkey_ecdsa ([OpData33] ++ key ++ [OpCheckSigECDSA]) = true := by
  simp [is_pay_to_pubkey_ecdsa, hkey]

-- What each probe accepts is exactly its template over a payload of the right length.
theorem eq_of_is_pay_to_pubkey {script : Bytes} (h : is_pay_to_pubkey script = true) :
    script = [OpData32] ++ (script.drop 1).take 32 ++ [OpCheckSig] := by
  simp only [is_pay_to_pubkey, Bool.and_eq_true, beq_iff_eq] at h
  obtain ⟨⟨hlen, h0⟩, h33⟩ := h
  exact eq_cons_take_append_of_length hlen h0 h33

theorem eq_of_is_pay_to_pubkey_ecdsa {script : Bytes} (h : is_pay_to_pubkey_ecdsa script = true) :
    script = [OpData33] ++ (script.drop 1).take 33 ++ [OpCheckSigECDSA] := by
  simp only [is_pay_to_pubkey_ecdsa, Bool.and_eq_true, beq_iff_eq] at h
  obtain ⟨⟨hlen, h0⟩, h34⟩ := h
  exact eq_cons_take_append_of_length hlen h0 h34

theorem eq_of_is_pay_to_script_hash {script : Bytes} (h : is_pay_to_script_hash script = true) :
    script = [OpBlake3, OpData32] ++ (script.drop 2).take 32 ++ [OpEqual] := by
  simp only [is_pay_to_script_hash, Bool.and_eq_true, beq_iff_eq] at h
  obtain ⟨⟨⟨hlen, h0⟩, h1⟩, h34⟩ := h
  cases script with
  | nil => simp at hlen
  | cons x t =>
    -- past the leading `OpBlake3`, the rest is an `OpData32` push and `OpEqual`
    simp only [List.length_cons, List.getElem?_cons_zero, Option.some.injEq,
      List.getElem?_cons_succ] at hlen h0 h1 h34
    subst h0
    have ht := eq_cons_take_append_of_length (by omega : t.length = 32 + 2) h1 h34
    rw [List.drop_succ_cons]
    exact congrArg (OpBlake3 :: ·) ht

theorem length_of_is_pay_to_pubkey {script : Bytes} (h : is_pay_to_pubkey script = true) :
    script.length = 34 := by
  simp only [is_pay_to_pubkey, Bool.and_eq_true, beq_iff_eq] at h
  exact h.1.1

theorem length_of_is_pay_to_pubkey_ecdsa {script : Bytes} (h : is_pay_to_pubkey_ecdsa script = true) :
    script.length = 35 := by
  simp only [is_pay_to_pubkey_ecdsa, Bool.and_eq_true, beq_iff_eq] at h
  exact h.1.1

theorem length_of_is_pay_to_script_hash {script : Bytes} (h : is_pay_to_script_hash script = true) :
    script.length = 35 := by
  simp only [is_pay_to_script_hash, Bool.and_eq_true, beq_iff_eq] at h
  exact h.1.1.1

end Templates

section Classify

variable {script_public_key : ScriptPublicKey}

-- What the classifier can answer: a standard class only at version 0, and only when that
-- class's probe accepts the script.
theorem from_script_cases (script_public_key : ScriptPublicKey) :
    (from_script script_public_key = PubKey ∧
        script_public_key.version = MAX_SCRIPT_PUBLIC_KEY_VERSION ∧
        is_pay_to_pubkey script_public_key.script = true) ∨
      (from_script script_public_key = PubKeyECDSA ∧
        script_public_key.version = MAX_SCRIPT_PUBLIC_KEY_VERSION ∧
        is_pay_to_pubkey_ecdsa script_public_key.script = true) ∨
      (from_script script_public_key = ScriptHash ∧
        script_public_key.version = MAX_SCRIPT_PUBLIC_KEY_VERSION ∧
        is_pay_to_script_hash script_public_key.script = true) ∨
      from_script script_public_key = NonStandard := by
  dsimp only [from_script]
  split_ifs with hv h1 h2 h3
  · exact .inl ⟨rfl, beq_iff_eq.mp hv, h1⟩
  · exact .inr (.inl ⟨rfl, beq_iff_eq.mp hv, h2⟩)
  · exact .inr (.inr (.inl ⟨rfl, beq_iff_eq.mp hv, h3⟩))
  · exact .inr (.inr (.inr rfl))
  · exact .inr (.inr (.inr rfl))

-- The script built for an address of any version is classified under that version: the
-- probes that run first reject it by its length or its first byte.
theorem from_script_pay_to_address_script {address : Address}
    (h : pay_to_address_script address = some script_public_key) :
    from_script script_public_key = from_version address.version := by
  unfold pay_to_address_script at h
  cases hv : address.version <;> rw [hv] at h <;>
    simp only [Option.bind_eq_bind, Option.bind_eq_some_iff, Option.pure_def,
      Option.some.injEq] at h <;> obtain ⟨script, hscript, rfl⟩ := h <;>
    simp only [pay_to_pub_key, pay_to_pub_key_ecdsa, pay_to_script_hash,
      pay_to_template_eq_some] at hscript <;> obtain ⟨hlen, rfl⟩ := hscript <;>
    dsimp only [from_script, from_version, version] <;> rw [if_pos (beq_self_eq_true _)]
  · rw [if_pos (is_pay_to_pubkey_template _ hlen)]
  · have hshort : is_pay_to_pubkey ([OpData33] ++ address.payload ++ [OpCheckSigECDSA]) = false := by
      simp [is_pay_to_pubkey, hlen]
    rw [if_neg (by rw [hshort]; decide), if_pos (is_pay_to_pubkey_ecdsa_template _ hlen)]
  · have hshort : is_pay_to_pubkey ([OpBlake3, OpData32] ++ address.payload ++ [OpEqual]) =
        false := by
      simp [is_pay_to_pubkey, hlen]
    have hfirst : is_pay_to_pubkey_ecdsa ([OpBlake3, OpData32] ++ address.payload ++ [OpEqual]) =
        false := by
      simp [is_pay_to_pubkey_ecdsa, OpBlake3, OpData33]
    have hp2sh : is_pay_to_script_hash ([OpBlake3, OpData32] ++ address.payload ++ [OpEqual]) =
        true := is_pay_to_script_hash_template _ hlen
    rw [if_neg (by rw [hshort]; decide), if_neg (by rw [hfirst]; decide), if_pos hp2sh]

theorem from_script_eq_pub_key (h : from_script script_public_key = PubKey) :
    script_public_key.version = MAX_SCRIPT_PUBLIC_KEY_VERSION ∧
      is_pay_to_pubkey script_public_key.script = true := by
  rcases from_script_cases script_public_key with ⟨-, hv, hp⟩ | ⟨h', -⟩ | ⟨h', -⟩ | h'
  · exact ⟨hv, hp⟩
  all_goals rw [h] at h'; cases h'

theorem from_script_eq_pub_key_ecdsa (h : from_script script_public_key = PubKeyECDSA) :
    script_public_key.version = MAX_SCRIPT_PUBLIC_KEY_VERSION ∧
      is_pay_to_pubkey_ecdsa script_public_key.script = true := by
  rcases from_script_cases script_public_key with ⟨h', -⟩ | ⟨-, hv, hp⟩ | ⟨h', -⟩ | h'
  · rw [h] at h'; cases h'
  · exact ⟨hv, hp⟩
  all_goals rw [h] at h'; cases h'

theorem from_script_eq_script_hash (h : from_script script_public_key = ScriptHash) :
    script_public_key.version = MAX_SCRIPT_PUBLIC_KEY_VERSION ∧
      is_pay_to_script_hash script_public_key.script = true := by
  rcases from_script_cases script_public_key with ⟨h', -⟩ | ⟨h', -⟩ | ⟨-, hv, hp⟩ | h'
  · rw [h] at h'; cases h'
  · rw [h] at h'; cases h'
  · exact ⟨hv, hp⟩
  · rw [h] at h'; cases h'

end Classify

section Extract

variable {script_public_key : ScriptPublicKey} {prefix_ : Prefix}

theorem extract_of_non_standard (h : from_script script_public_key = NonStandard) :
    extract_script_pub_key_address script_public_key prefix_ = some (.error .PubKeyFormat) := by
  simp only [extract_script_pub_key_address, h]
  split_ifs <;> rfl

-- For a script of a standard class the version check passes, the slice is in range, and it
-- has the length `Address::new` asserts.
theorem extract_of_pub_key (h : from_script script_public_key = PubKey) :
    extract_script_pub_key_address script_public_key prefix_ =
      some (.ok ⟨prefix_, .PubKey, (script_public_key.script.drop 1).take 32⟩) := by
  obtain ⟨hv, hp⟩ := from_script_eq_pub_key h
  have hlen := length_of_is_pay_to_pubkey hp
  simp [extract_script_pub_key_address, h, hv, version, hlen, Address.new,
    Version.public_key_len]

theorem extract_of_pub_key_ecdsa (h : from_script script_public_key = PubKeyECDSA) :
    extract_script_pub_key_address script_public_key prefix_ =
      some (.ok ⟨prefix_, .PubKeyECDSA, (script_public_key.script.drop 1).take 33⟩) := by
  obtain ⟨hv, hp⟩ := from_script_eq_pub_key_ecdsa h
  have hlen := length_of_is_pay_to_pubkey_ecdsa hp
  simp [extract_script_pub_key_address, h, hv, version, hlen, Address.new,
    Version.public_key_len]

theorem extract_of_script_hash (h : from_script script_public_key = ScriptHash) :
    extract_script_pub_key_address script_public_key prefix_ =
      some (.ok ⟨prefix_, .ScriptHash, (script_public_key.script.drop 2).take 32⟩) := by
  obtain ⟨hv, hp⟩ := from_script_eq_script_hash h
  have hlen := length_of_is_pay_to_script_hash hp
  simp [extract_script_pub_key_address, h, hv, version, hlen, Address.new,
    Version.public_key_len]

-- Extraction never panics: the slices are in range and of the asserted length for every
-- script the classifier puts in a standard class.
theorem extract_script_pub_key_address_ne_none (script_public_key : ScriptPublicKey)
    (prefix_ : Prefix) : extract_script_pub_key_address script_public_key prefix_ ≠ none := by
  rcases from_script_cases script_public_key with ⟨h, -⟩ | ⟨h, -⟩ | ⟨h, -⟩ | h
  · rw [extract_of_pub_key h]
    exact Option.some_ne_none _
  · rw [extract_of_pub_key_ecdsa h]
    exact Option.some_ne_none _
  · rw [extract_of_script_hash h]
    exact Option.some_ne_none _
  · rw [extract_of_non_standard h]
    exact Option.some_ne_none _

-- Extraction fails exactly on the non-standard scripts, and always with `PubKeyFormat`.
theorem extract_script_pub_key_address_eq_error_iff {e : TxScriptError} :
    extract_script_pub_key_address script_public_key prefix_ = some (.error e) ↔
      from_script script_public_key = NonStandard ∧ e = .PubKeyFormat := by
  rcases from_script_cases script_public_key with ⟨h, -⟩ | ⟨h, -⟩ | ⟨h, -⟩ | h
  · simp [extract_of_pub_key h, h]
  · simp [extract_of_pub_key_ecdsa h, h]
  · simp [extract_of_script_hash h, h]
  · simp [extract_of_non_standard h, h, eq_comm]

-- For every script and prefix, extraction returns without a panic, and it returns an error
-- exactly when the classifier calls the script non-standard, that error being `PubKeyFormat`.
theorem extract_script_pub_key_address_spec (script_public_key : ScriptPublicKey)
    (prefix_ : Prefix) :
    extract_script_pub_key_address script_public_key prefix_ ≠ none ∧
      ∀ e, extract_script_pub_key_address script_public_key prefix_ = some (.error e) ↔
        from_script script_public_key = NonStandard ∧ e = .PubKeyFormat :=
  ⟨extract_script_pub_key_address_ne_none script_public_key prefix_,
    fun _ => extract_script_pub_key_address_eq_error_iff⟩

end Extract

section RoundTrip

-- Every script extraction accepts is the script built for the address it returns.
theorem pay_to_address_script_of_extract {script_public_key : ScriptPublicKey} {prefix_ : Prefix}
    {address : Address}
    (h : extract_script_pub_key_address script_public_key prefix_ = some (.ok address)) :
    pay_to_address_script address = some script_public_key := by
  rcases from_script_cases script_public_key with ⟨hc, hv, hp⟩ | ⟨hc, hv, hp⟩ | ⟨hc, hv, hp⟩ | hc
  · rw [extract_of_pub_key hc, Option.some.injEq, Except.ok.injEq] at h
    subst h
    have hlen : ((script_public_key.script.drop 1).take 32).length = 32 := by
      simp [length_of_is_pay_to_pubkey hp]
    simp only [pay_to_address_script, pay_to_pub_key, pay_to_template, if_pos hlen, from_version,
      ScriptClass.version, ← hv, ← eq_of_is_pay_to_pubkey hp]
    rfl
  · rw [extract_of_pub_key_ecdsa hc, Option.some.injEq, Except.ok.injEq] at h
    subst h
    have hlen : ((script_public_key.script.drop 1).take 33).length = 33 := by
      simp [length_of_is_pay_to_pubkey_ecdsa hp]
    simp only [pay_to_address_script, pay_to_pub_key_ecdsa, pay_to_template, if_pos hlen,
      from_version, ScriptClass.version, ← hv, ← eq_of_is_pay_to_pubkey_ecdsa hp]
    rfl
  · rw [extract_of_script_hash hc, Option.some.injEq, Except.ok.injEq] at h
    subst h
    have hlen : ((script_public_key.script.drop 2).take 32).length = 32 := by
      simp [length_of_is_pay_to_script_hash hp]
    simp only [pay_to_address_script, pay_to_script_hash, pay_to_template, if_pos hlen,
      from_version, ScriptClass.version, ← hv, ← eq_of_is_pay_to_script_hash hp]
    rfl
  · rw [extract_of_non_standard hc] at h
    cases h

-- `pay_to_address_script` panics exactly on an address whose payload has the wrong length
-- for its version.
theorem pay_to_address_script_eq_none_iff {address : Address} :
    pay_to_address_script address = none ↔
      address.payload.length ≠ address.version.public_key_len := by
  obtain ⟨prefix_, version, payload⟩ := address
  cases version <;>
    simp [pay_to_address_script, pay_to_pub_key, pay_to_pub_key_ecdsa, pay_to_script_hash,
      pay_to_template, Version.public_key_len]

-- Extraction reads back the address a script was built for.
theorem extract_of_pay_to_address_script {address : Address} {script_public_key : ScriptPublicKey}
    (h : pay_to_address_script address = some script_public_key) :
    extract_script_pub_key_address script_public_key address.prefix_ = some (.ok address) := by
  have hc := from_script_pay_to_address_script h
  obtain ⟨prefix_, version, payload⟩ := address
  cases version <;>
    simp only [pay_to_address_script, pay_to_pub_key, pay_to_pub_key_ecdsa, pay_to_script_hash,
      Option.bind_eq_bind, Option.bind_eq_some_iff, Option.pure_def, Option.some.injEq,
      pay_to_template_eq_some] at h <;> obtain ⟨script, ⟨hlen, rfl⟩, rfl⟩ := h
  · rw [extract_of_pub_key hc]
    simp [hlen]
  · rw [extract_of_pub_key_ecdsa hc]
    simp [hlen]
  · rw [extract_of_script_hash hc]
    simp [hlen]

theorem standard_script_address_round_trip :
    (∀ address : Address, address.payload.length = address.version.public_key_len →
      ∃ script_public_key, pay_to_address_script address = some script_public_key ∧
        extract_script_pub_key_address script_public_key address.prefix_ = some (.ok address)) ∧
    (∀ (script_public_key : ScriptPublicKey) (prefix_ : Prefix) (address : Address),
      extract_script_pub_key_address script_public_key prefix_ = some (.ok address) →
        pay_to_address_script address = some script_public_key) := by
  refine ⟨fun address haddress => ?_, fun _ _ _ h => pay_to_address_script_of_extract h⟩
  cases hscript : pay_to_address_script address with
  | none => exact absurd haddress (pay_to_address_script_eq_none_iff.mp hscript)
  | some script_public_key =>
    exact ⟨script_public_key, rfl, extract_of_pay_to_address_script hscript⟩

-- A P2SH address on mainnet, and the P2SH script of the same hash read back on mainnet.
theorem standard_script_address_round_trip_script_hash :
    (List.replicate 32 (7 : UInt8)).length = Version.public_key_len .ScriptHash ∧
      (∃ script_public_key,
        pay_to_address_script ⟨.Mainnet, .ScriptHash, List.replicate 32 7⟩ = some script_public_key ∧
        extract_script_pub_key_address script_public_key .Mainnet =
          some (.ok ⟨.Mainnet, .ScriptHash, List.replicate 32 7⟩)) ∧
      extract_script_pub_key_address ⟨0, [OpBlake3, OpData32] ++ List.replicate 32 7 ++ [OpEqual]⟩
          .Mainnet = some (.ok ⟨.Mainnet, .ScriptHash, List.replicate 32 7⟩) ∧
      pay_to_address_script ⟨.Mainnet, .ScriptHash, List.replicate 32 7⟩ =
        some ⟨0, [OpBlake3, OpData32] ++ List.replicate 32 7 ++ [OpEqual]⟩ :=
  ⟨rfl, standard_script_address_round_trip.1 _ rfl, by decide,
    standard_script_address_round_trip.2 _ .Mainnet _ (by decide)⟩

end RoundTrip


end Waglayla.TxScript
