import Mathlib.Data.List.Basic

namespace Waglayla.Addresses

-- A `&str` is its UTF-8 bytes; the literals the address code compares against are
-- ASCII, where each character is one byte.
def ascii (s : String) : List UInt8 := s.toList.map fun c => c.toNat.toUInt8

-- `InvalidPrefix` carries the rejected prefix's bytes.
inductive AddressError where
  | InvalidPrefix (given : List UInt8)
  | MissingPrefix
  | InvalidVersion (version : UInt8)
  | InvalidVersionString (version : String)
  | DecodingError (c : Char)
  | BadChecksum
  | InvalidAddress
  | InvalidAddressArray
  | WASM (message : String)
  deriving DecidableEq, Repr

-- The network prefixes of a non-test build: `A` and `B` exist under `cfg(test)` only,
-- which is also the only build where `is_test` holds.
inductive Prefix where
  | Mainnet
  | Testnet
  | Simnet
  | Devnet
  deriving DecidableEq, Repr

namespace Prefix

def as_str : Prefix → List UInt8
  | Mainnet => ascii "waglayla"
  | Testnet => ascii "waglaylatest"
  | Simnet => ascii "waglaylasim"
  | Devnet => ascii "waglayladev"

def try_from (s : List UInt8) : Except AddressError Prefix :=
  if s = ascii "waglayla" then .ok Mainnet
  else if s = ascii "waglaylatest" then .ok Testnet
  else if s = ascii "waglaylasim" then .ok Simnet
  else if s = ascii "waglayladev" then .ok Devnet
  else .error (.InvalidPrefix s)

theorem try_from_as_str (p : Prefix) : try_from p.as_str = .ok p := by
  cases p <;> decide

end Prefix

inductive Version where
  | PubKey
  | PubKeyECDSA
  | ScriptHash
  deriving DecidableEq, Repr

namespace Version

-- `version as u8` under `#[repr(u8)]`
def to_u8 : Version → UInt8
  | PubKey => 0
  | PubKeyECDSA => 1
  | ScriptHash => 8

def public_key_len : Version → Nat
  | PubKey => 32
  | PubKeyECDSA => 33
  | ScriptHash => 32

def try_from (value : UInt8) : Except AddressError Version :=
  if value = 0 then .ok PubKey
  else if value = 1 then .ok PubKeyECDSA
  else if value = 8 then .ok ScriptHash
  else .error (.InvalidVersion value)

theorem try_from_to_u8 (v : Version) : try_from v.to_u8 = .ok v := by
  cases v <;> decide

end Version

-- `prefix_` is the source's field `prefix`, a keyword here.
structure Address where
  prefix_ : Prefix
  version : Version
  payload : List UInt8
  deriving DecidableEq, Repr

namespace Address

-- `Address::new`: the `assert_eq!` on the payload length is the `none` branch.
def new (prefix_ : Prefix) (version : Version) (payload : List UInt8) : Option Address :=
  if payload.length = version.public_key_len then some ⟨prefix_, version, payload⟩ else none

theorem new_eq_some_iff {prefix_ : Prefix} {version : Version} {payload : List UInt8}
    {a : Address} :
    new prefix_ version payload = some a ↔
      payload.length = version.public_key_len ∧ a = ⟨prefix_, version, payload⟩ := by
  unfold new
  split <;> simp_all [eq_comm]

end Address

end Waglayla.Addresses
