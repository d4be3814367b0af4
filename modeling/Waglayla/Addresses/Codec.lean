import Waglayla.Addresses.Bech32

namespace Waglayla.Addresses

-- `str::split_once`: the bytes before the first separator and those after it.
def split_once (s : List UInt8) (sep : UInt8) : Option (List UInt8 × List UInt8) :=
  match s with
  | [] => none
  | b :: bs => if b = sep then some ([], bs) else (split_once bs sep).map fun (l, r) => (b :: l, r)

theorem split_once_append {l r : List UInt8} {sep : UInt8} (h : sep ∉ l) :
    split_once (l ++ sep :: r) sep = some (l, r) := by
  induction l with
  | nil => simp [split_once]
  | cons b bs ih =>
    have hb : b ≠ sep := fun hbs => h (hbs ▸ List.mem_cons_self)
    have hbs : sep ∉ bs := fun hm => h (List.mem_cons_of_mem _ hm)
    simp [split_once, hb, ih hbs]

theorem colon_not_mem_as_str (p : Prefix) : ':'.toNat.toUInt8 ∉ p.as_str := by
  cases p <;> decide

namespace Address

-- `From<&Address> for String`: `format!("{}:{}", address.prefix, address.encode_payload())`
def string_from (address : Address) : Option (List UInt8) :=
  address.encode_payload.map fun payload => address.prefix_.as_str ++ ascii ":" ++ payload

-- `TryFrom<&str> for Address`
def try_from (value : List UInt8) : Option (Except AddressError Address) :=
  match split_once value ':'.toNat.toUInt8 with
  | some (p, payload) =>
    match Prefix.try_from p with
    | .error e => some (.error e)
    | .ok prefix_ => decode_payload prefix_ payload
  | none => some (.error .MissingPrefix)

-- The string of an address with a payload of the right length decodes to it.
theorem try_from_string_from_of_valid (a : Address)
    (hlen : a.payload.length = a.version.public_key_len) :
    ∃ s, string_from a = some s ∧ try_from s = some (.ok a) := by
  obtain ⟨s, henc, hdec⟩ := decode_payload_encode_payload a hlen
  refine ⟨a.prefix_.as_str ++ ascii ":" ++ s, by simp only [string_from, henc, Option.map_some], ?_⟩
  have hsplit : split_once (a.prefix_.as_str ++ ascii ":" ++ s) ':'.toNat.toUInt8 =
      some (a.prefix_.as_str, s) := by
    rw [List.append_assoc]
    exact split_once_append (colon_not_mem_as_str a.prefix_)
  simp only [try_from, hsplit, Prefix.try_from_as_str, hdec]

-- An address that some string decodes to has a payload of the right length.
theorem try_from_ok {s : List UInt8} {a : Address} (h : try_from s = some (.ok a)) :
    a.payload.length = a.version.public_key_len := by
  unfold try_from at h
  split at h
  · split at h
    · cases h
    · exact decode_payload_ok h
  · cases h

-- `String::from` and `Address::try_from` invert each other on every address
-- `Address::new` builds, and every address a string decodes to has a string that
-- decodes back to it.
theorem try_from_string_from :
    (∀ prefix_ version payload a, new prefix_ version payload = some a →
      ∃ s, string_from a = some s ∧ try_from s = some (.ok a)) ∧
    (∀ s a, try_from s = some (.ok a) →
      ∃ s', string_from a = some s' ∧ try_from s' = some (.ok a)) := by
  constructor
  · intro prefix_ version payload a hnew
    obtain ⟨hlen, rfl⟩ := new_eq_some_iff.mp hnew
    exact try_from_string_from_of_valid _ hlen
  · intro s a h
    exact try_from_string_from_of_valid a (try_from_ok h)

-- The last payload digit of a 32-byte address holds one padding bit; setting it (`p`
-- for `q`) and recomputing the checksum gives a second string for the same address.
theorem try_from_accepts_padding_bits :
    try_from (ascii "waglayla:qqqqqqqqqqqqqqqqqqqqqqqqqqqqqqqqqqqqqqqqqqqqqqqqqqqqpqdjzse6r") =
        some (.ok ⟨.Mainnet, .PubKey, List.replicate 32 0⟩) ∧
      string_from ⟨.Mainnet, .PubKey, List.replicate 32 0⟩ ≠
        some (ascii "waglayla:qqqqqqqqqqqqqqqqqqqqqqqqqqqqqqqqqqqqqqqqqqqqqqqqqqqqpqdjzse6r") := by
  decide +kernel

end Address

end Waglayla.Addresses
