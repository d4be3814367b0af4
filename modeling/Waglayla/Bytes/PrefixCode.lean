import Mathlib.Data.List.Basic
import Waglayla.Bytes.LittleEndian

-- Codes read from the front of a stream: a stream of such words fixes each word's key in
-- turn. Fixed-width words, counted runs and length-prefixed bytes are such codes.

namespace PrefixCode

variable {α β κ : Type*}

-- On the values satisfying `P`, an encoded value followed by anything fixes its `key` and the
-- rest of the stream.
def Decodes (P : α → Prop) (key : α → κ) (enc : α → List β) : Prop :=
  ∀ ⦃a b : α⦄ ⦃r s : List β⦄, P a → P b → enc a ++ r = enc b ++ s → key a = key b ∧ r = s

namespace Decodes

variable {P : α → Prop} {key : α → κ} {enc : α → List β}

-- Words of one length decode what equal words fix.
theorem of_length {n : Nat} (hlen : ∀ a, P a → (enc a).length = n)
    (hkey : ∀ a b, P a → P b → enc a = enc b → key a = key b) : Decodes P key enc := by
  intro a b r s ha hb h
  obtain ⟨henc, hrest⟩ := List.append_inj h ((hlen a ha).trans (hlen b hb).symm)
  exact ⟨hkey a b ha hb henc, hrest⟩

-- A code of the images of an injective map decodes its arguments.
theorem comap {γ : Type*} {f : γ → α} {Q : γ → Prop} (h : Decodes P id enc)
    (hQ : ∀ c, Q c → P (f c)) (hf : Function.Injective f) : Decodes Q id fun c => enc (f c) :=
  fun c d _ _ hc hd heq => by
    obtain ⟨hcd, hrs⟩ := h (hQ c hc) (hQ d hd) heq
    exact ⟨hf hcd, hrs⟩

-- Bytes of a known length.
theorem fixed (n : Nat) : Decodes (fun l : List β => l.length = n) id id :=
  of_length (fun _ h => h) fun _ _ _ _ h => h

-- A run of words, as many on both sides, decodes the list of their keys.
theorem flatMap (h : Decodes P key enc) : ∀ {l l' : List α} {r s : List β},
    l.length = l'.length → (∀ a ∈ l, P a) → (∀ a ∈ l', P a) →
      l.flatMap enc ++ r = l'.flatMap enc ++ s → l.map key = l'.map key ∧ r = s
  | [], [], _, _, _, _, _, heq => ⟨rfl, heq⟩
  | a :: l, a' :: l', r, s, hlen, hl, hl', heq => by
    rw [List.flatMap_cons, List.flatMap_cons, List.append_assoc, List.append_assoc] at heq
    obtain ⟨hkey, hrest⟩ := h (hl a List.mem_cons_self) (hl' a' List.mem_cons_self) heq
    obtain ⟨hmap, hrs⟩ := flatMap h (Nat.succ.inj hlen) (fun x hx => hl x (List.mem_cons_of_mem _ hx))
      (fun x hx => hl' x (List.mem_cons_of_mem _ hx)) hrest
    exact ⟨by rw [List.map_cons, List.map_cons, hkey, hmap], hrs⟩

-- The count first, then the words.
theorem counted {N : Nat} {count : Nat → List β} (hcount : Decodes (· < N) id count)
    (h : Decodes P key enc) :
    Decodes (fun l : List α => l.length < N ∧ ∀ a ∈ l, P a) (List.map key)
      (fun l => count l.length ++ l.flatMap enc) := by
  intro l l' r s hl hl' heq
  simp only [List.append_assoc] at heq
  obtain ⟨hlen, hrest⟩ := hcount hl.1 hl'.1 heq
  exact flatMap h hlen hl.2 hl'.2 hrest

-- One symbol.
theorem single : Decodes (fun _ : β => True) id fun b => [b] :=
  of_length (fun _ _ => rfl) fun _ _ _ _ h => List.singleton_inj.mp h

-- Bytes behind their count.
theorem var_bytes {N : Nat} {count : Nat → List β} (hcount : Decodes (· < N) id count) :
    Decodes (fun l : List β => l.length < N) id (fun l => count l.length ++ l) := by
  intro l l' r s hl hl' heq
  have := counted hcount single (a := l) (b := l') (r := r) (s := s)
    ⟨hl, fun _ _ => trivial⟩ ⟨hl', fun _ _ => trivial⟩
  simp only [List.flatMap_singleton', List.map_id] at this
  exact this heq

-- The two codes above, read from a stream written one word at a time.
theorem counted_cancel {N : Nat} {count : Nat → List β} (hcount : Decodes (· < N) id count)
    (h : Decodes P key enc) {l l' : List α} {r s : List β} (hl : l.length < N ∧ ∀ a ∈ l, P a)
    (hl' : l'.length < N ∧ ∀ a ∈ l', P a)
    (heq : count l.length ++ (l.flatMap enc ++ r) = count l'.length ++ (l'.flatMap enc ++ s)) :
    l.map key = l'.map key ∧ r = s := by
  rw [← List.append_assoc, ← List.append_assoc] at heq
  exact counted hcount h hl hl' heq

theorem var_bytes_cancel {N : Nat} {count : Nat → List β} (hcount : Decodes (· < N) id count)
    {l l' r s : List β} (hl : l.length < N) (hl' : l'.length < N)
    (heq : count l.length ++ (l ++ r) = count l'.length ++ (l' ++ s)) : l = l' ∧ r = s := by
  rw [← List.append_assoc, ← List.append_assoc] at heq
  exact var_bytes hcount hl hl' heq

end Decodes

end PrefixCode

namespace LittleEndian

-- A little-endian number of fixed width is a word of the code.
theorem decodes_encode (width : Nat) :
    PrefixCode.Decodes (· < 256 ^ width) id (encode width) :=
  PrefixCode.Decodes.of_length (fun _ _ => length_encode _ _) fun a b ha hb h => by
    rw [← decode_encode_of_lt ha, ← decode_encode_of_lt hb, h]

end LittleEndian
