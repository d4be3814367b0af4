import Waglayla.Maps.AListFold
import Waglayla.TxScript.SigOpCount

namespace Waglayla.Consensus

open Waglayla.TxScript (ScriptPublicKey)
open AListFold

-- The 32 bytes of a transaction hash.
abbrev TransactionId := List UInt8

structure TransactionOutpoint where
  transaction_id : TransactionId
  index : UInt32
  deriving DecidableEq, Repr

structure UtxoEntry where
  amount : UInt64
  script_public_key : ScriptPublicKey
  block_daa_score : UInt64
  is_coinbase : Bool
  deriving DecidableEq, Repr

-- A `HashMap<TransactionOutpoint, UtxoEntry>`: its entries in some order, one per key.
abbrev UtxoCollection := AList fun _ : TransactionOutpoint => UtxoEntry

-- A `UtxoView` is what its `get` answers.
abbrev UtxoView := TransactionOutpoint → Option UtxoEntry

-- `contains_with_daa_score` on the entry a collection holds at one outpoint.
def has_daa_score (entry : Option UtxoEntry) (daa_score : UInt64) : Bool :=
  match entry with
  | some entry => entry.block_daa_score == daa_score
  | none => false

theorem has_daa_score_eq_true {entry : Option UtxoEntry} {daa_score : UInt64} :
    has_daa_score entry daa_score = true ↔
      ∃ e, entry = some e ∧ e.block_daa_score = daa_score := by
  cases entry <;> simp [has_daa_score]

namespace UtxoCollection

def contains_with_daa_score (self : UtxoCollection) (outpoint : TransactionOutpoint)
    (daa_score : UInt64) : Bool :=
  match self.lookup outpoint with
  | some entry => entry.block_daa_score == daa_score
  | none => false

theorem contains_with_daa_score_eq (self : UtxoCollection) (outpoint : TransactionOutpoint)
    (daa_score : UInt64) :
    self.contains_with_daa_score outpoint daa_score =
      has_daa_score (self.lookup outpoint) daa_score := by
  unfold contains_with_daa_score has_daa_score
  cases self.lookup outpoint <;> rfl

def add_collection (self other : UtxoCollection) : UtxoCollection :=
  other.foldl (fun m k v => m.insert k v) self

def remove_collection (self other : UtxoCollection) : UtxoCollection :=
  other.foldl (fun m k _ => m.erase k) self

-- Both searches iterate over the smaller collection.
def intersects (self other : UtxoCollection) : Bool :=
  if self.entries.length ≤ other.entries.length then self.keys.any fun k => k ∈ other
  else other.keys.any fun k => k ∈ self

def intersects_with_rule (self other : UtxoCollection)
    (rule : TransactionOutpoint → UtxoEntry → UtxoEntry → Bool) : Option TransactionOutpoint :=
  if self.entries.length ≤ other.entries.length then findCommon self other rule
  else findCommon other self fun k v2 v1 => rule k v1 v2

theorem lookup_remove_collection (self other : UtxoCollection) (o : TransactionOutpoint) :
    (self.remove_collection other).lookup o =
      match other.lookup o with
      | some _ => none
      | none => self.lookup o := by
  unfold remove_collection
  rw [foldl_obs local_erase]
  cases other.lookup o <;> simp

-- The rule holds on no outpoint of both collections exactly when no offender is found,
-- whichever collection is iterated.
theorem intersects_iff (self other : UtxoCollection) :
    self.intersects other = true ↔ ∃ o, o ∈ self ∧ o ∈ other := by
  unfold intersects
  split
  · simp [List.any_eq_true, AList.mem_keys]
  · simp only [List.any_eq_true, AList.mem_keys, decide_eq_true_eq]
    exact ⟨fun ⟨o, h₁, h₂⟩ => ⟨o, h₂, h₁⟩, fun ⟨o, h₁, h₂⟩ => ⟨o, h₂, h₁⟩⟩

theorem intersects_with_rule_eq_none_iff {self other : UtxoCollection}
    {rule : TransactionOutpoint → UtxoEntry → UtxoEntry → Bool} :
    intersects_with_rule self other rule = none ↔
      ∀ o v1 v2, self.lookup o = some v1 → other.lookup o = some v2 → rule o v1 v2 = false := by
  unfold intersects_with_rule
  split
  · exact findCommon_eq_none_iff
  · rw [findCommon_eq_none_iff]
    exact ⟨fun h o v1 v2 h1 h2 => h o v2 v1 h2 h1, fun h o v2 v1 h2 h1 => h o v1 v2 h1 h2⟩

end UtxoCollection

open UtxoCollection

-- The loop shared by the three DAA-score set operations: each entry of `this` goes to
-- the first collection when `other` holds its outpoint with the same DAA score, to the
-- second otherwise.
def split_having_daa_score (this other : UtxoCollection)
    (acc : UtxoCollection × UtxoCollection) : UtxoCollection × UtxoCollection :=
  this.foldl (fun acc outpoint entry =>
    if other.contains_with_daa_score outpoint entry.block_daa_score then
      (acc.1.insert outpoint entry, acc.2)
    else (acc.1, acc.2.insert outpoint entry)) acc

-- `result ∪ (this ∩ other)` and `remainder ∪ (this ∖ other)`
def intersection_with_remainder_having_daa_score_in_place (this other result remainder :
    UtxoCollection) : UtxoCollection × UtxoCollection :=
  split_having_daa_score this other (result, remainder)

-- `result ∪ (this ∖ other)`
def subtraction_having_daa_score_in_place (this other result : UtxoCollection) :
    UtxoCollection :=
  (split_having_daa_score this other (∅, result)).2

-- `result ∪ (this ∖ other)` and `remainder ∪ (this ∩ other)`
def subtraction_with_remainder_having_daa_score_in_place (this other result remainder :
    UtxoCollection) : UtxoCollection × UtxoCollection :=
  (split_having_daa_score this other (remainder, result)).swap

theorem local_split (other : UtxoCollection) :
    Local (fun (acc : UtxoCollection × UtxoCollection) o => (acc.1.lookup o, acc.2.lookup o))
      fun acc outpoint entry =>
        if other.contains_with_daa_score outpoint entry.block_daa_score then
          (acc.1.insert outpoint entry, acc.2)
        else (acc.1, acc.2.insert outpoint entry) where
  frame acc k v o hko := by
    split <;> simp [AList.lookup_insert_ne (Ne.symm hko)]
  at_key acc acc' k v h := by
    obtain ⟨h1, h2⟩ := Prod.mk.inj h
    split <;> simp [h1, h2]

-- At one outpoint, the split files the entry of `this` there, if any, by its DAA score.
theorem lookup_split_having_daa_score (this other : UtxoCollection)
    (acc : UtxoCollection × UtxoCollection) (o : TransactionOutpoint) :
    ((split_having_daa_score this other acc).1.lookup o,
        (split_having_daa_score this other acc).2.lookup o) =
      match this.lookup o with
      | some entry =>
        if has_daa_score (other.lookup o) entry.block_daa_score then
          (some entry, acc.2.lookup o)
        else (acc.1.lookup o, some entry)
      | none => (acc.1.lookup o, acc.2.lookup o) := by
  unfold split_having_daa_score
  rw [foldl_obs (local_split other)]
  cases this.lookup o with
  | none => rfl
  | some entry =>
    dsimp only
    rw [contains_with_daa_score_eq]
    split <;> simp

-- `subtraction_having_daa_score_in_place` at one outpoint: the entry of `this` there,
-- unless `other` holds one of its DAA score.
def subtract_at (this other result : Option UtxoEntry) : Option UtxoEntry :=
  match this with
  | some entry => if has_daa_score other entry.block_daa_score then result else some entry
  | none => result

theorem lookup_subtraction_having_daa_score_in_place (this other result : UtxoCollection)
    (o : TransactionOutpoint) :
    (subtraction_having_daa_score_in_place this other result).lookup o =
      subtract_at (this.lookup o) (other.lookup o) (result.lookup o) := by
  have h := lookup_split_having_daa_score this other (∅, result) o
  unfold subtraction_having_daa_score_in_place subtract_at
  cases hthis : this.lookup o with
  | none =>
    rw [hthis] at h
    exact (Prod.mk.inj h).2
  | some entry =>
    rw [hthis] at h
    dsimp only at h ⊢
    split_ifs at h ⊢ <;> exact (Prod.mk.inj h).2

-- The remainder of `subtraction_with_remainder_having_daa_score_in_place` holds an entry of
-- `this` exactly where `subtract_at` drops it.
theorem lookup_subtraction_with_remainder_having_daa_score_in_place
    (this other result remainder : UtxoCollection) (o : TransactionOutpoint) :
    ((subtraction_with_remainder_having_daa_score_in_place this other result remainder).1.lookup o,
        (subtraction_with_remainder_having_daa_score_in_place this other result
          remainder).2.lookup o) =
      (subtract_at (this.lookup o) (other.lookup o) (result.lookup o),
        match this.lookup o with
        | some entry =>
          if has_daa_score (other.lookup o) entry.block_daa_score then some entry
          else remainder.lookup o
        | none => remainder.lookup o) := by
  have h := lookup_split_having_daa_score this other (remainder, result) o
  unfold subtraction_with_remainder_having_daa_score_in_place subtract_at
  simp only [Prod.fst_swap, Prod.snd_swap]
  cases hthis : this.lookup o with
  | none =>
    rw [hthis] at h
    obtain ⟨h₁, h₂⟩ := Prod.mk.inj h
    rw [h₁, h₂]
  | some entry =>
    rw [hthis] at h
    dsimp only at h ⊢
    split_ifs at h ⊢ <;> obtain ⟨h₁, h₂⟩ := Prod.mk.inj h <;> rw [h₁, h₂]

end Waglayla.Consensus
