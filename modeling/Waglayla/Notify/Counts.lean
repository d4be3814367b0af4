import Waglayla.Notify.Tracker

-- What the tracker's reference counts count (`Inner.Tracks`), and how each operation keeps it.

namespace Waglayla.Notify

open Waglayla.Addresses Waglayla.TxScript

-- What `insert` and `remove` of an indexer return, in terms of the indexes it holds.
class HoldsIndexes (T : Type) [Indexer T] where
  holds : T → Nat → Bool
  insert_spec : ∀ {t t' : T} {index : Nat} {inserted : Bool},
    Indexer.insert t index = some (inserted, t') →
      inserted = !holds t index ∧ ∀ j, holds t' j = (decide (j = index) || holds t j)
  remove_spec : ∀ {t t' : T} {index : Nat} {removed : Bool},
    Indexer.remove t index = (removed, t') →
      (removed = true → holds t index = true) ∧
        ∀ j, holds t' j = (holds t j && !(removed && decide (j = index)))
  holds_of_is_empty : ∀ {t : T} {index : Nat},
    Indexer.is_empty t = true → holds t index = false

open HoldsIndexes

namespace IndexSet

@[simp] theorem mem_insert {s : IndexSet} {index j : Nat} :
    j ∈ (s.insert index).2.indexes ↔ j = index ∨ j ∈ s.indexes := by
  unfold insert
  split
  · rename_i hmem
    constructor
    · exact .inr
    · rintro (rfl | hj)
      · exact hmem
      · exact hj
  · simp

@[simp] theorem mem_remove {s : IndexSet} {index j : Nat} :
    j ∈ (s.remove index).2.indexes ↔ j ≠ index ∧ j ∈ s.indexes := by
  unfold remove
  split
  · exact s.nodup.mem_erase_iff
  · rename_i hmem
    constructor
    · intro hj
      exact ⟨fun hji => hmem (hji ▸ hj), hj⟩
    · exact And.right

theorem insert_holds {s s' : IndexSet} {index : Nat} {inserted : Bool}
    (h : s.insert index = (inserted, s')) :
    inserted = !decide (index ∈ s.indexes) ∧
      ∀ j, decide (j ∈ s'.indexes) = (decide (j = index) || decide (j ∈ s.indexes)) := by
  unfold insert at h
  split at h
  · rename_i hmem
    cases h
    refine ⟨by simp [hmem], fun j => ?_⟩
    by_cases hj : j = index
    · subst hj; simp [hmem]
    · simp [hj]
  · rename_i hmem
    cases h
    simp [hmem]

theorem remove_holds {s s' : IndexSet} {index : Nat} {removed : Bool}
    (h : s.remove index = (removed, s')) :
    (removed = true → decide (index ∈ s.indexes) = true) ∧
      ∀ j, decide (j ∈ s'.indexes) = (decide (j ∈ s.indexes) && !(removed && decide (j = index))) := by
  unfold remove at h
  split at h
  · rename_i hmem
    cases h
    refine ⟨fun _ => by simpa using hmem, fun j => ?_⟩
    simp [s.nodup.mem_erase_iff, Bool.and_comm]
  · cases h
    simp

end IndexSet

instance : HoldsIndexes IndexSet where
  holds s index := decide (index ∈ s.indexes)
  insert_spec h := IndexSet.insert_holds (Option.some.inj h)
  remove_spec h := IndexSet.remove_holds h
  holds_of_is_empty {s index} h := by
    have hnil : s.indexes = [] := List.isEmpty_iff.mp h
    simp [hnil]

namespace CounterMap

-- The counter at an index, zero when the key is absent.
def count (c : CounterMap) (index : Nat) : Nat := (c.counts.lookup index).getD 0

theorem count_insert (c : CounterMap) (index j : Nat) (n : Nat) :
    (⟨c.counts.insert index n⟩ : CounterMap).count j = if j = index then n else c.count j := by
  by_cases hj : j = index
  · subst hj; simp [count, AList.lookup_insert]
  · simp [count, AList.lookup_insert_ne hj, hj]

theorem insert_eq {c : CounterMap} {index : Nat} (h : c.count index < REF_COUNT_MAX) :
    c.insert index = some (c.count index == 0, ⟨c.counts.insert index (c.count index + 1)⟩) := by
  unfold insert
  split
  · rename_i n hn
    have hcount : c.count index = n := by simp [count, hn]
    rw [hcount] at h ⊢
    simp [h]
  · rename_i hn
    simp [count, hn]

theorem remove_eq {c : CounterMap} {index : Nat} (h : 0 < c.count index) :
    c.remove index = (c.count index == 1, ⟨c.counts.insert index (c.count index - 1)⟩) := by
  unfold remove
  split
  · rename_i n hn
    have hcount : c.count index = n := by simp [count, hn]
    rw [hcount] at h ⊢
    simp only [if_pos h, Prod.mk.injEq, and_true]
    cases n with
    | zero => cases h
    | succ n => cases n <;> simp
  · rename_i hn
    simp [count, hn] at h

theorem insert_holds {c c' : CounterMap} {index : Nat} {inserted : Bool}
    (h : c.insert index = some (inserted, c')) :
    inserted = !decide (0 < c.count index) ∧
      ∀ j, decide (0 < c'.count j) = (decide (j = index) || decide (0 < c.count j)) := by
  unfold insert at h
  split at h
  · rename_i n hn
    split at h
    · cases h
      have hcount : c.count index = n := by simp [count, hn]
      refine ⟨by cases n <;> simp [hcount], fun j => ?_⟩
      rw [count_insert]
      by_cases hj : j = index <;> simp [hj]
    · cases h
  · rename_i hn
    cases h
    have hcount : c.count index = 0 := by simp [count, hn]
    refine ⟨by simp [hcount], fun j => ?_⟩
    rw [count_insert]
    by_cases hj : j = index <;> simp [hj]

theorem remove_holds {c c' : CounterMap} {index : Nat} {removed : Bool}
    (h : c.remove index = (removed, c')) :
    (removed = true → decide (0 < c.count index) = true) ∧
      ∀ j, decide (0 < c'.count j) = (decide (0 < c.count j) && !(removed && decide (j = index))) := by
  unfold remove at h
  split at h
  · rename_i n hn
    have hcount : c.count index = n := by simp [count, hn]
    split at h
    · rename_i hpos
      cases h
      refine ⟨fun _ => by simpa [hcount] using hpos, fun j => ?_⟩
      rw [count_insert]
      by_cases hj : j = index
      · subst hj
        by_cases hone : n = 1
        · simp [hcount, hone]
        · have hmore : 0 < n - 1 := by omega
          simp [hcount, hpos, hmore, Nat.pos_iff_ne_zero.mp hmore]
      · simp [hj]
    · cases h
      simp
  · cases h
    simp

end CounterMap

instance : HoldsIndexes CounterMap where
  holds c index := decide (0 < c.count index)
  insert_spec h := CounterMap.insert_holds h
  remove_spec h := CounterMap.remove_holds h
  holds_of_is_empty {c index} h := by
    have hnil : c.counts.entries = [] := List.isEmpty_iff.mp h
    have hnone : c.counts.lookup index = none := by
      rw [AList.lookup_eq_none, AList.mem_keys, AList.keys, hnil]
      simp
    simp [CounterMap.count, hnone]

namespace AnyIndexer

def holds : AnyIndexer → Nat → Bool
  | .set s, index => HoldsIndexes.holds s index
  | .counters c, index => HoldsIndexes.holds c index

theorem insert_holds {t t' : AnyIndexer} {index : Nat} {inserted : Bool}
    (h : Indexer.insert t index = some (inserted, t')) :
    inserted = !t.holds index ∧ ∀ j, t'.holds j = (decide (j = index) || t.holds j) := by
  cases t with
  | set s =>
    obtain ⟨r, hr, hrt⟩ := Option.map_eq_some_iff.mp h
    cases hrt
    exact insert_spec hr
  | counters c =>
    obtain ⟨r, hr, hrt⟩ := Option.map_eq_some_iff.mp h
    cases hrt
    exact insert_spec hr

theorem remove_holds {t t' : AnyIndexer} {index : Nat} {removed : Bool}
    (h : Indexer.remove t index = (removed, t')) :
    (removed = true → t.holds index = true) ∧
      ∀ j, t'.holds j = (t.holds j && !(removed && decide (j = index))) := by
  cases t with
  | set s =>
    cases h
    exact remove_spec (T := IndexSet) rfl
  | counters c =>
    cases h
    exact remove_spec (T := CounterMap) rfl

end AnyIndexer

instance : HoldsIndexes AnyIndexer where
  holds := AnyIndexer.holds
  insert_spec h := AnyIndexer.insert_holds h
  remove_spec h := AnyIndexer.remove_holds h
  holds_of_is_empty {t index} h := by
    cases t with
    | set s => exact holds_of_is_empty (T := IndexSet) h
    | counters c => exact holds_of_is_empty (T := CounterMap) h

-- The bookkeeping of the inner state

namespace Inner

def count_at (inner : Inner) (index : Nat) : Nat :=
  ((inner.script_pub_keys.get_index index).map Prod.snd).getD 0

def key_at (inner : Inner) (index : Nat) : Option ScriptPublicKey :=
  inner.script_pub_keys.keys[index]?

-- The counts against `holders`, the number of indexers holding each index.
structure Tracks (inner : Inner) (holders : Nat → Nat) : Prop where
  count : ∀ index, inner.count_at index = holders index
  empty : ∀ index, index ∈ inner.empty_entries.indexes ↔
    index < inner.script_pub_keys.len ∧ inner.count_at index = 0

variable {inner inner' : Inner} {spk : ScriptPublicKey} {index : Nat}

-- The three ways `get_or_insert` succeeds: the key is there, it is appended, or it takes the
-- slot of the first empty entry.
theorem get_or_insert_cases (h : inner.get_or_insert spk = .ok (index, inner')) :
    (inner.script_pub_keys.get_index_of spk = some index ∧ inner' = inner) ∨
    (inner.script_pub_keys.get_index_of spk = none ∧ inner.empty_entries.indexes = [] ∧
      index = inner.script_pub_keys.len ∧
      inner' = { inner with script_pub_keys := inner.script_pub_keys.insert spk 0,
                            empty_entries := (inner.empty_entries.insert index).2 }) ∨
    (inner.script_pub_keys.get_index_of spk = none ∧
      (∃ rest, inner.empty_entries.indexes = index :: rest) ∧
      inner' = { inner with
        script_pub_keys := (inner.script_pub_keys.insert spk 0).swap_remove_index index }) := by
  unfold get_or_insert at h
  split at h
  · split at h
    · rename_i hfound
      cases h
      exact .inl ⟨hfound, rfl⟩
    · rename_i hnone
      have hlen := IndexMap.len_insert_of_not_mem (IndexMap.get_index_of_eq_none_iff.mp hnone)
        (0 : Nat)
      cases hempty : inner.empty_entries.indexes with
      | nil =>
        simp [hempty, IndexSet.is_empty, hlen] at h
        obtain ⟨rfl, rfl⟩ := h
        exact .inr (.inl ⟨hnone, rfl, rfl, rfl⟩)
      | cons e rest =>
        simp [hempty, IndexSet.is_empty, hlen] at h
        obtain ⟨rfl, rfl⟩ := h
        exact .inr (.inr ⟨hnone, ⟨rest, rfl⟩, rfl⟩)
  · split at h
    · rename_i hfound
      cases h
      exact .inl ⟨hfound, rfl⟩
    · cases h

theorem key_at_eq_some_iff {j : Nat} :
    inner.key_at j = some spk ↔ inner.script_pub_keys.get_index_of spk = some j :=
  IndexMap.get_index_of_eq_some_iff_keys.symm

theorem key_at_lt {j : Nat} (h : inner.key_at j = some spk) : j < inner.script_pub_keys.len := by
  have hlt := (List.getElem?_eq_some_iff.mp h).1
  simpa [IndexMap.keys, IndexMap.len] using hlt

theorem key_at_of_get {count : Nat} (h : inner.get spk = some (index, count)) :
    inner.key_at index = some spk := by
  obtain ⟨⟨index', key, count'⟩, hfull, heq⟩ := Option.map_eq_some_iff.mp h
  cases heq
  exact key_at_eq_some_iff.mpr (IndexMap.get_full_eq_some_iff.mp hfull).1

theorem key_at_eq_map (j : Nat) :
    inner.key_at j = (inner.script_pub_keys.get_index j).map Prod.fst := by
  simp [key_at, IndexMap.keys, IndexMap.get_index, List.getElem?_map]

theorem count_at_of_len_le {j : Nat} (h : inner.script_pub_keys.len ≤ j) :
    inner.count_at j = 0 := by
  simp [count_at, IndexMap.get_index_eq_none_iff.mpr h]

-- A write through `get_index_mut` at an entry changes that entry's count only.
theorem count_at_modify {key : ScriptPublicKey} {count : Nat}
    (hentry : inner.script_pub_keys.get_index index = some (key, count)) (f : Nat → Nat)
    (empty_entries : IndexSet) (j : Nat) :
    ({ inner with script_pub_keys := inner.script_pub_keys.modify_index index f,
                  empty_entries } : Inner).count_at j =
      if j = index then f count else inner.count_at j := by
  simp only [count_at, IndexMap.get_index_modify_index]
  by_cases hj : j = index
  · subst hj; simp [hentry]
  · simp [hj]

theorem exists_entry_of_count_at_pos {j : Nat} (h : 0 < inner.count_at j) :
    ∃ key, inner.script_pub_keys.get_index j = some (key, inner.count_at j) := by
  cases hentry : inner.script_pub_keys.get_index j with
  | none => simp [count_at, hentry] at h
  | some entry => exact ⟨entry.1, by simp [count_at, hentry]⟩

theorem Tracks.get_or_insert {holders : Nat → Nat} (ht : inner.Tracks holders)
    (h : inner.get_or_insert spk = .ok (index, inner')) :
    inner'.Tracks holders ∧ inner'.key_at index = some spk ∧
      ∀ j, 0 < inner.count_at j →
        inner'.script_pub_keys.get_index j = inner.script_pub_keys.get_index j := by
  rcases get_or_insert_cases h with ⟨hfound, rfl⟩ | ⟨hnone, hempty, rfl, hinner'⟩ |
    ⟨hnone, ⟨rest, hempty⟩, hinner'⟩
  · exact ⟨ht, key_at_eq_some_iff.mpr hfound, fun _ _ => rfl⟩
  · -- appended: the new last entry has count zero and becomes the only empty entry
    have hk := IndexMap.get_index_of_eq_none_iff.mp hnone
    have hget : ∀ j, inner'.script_pub_keys.get_index j =
        if j = inner.script_pub_keys.len then some (spk, 0)
        else inner.script_pub_keys.get_index j := by
      rw [hinner']; exact IndexMap.get_index_insert_of_not_mem hk 0
    have hlen : inner'.script_pub_keys.len = inner.script_pub_keys.len + 1 := by
      rw [hinner']; exact IndexMap.len_insert_of_not_mem hk 0
    have hcount : ∀ j, inner'.count_at j = inner.count_at j := by
      intro j
      simp only [count_at, hget]
      split
      · rename_i hj; subst hj; exact (count_at_of_len_le le_rfl).symm
      · rfl
    have hmem : ∀ j, j ∈ inner'.empty_entries.indexes ↔ j = inner.script_pub_keys.len := by
      intro j; simp [hinner', hempty]
    refine ⟨⟨fun j => (hcount j).trans (ht.count j), fun j => ?_⟩, ?_, fun j hj => ?_⟩
    · rw [hmem, hlen, hcount]
      constructor
      · rintro rfl
        exact ⟨Nat.lt_succ_self _, count_at_of_len_le le_rfl⟩
      · rintro ⟨hlt, hzero⟩
        by_contra hne
        have hin := (ht.empty j).mpr ⟨by omega, hzero⟩
        simp [hempty] at hin
    · simp [key_at_eq_map, hget]
    · have hlt : j < inner.script_pub_keys.len := by
        by_contra hge
        rw [count_at_of_len_le (Nat.le_of_not_lt hge)] at hj
        exact Nat.lt_irrefl 0 hj
      simp [hget, Nat.ne_of_lt hlt]
  · -- recycled: the first empty slot, of count zero, takes the new entry and stays empty
    have hk := IndexMap.get_index_of_eq_none_iff.mp hnone
    have he := (ht.empty index).mp (by simp [hempty])
    have hget : ∀ j, inner'.script_pub_keys.get_index j =
        if j = index then some (spk, 0) else inner.script_pub_keys.get_index j := by
      rw [hinner']; exact IndexMap.get_index_swap_remove_index_insert hk 0 he.1
    have hlen : inner'.script_pub_keys.len = inner.script_pub_keys.len := by
      rw [hinner']; exact IndexMap.len_swap_remove_index_insert hk 0 he.1
    have hcount : ∀ j, inner'.count_at j = inner.count_at j := by
      intro j
      simp only [count_at, hget]
      split
      · rename_i hj; subst hj; exact he.2.symm
      · rfl
    refine ⟨⟨fun j => (hcount j).trans (ht.count j), fun j => ?_⟩, ?_, fun j hj => ?_⟩
    · rw [hlen, hcount, hinner']
      exact ht.empty j
    · simp [key_at_eq_map, hget]
    · have hne : j ≠ index := by
        rintro rfl
        rw [he.2] at hj
        exact Nat.lt_irrefl 0 hj
      simp [hget, hne]

-- An increase at a slot in range is one more holder there; the keys do not move.
theorem Tracks.inc_count {holders : Nat → Nat} (ht : inner.Tracks holders)
    (hlt : index < inner.script_pub_keys.len) (h : inner.inc_count index = some inner') :
    inner'.Tracks (fun j => holders j + if j = index then 1 else 0) ∧
      inner'.script_pub_keys.keys = inner.script_pub_keys.keys := by
  obtain ⟨⟨key, count⟩, hentry⟩ : ∃ entry, inner.script_pub_keys.get_index index = some entry :=
    Option.ne_none_iff_exists'.mp (mt IndexMap.get_index_eq_none_iff.mp (Nat.not_le.mpr hlt))
  have hcount : inner.count_at index = count := by simp [count_at, hentry]
  unfold Inner.inc_count at h
  rw [hentry] at h
  simp only at h
  split at h
  · have hcount' := count_at_modify hentry (· + 1)
    split at h <;> (cases h; refine ⟨⟨fun j => ?_, fun j => ?_⟩, by simp⟩)
    -- the count was zero: the slot leaves the empty entries
    · rw [hcount', ← ht.count j]
      by_cases hj : j = index <;> simp [hj, hcount]
    · rename_i hzero
      rw [IndexSet.mem_remove, hcount', ht.empty j]
      by_cases hj : j = index <;> simp [hj, hzero]
    · rw [hcount', ← ht.count j]
      by_cases hj : j = index <;> simp [hj, hcount]
    · rename_i hpos
      rw [hcount', ht.empty j]
      by_cases hj : j = index
      · subst hj; simp [hcount]; omega
      · simp [hj]
  · cases h

-- A decrease where some indexer holds the slot never panics, and is one holder less.
theorem Tracks.dec_count {holders : Nat → Nat} (ht : inner.Tracks holders)
    (hpos : 0 < holders index) :
    ∃ inner', inner.dec_count index = some inner' ∧
      inner'.Tracks (fun j => holders j - if j = index then 1 else 0) ∧
      inner'.script_pub_keys.keys = inner.script_pub_keys.keys := by
  have hcount : 0 < inner.count_at index := (ht.count index).symm ▸ hpos
  obtain ⟨key, hentry⟩ := exists_entry_of_count_at_pos hcount
  have hcount' := count_at_modify hentry (· - 1)
  have hlt := IndexMap.get_index_lt hentry
  unfold Inner.dec_count
  rw [hentry]
  simp only [Nat.ne_of_gt hcount, if_false]
  split
  -- the count reaches zero: the slot joins the empty entries
  · rename_i hzero
    refine ⟨_, rfl, ⟨fun j => ?_, fun j => ?_⟩, by simp⟩
    · rw [hcount', ← ht.count j]
      by_cases hj : j = index <;> simp [hj]
    · rw [IndexSet.mem_insert, hcount', ht.empty j]
      by_cases hj : j = index
      · subst hj; simp [hzero, hlt]
      · simp [hj]
  · rename_i hnz
    refine ⟨_, rfl, ⟨fun j => ?_, fun j => ?_⟩, by simp⟩
    · rw [hcount', ← ht.count j]
      by_cases hj : j = index <;> simp [hj]
    · rw [hcount', ht.empty j]
      by_cases hj : j = index
      · subst hj; simp [hnz]; omega
      · simp [hj]

-- `len` never panics: the empty entries are exactly the slots of count zero, so the live
-- entries number the slots that some indexer holds.
theorem Tracks.len {holders : Nat → Nat} (ht : inner.Tracks holders) :
    inner.len = some ((List.range inner.script_pub_keys.len).countP fun j => 0 < holders j) := by
  have hperm : inner.empty_entries.indexes.Perm
      ((List.range inner.script_pub_keys.len).filter fun j => ¬0 < holders j) := by
    refine (List.perm_ext_iff_of_nodup inner.empty_entries.nodup
      (List.nodup_range.filter _)).mpr fun j => ?_
    rw [ht.empty j, List.mem_filter, List.mem_range, ht.count j]
    simp
  have hempty : inner.empty_entries.indexes.length =
      (List.range inner.script_pub_keys.len).countP fun j => ¬0 < holders j := by
    rw [hperm.length_eq, List.countP_eq_length_filter]
  have hsplit := List.length_eq_countP_add_countP (fun j => decide (0 < holders j))
    (l := List.range inner.script_pub_keys.len)
  simp only [decide_eq_true_eq, List.length_range] at hsplit
  unfold Inner.len
  rw [if_pos (by omega)]
  congr 1
  omega

theorem get_or_insert_of_get_index_of (h : inner.script_pub_keys.get_index_of spk = some index) :
    inner.get_or_insert spk = .ok (index, inner) := by
  unfold get_or_insert
  split <;> simp [h]

theorem get_or_insert_of_full (hfull : inner.is_full = true)
    (h : inner.script_pub_keys.get_index_of spk = none) :
    inner.get_or_insert spk = .error .MaxCapacityReached := by
  simp [get_or_insert, hfull, h]

-- An increase on a full tracker keeps it full: a full tracker has no empty entry.
theorem inc_count_of_full {key : ScriptPublicKey} {count : Nat} (hfull : inner.is_full = true)
    (hentry : inner.script_pub_keys.get_index index = some (key, count))
    (hcount : count < REF_COUNT_MAX) :
    ∃ inner', inner.inc_count index = some inner' ∧ inner'.is_full = true ∧
      inner'.script_pub_keys.keys = inner.script_pub_keys.keys ∧
      inner'.script_pub_keys.get_index index = some (key, count + 1) := by
  simp only [is_full, Bool.and_eq_true, IndexSet.is_empty, List.isEmpty_iff] at hfull
  have hempty := hfull.2
  have hentry' : (inner.script_pub_keys.modify_index index (· + 1)).get_index index =
      some (key, count + 1) := by
    simp [IndexMap.get_index_modify_index, hentry]
  unfold inc_count
  rw [hentry]
  simp only [if_pos hcount]
  split
  · refine ⟨_, rfl, ?_, by simp, hentry'⟩
    have hnil : (inner.empty_entries.remove index).2.indexes = [] := by
      apply List.eq_nil_iff_forall_not_mem.mpr
      intro j hj
      simp [IndexSet.mem_remove, hempty] at hj
    simpa [is_full, IndexSet.is_empty, hnil] using hfull.1
  · exact ⟨_, rfl, by simpa [is_full, IndexSet.is_empty] using hfull, by simp, hentry'⟩

end Inner

-- What an indexer holds, by script public key

section Held

variable {T : Type} [Indexer T] [HoldsIndexes T]
variable {inner inner' : Inner} {t t' : T} {spk spk' : ScriptPublicKey} {index : Nat}

-- The holders of each index: those counted in `others`, and the indexer `t` if it holds it.
def add_holder (others : Nat → Nat) (t : T) (j : Nat) : Nat :=
  others j + if holds t j then 1 else 0

-- Whether the indexer holds the tracker's index of `spk`.
def held (inner : Inner) (t : T) (spk : ScriptPublicKey) : Bool :=
  (inner.script_pub_keys.get_index_of spk).any (holds t)

theorem held_eq_true_iff :
    held inner t spk = true ↔ ∃ j, inner.key_at j = some spk ∧ holds t j = true := by
  simp only [held, Option.any_eq_true, Inner.key_at_eq_some_iff]

theorem held_of_key_at (hkey : inner.key_at index = some spk) :
    held inner t spk = holds t index := by
  simp [held, Inner.key_at_eq_some_iff.mp hkey]

-- Keys that move only at slots the indexer does not hold leave what it holds.
theorem held_congr (hkeys : ∀ j, holds t j = true → inner'.key_at j = inner.key_at j) :
    held inner' t spk = held inner t spk := by
  rw [Bool.eq_iff_iff, held_eq_true_iff, held_eq_true_iff]
  constructor
  · rintro ⟨j, hj, hholds⟩
    exact ⟨j, hkeys j hholds ▸ hj, hholds⟩
  · rintro ⟨j, hj, hholds⟩
    exact ⟨j, (hkeys j hholds).symm ▸ hj, hholds⟩

theorem held_of_keys_eq (hkeys : inner'.script_pub_keys.keys = inner.script_pub_keys.keys) :
    held inner' t spk = held inner t spk :=
  held_congr fun j _ => by simp [Inner.key_at, hkeys]

theorem held_of_holds_eq (hholds : ∀ j, holds t' j = holds t j) :
    held inner t' spk = held inner t spk := by
  simp [held, funext hholds]

theorem held_insert (hholds : ∀ j, holds t' j = (decide (j = index) || holds t j))
    (hkey : inner.key_at index = some spk) :
    held inner t' spk' = (decide (spk' = spk) || held inner t spk') := by
  rw [Bool.eq_iff_iff, held_eq_true_iff, Bool.or_eq_true, decide_eq_true_iff, held_eq_true_iff]
  constructor
  · rintro ⟨j, hj, hheld⟩
    rw [hholds] at hheld
    rcases Bool.or_eq_true_iff.mp hheld with hji | hheld
    · rw [of_decide_eq_true hji, hkey] at hj
      exact .inl (Option.some.inj hj).symm
    · exact .inr ⟨j, hj, hheld⟩
  · rintro (rfl | ⟨j, hj, hheld⟩)
    · exact ⟨index, hkey, by simp [hholds]⟩
    · exact ⟨j, hj, by simp [hholds, hheld]⟩

theorem held_remove {removed : Bool}
    (hholds : ∀ j, holds t' j = (holds t j && !(removed && decide (j = index))))
    (hkey : inner.key_at index = some spk) :
    held inner t' spk' = (held inner t spk' && !(removed && decide (spk' = spk))) := by
  cases hj : inner.script_pub_keys.get_index_of spk' with
  | none => simp [held, hj]
  | some j =>
    have hj' := Inner.key_at_eq_some_iff.mpr hj
    simp only [held, hj, Option.any_some, hholds]
    by_cases hji : j = index
    · subst hji
      rw [hkey] at hj'
      simp [Option.some.inj hj']
    · have hne : spk' ≠ spk := by
        rintro rfl
        exact hji (Option.some.inj (hj.symm.trans (Inner.key_at_eq_some_iff.mp hkey)))
      simp [hji, hne]

end Held

-- The loops of `register` and `unregister`

section Loops

variable {T : Type} [Indexer T] [HoldsIndexes T]
variable {inner inner' : Inner} {t t' : T} {others : Nat → Nat}

-- A slot the indexer holds has a positive count.
theorem Inner.Tracks.count_pos (ht : inner.Tracks (add_holder others t)) {j : Nat}
    (hj : holds t j = true) : 0 < inner.count_at j := by
  rw [ht.count j]
  simp [add_holder, hj]

-- One visit of `register`'s closure: the address's key ends up held, nothing the indexers
-- hold moves, and it is kept exactly when the indexer did not hold it; or the tracker is
-- full, nothing changes and the rollback is flagged.
theorem register_address_spec {address : Address} {rollback rollback' keep : Bool}
    (ht : inner.Tracks (add_holder others t))
    (h : Tracker.register_address address (inner, t, rollback) =
      some (keep, inner', t', rollback')) :
    ∃ spk, pay_to_address_script address = some spk ∧
      inner'.Tracks (add_holder others t') ∧
      (∀ j, 0 < inner.count_at j → inner'.key_at j = inner.key_at j ∧ 0 < inner'.count_at j) ∧
      ((rollback' = rollback ∧ keep = !held inner t spk ∧
          ∀ spk', held inner' t' spk' = (decide (spk' = spk) || held inner t spk')) ∨
        (rollback' = true ∧ keep = false ∧ inner' = inner ∧ t' = t)) := by
  cases hspk : pay_to_address_script address with
  | none => simp [Tracker.register_address, hspk] at h
  | some spk =>
  refine ⟨spk, rfl, ?_⟩
  simp only [Tracker.register_address, hspk, Option.bind_eq_bind, Option.bind_some] at h
  split at h
  · rename_i index inner₁ hgi
    obtain ⟨ht₁, hkey, hslots⟩ := ht.get_or_insert hgi
    have hkeys₁ : ∀ j, 0 < inner.count_at j → inner₁.key_at j = inner.key_at j := fun j hj => by
      simp [Inner.key_at_eq_map, hslots j hj]
    have hcount₁ : ∀ j, inner₁.count_at j = inner.count_at j := fun j =>
      (ht₁.count j).trans (ht.count j).symm
    -- nothing the indexer holds has moved, so it holds what it held
    have hheld₁ : ∀ spk', held inner₁ t spk' = held inner t spk' := fun _ =>
      held_congr fun j hj => hkeys₁ j (ht.count_pos hj)
    have hat : holds t index = held inner t spk := by rw [← held_of_key_at hkey, hheld₁]
    cases hins : Indexer.insert t index with
    | none => simp [hins] at h
    | some r =>
    obtain ⟨inserted, t₁⟩ := r
    obtain ⟨hinserted, hholds⟩ := insert_spec hins
    simp only [hins, Option.bind_some] at h
    cases inserted with
    | false =>
      -- already held: only the indexer's own bookkeeping may change
      simp only [Bool.false_eq_true, if_false, Option.pure_def, Option.some.injEq,
        Prod.mk.injEq] at h
      obtain ⟨rfl, rfl, rfl, rfl⟩ := h
      have hheld : holds t index = true := by simpa using hinserted
      have hsame : ∀ j, holds t₁ j = holds t j := fun j => by
        rw [hholds j]
        by_cases hj : j = index
        · subst hj; simp [hheld]
        · simp [hj]
      have hholders : add_holder others t₁ = add_holder others t :=
        funext fun j => by simp [add_holder, hsame]
      refine ⟨hholders ▸ ht₁, fun j hj => ⟨hkeys₁ j hj, hcount₁ j ▸ hj⟩,
        .inl ⟨rfl, by rw [← hat, hheld]; rfl, fun spk' => ?_⟩⟩
      rw [held_of_holds_eq hsame, hheld₁]
      by_cases hs : spk' = spk
      · subst hs; simp [← hat, hheld]
      · simp [hs]
    | true =>
      simp only [if_true, Option.bind_eq_some_iff, Option.pure_def, Option.some.injEq,
        Prod.mk.injEq] at h
      obtain ⟨inner₂, hinc, rfl, rfl, rfl, rfl⟩ := h
      have hnot : holds t index = false := by simpa using hinserted
      obtain ⟨ht₂, hkeys₂⟩ := ht₁.inc_count (Inner.key_at_lt hkey) hinc
      have hholders : (fun j => add_holder others t j + if j = index then 1 else 0) =
          add_holder others t₁ := funext fun j => by
        by_cases hj : j = index
        · subst hj; simp [add_holder, hholds, hnot]
        · simp [add_holder, hholds, hj]
      refine ⟨hholders ▸ ht₂, fun j hj => ⟨?_, ?_⟩,
        .inl ⟨rfl, by rw [← hat, hnot]; rfl, fun spk' => ?_⟩⟩
      · rw [← hkeys₁ j hj]
        simp [Inner.key_at, hkeys₂]
      · rw [ht₂.count j, ← ht.count j]
        exact Nat.lt_of_lt_of_le hj (Nat.le_add_right _ _)
      · rw [held_of_keys_eq hkeys₂, held_insert hholds hkey, hheld₁]
  · simp only [Option.pure_def, Option.some.injEq, Prod.mk.injEq] at h
    obtain ⟨rfl, rfl, rfl, rfl⟩ := h
    exact ⟨ht, fun j hj => ⟨rfl, hj⟩, .inr ⟨rfl, rfl, rfl, rfl⟩⟩

-- One visit of `unregister`'s closure: the keys stay, a kept address's key was held, and the
-- indexer stops holding exactly the key of a kept address.
theorem unregister_address_spec {address : Address} {keep : Bool}
    (ht : inner.Tracks (add_holder others t))
    (h : Tracker.unregister_address address (inner, t) = some (keep, inner', t')) :
    ∃ spk, pay_to_address_script address = some spk ∧
      inner'.Tracks (add_holder others t') ∧
      inner'.script_pub_keys.keys = inner.script_pub_keys.keys ∧
      (keep = true → held inner t spk = true) ∧
      ∀ spk', held inner' t' spk' = (held inner t spk' && !(keep && decide (spk' = spk))) := by
  cases hspk : pay_to_address_script address with
  | none => simp [Tracker.unregister_address, hspk] at h
  | some spk =>
  refine ⟨spk, rfl, ?_⟩
  simp only [Tracker.unregister_address, hspk, Option.bind_eq_bind, Option.bind_some] at h
  split at h
  · rename_i index count hget
    have hkey := Inner.key_at_of_get hget
    cases hrem : Indexer.remove t index with
    | mk removed t₁ =>
    obtain ⟨hremoved, hholds⟩ := remove_spec hrem
    simp only [hrem] at h
    cases removed with
    | false =>
      simp only [Bool.false_eq_true, if_false, Option.pure_def, Option.some.injEq,
        Prod.mk.injEq] at h
      obtain ⟨rfl, rfl, rfl⟩ := h
      have hsame : ∀ j, holds t₁ j = holds t j := fun j => by simp [hholds j]
      have hholders : add_holder others t₁ = add_holder others t :=
        funext fun j => by simp [add_holder, hsame]
      exact ⟨hholders ▸ ht, rfl, by simp, fun spk' => by simp [held_of_holds_eq hsame]⟩
    | true =>
      -- held before: the decrease cannot panic, and the count drops with the holder
      have hheld := hremoved rfl
      have hpos : 0 < add_holder others t index := by simp [add_holder, hheld]
      obtain ⟨inner₂, hdec, ht₂, hkeys₂⟩ := ht.dec_count hpos
      simp only [if_true, hdec, Option.bind_some, Option.pure_def, Option.some.injEq,
        Prod.mk.injEq] at h
      obtain ⟨rfl, rfl, rfl⟩ := h
      have hholders : (fun j => add_holder others t j - if j = index then 1 else 0) =
          add_holder others t₁ := funext fun j => by
        by_cases hj : j = index
        · subst hj; simp [add_holder, hholds, hheld]
        · simp [add_holder, hholds, hj]
      refine ⟨hholders ▸ ht₂, hkeys₂, fun _ => by rw [held_of_key_at hkey, hheld], fun spk' => ?_⟩
      rw [held_of_keys_eq hkeys₂, held_remove hholds hkey]
  · rename_i hnone
    simp only [Option.pure_def, Option.some.injEq, Prod.mk.injEq] at h
    obtain ⟨rfl, rfl, rfl⟩ := h
    exact ⟨ht, rfl, by simp, fun spk' => by simp⟩

-- `register`'s loop keeps the bookkeeping against the indexer it changes; a slot with a
-- positive count keeps its key and a positive count, and a flagged rollback stays flagged.
theorem register_loop_tracks {addresses kept : List Address} {rollback rollback' : Bool}
    (ht : inner.Tracks (add_holder others t))
    (h : retain_state Tracker.register_address addresses (inner, t, rollback) =
      some (kept, inner', t', rollback')) :
    inner'.Tracks (add_holder others t') ∧
      ((∀ j, 0 < inner.count_at j → inner'.key_at j = inner.key_at j ∧ 0 < inner'.count_at j) ∧
        (rollback = true → rollback' = true)) ∧
      kept.Sublist addresses :=
  retain_state_induction (P := fun s : Inner × T × Bool => s.1.Tracks (add_holder others s.2.1))
    (R := fun s s' => (∀ j, 0 < s.1.count_at j →
      s'.1.key_at j = s.1.key_at j ∧ 0 < s'.1.count_at j) ∧ (s.2.2 = true → s'.2.2 = true))
    (fun _ => ⟨fun _ hj => ⟨rfl, hj⟩, id⟩)
    (fun _ _ _ h₁₂ h₂₃ => ⟨fun j hj => ⟨(h₂₃.1 j (h₁₂.1 j hj).2).1.trans (h₁₂.1 j hj).1,
      (h₂₃.1 j (h₁₂.1 j hj).2).2⟩, h₂₃.2 ∘ h₁₂.2⟩)
    (fun _ _ _ _ hs hf => by
      obtain ⟨_, _, ht', hkeys, hcase⟩ := register_address_spec hs hf
      refine ⟨ht', hkeys, fun hrb => ?_⟩
      rcases hcase with ⟨hrb', -⟩ | ⟨hrb', -⟩
      · exact hrb'.trans hrb
      · exact hrb')
    addresses _ kept _ ht h

-- Without a rollback, `register`'s loop keeps one address for each key the indexer did not
-- hold, and leaves the indexer holding every key of the list besides what it held.
theorem register_loop_held {addresses kept : List Address} {rollback : Bool}
    (ht : inner.Tracks (add_holder others t))
    (h : retain_state Tracker.register_address addresses (inner, t, rollback) =
      some (kept, inner', t', false)) :
    (∀ spk, spk ∈ kept.filterMap pay_to_address_script ↔
      spk ∈ addresses.filterMap pay_to_address_script ∧ held inner t spk = false) ∧
    (kept.filterMap pay_to_address_script).Nodup ∧
    ∀ spk, held inner' t' spk =
      (decide (spk ∈ addresses.filterMap pay_to_address_script) || held inner t spk) := by
  induction addresses generalizing inner t rollback kept with
  | nil =>
    simp only [retain_state, Option.some.injEq, Prod.mk.injEq] at h
    obtain ⟨rfl, rfl, rfl, -⟩ := h
    simp
  | cons a as ih =>
    obtain ⟨keep, ⟨inner₁, t₁, rollback₁⟩, kept', hf, hrest, rfl⟩ := retain_state_cons_eq_some h
    obtain ⟨spk, hspk, ht₁, -, hcase⟩ := register_address_spec ht hf
    rcases hcase with ⟨-, hkeep, hheld₁⟩ | ⟨rfl, -, -, -⟩
    · obtain ⟨hmem, hnodup, hheld'⟩ := ih ht₁ hrest
      -- the address's key is held after its visit, so no later address of it is kept
      have hnot : spk ∉ kept'.filterMap pay_to_address_script := fun hm => by
        have hfalse := ((hmem spk).mp hm).2
        simp [hheld₁] at hfalse
      have hkept : (if keep then a :: kept' else kept').filterMap pay_to_address_script =
          if keep then spk :: kept'.filterMap pay_to_address_script
          else kept'.filterMap pay_to_address_script := by
        cases keep <;> simp [hspk]
      rw [hkept, List.filterMap_cons, hspk]
      refine ⟨fun spk' => ?_, ?_, fun spk' => ?_⟩
      · by_cases hs : spk' = spk
        · subst hs
          cases keep <;> simp_all
        · cases keep <;> simp [hs, hmem, hheld₁]
      · cases keep
        · simpa using hnodup
        · exact List.nodup_cons.mpr ⟨hnot, hnodup⟩
      · rw [hheld', hheld₁]
        by_cases hs : spk' = spk <;> simp [hs]
    · exact absurd ((register_loop_tracks ht₁ hrest).2.1.2 rfl) Bool.false_ne_true

theorem unregister_loop_tracks {addresses kept : List Address}
    (ht : inner.Tracks (add_holder others t))
    (h : retain_state Tracker.unregister_address addresses (inner, t) = some (kept, inner', t')) :
    inner'.Tracks (add_holder others t') ∧
      inner'.script_pub_keys.keys = inner.script_pub_keys.keys ∧ kept.Sublist addresses :=
  retain_state_induction (P := fun s : Inner × T => s.1.Tracks (add_holder others s.2))
    (R := fun s s' => s'.1.script_pub_keys.keys = s.1.script_pub_keys.keys)
    (fun _ => rfl) (fun _ _ _ h₁₂ h₂₃ => h₂₃.trans h₁₂)
    (fun _ _ _ _ hs hf => by
      obtain ⟨_, _, ht', hkeys, -⟩ := unregister_address_spec hs hf
      exact ⟨ht', hkeys⟩)
    addresses _ kept _ ht h

-- `unregister`'s loop keeps addresses whose keys were held, one for each key it stops
-- holding; the indexer holds what it held less those keys.
theorem unregister_loop_held {addresses kept : List Address}
    (ht : inner.Tracks (add_holder others t))
    (h : retain_state Tracker.unregister_address addresses (inner, t) = some (kept, inner', t')) :
    (∀ spk ∈ kept.filterMap pay_to_address_script, held inner t spk = true) ∧
    (kept.filterMap pay_to_address_script).Nodup ∧
    ∀ spk, held inner' t' spk =
      (held inner t spk && !decide (spk ∈ kept.filterMap pay_to_address_script)) := by
  induction addresses generalizing inner t kept with
  | nil =>
    simp only [retain_state, Option.some.injEq, Prod.mk.injEq] at h
    obtain ⟨rfl, rfl, rfl⟩ := h
    simp
  | cons a as ih =>
    obtain ⟨keep, ⟨inner₁, t₁⟩, kept', hf, hrest, rfl⟩ := retain_state_cons_eq_some h
    obtain ⟨spk, hspk, ht₁, -, hkeep, hheld₁⟩ := unregister_address_spec ht hf
    obtain ⟨hmem, hnodup, hheld'⟩ := ih ht₁ hrest
    have hkept : (if keep then a :: kept' else kept').filterMap pay_to_address_script =
        if keep then spk :: kept'.filterMap pay_to_address_script
        else kept'.filterMap pay_to_address_script := by
      cases keep <;> simp [hspk]
    rw [hkept]
    cases keep with
    | false =>
      simp only [Bool.false_and, Bool.not_false, Bool.and_true] at hheld₁
      simp only [Bool.false_eq_true, if_false]
      exact ⟨fun spk' hm => hheld₁ spk' ▸ hmem spk' hm, hnodup,
        fun spk' => by rw [hheld', hheld₁]⟩
    | true =>
      -- the key of a kept address is no longer held, so no later address of it is kept
      have hnot : spk ∉ kept'.filterMap pay_to_address_script := fun hm => by
        have htrue := hmem spk hm
        simp [hheld₁] at htrue
      simp only [if_true]
      refine ⟨fun spk' hm => ?_, List.nodup_cons.mpr ⟨hnot, hnodup⟩, fun spk' => ?_⟩
      · rcases List.mem_cons.mp hm with rfl | hm
        · exact hkeep rfl
        · have htrue := hmem spk' hm
          rw [hheld₁] at htrue
          exact (Bool.and_eq_true_iff.mp htrue).1
      · rw [hheld', hheld₁]
        by_cases hs : spk' = spk <;> simp [hs]

theorem unregister_address_isSome {address : Address} (ht : inner.Tracks (add_holder others t))
    (hspk : (pay_to_address_script address).isSome) :
    ∃ keep s', Tracker.unregister_address address (inner, t) = some (keep, s') := by
  obtain ⟨spk, hspk⟩ := Option.isSome_iff_exists.mp hspk
  simp only [Tracker.unregister_address, hspk, Option.bind_eq_bind, Option.bind_some]
  split
  · rename_i index count hget
    cases hrem : Indexer.remove t index with
    | mk removed t₁ =>
    cases removed with
    | false => exact ⟨false, (inner, t₁), rfl⟩
    | true =>
      have hpos : 0 < add_holder others t index := by
        simp [add_holder, (remove_spec hrem).1 rfl]
      obtain ⟨inner₂, hdec, -⟩ := ht.dec_count hpos
      exact ⟨true, (inner₂, t₁), by simp [hdec]⟩
  · exact ⟨false, (inner, t), rfl⟩

-- `unregister` returns one address for each key of the list that the indexer stops
-- holding, and never panics on a count at zero.
theorem unregister_spec {addresses kept : List Address}
    (ht : inner.Tracks (add_holder others t))
    (h : Tracker.unregister inner t addresses = some (kept, inner', t')) :
    inner'.Tracks (add_holder others t') ∧
      inner'.script_pub_keys.keys = inner.script_pub_keys.keys ∧ kept.Sublist addresses ∧
      (∀ spk, spk ∈ kept.filterMap pay_to_address_script ↔
        held inner t spk = true ∧ held inner' t' spk = false) ∧
      (kept.filterMap pay_to_address_script).Nodup ∧
      ∀ spk, held inner' t' spk =
        (held inner t spk && !decide (spk ∈ kept.filterMap pay_to_address_script)) := by
  unfold Tracker.unregister at h
  split at h
  · -- an empty indexer holds nothing: nothing to unregister
    rename_i hempty
    simp only [Option.some.injEq, Prod.mk.injEq] at h
    obtain ⟨rfl, rfl, rfl⟩ := h
    have hnone : ∀ spk, held inner t spk = false := fun spk => by
      cases hi : inner.script_pub_keys.get_index_of spk <;>
        simp [held, hi, holds_of_is_empty hempty]
    simp [ht, hnone]
  · obtain ⟨ht', hkeys, hsub⟩ := unregister_loop_tracks ht h
    obtain ⟨hmem, hnodup, hheld⟩ := unregister_loop_held ht h
    refine ⟨ht', hkeys, hsub, fun spk => ⟨fun hm => ⟨hmem spk hm, by simp [hheld, hm]⟩,
      fun hboth => ?_⟩, hnodup, hheld⟩
    obtain ⟨hbefore, hafter⟩ := hboth
    rw [hheld, hbefore] at hafter
    simpa using hafter

theorem unregister_isSome {addresses : List Address} (ht : inner.Tracks (add_holder others t))
    (haddresses : ∀ a ∈ addresses, (pay_to_address_script a).isSome) :
    (Tracker.unregister inner t addresses).isSome := by
  unfold Tracker.unregister
  split
  · rfl
  · refine retain_state_isSome (P := fun s : Inner × T => s.1.Tracks (add_holder others s.2))
      addresses (inner, t) (fun a ha s hs => ?_) ht
    obtain ⟨keep, s', hf⟩ := unregister_address_isSome hs (haddresses a ha)
    obtain ⟨_, _, hs', -⟩ := unregister_address_spec hs hf
    exact ⟨keep, s', hf, hs'⟩

-- `register` returns one address for each key of the list that the indexer did not hold, and
-- leaves every key of the list held; with or without a rollback, nothing the indexers held
-- moves.
theorem register_spec {addresses : List Address} {result : Except Error (List Address)}
    (ht : inner.Tracks (add_holder others t))
    (h : Tracker.register inner t addresses = some (result, inner', t')) :
    inner'.Tracks (add_holder others t') ∧
      (∀ j, 0 < inner.count_at j → inner'.key_at j = inner.key_at j) ∧
      ∀ kept, result = .ok kept →
        kept.Sublist addresses ∧
        (∀ spk, spk ∈ kept.filterMap pay_to_address_script ↔
          spk ∈ addresses.filterMap pay_to_address_script ∧ held inner t spk = false) ∧
        (kept.filterMap pay_to_address_script).Nodup ∧
        ∀ spk, held inner' t' spk =
          (decide (spk ∈ addresses.filterMap pay_to_address_script) || held inner t spk) := by
  simp only [Tracker.register, Option.bind_eq_bind, Option.bind_eq_some_iff] at h
  obtain ⟨⟨kept, inner₁, t₁, rollback⟩, hloop, h⟩ := h
  obtain ⟨ht₁, ⟨hkeys₁, -⟩, hsub⟩ := register_loop_tracks ht hloop
  cases rollback with
  | false =>
    simp only [Option.pure_def, Option.some.injEq, Prod.mk.injEq] at h
    obtain ⟨rfl, rfl, rfl⟩ := h
    refine ⟨ht₁, fun j hj => (hkeys₁ j hj).1, fun kept' hkept => ?_⟩
    cases hkept
    exact ⟨hsub, register_loop_held ht hloop⟩
  | true =>
    -- the rollback unregisters the kept addresses; it moves no key
    simp only [Option.bind_eq_some_iff, Option.pure_def, Option.some.injEq, Prod.mk.injEq] at h
    obtain ⟨⟨removed, inner₂, t₂⟩, hunreg, rfl, rfl, rfl⟩ := h
    obtain ⟨ht₂, hkeys₂, -⟩ := unregister_spec ht₁ hunreg
    refine ⟨ht₂, fun j hj => ?_, fun _ hkept => nomatch hkept⟩
    rw [← (hkeys₁ j hj).1]
    simp [Inner.key_at, hkeys₂]

-- Draining a set of indexes, each held once more than `others` counts, brings every count
-- back to `others`, and no decrease panics.
theorem foldlM_dec_count {others : Nat → Nat} :
    ∀ (l : List Nat), l.Nodup → ∀ inner : Inner,
      inner.Tracks (fun j => others j + if j ∈ l then 1 else 0) →
      ∃ inner', l.foldlM Inner.dec_count inner = some inner' ∧ inner'.Tracks others ∧
        inner'.script_pub_keys.keys = inner.script_pub_keys.keys := by
  intro l
  induction l with
  | nil =>
    intro _ inner ht
    exact ⟨inner, rfl, by simpa using ht, rfl⟩
  | cons i rest ih =>
    intro hnodup inner ht
    obtain ⟨hi, hrest⟩ := List.nodup_cons.mp hnodup
    have hpos : 0 < others i + if i ∈ i :: rest then 1 else 0 := by simp
    obtain ⟨inner₁, hdec, ht₁, hkeys₁⟩ := ht.dec_count hpos
    have hholders : (fun j => (others j + if j ∈ i :: rest then 1 else 0) -
        if j = i then 1 else 0) = fun j => others j + if j ∈ rest then 1 else 0 :=
      funext fun j => by
        by_cases hj : j = i
        · subst hj; simp [hi]
        · simp [hj]
    obtain ⟨inner', hfold, ht', hkeys'⟩ := ih hrest inner₁ (hholders ▸ ht₁)
    exact ⟨inner', by simp [hdec, hfold], ht', hkeys'.trans hkeys₁⟩

theorem Inner.Tracks.unregister_indexes {others : Nat → Nat} {s : IndexSet}
    (ht : inner.Tracks (add_holder others s)) :
    ∃ inner', Tracker.unregister_indexes inner s = some (inner', IndexSet.new) ∧
      inner'.Tracks (add_holder others IndexSet.new) ∧
      inner'.script_pub_keys.keys = inner.script_pub_keys.keys := by
  have hholders : add_holder others s = fun j => others j + if j ∈ s.indexes then 1 else 0 :=
    funext fun j => by by_cases hj : j ∈ s.indexes <;> simp [add_holder, holds, hj]
  obtain ⟨inner', hfold, ht', hkeys⟩ := foldlM_dec_count s.indexes s.nodup inner (hholders ▸ ht)
  have hnew : add_holder others IndexSet.new = others :=
    funext fun j => by simp [add_holder, holds, IndexSet.new]
  exact ⟨inner', by simp [Tracker.unregister_indexes, hfold], hnew ▸ ht', hkeys⟩

end Loops

end Waglayla.Notify
