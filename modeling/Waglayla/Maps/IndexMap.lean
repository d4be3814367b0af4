import Mathlib.Data.List.InsertIdx
import Mathlib.Data.List.Nodup
import Waglayla.Lists.MinMax

-- An insertion-ordered map with unique keys, as the `indexmap` crate's `IndexMap`.

structure IndexMap (K V : Type*) where
  entries : List (K × V)
  nodup : (entries.map Prod.fst).Nodup

namespace IndexMap

variable {K V : Type*}

def keys (m : IndexMap K V) : List K := m.entries.map Prod.fst

def len (m : IndexMap K V) : Nat := m.entries.length

def empty : IndexMap K V := ⟨[], List.nodup_nil⟩

def get_index (m : IndexMap K V) (index : Nat) : Option (K × V) := m.entries[index]?

-- A value update in place leaves every key where it was.
theorem map_fst_modify (l : List (K × V)) (index : Nat) (f : V → V) :
    (l.modify index fun entry => (entry.1, f entry.2)).map Prod.fst = l.map Prod.fst := by
  refine List.ext_getElem? fun j => ?_
  rw [List.getElem?_map, List.getElem?_map, List.getElem?_modify]
  cases l[j]? with
  | none => rfl
  | some entry => by_cases h : index = j <;> simp [h]

-- `get_index_mut` followed by a write through the reference.
def modify_index (m : IndexMap K V) (index : Nat) (f : V → V) : IndexMap K V :=
  ⟨m.entries.modify index fun entry => (entry.1, f entry.2),
    (map_fst_modify m.entries index f).symm ▸ m.nodup⟩

-- The keys left by a swap-remove are those of the list without the removed position, up
-- to order.
theorem nodup_swap_remove {l : List (K × V)} (hl : (l.map Prod.fst).Nodup) (index : Nat) :
    (((MinMax.swap_remove l index).getD l).map Prod.fst).Nodup := by
  by_cases h : index < l.length
  · obtain ⟨r, hr, hperm⟩ := MinMax.swap_remove_perm h
    rw [hr, Option.getD_some]
    refine (hperm.map Prod.fst).nodup_iff.mpr ?_
    rw [← List.eraseIdx_map]
    exact hl.sublist (List.eraseIdx_sublist _ _)
  · have hnone : MinMax.swap_remove l index = none := by
      simp [MinMax.swap_remove, h]
    rw [hnone, Option.getD_none]
    exact hl

-- `swap_remove_index`: out of bounds the map is left as it is.
def swap_remove_index (m : IndexMap K V) (index : Nat) : IndexMap K V :=
  ⟨(MinMax.swap_remove m.entries index).getD m.entries, nodup_swap_remove m.nodup index⟩

@[simp] theorem entries_empty : (empty : IndexMap K V).entries = [] := rfl

@[simp] theorem len_modify_index (m : IndexMap K V) (index : Nat) (f : V → V) :
    (m.modify_index index f).len = m.len := List.length_modify _ _ _

@[simp] theorem keys_modify_index (m : IndexMap K V) (index : Nat) (f : V → V) :
    (m.modify_index index f).keys = m.keys := map_fst_modify m.entries index f

theorem get_index_modify_index (m : IndexMap K V) (index j : Nat) (f : V → V) :
    (m.modify_index index f).get_index j =
      if j = index then (m.get_index j).map fun entry => (entry.1, f entry.2)
      else m.get_index j := by
  simp only [get_index, modify_index, List.getElem?_modify]
  by_cases h : j = index
  · subst h; simp
  · simp [h, Ne.symm h]

theorem get_index_lt {m : IndexMap K V} {index : Nat} {entry : K × V}
    (h : m.get_index index = some entry) : index < m.len :=
  (List.getElem?_eq_some_iff.mp h).1

theorem get_index_eq_none_iff {m : IndexMap K V} {index : Nat} :
    m.get_index index = none ↔ m.len ≤ index := List.getElem?_eq_none_iff

section Keys

variable [DecidableEq K]

def get_index_of (m : IndexMap K V) (key : K) : Option Nat :=
  if key ∈ m.keys then some (m.keys.idxOf key) else none

def get_full (m : IndexMap K V) (key : K) : Option (Nat × K × V) :=
  (m.get_index_of key).bind fun index =>
    (m.get_index index).map fun entry => (index, entry.1, entry.2)

-- Keys are unique, so a key's index is the one position holding it.
theorem get_index_of_eq_some_iff {m : IndexMap K V} {key : K} {index : Nat} :
    m.get_index_of key = some index ↔ ∃ value, m.get_index index = some (key, value) := by
  have hkeys : m.keys.length = m.len := List.length_map _
  constructor
  · intro h
    simp only [get_index_of] at h
    split at h
    · rename_i hmem
      cases h
      have hlt : m.keys.idxOf key < m.len := hkeys ▸ List.idxOf_lt_length_iff.mpr hmem
      have hkey : m.keys[m.keys.idxOf key]? = some key := List.getElem?_idxOf hmem
      simp only [keys, List.getElem?_map] at hkey
      obtain ⟨entry, hentry, rfl⟩ := Option.map_eq_some_iff.mp hkey
      exact ⟨entry.2, hentry⟩
    · cases h
  · rintro ⟨value, hvalue⟩
    have hlt := get_index_lt hvalue
    have hentry : m.entries[index]? = some (key, value) := hvalue
    have hkey : m.keys[index]? = some key := by
      simp [keys, List.getElem?_map, hentry]
    obtain ⟨hlt', hget⟩ := List.getElem?_eq_some_iff.mp hkey
    have hmem : key ∈ m.keys := List.mem_of_getElem? hkey
    simp only [get_index_of, if_pos hmem, Option.some.injEq]
    rw [← hget]
    exact m.nodup.idxOf_getElem index hlt'

theorem get_index_of_eq_some_iff_keys {m : IndexMap K V} {key : K} {index : Nat} :
    m.get_index_of key = some index ↔ m.keys[index]? = some key := by
  rw [get_index_of_eq_some_iff]
  simp only [get_index, keys, List.getElem?_map, Option.map_eq_some_iff]
  constructor
  · rintro ⟨value, hvalue⟩
    exact ⟨(key, value), hvalue, rfl⟩
  · rintro ⟨⟨k, value⟩, hentry, rfl⟩
    exact ⟨value, hentry⟩

theorem get_index_of_eq_none_iff {m : IndexMap K V} {key : K} :
    m.get_index_of key = none ↔ key ∉ m.keys := by
  unfold get_index_of
  split <;> simp_all

-- `insert`: a present key keeps its position and takes the new value; a new key goes last.
def insert (m : IndexMap K V) (key : K) (value : V) : IndexMap K V :=
  match h : m.get_index_of key with
  | some index => m.modify_index index fun _ => value
  | none => ⟨m.entries ++ [(key, value)], by
    rw [List.map_append, List.nodup_append]
    refine ⟨m.nodup, List.nodup_singleton _, fun a ha b hb hab => ?_⟩
    rw [List.map_singleton, List.mem_singleton] at hb
    rw [hab, hb] at ha
    exact get_index_of_eq_none_iff.mp h ha⟩

theorem get_full_eq_some_iff {m : IndexMap K V} {key : K} {index : Nat} {key' : K}
    {value : V} :
    m.get_full key = some (index, key', value) ↔
      m.get_index_of key = some index ∧ m.get_index index = some (key', value) := by
  simp only [get_full, Option.bind_eq_some_iff, Option.map_eq_some_iff, Prod.mk.injEq]
  constructor
  · rintro ⟨i, hi, entry, hentry, rfl, rfl, rfl⟩
    exact ⟨hi, hentry⟩
  · rintro ⟨hi, hentry⟩
    exact ⟨index, hi, (key', value), hentry, rfl, rfl, rfl⟩

theorem entries_insert_of_not_mem {m : IndexMap K V} {key : K} (h : key ∉ m.keys)
    (value : V) : (m.insert key value).entries = m.entries ++ [(key, value)] := by
  have hnone := get_index_of_eq_none_iff.mpr h
  unfold insert
  split
  · rename_i heq; rw [hnone] at heq; cases heq
  · rfl

-- The vacant-entry insertion followed by a swap-remove at an earlier position puts the
-- new entry in that position: the recycling scheme of a map whose last slot is spare.
theorem entries_swap_remove_index_insert {m : IndexMap K V} {key : K} (h : key ∉ m.keys)
    (value : V) {index : Nat} (hindex : index < m.len) :
    ((m.insert key value).swap_remove_index index).entries =
      m.entries.set index (key, value) := by
  have hlt : index < (m.entries ++ [(key, value)]).length := by
    simp only [List.length_append, List.length_singleton]
    exact Nat.lt_succ_of_lt hindex
  simp only [swap_remove_index, entries_insert_of_not_mem h, MinMax.swap_remove,
    List.getLast?_concat, Option.bind_eq_bind, Option.bind_some, if_pos hlt, Option.getD_some,
    List.set_append_left index _ hindex, List.dropLast_concat]

theorem len_insert_of_not_mem {m : IndexMap K V} {key : K} (h : key ∉ m.keys) (value : V) :
    (m.insert key value).len = m.len + 1 := by
  simp [len, entries_insert_of_not_mem h]

theorem get_index_insert_of_not_mem {m : IndexMap K V} {key : K} (h : key ∉ m.keys)
    (value : V) (j : Nat) :
    (m.insert key value).get_index j = if j = m.len then some (key, value) else m.get_index j := by
  simp only [get_index, entries_insert_of_not_mem h]
  rcases Nat.lt_trichotomy j m.len with hlt | rfl | hgt
  · rw [List.getElem?_append_left hlt, if_neg (Nat.ne_of_lt hlt)]
  · simp [len]
  · have hnone : m.entries[j]? = none := List.getElem?_eq_none (Nat.le_of_lt hgt)
    have hgt' : m.entries.length < j := hgt
    rw [List.getElem?_append_right (Nat.le_of_lt hgt), if_neg (Nat.ne_of_gt hgt), hnone]
    simp only [List.getElem?_singleton, ite_eq_right_iff, reduceCtorEq, imp_false]
    omega

theorem len_swap_remove_index_insert {m : IndexMap K V} {key : K} (h : key ∉ m.keys)
    (value : V) {index : Nat} (hindex : index < m.len) :
    ((m.insert key value).swap_remove_index index).len = m.len := by
  simp [len, entries_swap_remove_index_insert h value hindex]

theorem get_index_swap_remove_index_insert {m : IndexMap K V} {key : K} (h : key ∉ m.keys)
    (value : V) {index : Nat} (hindex : index < m.len) (j : Nat) :
    ((m.insert key value).swap_remove_index index).get_index j =
      if j = index then some (key, value) else m.get_index j := by
  simp only [get_index, entries_swap_remove_index_insert h value hindex, List.getElem?_set]
  by_cases hj : j = index
  · subst hj; simp [show j < m.entries.length from hindex]
  · simp [Ne.symm hj, hj]

end Keys

end IndexMap
