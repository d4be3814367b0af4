import Mathlib.Data.List.AList

-- Bulk operations on association lists acting at each entry's key only, so that their effect
-- does not depend on the order of the entries: sound models of loops over a hash map.

namespace AListFold

variable {α β δ γ : Type*} [DecidableEq α]

-- A fold step `f` acts at its own key only, as `obs` sees the state: other keys keep
-- their observation, and what it leaves at its key depends on the observation there.
structure Local (obs : δ → α → γ) (f : δ → α → β → δ) : Prop where
  frame : ∀ d k v o, k ≠ o → obs (f d k v) o = obs d o
  at_key : ∀ d d' k v, obs d k = obs d' k → obs (f d k v) k = obs (f d' k v) k

theorem foldl_entries_obs {obs : δ → α → γ} {f : δ → α → β → δ} (hf : Local obs f)
    (l : List (Σ _ : α, β)) (hl : l.NodupKeys) (d : δ) (o : α) :
    obs (l.foldl (fun r e => f r e.1 e.2) d) o =
      match l.dlookup o with
      | some v => obs (f d o v) o
      | none => obs d o := by
  induction l generalizing d with
  | nil => rfl
  | cons e t ih =>
    obtain ⟨k, v⟩ := e
    obtain ⟨hk, ht⟩ := List.nodupKeys_cons.mp hl
    rw [List.foldl_cons, ih ht]
    by_cases hko : k = o
    · -- the entry at `o` is the only one, so nothing after it touches `o`
      subst hko
      rw [List.dlookup_eq_none.mpr hk, List.dlookup_cons_eq]
    · rw [List.dlookup_cons_ne _ _ (Ne.symm hko)]
      cases t.dlookup o with
      | none => exact hf.frame d k v o hko
      | some w => exact hf.at_key _ _ o w (hf.frame d k v o hko)

-- The fold over a map's entries, seen at one key, applies the entry stored there.
theorem foldl_obs {obs : δ → α → γ} {f : δ → α → β → δ} (hf : Local obs f)
    (m : AList fun _ : α => β) (d : δ) (o : α) :
    obs (m.foldl f d) o =
      match m.lookup o with
      | some v => obs (f d o v) o
      | none => obs d o :=
  foldl_entries_obs hf m.entries m.nodupKeys d o

-- Erasing a key acts at that key only.
theorem local_erase :
    Local (fun (m : AList fun _ : α => β) o => m.lookup o) fun m k (_ : γ) => m.erase k where
  frame _ _ _ _ hko := AList.lookup_erase_ne (Ne.symm hko)
  at_key _ _ _ _ _ := by simp

-- So does inserting a value computed from the visited entry's.
theorem local_insert_map (g : γ → β) :
    Local (fun (m : AList fun _ : α => β) o => m.lookup o) fun m k v => m.insert k (g v) where
  frame _ _ _ _ hko := AList.lookup_insert_ne (Ne.symm hko)
  at_key _ _ _ _ _ := by simp

theorem eq_empty_of_lookup_eq_none {s : AList fun _ : α => β} (h : ∀ a, s.lookup a = none) :
    s = ∅ := by
  apply AList.ext
  cases hs : s.entries with
  | nil => rfl
  | cons e t =>
    have hmem : e ∈ s.entries := by rw [hs]; exact List.mem_cons_self
    have hlook : s.lookup e.1 = some e.2 := AList.mem_lookup_iff.mpr hmem
    rw [h e.1] at hlook
    cases hlook

-- Inserting at every key of a list a value computed from the key: the keys of the list hold
-- theirs, the others keep what they held.
theorem lookup_foldl_insert (f : α → β) : ∀ (keys : List α) (s : AList fun _ : α => β) (a : α),
    (keys.foldl (fun s key => s.insert key (f key)) s).lookup a =
      if a ∈ keys then some (f a) else s.lookup a
  | [], s, a => by simp
  | key :: keys, s, a => by
    rw [List.foldl_cons, lookup_foldl_insert f keys]
    by_cases ha : a ∈ keys
    · simp [ha]
    · by_cases hak : a = key
      · rw [hak]
        simp
      · simp [ha, hak, AList.lookup_insert_ne hak]

theorem lookup_foldl_insert_const (v : β) (keys : List α) (s : AList fun _ : α => β) (a : α) :
    (keys.foldl (fun s key => s.insert key v) s).lookup a =
      if a ∈ keys then some v else s.lookup a :=
  lookup_foldl_insert (fun _ => v) keys s a

-- A property of every entry follows from a check over the keys, which a concrete map decides.
theorem forall_lookup_of_forall_keys {s : AList fun _ : α => β} {P : α → β → Prop}
    (h : ∀ a ∈ s.keys, ∀ b ∈ s.lookup a, P a b) : ∀ a b, s.lookup a = some b → P a b :=
  fun a b hab => h a (AList.mem_keys.mpr (AList.lookup_isSome.mp (by rw [hab]; rfl))) b hab

-- The key of the first entry of `s` whose key `t` also holds, with the two values
-- satisfying `p`.
def findCommon (s t : AList fun _ : α => β) (p : α → β → β → Bool) : Option α :=
  (s.entries.find? fun e =>
    match t.lookup e.1 with
    | some w => p e.1 e.2 w
    | none => false).map Sigma.fst

theorem findCommon_eq_none_iff {s t : AList fun _ : α => β} {p : α → β → β → Bool} :
    findCommon s t p = none ↔
      ∀ a v w, s.lookup a = some v → t.lookup a = some w → p a v w = false := by
  simp only [findCommon, Option.map_eq_none_iff, List.find?_eq_none]
  constructor
  · intro h a v w hs ht
    have hmem : (⟨a, v⟩ : Σ _ : α, β) ∈ s.entries := AList.mem_lookup_iff.mp hs
    simpa [ht] using h _ hmem
  · rintro h ⟨a, v⟩ hmem
    have hs : s.lookup a = some v := AList.mem_lookup_iff.mpr hmem
    cases ht : t.lookup a with
    | none => simp
    | some w => simp [h a v w hs ht]

section FoldInsert

-- A map built by inserting the entries of a list in turn, each at a key and with a value computed
-- from the entry, a later entry replacing an earlier.

variable {ε : Type*} (key : ε → α) (val : ε → β)

theorem lookup_foldl_insert_of_not_mem : ∀ {ps : List ε} (m : AList fun _ : α => β) {a : α},
    a ∉ ps.map key → (ps.foldl (fun m p => m.insert (key p) (val p)) m).lookup a = m.lookup a
  | [], _, _, _ => rfl
  | p :: ps, m, a, ha => by
    rw [List.map_cons, List.mem_cons, not_or] at ha
    rw [List.foldl_cons, lookup_foldl_insert_of_not_mem _ ha.2, AList.lookup_insert_ne ha.1]

-- With distinct keys every entry is found.
theorem lookup_foldl_insert_of_mem : ∀ {ps : List ε} (m : AList fun _ : α => β) {p : ε},
    (ps.map key).Nodup → p ∈ ps →
      (ps.foldl (fun m p => m.insert (key p) (val p)) m).lookup (key p) = some (val p)
  | q :: ps, m, p, hnd, hp => by
    rw [List.map_cons, List.nodup_cons] at hnd
    rw [List.foldl_cons]
    rcases List.mem_cons.mp hp with rfl | hp
    · rw [lookup_foldl_insert_of_not_mem _ _ _ hnd.1, AList.lookup_insert]
    · exact lookup_foldl_insert_of_mem _ hnd.2 hp

-- What the map from the empty one finds is an entry.
theorem lookup_foldl_insert_eq_some : ∀ {ps : List ε} {m : AList fun _ : α => β} {a : α} {v : β},
    (ps.foldl (fun m p => m.insert (key p) (val p)) m).lookup a = some v →
      m.lookup a = some v ∨ ∃ p ∈ ps, key p = a ∧ val p = v
  | [], _, _, _, h => .inl h
  | p :: ps, m, a, v, h => by
    rw [List.foldl_cons] at h
    rcases lookup_foldl_insert_eq_some h with h | ⟨q, hq, hkey, hval⟩
    · by_cases hpa : a = key p
      · subst hpa
        rw [AList.lookup_insert, Option.some.injEq] at h
        exact .inr ⟨p, List.mem_cons_self, rfl, h⟩
      · rw [AList.lookup_insert_ne hpa] at h
        exact .inl h
    · exact .inr ⟨q, List.mem_cons_of_mem _ hq, hkey, hval⟩

end FoldInsert

end AListFold
