import Waglayla.Notify.Counts

-- Subscriptions sharing one tracker, over whole runs of calls; and the rollback of a failed
-- `register`, which a duplicate address defeats.

namespace Waglayla.Notify

open Waglayla.Addresses Waglayla.TxScript HoldsIndexes

namespace TrackerState

-- Every count is the number of indexers holding its index.
def Inv (s : TrackerState) : Prop :=
  s.inner.Tracks fun j => s.indexers.countP (holds · j)

variable {s s' : TrackerState}

-- The holders of each index other than one indexer `ix` of the family.
def others (indexers : List AnyIndexer) (ix : AnyIndexer) (j : Nat) : Nat :=
  indexers.countP (holds · j) - if holds ix j then 1 else 0

-- The holders of the family, split at the indexer a call changes.
theorem holders_set {indexers : List AnyIndexer} {k : Nat} {ix : AnyIndexer}
    (hk : indexers[k]? = some ix) (ix' : AnyIndexer) :
    (fun j => (indexers.set k ix').countP (holds · j)) = add_holder (others indexers ix) ix' := by
  obtain ⟨hlt, hget⟩ := List.getElem?_eq_some_iff.mp hk
  funext j
  rw [List.countP_set hlt, hget]
  rfl

theorem Inv.tracks {k : Nat} {ix : AnyIndexer} (hinv : s.Inv) (hk : s.indexers[k]? = some ix) :
    s.inner.Tracks (add_holder (others s.indexers ix) ix) := by
  have hself : s.indexers.set k ix = s.indexers := by
    obtain ⟨hlt, hget⟩ := List.getElem?_eq_some_iff.mp hk
    rw [← hget, List.set_getElem_self]
  rw [← holders_set hk ix, hself]
  exact hinv

theorem inv_set {inner : Inner} {indexers : List AnyIndexer} {k : Nat} {ix ix' : AnyIndexer}
    (hk : indexers[k]? = some ix) (ht : inner.Tracks (add_holder (others indexers ix) ix')) :
    (⟨inner, indexers.set k ix'⟩ : TrackerState).Inv := by
  unfold Inv
  rw [holders_set hk ix']
  exact ht

-- One call keeps the invariant, and a slot with a positive count keeps its key.
theorem Inv.apply {call : TrackerCall} (hinv : s.Inv) (h : s.apply call = some s') :
    s'.Inv ∧ ∀ j, 0 < s.inner.count_at j → s'.inner.key_at j = s.inner.key_at j := by
  cases call with
  | register k addresses =>
    simp only [TrackerState.apply] at h
    split at h
    · rename_i ix hk
      obtain ⟨⟨result, inner', ix'⟩, hreg, rfl⟩ := Option.map_eq_some_iff.mp h
      obtain ⟨ht', hkeys, -⟩ := register_spec (hinv.tracks hk) hreg
      exact ⟨inv_set hk ht', hkeys⟩
    · cases h
      exact ⟨hinv, fun _ _ => rfl⟩
  | unregister k addresses =>
    simp only [TrackerState.apply] at h
    split at h
    · rename_i ix hk
      obtain ⟨⟨kept, inner', ix'⟩, hunreg, rfl⟩ := Option.map_eq_some_iff.mp h
      obtain ⟨ht', hkeys, -⟩ := unregister_spec (hinv.tracks hk) hunreg
      exact ⟨inv_set hk ht', fun j _ => by simp [Inner.key_at, hkeys]⟩
    · cases h
      exact ⟨hinv, fun _ _ => rfl⟩
  | unregister_indexes k =>
    simp only [TrackerState.apply] at h
    split at h
    · rename_i indexes hk
      have ht : s.inner.Tracks (add_holder (others s.indexers _) indexes) := hinv.tracks hk
      obtain ⟨inner', hdrain, ht', hkeys⟩ := ht.unregister_indexes
      rw [hdrain] at h
      cases h
      have ht'' : inner'.Tracks (add_holder (others s.indexers _) (AnyIndexer.set .new)) := ht'
      exact ⟨inv_set hk ht'', fun j _ => by simp [Inner.key_at, hkeys]⟩
    · cases h
      exact ⟨hinv, fun _ _ => rfl⟩

theorem Inv.run (hinv : s.Inv) : ∀ {calls : List TrackerCall} {s' : TrackerState},
    s.run calls = some s' → s'.Inv := by
  intro calls
  induction calls generalizing s with
  | nil =>
    intro s' h
    cases h
    exact hinv
  | cons call calls ih =>
    intro s' h
    obtain ⟨s₁, h₁, hrest⟩ := Option.bind_eq_some_iff.mp h
    exact ih (hinv.apply h₁).1 hrest

-- A new tracker, shared by indexers that hold nothing.
theorem inv_start {max_addresses : Option Nat} {inner : Inner}
    (hnew : Inner.new max_addresses = some inner) {indexers : List AnyIndexer}
    (hempty : ∀ ix ∈ indexers, ∀ j, holds ix j = false) : (⟨inner, indexers⟩ : TrackerState).Inv := by
  dsimp only [Inner.new] at hnew
  split at hnew
  · cases hnew
    have hzero : ∀ j, indexers.countP (holds · j) = 0 := fun j =>
      List.countP_eq_zero.mpr fun ix hix => by simp [hempty ix hix j]
    refine ⟨fun j => ?_, fun j => ?_⟩
    · simp [hzero, Inner.count_at, IndexMap.get_index]
    · simp [IndexSet.new, IndexMap.len]
  · cases hnew

-- No decrease panics

theorem Inv.apply_unregister_isSome (hinv : s.Inv) {k : Nat} {addresses : List Address}
    (haddresses : ∀ a ∈ addresses, (pay_to_address_script a).isSome) :
    (s.apply (.unregister k addresses)).isSome := by
  simp only [TrackerState.apply]
  split
  · rename_i ix hk
    rw [Option.isSome_map]
    exact unregister_isSome (hinv.tracks hk) haddresses
  · rfl

theorem Inv.apply_unregister_indexes_isSome (hinv : s.Inv) (k : Nat) :
    (s.apply (.unregister_indexes k)).isSome := by
  simp only [TrackerState.apply]
  split
  · rename_i indexes hk
    have ht : s.inner.Tracks (add_holder (others s.indexers _) indexes) := hinv.tracks hk
    obtain ⟨inner', hdrain, -⟩ := ht.unregister_indexes
    simp [hdrain]
  · rfl

-- `register` panics only in its own loop (a malformed address or a count at the `u16`
-- maximum): its rollback never does.
theorem Inv.apply_register_isSome (hinv : s.Inv) {k : Nat} {ix : AnyIndexer}
    (hk : s.indexers[k]? = some ix) {addresses : List Address}
    (haddresses : ∀ a ∈ addresses, (pay_to_address_script a).isSome)
    (hloop : (retain_state Tracker.register_address addresses (s.inner, ix, false)).isSome) :
    (s.apply (.register k addresses)).isSome := by
  have ht := hinv.tracks hk
  obtain ⟨⟨kept, inner₁, ix₁, rollback⟩, hret⟩ := Option.isSome_iff_exists.mp hloop
  obtain ⟨ht₁, -, hsub⟩ := register_loop_tracks ht hret
  simp only [TrackerState.apply, hk, Option.isSome_map, Tracker.register, Option.bind_eq_bind,
    hret, Option.bind_some]
  cases rollback with
  | false => rfl
  | true =>
    obtain ⟨r, hr⟩ := Option.isSome_iff_exists.mp
      (unregister_isSome ht₁ fun a ha => haddresses a (hsub.subset ha))
    simp [hr]

-- Index stability

-- Index `j` is held by some indexer before each call of the run.
def HeldAlong (j : Nat) : TrackerState → List TrackerCall → Prop
  | _, [] => True
  | s, call :: calls =>
    (∃ ix ∈ s.indexers, holds ix j = true) ∧ ∀ s', s.apply call = some s' → HeldAlong j s' calls

theorem Inv.count_pos (hinv : s.Inv) {j : Nat} (hheld : ∃ ix ∈ s.indexers, holds ix j = true) :
    0 < s.inner.count_at j := by
  rw [hinv.count j]
  exact List.countP_pos_iff.mpr hheld

-- While some indexer holds index `j`, the key at `j` never changes.
theorem Inv.key_at_run (hinv : s.Inv) {j : Nat} :
    ∀ {calls : List TrackerCall} {s' : TrackerState}, s.run calls = some s' →
      HeldAlong j s calls → s'.inner.key_at j = s.inner.key_at j := by
  intro calls
  induction calls generalizing s with
  | nil =>
    intro s' h _
    cases h
    rfl
  | cons call calls ih =>
    intro s' h hheld
    obtain ⟨s₁, h₁, hrest⟩ := Option.bind_eq_some_iff.mp h
    obtain ⟨hinv₁, hkeys⟩ := hinv.apply h₁
    rw [ih hinv₁ hrest (hheld.2 s₁ h₁), hkeys j (hinv.count_pos hheld.1)]

end TrackerState

-- The address a key was built from is read back at the key's index.
theorem Inner.get_index_address_of_key_at {inner : Inner} {j : Nat} {spk : ScriptPublicKey}
    {address : Address} (hkey : inner.key_at j = some spk)
    (hspk : pay_to_address_script address = some spk) :
    inner.get_index_address j address.prefix_ = some (some address) := by
  rw [Inner.key_at_eq_map] at hkey
  obtain ⟨⟨key, count⟩, hentry, rfl⟩ := Option.map_eq_some_iff.mp hkey
  simp [Inner.get_index_address, hentry, extract_of_pay_to_address_script hspk]

-- An address whose key sits at index `j` is what `get_address_at_index` returns there, after
-- any run during which some indexer keeps holding `j`.
theorem TrackerState.Inv.get_index_address_run {s s' : TrackerState} (hinv : s.Inv) {j : Nat}
    {spk : ScriptPublicKey} {address : Address} (hkey : s.inner.key_at j = some spk)
    (hspk : pay_to_address_script address = some spk) {calls : List TrackerCall}
    (h : s.run calls = some s') (hheld : TrackerState.HeldAlong j s calls) :
    s'.inner.get_index_address j address.prefix_ = some (some address) :=
  Inner.get_index_address_of_key_at ((hinv.key_at_run h hheld).trans hkey) hspk

-- From a new tracker shared by indexers that hold nothing, every state a run reaches keeps
-- every count at its number of holders; there no `unregister` or `unregister_indexes` panics,
-- nor a `register` whose own loop goes through; and an address whose key sits at an index is
-- read back there after any further run that keeps the index held.
theorem tracker_runs_stable {max_addresses : Option Nat} {inner : Inner}
    (hnew : Inner.new max_addresses = some inner) {indexers : List AnyIndexer}
    (hempty : ∀ ix ∈ indexers, ∀ j, holds ix j = false) {calls : List TrackerCall}
    {s : TrackerState} (hrun : TrackerState.run ⟨inner, indexers⟩ calls = some s) :
    s.Inv ∧
      (∀ k addresses, (∀ a ∈ addresses, (pay_to_address_script a).isSome) →
        (s.apply (.unregister k addresses)).isSome) ∧
      (∀ k, (s.apply (.unregister_indexes k)).isSome) ∧
      (∀ k ix addresses, s.indexers[k]? = some ix →
        (∀ a ∈ addresses, (pay_to_address_script a).isSome) →
        (retain_state Tracker.register_address addresses (s.inner, ix, false)).isSome →
        (s.apply (.register k addresses)).isSome) ∧
      ∀ j spk address, s.inner.key_at j = some spk → pay_to_address_script address = some spk →
        ∀ calls' s', s.run calls' = some s' → TrackerState.HeldAlong j s calls' →
          s'.inner.get_index_address j address.prefix_ = some (some address) := by
  have hinv : s.Inv := (TrackerState.inv_start hnew hempty).run hrun
  refine ⟨hinv, fun k _ haddresses => hinv.apply_unregister_isSome haddresses,
    hinv.apply_unregister_indexes_isSome, fun k ix _ hk haddresses hloop =>
      hinv.apply_register_isSome hk haddresses hloop, ?_⟩
  intro j spk address hkey hspk calls' s' hrun' hheld
  exact hinv.get_index_address_run hkey hspk hrun' hheld

-- The pay-to-public-key address of a key of 32 equal bytes `k`, and its script.
def p2pk_address (k : UInt8) : Address := ⟨.Mainnet, .PubKey, List.replicate 32 k⟩

def p2pk_script (k : UInt8) : ScriptPublicKey :=
  ⟨0, [codes.OpData32] ++ List.replicate 32 k ++ [codes.OpCheckSig]⟩

-- An index set registers the addresses of the keys 1 and 2, a counter map the one of key 2,
-- and the index set gives key 2's up again: its slot, still held by the counter map, keeps
-- its key.
def two_subscription_calls : List TrackerCall :=
  [.register 0 [p2pk_address 1, p2pk_address 2], .register 1 [p2pk_address 2],
    .unregister 0 [p2pk_address 2]]

theorem tracker_runs_stable_two_subscriptions :
    ∃ inner s, Inner.new (some 0) = some inner ∧
      TrackerState.run ⟨inner, [.set .new, .counters .new]⟩ two_subscription_calls = some s ∧
      s.inner.key_at 1 = some (p2pk_script 2) ∧ s.inner.count_at 1 = 1 ∧
      (s.Inv ∧
        (∀ k addresses, (∀ a ∈ addresses, (pay_to_address_script a).isSome) →
          (s.apply (.unregister k addresses)).isSome) ∧
        (∀ k, (s.apply (.unregister_indexes k)).isSome) ∧
        (∀ k ix addresses, s.indexers[k]? = some ix →
          (∀ a ∈ addresses, (pay_to_address_script a).isSome) →
          (retain_state Tracker.register_address addresses (s.inner, ix, false)).isSome →
          (s.apply (.register k addresses)).isSome) ∧
        ∀ j spk address, s.inner.key_at j = some spk → pay_to_address_script address = some spk →
          ∀ calls' s', s.run calls' = some s' → TrackerState.HeldAlong j s calls' →
            s'.inner.get_index_address j address.prefix_ = some (some address)) := by
  obtain ⟨inner, hnew⟩ := Option.isSome_iff_exists.mp (show (Inner.new (some 0)).isSome by decide)
  -- the run and what it leaves at index 1, computed through the new tracker
  have hrun : ((Inner.new (some 0)).bind fun inner => TrackerState.run
      ⟨inner, [.set .new, .counters .new]⟩ two_subscription_calls).map
        (fun s => (s.inner.key_at 1, s.inner.count_at 1)) = some (some (p2pk_script 2), 1) := by
    decide
  rw [hnew, Option.bind_some] at hrun
  obtain ⟨s, hs, hslot⟩ := Option.map_eq_some_iff.mp hrun
  obtain ⟨hkey, hcount⟩ := Prod.mk.inj hslot
  have hempty : ∀ ix ∈ [AnyIndexer.set .new, .counters .new], ∀ j, holds ix j = false := by
    simp [AnyIndexer.holds, HoldsIndexes.holds, IndexSet.new, CounterMap.new, CounterMap.count]
  exact ⟨inner, s, hnew, hs, hkey, hcount, tracker_runs_stable hnew hempty hs⟩

-- The rollback of a failed registration

-- `register` on a full tracker with the list `[a, a, b]`, where `a` is tracked and `b` is new,
-- fails with `MaxCapacityReached`, yet a counter map that did not hold `a` holds it afterwards
-- and `a`'s count stays one higher: the second `a` raised the counter map's count to two, the
-- closure did not keep it, and the rollback's single removal brings the count back to one
-- only, which `CounterMap::remove` does not report as a removal.
theorem register_rollback_keeps_duplicate {inner : Inner} {c : CounterMap} {a b : Address}
    {spk spk' : ScriptPublicKey} {index : Nat} (hfull : inner.is_full = true)
    (ha : pay_to_address_script a = some spk) (hb : pay_to_address_script b = some spk')
    (hindex : inner.script_pub_keys.get_index_of spk = some index)
    (hnew : inner.script_pub_keys.get_index_of spk' = none)
    (hroom : inner.count_at index < REF_COUNT_MAX) (hc : c.count index = 0) :
    ∃ inner' c', Tracker.register inner c [a, a, b] = some (.error .MaxCapacityReached, inner', c') ∧
      c'.count index = 1 ∧ inner'.count_at index = inner.count_at index + 1 := by
  obtain ⟨value, hentry⟩ := IndexMap.get_index_of_eq_some_iff.mp hindex
  have hcount : inner.count_at index = value := by simp [Inner.count_at, hentry]
  obtain ⟨inner₁, hinc, hfull₁, hkeys₁, hentry₁⟩ :=
    Inner.inc_count_of_full hfull hentry (hcount ▸ hroom)
  have hindex₁ : inner₁.script_pub_keys.get_index_of spk = some index := by
    simpa [IndexMap.get_index_of, hkeys₁] using hindex
  have hnew₁ : inner₁.script_pub_keys.get_index_of spk' = none := by
    simpa [IndexMap.get_index_of, hkeys₁] using hnew
  have hget₁ : inner₁.get spk = some (index, value + 1) := by
    simp [Inner.get, IndexMap.get_full, hindex₁, hentry₁]
  -- the counter map's count at `index` goes 0, 1, 2 and back to 1
  let c₁ : CounterMap := ⟨c.counts.insert index 1⟩
  let c₂ : CounterMap := ⟨c₁.counts.insert index 2⟩
  let c₃ : CounterMap := ⟨c₂.counts.insert index 1⟩
  have hc₁ : c₁.count index = 1 := by simp [c₁, CounterMap.count, AList.lookup_insert]
  have hc₂ : c₂.count index = 2 := by simp [c₂, CounterMap.count, AList.lookup_insert]
  have hins₁ : Indexer.insert c index = some (true, c₁) := by
    show c.insert index = _
    rw [CounterMap.insert_eq (by rw [hc]; decide), hc]
    rfl
  have hins₂ : Indexer.insert c₁ index = some (false, c₂) := by
    show c₁.insert index = _
    rw [CounterMap.insert_eq (by rw [hc₁]; decide), hc₁]
    rfl
  have hrem : Indexer.remove c₂ index = (false, c₃) := by
    show c₂.remove index = _
    rw [CounterMap.remove_eq (by rw [hc₂]; decide), hc₂]
    rfl
  have hnonempty : Indexer.is_empty c₂ = false := by
    show c₂.counts.entries.isEmpty = false
    cases hentries : c₂.counts.entries with
    | nil =>
      have hnone : c₂.counts.lookup index = none := by
        rw [AList.lookup_eq_none, AList.mem_keys, AList.keys, hentries]
        simp
      simp [CounterMap.count, hnone] at hc₂
    | cons _ _ => rfl
  refine ⟨inner₁, c₃, ?_, by simp [c₃, CounterMap.count, AList.lookup_insert],
    by simp [Inner.count_at, hentry₁, hentry]⟩
  simp only [Tracker.register, retain_state, Tracker.register_address, ha, hb,
    Inner.get_or_insert_of_get_index_of hindex, hins₁, hinc, Inner.get_or_insert_of_get_index_of hindex₁,
    hins₂, Inner.get_or_insert_of_full hfull₁ hnew₁, Tracker.unregister, hnonempty,
    Tracker.unregister_address, hget₁, hrem, Option.bind_eq_bind, Option.bind_some, Option.pure_def,
    ↓reduceIte, Bool.false_eq_true]

-- `Tracker::new(Some(0))`, of capacity 6, after an index set registered the addresses of
-- the keys 1 to 6: full, with each count at one.
def six_address_tracker : Inner where
  script_pub_keys := ⟨[1, 2, 3, 4, 5, 6].map fun k => (p2pk_script k, 1), by decide⟩
  max_addresses := 6
  empty_entries := .new

example : ((Inner.new (some 0)).bind fun inner =>
    Tracker.register inner IndexSet.new ([1, 2, 3, 4, 5, 6].map p2pk_address)).map
      (fun r => r.2.1.script_pub_keys.entries) =
    some six_address_tracker.script_pub_keys.entries := by decide

theorem register_rollback_keeps_duplicate_six :
    ∃ inner' c', Tracker.register six_address_tracker CounterMap.new
        [p2pk_address 1, p2pk_address 1, p2pk_address 7] =
        some (.error .MaxCapacityReached, inner', c') ∧
      c'.count 0 = 1 ∧ inner'.count_at 0 = six_address_tracker.count_at 0 + 1 :=
  @register_rollback_keeps_duplicate six_address_tracker CounterMap.new (p2pk_address 1)
    (p2pk_address 7) (p2pk_script 1) (p2pk_script 7) 0 (by decide) (by decide) (by decide)
    (by decide) (by decide) (by decide) (by decide)

end Waglayla.Notify
