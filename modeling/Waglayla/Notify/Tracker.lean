import Mathlib.Data.List.AList
import Waglayla.Maps.IndexMap
import Waglayla.TxScript.Standard

-- The address tracker. A hash set is a list whose first element is what `iter().next()`
-- returns; the lock is held for the whole call, and the guard's `bump` is not modelled.

namespace Waglayla.Notify

open Waglayla.Addresses Waglayla.TxScript

-- `RefCount` is `u16`: an increment past its maximum panics under the release profile's
-- overflow checks.
def REF_COUNT_MAX : Nat := 65535

inductive Error where
  | MaxCapacityReached
  deriving DecidableEq, Repr

-- Indexers

-- `IndexSet`, a `HashSet<Index>`. An `Index` (`u32`) is a `Nat` here: the tracker never hands
-- out one above `MAX_ADDRESS_UPPER_BOUND`.
structure IndexSet where
  indexes : List Nat
  nodup : indexes.Nodup

namespace IndexSet

def new : IndexSet := ⟨[], List.nodup_nil⟩

def is_empty (s : IndexSet) : Bool := s.indexes.isEmpty

def insert (s : IndexSet) (index : Nat) : Bool × IndexSet :=
  if h : index ∈ s.indexes then (false, s)
  else (true, ⟨index :: s.indexes, List.nodup_cons.mpr ⟨h, s.nodup⟩⟩)

def remove (s : IndexSet) (index : Nat) : Bool × IndexSet :=
  if index ∈ s.indexes then (true, ⟨s.indexes.erase index, s.nodup.erase index⟩)
  else (false, s)

end IndexSet

-- `CounterMap`, a `HashMap<Index, RefCount>`. A counter that falls to zero keeps its key.
structure CounterMap where
  counts : AList fun _ : Nat => Nat

namespace CounterMap

def new : CounterMap := ⟨∅⟩

def is_empty (c : CounterMap) : Bool := c.counts.entries.isEmpty

-- `entry(index).and_modify(|x| { *x += 1; result = *x == 1 }).or_insert(1)`
def insert (c : CounterMap) (index : Nat) : Option (Bool × CounterMap) :=
  match c.counts.lookup index with
  | some count =>
    if count < REF_COUNT_MAX then some (count + 1 == 1, ⟨c.counts.insert index (count + 1)⟩)
    else none
  | none => some (true, ⟨c.counts.insert index 1⟩)

-- `entry(index).and_modify(|x| if *x > 0 { *x -= 1; result = *x == 0 })`
def remove (c : CounterMap) (index : Nat) : Bool × CounterMap :=
  match c.counts.lookup index with
  | some count =>
    if count > 0 then (count - 1 == 0, ⟨c.counts.insert index (count - 1)⟩) else (false, c)
  | none => (false, c)

end CounterMap

-- The `Indexer` trait, as far as the tracker calls it.
class Indexer (T : Type) where
  insert : T → Nat → Option (Bool × T)
  remove : T → Nat → Bool × T
  is_empty : T → Bool

instance : Indexer IndexSet := ⟨fun s index => some (s.insert index), IndexSet.remove,
  IndexSet.is_empty⟩

instance : Indexer CounterMap := ⟨CounterMap.insert, CounterMap.remove, CounterMap.is_empty⟩

-- The indexers of the subscriptions that share one tracker, of either kind.
inductive AnyIndexer where
  | set (indexes : IndexSet)
  | counters (counters : CounterMap)

instance : Indexer AnyIndexer where
  insert
    | .set s, index => (Indexer.insert s index).map fun r => (r.1, .set r.2)
    | .counters c, index => (Indexer.insert c index).map fun r => (r.1, .counters r.2)
  remove
    | .set s, index => let r := Indexer.remove s index; (r.1, .set r.2)
    | .counters c, index => let r := Indexer.remove c index; (r.1, .counters r.2)
  is_empty
    | .set s => Indexer.is_empty s
    | .counters c => Indexer.is_empty c

-- The tracker's inner state

def MAX_ADDRESS_LOWER_BOUND : Nat := 6

-- `usize::next_power_of_two`, the least power of two at least `n`, doubling from one; the
-- fuel `n` is never the bound that stops it.
def next_power_of_two_from (n : Nat) : Nat → Nat → Nat
  | 0, power => power
  | fuel + 1, power => if power < n then next_power_of_two_from n fuel (power * 2) else power

def next_power_of_two (n : Nat) : Nat := next_power_of_two_from n n 1

def expand_max_addresses (max_addresses : Nat) : Nat :=
  if max_addresses ≥ MAX_ADDRESS_LOWER_BOUND then
    next_power_of_two ((max_addresses + 1) * 8 / 7) * 7 / 8 - 1
  else MAX_ADDRESS_LOWER_BOUND

def MAX_ADDRESS_UPPER_BOUND : Nat := expand_max_addresses 10000000

def DEFAULT_MAX_ADDRESSES : Nat := expand_max_addresses 1000000

-- `addresses_preallocation` only sizes allocations and is left out.
structure Inner where
  script_pub_keys : IndexMap ScriptPublicKey Nat
  max_addresses : Nat
  empty_entries : IndexSet

namespace Inner

-- The `assert!` on the capacity is the `none` branch.
def new (max_addresses : Option Nat) : Option Inner :=
  let max_addresses := max_addresses.map expand_max_addresses
  let capacity := (max_addresses.map (· + 1)).getD 0
  if capacity ≤ MAX_ADDRESS_UPPER_BOUND + 1 then
    some { script_pub_keys := .empty, max_addresses := max_addresses.getD DEFAULT_MAX_ADDRESSES,
           empty_entries := .new }
  else none

def is_full (inner : Inner) : Bool :=
  inner.script_pub_keys.len ≥ inner.max_addresses && inner.empty_entries.is_empty

def get (inner : Inner) (spk : ScriptPublicKey) : Option (Nat × Nat) :=
  (inner.script_pub_keys.get_full spk).map fun entry => (entry.1, entry.2.2)

-- `expect("is retro-convertible")` and a panic of the extraction are the outer `none`.
def get_index_address (inner : Inner) (index : Nat) (prefix_ : Prefix) :
    Option (Option Address) :=
  match inner.script_pub_keys.get_index index with
  | some (spk, _) =>
    match extract_script_pub_key_address spk prefix_ with
    | some (.ok address) => some (some address)
    | _ => none
  | none => some none

def get_or_insert (inner : Inner) (spk : ScriptPublicKey) : Except Error (Nat × Inner) :=
  match inner.is_full with
  | false =>
    match inner.script_pub_keys.get_index_of spk with
    | some index => .ok (index, inner)
    | none =>
      let index := inner.script_pub_keys.len
      let script_pub_keys := inner.script_pub_keys.insert spk 0
      -- The new entry is last; it takes the slot of the first empty entry if there is one,
      -- and that slot stays registered as empty.
      let (index, script_pub_keys, recycled) :=
        if index + 1 = script_pub_keys.len && !inner.empty_entries.is_empty then
          match inner.empty_entries.indexes.head? with
          | some empty_index => (empty_index, script_pub_keys.swap_remove_index empty_index, true)
          | none => (index, script_pub_keys, false)
        else (index, script_pub_keys, false)
      let empty_entries :=
        if !recycled then (inner.empty_entries.insert index).2 else inner.empty_entries
      .ok (index, { inner with script_pub_keys, empty_entries })
  | true =>
    match inner.script_pub_keys.get_index_of spk with
    | some index => .ok (index, inner)
    | none => .error .MaxCapacityReached

def inc_count (inner : Inner) (index : Nat) : Option Inner :=
  match inner.script_pub_keys.get_index index with
  | some (_, count) =>
    if count < REF_COUNT_MAX then
      let script_pub_keys := inner.script_pub_keys.modify_index index fun count => count + 1
      if count + 1 = 1 then
        some { inner with script_pub_keys, empty_entries := (inner.empty_entries.remove index).2 }
      else some { inner with script_pub_keys }
    else none
  | none => some inner

-- The panic on a count already at zero is the `none` branch.
def dec_count (inner : Inner) (index : Nat) : Option Inner :=
  match inner.script_pub_keys.get_index index with
  | some (_, count) =>
    if count = 0 then none
    else
      let script_pub_keys := inner.script_pub_keys.modify_index index fun count => count - 1
      if count - 1 = 0 then
        some { inner with script_pub_keys, empty_entries := (inner.empty_entries.insert index).2 }
      else some { inner with script_pub_keys }
  | none => some inner

def len (inner : Inner) : Option Nat :=
  if inner.script_pub_keys.len ≥ inner.empty_entries.indexes.length then
    some (inner.script_pub_keys.len - inner.empty_entries.indexes.length)
  else none

end Inner

-- Registration

-- `Vec::retain` with a closure that carries state and may panic: each element is visited
-- once, in order.
def retain_state {α σ : Type} (f : α → σ → Option (Bool × σ)) : List α → σ → Option (List α × σ)
  | [], state => some ([], state)
  | a :: as, state => do
    let (keep, state) ← f a state
    let (kept, state) ← retain_state f as state
    return (if keep then a :: kept else kept, state)

section Retain

variable {α σ : Type} {f : α → σ → Option (Bool × σ)}

theorem retain_state_cons_eq_some {a : α} {as kept : List α} {state state' : σ}
    (h : retain_state f (a :: as) state = some (kept, state')) :
    ∃ keep state₁ kept', f a state = some (keep, state₁) ∧
      retain_state f as state₁ = some (kept', state') ∧
      kept = if keep then a :: kept' else kept' := by
  simp only [retain_state, Option.bind_eq_bind, Option.bind_eq_some_iff, Option.pure_def,
    Option.some.injEq] at h
  obtain ⟨⟨keep, state₁⟩, hf, ⟨kept', state₂⟩, hrest, hres⟩ := h
  cases hres
  exact ⟨keep, state₁, kept', hf, hrest, rfl⟩

-- The loop rule: a property of the state that every visit keeps, with a preorder that every
-- visit extends, holds across the loop; and the kept elements are a sublist.
theorem retain_state_induction {P : σ → Prop} {R : σ → σ → Prop} (hrefl : ∀ s, R s s)
    (htrans : ∀ s₁ s₂ s₃, R s₁ s₂ → R s₂ s₃ → R s₁ s₃)
    (hstep : ∀ a s keep s', P s → f a s = some (keep, s') → P s' ∧ R s s') :
    ∀ (l : List α) (s : σ) (kept : List α) (s' : σ), P s →
      retain_state f l s = some (kept, s') → P s' ∧ R s s' ∧ kept.Sublist l := by
  intro l
  induction l with
  | nil =>
    intro s kept s' hs h
    cases h
    exact ⟨hs, hrefl s, List.Sublist.refl _⟩
  | cons a as ih =>
    intro s kept s' hs h
    obtain ⟨keep, s₁, kept', hf, hrest, rfl⟩ := retain_state_cons_eq_some h
    obtain ⟨hs₁, hr₁⟩ := hstep a s keep s₁ hs hf
    obtain ⟨hs', hr', hsub⟩ := ih s₁ kept' s' hs₁ hrest
    refine ⟨hs', htrans _ _ _ hr₁ hr', ?_⟩
    cases keep
    · exact hsub.cons a
    · exact hsub.cons_cons a

-- The loop never panics when no visit of an element of the list, from a state with the
-- property, does.
theorem retain_state_isSome {P : σ → Prop} :
    ∀ (l : List α) (s : σ), (∀ a ∈ l, ∀ s, P s → ∃ keep s', f a s = some (keep, s') ∧ P s') →
      P s → (retain_state f l s).isSome := by
  intro l
  induction l with
  | nil => intro s _ _; rfl
  | cons a as ih =>
    intro s hstep hs
    obtain ⟨keep, s₁, hf, hs₁⟩ := hstep a List.mem_cons_self s hs
    obtain ⟨⟨kept, s'⟩, hrest⟩ := Option.isSome_iff_exists.mp
      (ih s₁ (fun b hb => hstep b (List.mem_cons_of_mem a hb)) hs₁)
    simp [retain_state, hf, hrest]

end Retain

namespace Tracker

variable {T : Type} [Indexer T]

-- The closure of `register`'s `retain`, over the inner state, the indexer and `rollback`.
def register_address (address : Address) (state : Inner × T × Bool) :
    Option (Bool × (Inner × T × Bool)) := do
  let (inner, indexes, rollback) := state
  let spk ← pay_to_address_script address
  match inner.get_or_insert spk with
  | .ok (index, inner) =>
    let (inserted, indexes) ← Indexer.insert indexes index
    if inserted then
      let inner ← inner.inc_count index
      return (true, (inner, indexes, rollback))
    else return (false, (inner, indexes, rollback))
  | .error .MaxCapacityReached => return (false, (inner, indexes, true))

-- The closure of `unregister`'s `retain`.
def unregister_address (address : Address) (state : Inner × T) : Option (Bool × (Inner × T)) := do
  let (inner, indexes) := state
  let spk ← pay_to_address_script address
  match inner.get spk with
  | some (index, _) =>
    let (removed, indexes) := Indexer.remove indexes index
    if removed then
      let inner ← inner.dec_count index
      return (true, (inner, indexes))
    else return (false, (inner, indexes))
  | none => return (false, (inner, indexes))

def unregister (inner : Inner) (indexes : T) (addresses : List Address) :
    Option (List Address × Inner × T) :=
  if Indexer.is_empty indexes then some ([], inner, indexes)
  else retain_state unregister_address addresses (inner, indexes)

-- On `MaxCapacityReached` the addresses the closure kept are unregistered again.
def register (inner : Inner) (indexes : T) (addresses : List Address) :
    Option (Except Error (List Address) × Inner × T) := do
  let (addresses, inner, indexes, rollback) ←
    retain_state register_address addresses (inner, indexes, false)
  match rollback with
  | false => return (.ok addresses, inner, indexes)
  | true =>
    let (_, inner, indexes) ← unregister inner indexes addresses
    return (.error .MaxCapacityReached, inner, indexes)

-- `drain` empties the set; every drained index has its count decreased.
def unregister_indexes (inner : Inner) (indexes : IndexSet) : Option (Inner × IndexSet) := do
  let inner ← indexes.indexes.foldlM Inner.dec_count inner
  return (inner, .new)

end Tracker

-- Subscriptions sharing one tracker

structure TrackerState where
  inner : Inner
  indexers : List AnyIndexer

-- A call names its indexer by position in the family.
inductive TrackerCall where
  | register (k : Nat) (addresses : List Address)
  | unregister (k : Nat) (addresses : List Address)
  | unregister_indexes (k : Nat)

namespace TrackerState

-- A call on an indexer that does not exist, or `unregister_indexes` on a counter map, is
-- ruled out by the source's types and changes nothing here.
def apply (s : TrackerState) : TrackerCall → Option TrackerState
  | .register k addresses =>
    match s.indexers[k]? with
    | some indexes =>
      (Tracker.register s.inner indexes addresses).map fun r => ⟨r.2.1, s.indexers.set k r.2.2⟩
    | none => some s
  | .unregister k addresses =>
    match s.indexers[k]? with
    | some indexes =>
      (Tracker.unregister s.inner indexes addresses).map fun r => ⟨r.2.1, s.indexers.set k r.2.2⟩
    | none => some s
  | .unregister_indexes k =>
    match s.indexers[k]? with
    | some (.set indexes) =>
      (Tracker.unregister_indexes s.inner indexes).map fun r => ⟨r.1, s.indexers.set k (.set r.2)⟩
    | _ => some s

def run : TrackerState → List TrackerCall → Option TrackerState
  | s, [] => some s
  | s, call :: calls => (s.apply call).bind fun s => run s calls

end TrackerState

end Waglayla.Notify
