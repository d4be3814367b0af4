import Mathlib.Data.List.AList
import Mathlib.Data.List.Lex
import Mathlib.Data.Prod.Lex
import Waglayla.Lists.MergeJoin
import Mathlib.Algebra.GroupWithZero.Nat
import Waglayla.Bytes.LittleEndian

namespace Waglayla.Consensus

-- A block hash, `[u8; 32]`.
abbrev Hash := List UInt8

-- `blockhash::ORIGIN`, the virtual root below a pruning point.
def ORIGIN : Hash := List.replicate 32 0xfe

def is_origin (hash : Hash) : Bool := hash == ORIGIN

-- `blockhash::NONE`, the hash that stands for no block.
def NONE : Hash := List.replicate 32 0

-- The derived `Ord` of `[u8; 32]` compares bytes lexicographically; bytes compare as
-- numbers. Low priority keeps the core order on `UInt8` in front everywhere else.
instance (priority := low) instLinearOrderUInt8 : LinearOrder UInt8 :=
  LinearOrder.lift' UInt8.toNat fun _ _ h => UInt8.toNat_inj.mp h

-- Blue work is a `Uint192` (`BlueWorkType`) and never comes near its bound; anticone
-- sizes and `k` are `KType`, a `u16`, and stay at most `k + 1`. Both are kept as `Nat`.
structure SortableBlock where
  hash : Hash
  blue_work : Nat
  deriving DecidableEq, Repr

namespace SortableBlock

-- `Ord for SortableBlock`: by blue work, ties broken by hash.
def key (block : SortableBlock) : Nat ×ₗ Hash := toLex (block.blue_work, block.hash)

theorem key_injective : Function.Injective key := by
  rintro ⟨h₁, w₁⟩ ⟨h₂, w₂⟩ h
  obtain ⟨rfl, rfl⟩ := Prod.mk.inj (congrArg ofLex h)
  rfl

instance : LinearOrder SortableBlock := LinearOrder.lift' key key_injective

theorem le_iff_key_le {a b : SortableBlock} : a ≤ b ↔ a.key ≤ b.key := Iff.rfl

theorem lt_iff_key_lt {a b : SortableBlock} : a < b ↔ a.key < b.key := Iff.rfl

-- Lower blue work sorts first, whatever the hashes.
theorem lt_of_blue_work_lt {a b : SortableBlock} (h : a.blue_work < b.blue_work) : a < b :=
  lt_iff_key_lt.mpr (Prod.Lex.toLex_lt_toLex.mpr (Or.inl h))

theorem blue_work_le_of_le {a b : SortableBlock} (h : a ≤ b) : a.blue_work ≤ b.blue_work := by
  rcases Prod.Lex.toLex_le_toLex.mp (le_iff_key_le.mp h) with h | ⟨h, -⟩
  · exact h.le
  · exact h.le

end SortableBlock

-- `HashKTypeMap`: the blue anticone sizes a block records.
abbrev HashKTypeMap := AList fun _ : Hash => Nat

structure GhostdagData where
  blue_score : Nat
  blue_work : Nat
  selected_parent : Hash
  mergeset_blues : List Hash
  mergeset_reds : List Hash
  blues_anticone_sizes : HashKTypeMap
  deriving DecidableEq

namespace GhostdagData

def new_with_selected_parent (selected_parent : Hash) (_k : Nat) : GhostdagData :=
  { blue_score := 0
    blue_work := 0
    selected_parent
    mergeset_blues := [selected_parent]
    mergeset_reds := []
    blues_anticone_sizes := (∅ : HashKTypeMap).insert selected_parent 0 }

def mergeset_size (self : GhostdagData) : Nat :=
  self.mergeset_blues.length + self.mergeset_reds.length

-- The iterators below are forced whole: a block missing from the store (`unwrap`) or a
-- `Both` of the merge ("distinct blocks are never equal") panics, and the model returns
-- `none` even where a caller would have stopped before reaching it.

-- The blues after the selected parent and the reds, each stored in ascending order,
-- merged into one ascending sequence.
def ascending_mergeset_without_selected_parent (self : GhostdagData)
    (store : AList fun _ : Hash => GhostdagData) : Option (List SortableBlock) := do
  let blues ← self.mergeset_blues.tail.mapM fun h =>
    (store.lookup h).map fun data => SortableBlock.mk h data.blue_work
  let reds ← self.mergeset_reds.mapM fun h =>
    (store.lookup h).map fun data => SortableBlock.mk h data.blue_work
  MergeJoin.merge_join_by (fun a b => decide (a < b)) blues reds

-- The same two lists walked backwards and merged by the reversed comparison.
def descending_mergeset_without_selected_parent (self : GhostdagData)
    (store : AList fun _ : Hash => GhostdagData) : Option (List SortableBlock) := do
  let blues ← self.mergeset_blues.tail.reverse.mapM fun h =>
    (store.lookup h).map fun data => SortableBlock.mk h data.blue_work
  let reds ← self.mergeset_reds.reverse.mapM fun h =>
    (store.lookup h).map fun data => SortableBlock.mk h data.blue_work
  MergeJoin.merge_join_by (fun a b => decide (b < a)) blues reds

-- The selected parent, then the rest of the mergeset in ascending order.
def consensus_ordered_mergeset (self : GhostdagData)
    (store : AList fun _ : Hash => GhostdagData) : Option (List Hash) := do
  let ascending ← self.ascending_mergeset_without_selected_parent store
  pure (self.selected_parent :: ascending.map SortableBlock.hash)

-- The new blue block enters with its blue anticone size, then every blue of its
-- anticone has its size raised by one.
def add_blue (self : GhostdagData) (block : Hash) (blue_anticone_size : Nat)
    (block_blues_anticone_sizes : HashKTypeMap) : GhostdagData :=
  { self with
    mergeset_blues := self.mergeset_blues ++ [block]
    blues_anticone_sizes := block_blues_anticone_sizes.foldl (fun sizes blue size => sizes.insert blue (size + 1))
      (self.blues_anticone_sizes.insert block blue_anticone_size) }

def add_red (self : GhostdagData) (block : Hash) : GhostdagData :=
  { self with mergeset_reds := self.mergeset_reds ++ [block] }

def finalize_score_and_work (self : GhostdagData) (blue_score : Nat) (blue_work : Nat) :
    GhostdagData :=
  { self with blue_score, blue_work }

@[simp] theorem add_blue_selected_parent (self : GhostdagData) (block : Hash) (size : Nat)
    (sizes : HashKTypeMap) : (self.add_blue block size sizes).selected_parent = self.selected_parent :=
  rfl

@[simp] theorem add_blue_mergeset_blues (self : GhostdagData) (block : Hash) (size : Nat)
    (sizes : HashKTypeMap) :
    (self.add_blue block size sizes).mergeset_blues = self.mergeset_blues ++ [block] :=
  rfl

@[simp] theorem add_blue_mergeset_reds (self : GhostdagData) (block : Hash) (size : Nat)
    (sizes : HashKTypeMap) : (self.add_blue block size sizes).mergeset_reds = self.mergeset_reds :=
  rfl

@[simp] theorem add_red_mergeset_reds (self : GhostdagData) (block : Hash) :
    (self.add_red block).mergeset_reds = self.mergeset_reds ++ [block] :=
  rfl

@[simp] theorem add_red_selected_parent (self : GhostdagData) (block : Hash) :
    (self.add_red block).selected_parent = self.selected_parent :=
  rfl

@[simp] theorem add_red_mergeset_blues (self : GhostdagData) (block : Hash) :
    (self.add_red block).mergeset_blues = self.mergeset_blues :=
  rfl

@[simp] theorem add_red_blues_anticone_sizes (self : GhostdagData) (block : Hash) :
    (self.add_red block).blues_anticone_sizes = self.blues_anticone_sizes :=
  rfl

@[simp] theorem new_with_selected_parent_selected_parent (selected_parent : Hash) (k : Nat) :
    (new_with_selected_parent selected_parent k).selected_parent = selected_parent :=
  rfl

@[simp] theorem new_with_selected_parent_mergeset_blues (selected_parent : Hash) (k : Nat) :
    (new_with_selected_parent selected_parent k).mergeset_blues = [selected_parent] :=
  rfl

@[simp] theorem finalize_score_and_work_selected_parent (self : GhostdagData) (blue_score blue_work : Nat) :
    (self.finalize_score_and_work blue_score blue_work).selected_parent = self.selected_parent :=
  rfl

@[simp] theorem finalize_score_and_work_mergeset_blues (self : GhostdagData) (blue_score blue_work : Nat) :
    (self.finalize_score_and_work blue_score blue_work).mergeset_blues = self.mergeset_blues :=
  rfl

@[simp] theorem new_with_selected_parent_mergeset_reds (selected_parent : Hash) (k : Nat) :
    (new_with_selected_parent selected_parent k).mergeset_reds = [] :=
  rfl

@[simp] theorem finalize_score_and_work_mergeset_reds (self : GhostdagData) (blue_score blue_work : Nat) :
    (self.finalize_score_and_work blue_score blue_work).mergeset_reds = self.mergeset_reds :=
  rfl

@[simp] theorem finalize_score_and_work_blues_anticone_sizes (self : GhostdagData)
    (blue_score blue_work : Nat) :
    (self.finalize_score_and_work blue_score blue_work).blues_anticone_sizes =
      self.blues_anticone_sizes :=
  rfl

@[simp] theorem finalize_score_and_work_blue_score (self : GhostdagData) (blue_score blue_work : Nat) :
    (self.finalize_score_and_work blue_score blue_work).blue_score = blue_score :=
  rfl

@[simp] theorem finalize_score_and_work_blue_work (self : GhostdagData) (blue_score blue_work : Nat) :
    (self.finalize_score_and_work blue_score blue_work).blue_work = blue_work :=
  rfl

end GhostdagData

-- A `mapM` in `Option` whose every call succeeds maps the list: the stores' lookups of the
-- blocks a search has seen.
theorem mapM_eq_some_map {α β : Type*} {f : α → Option β} {g : α → β} :
    ∀ {l : List α}, (∀ x ∈ l, f x = some (g x)) → l.mapM f = some (l.map g)
  | [], _ => rfl
  | x :: l, h => by
    rw [List.mapM_cons, h x List.mem_cons_self,
      mapM_eq_some_map fun y hy => h y (List.mem_cons_of_mem _ hy)]
    rfl

end Waglayla.Consensus
