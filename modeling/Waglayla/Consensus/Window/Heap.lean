import Waglayla.Consensus.Ghostdag.Data
import Waglayla.Lists.TopK

-- Block windows and `BoundedSizeBlockHeap`. A `BinaryHeap<Reverse<SortableBlock>>` is kept as
-- the ascending list of its blocks, so `peek` is the head; the heap layout is left out.

namespace Waglayla.Consensus

open TopK

inductive WindowOrigin
  | Full
  | Sampled
  deriving DecidableEq, Repr

structure BlockWindowHeap where
  blocks : List SortableBlock
  origin : WindowOrigin
  sorted : blocks.Pairwise (· ≤ ·)

attribute [ext] BlockWindowHeap

namespace BlockWindowHeap

def new (origin : WindowOrigin) : BlockWindowHeap := ⟨[], origin, List.Pairwise.nil⟩

def with_capacity (origin : WindowOrigin) (_capacity : Nat) : BlockWindowHeap := new origin

def len (self : BlockWindowHeap) : Nat := self.blocks.length

def peek (self : BlockWindowHeap) : Option SortableBlock := self.blocks.head?

def pop (self : BlockWindowHeap) : BlockWindowHeap :=
  { self with blocks := self.blocks.tail, sorted := self.sorted.sublist (List.tail_sublist _) }

def push (self : BlockWindowHeap) (block : SortableBlock) : BlockWindowHeap :=
  { self with
    blocks := self.blocks.orderedInsert (· ≤ ·) block
    sorted := List.Pairwise.orderedInsert block _ self.sorted }

@[simp] theorem new_blocks (origin : WindowOrigin) : (new origin).blocks = [] := rfl

@[simp] theorem new_origin (origin : WindowOrigin) : (new origin).origin = origin := rfl

@[simp] theorem pop_blocks (self : BlockWindowHeap) : self.pop.blocks = self.blocks.tail := rfl

@[simp] theorem pop_origin (self : BlockWindowHeap) : self.pop.origin = self.origin := rfl

@[simp] theorem push_blocks (self : BlockWindowHeap) (block : SortableBlock) :
    (self.push block).blocks = self.blocks.orderedInsert (· ≤ ·) block := rfl

@[simp] theorem push_origin (self : BlockWindowHeap) (block : SortableBlock) :
    (self.push block).origin = self.origin := rfl

end BlockWindowHeap

structure BoundedSizeBlockHeap where
  binary_heap : BlockWindowHeap
  size_bound : Nat

namespace BoundedSizeBlockHeap

def from_binary_heap (size_bound : Nat) (binary_heap : BlockWindowHeap) : BoundedSizeBlockHeap :=
  { binary_heap, size_bound }

def new (contents : WindowOrigin) (size_bound : Nat) : BoundedSizeBlockHeap :=
  from_binary_heap size_bound (BlockWindowHeap.with_capacity contents size_bound)

def reached_size_bound (self : BoundedSizeBlockHeap) : Bool :=
  self.binary_heap.len == self.size_bound

-- On a full heap the least block is read with `unwrap`; `*max >= r_sortable_block` on
-- `Reverse`s says that the new block is at least the least one.
def can_push (self : BoundedSizeBlockHeap) (hash : Hash) (blue_work : Nat) : Option Bool :=
  let r_sortable_block : SortableBlock := ⟨hash, blue_work⟩
  if self.reached_size_bound then
    self.binary_heap.peek.map fun max => decide (max ≤ r_sortable_block)
  else some true

-- A full heap refuses a block below its least one (`*max < r_sortable_block` on
-- `Reverse`s), and otherwise pops its least block to make room.
def try_push (self : BoundedSizeBlockHeap) (hash : Hash) (blue_work : Nat) :
    BoundedSizeBlockHeap × Bool :=
  let r_sortable_block : SortableBlock := ⟨hash, blue_work⟩
  if self.reached_size_bound && self.binary_heap.peek.any (fun max => decide (r_sortable_block < max))
  then (self, false)
  else
    let binary_heap := if self.reached_size_bound then self.binary_heap.pop else self.binary_heap
    ({ self with binary_heap := binary_heap.push r_sortable_block }, true)

-- The loop of `try_push_mergeset` over blocks in descending order: it stops at the first
-- block refused, since every later block is smaller.
def push_while : BoundedSizeBlockHeap → List SortableBlock → BoundedSizeBlockHeap
  | heap, [] => heap
  | heap, block :: rest =>
    match heap.try_push block.hash block.blue_work with
    | (heap, true) => push_while heap rest
    | (heap, false) => heap

-- The loop over the sampled blocks of the new block's own mergeset, which never stops early.
def push_all (heap : BoundedSizeBlockHeap) (blocks : List SortableBlock) : BoundedSizeBlockHeap :=
  blocks.foldl (fun heap block => (heap.try_push block.hash block.blue_work).1) heap

section Spec

open BlockWindowHeap

variable {heap : BoundedSizeBlockHeap} {offered : List SortableBlock}

-- The heap holds the `size_bound` greatest of the blocks offered to it.
def Holds (heap : BoundedSizeBlockHeap) (offered : List SortableBlock) : Prop :=
  heap.binary_heap.blocks = top heap.size_bound offered

-- The heap refuses the block: it is full and the block is below its least block.
def Refuses (heap : BoundedSizeBlockHeap) (block : SortableBlock) : Prop :=
  heap.reached_size_bound = true ∧ ∃ least ∈ heap.binary_heap.peek, block < least

@[simp] theorem new_size_bound (contents : WindowOrigin) (size_bound : Nat) :
    (new contents size_bound).size_bound = size_bound :=
  rfl

theorem holds_new (contents : WindowOrigin) (size_bound : Nat) :
    (new contents size_bound).Holds [] := by
  simp [Holds, new, from_binary_heap, with_capacity]

theorem Holds.perm {offered' : List SortableBlock} (h : heap.Holds offered)
    (hp : offered.Perm offered') : heap.Holds offered' :=
  h.trans (top_perm hp _)

theorem Holds.length_le (h : heap.Holds offered) (hfull : heap.reached_size_bound = true) :
    heap.size_bound ≤ offered.length := by
  have hlen := length_top heap.size_bound offered
  rw [← show heap.binary_heap.blocks = top heap.size_bound offered from h] at hlen
  simp only [reached_size_bound, len, beq_iff_eq] at hfull
  omega

theorem Refuses.of_le {x y : SortableBlock} (h : heap.Refuses x) (hyx : y ≤ x) : heap.Refuses y :=
  ⟨h.1, by
    obtain ⟨least, hleast, hlt⟩ := h.2
    exact ⟨least, hleast, lt_of_le_of_lt hyx hlt⟩⟩

-- Blocks the heap refuses leave what it holds as it is.
theorem Holds.append_refused {ys : List SortableBlock} (h : heap.Holds offered)
    (hys : ∀ y ∈ ys, heap.Refuses y) : heap.Holds (ys ++ offered) := by
  cases ys with
  | nil => exact h
  | cons y ys =>
    obtain ⟨hfull, least, hleast, -⟩ := hys y List.mem_cons_self
    obtain ⟨rest, hblocks⟩ : ∃ rest, heap.binary_heap.blocks = least :: rest :=
      List.head?_eq_some_iff.mp hleast
    have hlt : ∀ z ∈ y :: ys, z < least := by
      intro z hz
      obtain ⟨least', hleast', hlt⟩ := (hys z hz).2
      rw [Option.mem_def, hleast, Option.some.injEq] at hleast'
      exact hleast' ▸ hlt
    exact (top_append_of_lt (h.length_le hfull) (h.symm.trans hblocks) hlt).trans h.symm |>.symm

theorem exists_least (hfull : heap.reached_size_bound = true) (hk : 0 < heap.size_bound) :
    ∃ least rest, heap.binary_heap.blocks = least :: rest := by
  simp only [reached_size_bound, len, beq_iff_eq] at hfull
  cases hblocks : heap.binary_heap.blocks with
  | nil =>
    rw [hblocks, List.length_nil] at hfull
    omega
  | cons least rest => exact ⟨least, rest, rfl⟩

@[simp] theorem try_push_size_bound (self : BoundedSizeBlockHeap) (hash : Hash) (blue_work : Nat) :
    (self.try_push hash blue_work).1.size_bound = self.size_bound := by
  simp only [try_push]
  split_ifs <;> rfl

@[simp] theorem try_push_origin (self : BoundedSizeBlockHeap) (hash : Hash) (blue_work : Nat) :
    (self.try_push hash blue_work).1.binary_heap.origin = self.binary_heap.origin := by
  simp only [try_push]
  split_ifs <;> rfl

-- The one step of the heap: the block is offered, and refused exactly when it is below the
-- least block of a full heap.
theorem try_push_spec (h : heap.Holds offered) (hk : 0 < heap.size_bound) (block : SortableBlock) :
    let r := heap.try_push block.hash block.blue_work
    r.1.Holds (block :: offered) ∧ (r.2 = false ↔ heap.Refuses block) ∧ (r.2 = false → r.1 = heap) := by
  have h' : heap.binary_heap.blocks = top heap.size_bound offered := h
  cases hfull : heap.reached_size_bound with
  | false =>
    -- room left: the block is inserted
    have hlt : offered.length < heap.size_bound := by
      have hlen := length_top heap.size_bound offered
      rw [← h'] at hlen
      simp only [reached_size_bound, len, beq_eq_false_iff_ne, ne_eq] at hfull
      omega
    refine ⟨?_, ?_, ?_⟩
    · simp [try_push, hfull, Holds, h', top_cons_of_length_lt block hlt]
    · simp [try_push, hfull, Refuses]
    · simp [try_push, hfull]
  | true =>
    obtain ⟨least, rest, hblocks⟩ := exists_least hfull hk
    have htop : top heap.size_bound offered = least :: rest := h'.symm.trans hblocks
    have hlen := h.length_le hfull
    by_cases hlt : block < least
    · -- below the least block: refused
      refine ⟨?_, ?_, ?_⟩
      · simp [try_push, hfull, peek, hblocks, hlt, Holds, htop, top_cons_of_lt hlen htop hlt]
      · simp [try_push, hfull, peek, hblocks, hlt, Refuses]
      · simp [try_push, hfull, peek, hblocks, hlt]
    · -- the least block makes room
      have hle : least ≤ block := le_of_not_gt hlt
      refine ⟨?_, ?_, ?_⟩
      · simp [try_push, hfull, peek, hblocks, hlt, Holds, top_cons_of_le hlen htop hle]
      · simp [try_push, hfull, peek, hblocks, hlt, Refuses]
      · simp [try_push, hfull, peek, hblocks, hlt]

theorem can_push_spec (hk : 0 < heap.size_bound) (block : SortableBlock) :
    ∃ pushable, heap.can_push block.hash block.blue_work = some pushable ∧
      (pushable = false ↔ heap.Refuses block) := by
  cases hfull : heap.reached_size_bound with
  | false => exact ⟨true, by simp [can_push, hfull], by simp [Refuses, hfull]⟩
  | true =>
    obtain ⟨least, rest, hblocks⟩ := exists_least hfull hk
    exact ⟨decide (least ≤ block), by simp [can_push, hfull, peek, hblocks],
      by simp [Refuses, hfull, peek, hblocks]⟩

-- Offering blocks in descending order until the first refusal offers them all: the ones
-- after a refused block are smaller and would be refused too.
theorem push_while_spec (hk : 0 < heap.size_bound) {blocks : List SortableBlock}
    (hdesc : blocks.Pairwise (· > ·)) (h : heap.Holds offered) :
    (heap.push_while blocks).Holds (blocks ++ offered) ∧
      (heap.push_while blocks).size_bound = heap.size_bound ∧
      (heap.push_while blocks).binary_heap.origin = heap.binary_heap.origin := by
  induction blocks generalizing heap offered with
  | nil => exact ⟨h, rfl, rfl⟩
  | cons block rest ih =>
    obtain ⟨hbelow, hrest⟩ := List.pairwise_cons.mp hdesc
    obtain ⟨hholds, hrefused, hsame⟩ := try_push_spec h hk block
    have hbound := try_push_size_bound heap block.hash block.blue_work
    have horigin := try_push_origin heap block.hash block.blue_work
    rcases hr : heap.try_push block.hash block.blue_work with ⟨heap', pushed⟩
    simp only [hr] at hholds hrefused hsame hbound horigin
    cases pushed with
    | true =>
      obtain ⟨hholds', hbound', horigin'⟩ := ih (hbound ▸ hk) hrest hholds
      have hres : heap.push_while (block :: rest) = heap'.push_while rest := by
        simp only [push_while, hr]
      rw [hres]
      exact ⟨hholds'.perm List.perm_middle, hbound'.trans hbound, horigin'.trans horigin⟩
    | false =>
      have hrefuses := hrefused.mp rfl
      have hres : heap.push_while (block :: rest) = heap' := by
        simp only [push_while, hr]
      rw [hres, hsame rfl]
      refine ⟨h.append_refused fun y hy => ?_, rfl, rfl⟩
      rcases List.mem_cons.mp hy with rfl | hy
      · exact hrefuses
      · exact hrefuses.of_le (hbelow y hy).le

theorem push_all_spec (hk : 0 < heap.size_bound) (blocks : List SortableBlock)
    (h : heap.Holds offered) :
    (heap.push_all blocks).Holds (blocks ++ offered) ∧
      (heap.push_all blocks).size_bound = heap.size_bound ∧
      (heap.push_all blocks).binary_heap.origin = heap.binary_heap.origin := by
  induction blocks generalizing heap offered with
  | nil => exact ⟨h, rfl, rfl⟩
  | cons block rest ih =>
    obtain ⟨hholds, -⟩ := try_push_spec h hk block
    have hbound := try_push_size_bound heap block.hash block.blue_work
    obtain ⟨hholds', hbound', horigin'⟩ := ih (hbound ▸ hk) hholds
    exact ⟨hholds'.perm List.perm_middle, hbound'.trans hbound,
      horigin'.trans (try_push_origin heap block.hash block.blue_work)⟩

end Spec

end BoundedSizeBlockHeap

end Waglayla.Consensus
