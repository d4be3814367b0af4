import Waglayla.Consensus.Ghostdag.Data
import Mathlib.Data.List.Sort

namespace Waglayla.Consensus

section Work

-- `Uint256::from_compact_target_bits`. A `<<` on `Uint256` shifts by the amount modulo
-- 256 and drops the bits that leave the word.
def from_compact_target_bits (bits : UInt32) : Nat :=
  let unshifted_expt := bits >>> 24
  let (mant, expt) : UInt32 × UInt32 :=
    if unshifted_expt ≤ 3 then ((bits &&& 0xFFFFFF) >>> ((8 : UInt32) * (3 - unshifted_expt)), 0)
    else (bits &&& 0xFFFFFF, (8 : UInt32) * ((bits >>> 24) - 3))
  -- the mantissa is signed but may not be negative
  if mant > 0x7FFFFF then 0
  else (mant.toNat <<< (expt.toNat % 256)) % 2 ^ 256

-- `calc_work`: `!target / (target + 1) + 1` on `Uint256`, whose last `+ 1` wraps in a
-- release build; the `expect` on the conversion to `Uint192` is `none`.
def calc_work (bits : UInt32) : Option Nat :=
  let target := from_compact_target_bits bits
  let res := ((2 ^ 256 - 1 - target) / (target + 1) + 1) % 2 ^ 256
  if res < 2 ^ 192 then some res else none

end Work

def genesis_ghostdag_data : GhostdagData :=
  { blue_score := 0
    blue_work := 0
    selected_parent := ORIGIN
    mergeset_blues := []
    mergeset_reds := []
    blues_anticone_sizes := ∅ }

-- `BlockHashSet::insert`, on a list without repeats.
def insert_hash (set : List Hash) (hash : Hash) : List Hash :=
  if hash ∈ set then set else set ++ [hash]

-- The breadth-first search over the past of `parents` that stops at the past of the
-- selected parent. Every round pops one block of the queue, and a block enters the
-- queue once, and only if it is stored, so the parents and the stored blocks bound the
-- rounds.
def unordered_mergeset_without_selected_parent (relations : AList fun _ : Hash => List Hash)
    (reachability : Hash → Hash → Bool) (selected_parent : Hash) (parents : List Hash) :
    Option (List Hash) :=
  let queue := parents.filter (· != selected_parent)
  go (parents.length + relations.entries.length) queue (queue.foldl insert_hash []) []
where
  visit : List Hash × List Hash × List Hash → Hash → List Hash × List Hash × List Hash
    | (queue, mergeset, past), parent =>
      if parent ∈ mergeset ∨ parent ∈ past then (queue, mergeset, past)
      else if reachability parent selected_parent then (queue, mergeset, insert_hash past parent)
      else (queue ++ [parent], insert_hash mergeset parent, past)
  go : Nat → List Hash → List Hash → List Hash → Option (List Hash)
    | _, [], mergeset, _ => some mergeset
    | 0, _ :: _, _, _ => none
    | fuel + 1, current :: queue, mergeset, past => do
      let current_parents ← relations.lookup current
      let (queue, mergeset, past) := current_parents.foldl visit (queue, mergeset, past)
      go fuel queue mergeset past

-- A block of the selected chain while a candidate is checked; `hash` is `none` for the
-- new block itself.
structure ChainBlock where
  hash : Option Hash
  data : GhostdagData

inductive ColoringState where
  | Blue
  | Red
  | Pending
  deriving DecidableEq, Repr

inductive ColoringOutput where
  | Blue (blue_anticone_size : Nat) (blues_anticone_sizes : HashKTypeMap)
  | Red

-- The level-0 manager with the stores it reads: blocks' GHOSTDAG data, their parents and
-- their difficulty bits, and the reachability service's `is_dag_ancestor_of`.
structure GhostdagManager where
  genesis_hash : Hash
  k : Nat
  ghostdag_store : AList fun _ : Hash => GhostdagData
  relations_store : AList fun _ : Hash => List Hash
  headers_store : AList fun _ : Hash => UInt32
  reachability_service : Hash → Hash → Bool

namespace GhostdagManager

variable (self : GhostdagManager)

-- The walks down the selected chain stop at genesis, which the source does not bound;
-- the model bounds them by the blue score of the selected parent of the context they
-- start from, which falls at every step down the chain.
def chain_fuel (context : GhostdagData) : Nat :=
  match self.ghostdag_store.lookup context.selected_parent with
  | some data => data.blue_score + 2
  | none => 1

def find_selected_parent (parents : List Hash) : Option Hash := do
  let blocks ← parents.mapM fun parent =>
    (self.ghostdag_store.lookup parent).map fun data => SortableBlock.mk parent data.blue_work
  let max ← blocks.max?
  pure max.hash

-- `sort_by_cached_key` is a stable sort on keys no two blocks share, so every stable
-- sort, insertion sort among them, gives its result.
def sort_blocks (blocks : List Hash) : Option (List Hash) := do
  let sortable ← blocks.mapM fun block =>
    (self.ghostdag_store.lookup block).map fun data => SortableBlock.mk block data.blue_work
  pure ((sortable.insertionSort (· ≤ ·)).map SortableBlock.hash)

def ordered_mergeset_without_selected_parent (selected_parent : Hash) (parents : List Hash) :
    Option (List Hash) := do
  let mergeset ← unordered_mergeset_without_selected_parent self.relations_store
    self.reachability_service selected_parent parents
  self.sort_blocks mergeset

-- The blue anticone size of `block` from the worldview of `context`: the first entry
-- for it down the selected chain of `context`.
def blue_anticone_size (block : Hash) (context : GhostdagData) : Option Nat :=
  go (self.chain_fuel context) context.blues_anticone_sizes context.selected_parent
where
  go : Nat → HashKTypeMap → Hash → Option Nat
    | 0, _, _ => none
    | fuel + 1, current_blues_anticone_sizes, current_selected_parent =>
      match current_blues_anticone_sizes.lookup block with
      | some size => some size
      | none =>
        if current_selected_parent = self.genesis_hash ∨ current_selected_parent = ORIGIN then none
        else do
          let data ← self.ghostdag_store.lookup current_selected_parent
          go fuel data.blues_anticone_sizes data.selected_parent

def check_blue_candidate_with_chain_block (new_block_data : GhostdagData) (chain_block : ChainBlock)
    (blue_candidate : Hash) (candidate_blues_anticone_sizes : HashKTypeMap)
    (candidate_blue_anticone_size : Nat) : Option (ColoringState × HashKTypeMap × Nat) :=
  match chain_block.hash with
  | some hash =>
    if self.reachability_service hash blue_candidate then
      some (.Blue, candidate_blues_anticone_sizes, candidate_blue_anticone_size)
    else go chain_block.data.mergeset_blues candidate_blues_anticone_sizes candidate_blue_anticone_size
  | none => go chain_block.data.mergeset_blues candidate_blues_anticone_sizes candidate_blue_anticone_size
where
  go : List Hash → HashKTypeMap → Nat → Option (ColoringState × HashKTypeMap × Nat)
    | [], sizes, size => some (.Pending, sizes, size)
    | block :: blocks, sizes, size =>
      -- blocks in the past of the candidate are skipped
      if self.reachability_service block blue_candidate then go blocks sizes size
      else do
        let block_size ← self.blue_anticone_size block new_block_data
        let sizes := sizes.insert block block_size
        let size := size + 1
        if size > self.k then some (.Red, sizes, size)
        else
          let block_size ← sizes.lookup block
          if block_size = self.k then some (.Red, sizes, size)
          -- the sanity `assert!` that no blue anticone exceeds `k`
          else if block_size ≤ self.k then go blocks sizes size
          else none

-- The length test is `as Nat` in the source; mergeset blues never exceed `k + 1`.
def check_blue_candidate (new_block_data : GhostdagData) (blue_candidate : Hash) :
    Option ColoringOutput :=
  if new_block_data.mergeset_blues.length = self.k + 1 then some .Red
  else go (self.chain_fuel new_block_data) ⟨none, new_block_data⟩ ∅ 0
where
  go : Nat → ChainBlock → HashKTypeMap → Nat → Option ColoringOutput
    | 0, _, _, _ => none
    | fuel + 1, chain_block, sizes, size => do
      let (state, sizes, size) ← self.check_blue_candidate_with_chain_block new_block_data
        chain_block blue_candidate sizes size
      match state with
      | .Blue => some (.Blue size sizes)
      | .Red => some .Red
      | .Pending =>
        let data ← self.ghostdag_store.lookup chain_block.data.selected_parent
        go fuel ⟨some chain_block.data.selected_parent, data⟩ sizes size

def ghostdag (parents : List Hash) : Option GhostdagData :=
  -- `assert!(!parents.is_empty())`
  if parents.isEmpty then none
  else do
    let selected_parent ← self.find_selected_parent parents
    let new_block_data := GhostdagData.new_with_selected_parent selected_parent self.k
    let ordered_mergeset ← self.ordered_mergeset_without_selected_parent selected_parent parents
    let new_block_data ← color ordered_mergeset new_block_data
    let selected_parent_data ← self.ghostdag_store.lookup selected_parent
    let blue_score := selected_parent_data.blue_score + new_block_data.mergeset_blues.length
    let works ← new_block_data.mergeset_blues.mapM fun hash =>
      if is_origin hash then some 0 else (self.headers_store.lookup hash).bind calc_work
    let blue_work := selected_parent_data.blue_work + works.sum
    pure (new_block_data.finalize_score_and_work blue_score blue_work)
where
  -- the loop over the ordered mergeset, colouring each candidate in turn
  color : List Hash → GhostdagData → Option GhostdagData
    | [], new_block_data => some new_block_data
    | blue_candidate :: rest, new_block_data => do
      match ← self.check_blue_candidate new_block_data blue_candidate with
      | .Blue blue_anticone_size blues_anticone_sizes =>
        color rest (new_block_data.add_blue blue_candidate blue_anticone_size blues_anticone_sizes)
      | .Red => color rest (new_block_data.add_red blue_candidate)

end GhostdagManager

end Waglayla.Consensus
