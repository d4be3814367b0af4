import Waglayla.Consensus.Window.Heap
import Waglayla.Consensus.Pipeline.HeaderProcessor

-- `build_block_window` of both window managers. Of the difficulty manager a sampled manager
-- holds, only the DAA blue-score threshold is read.

namespace Waglayla.Consensus

inductive WindowType
  | SampledDifficultyWindow
  | FullDifficultyWindow
  | SampledMedianTimeWindow
  | VaryingWindow (size : Nat)
  deriving DecidableEq, Repr

structure FullWindowManager where
  genesis_hash : Hash
  ghostdag_store : AList fun _ : Hash => GhostdagData
  block_window_cache_for_difficulty : AList fun _ : Hash => BlockWindowHeap
  block_window_cache_for_past_median_time : AList fun _ : Hash => BlockWindowHeap
  difficulty_window_size : Nat
  past_median_time_window_size : Nat

namespace FullWindowManager

def window_size (self : FullWindowManager) : WindowType → Nat
  | .SampledDifficultyWindow | .FullDifficultyWindow => self.difficulty_window_size
  | .SampledMedianTimeWindow => self.past_median_time_window_size
  | .VaryingWindow size => size

-- Returns whether the selected parent's blue work is too low: a full window refused it,
-- so nothing in its past can enter either.
def try_push_mergeset (self : FullWindowManager) (heap : BoundedSizeBlockHeap)
    (ghostdag_data : GhostdagData) (selected_parent_blue_work : Nat) :
    Option (BoundedSizeBlockHeap × Bool) :=
  match heap.try_push ghostdag_data.selected_parent selected_parent_blue_work with
  | (heap, false) => some (heap, true)
  | (heap, true) => do
    let descending ← ghostdag_data.descending_mergeset_without_selected_parent self.ghostdag_store
    pure (heap.push_while descending, false)

def build_block_window (self : FullWindowManager) (ghostdag_data : GhostdagData)
    (window_type : WindowType) : Option (Except RuleError BlockWindowHeap) :=
  let window_size := self.window_size window_type
  if window_size = 0 then some (.ok (BlockWindowHeap.new .Full))
  else
    let cache :=
      if window_size = self.difficulty_window_size then some self.block_window_cache_for_difficulty
      else if window_size = self.past_median_time_window_size then
        some self.block_window_cache_for_past_median_time
      else none
    let uncached :=
      walk (ghostdag_data.blue_score + 1) (BoundedSizeBlockHeap.new .Full window_size) ghostdag_data
    match cache.bind fun cache => cache.lookup ghostdag_data.selected_parent with
    | some selected_parent_binary_heap =>
      -- only a window that originates from here is used
      if selected_parent_binary_heap.origin = .Full then
        let window_heap := BoundedSizeBlockHeap.from_binary_heap window_size selected_parent_binary_heap
        if ghostdag_data.selected_parent ≠ self.genesis_hash then do
          let selected_parent_data ← self.ghostdag_store.lookup ghostdag_data.selected_parent
          let (window_heap, _) ←
            self.try_push_mergeset window_heap ghostdag_data selected_parent_data.blue_work
          pure (.ok window_heap.binary_heap)
        else some (.ok window_heap.binary_heap)
      else uncached
    | none => uncached
where
  -- "Walk down the chain until we cross the window boundaries". Blue scores fall along the
  -- chain, so the block's blue score bounds the rounds.
  walk : Nat → BoundedSizeBlockHeap → GhostdagData → Option (Except RuleError BlockWindowHeap)
    | 0, _, _ => none
    | fuel + 1, window_heap, current_ghostdag =>
      -- past ORIGIN there is no data: the window must already be full
      if is_origin current_ghostdag.selected_parent then
        if window_heap.reached_size_bound then some (.ok window_heap.binary_heap)
        else some (.error (.InsufficientDaaWindowSize window_heap.binary_heap.len))
      else if current_ghostdag.selected_parent = self.genesis_hash then
        some (.ok window_heap.binary_heap)
      else do
        let parent_ghostdag ← self.ghostdag_store.lookup current_ghostdag.selected_parent
        let (window_heap, selected_parent_blue_work_too_low) ←
          self.try_push_mergeset window_heap current_ghostdag parent_ghostdag.blue_work
        if selected_parent_blue_work_too_low then some (.ok window_heap.binary_heap)
        else walk fuel window_heap parent_ghostdag

end FullWindowManager

inductive SampledBlock
  | Sampled (block : SortableBlock)
  | NonDaa (hash : Hash)
  deriving DecidableEq, Repr

def SampledBlock.sampled : SampledBlock → Option SortableBlock
  | .Sampled block => some block
  | .NonDaa _ => none

def SampledBlock.non_daa : SampledBlock → Option Hash
  | .Sampled _ => none
  | .NonDaa hash => some hash

-- `headers_store` gives the DAA score of a header.
structure SampledWindowManager where
  genesis_hash : Hash
  ghostdag_store : AList fun _ : Hash => GhostdagData
  headers_store : AList fun _ : Hash => Nat
  block_window_cache_for_difficulty : AList fun _ : Hash => BlockWindowHeap
  block_window_cache_for_past_median_time : AList fun _ : Hash => BlockWindowHeap
  difficulty_window_size : Nat
  difficulty_sample_rate : Nat
  past_median_time_window_size : Nat
  past_median_time_sample_rate : Nat

namespace SampledWindowManager

def window_size (self : SampledWindowManager) : WindowType → Nat
  | .SampledDifficultyWindow => self.difficulty_window_size
  | .FullDifficultyWindow => self.difficulty_window_size * self.difficulty_sample_rate
  | .SampledMedianTimeWindow => self.past_median_time_window_size
  | .VaryingWindow size => size

def sample_rate (self : SampledWindowManager) : WindowType → Nat
  | .SampledDifficultyWindow => self.difficulty_sample_rate
  | .SampledMedianTimeWindow => self.past_median_time_sample_rate
  | .FullDifficultyWindow | .VaryingWindow _ => 1

-- `SampledDifficultyManager::lowest_daa_blue_score`
def lowest_daa_blue_score (self : SampledWindowManager) (ghostdag_data : GhostdagData) : Nat :=
  let difficulty_full_window_size := self.difficulty_window_size * self.difficulty_sample_rate
  max ghostdag_data.blue_score difficulty_full_window_size - difficulty_full_window_size

-- The `filter_map` of `sampled_mergeset_iterator` with its running `index`: a block below
-- the blue-score threshold is not a DAA block, and every DAA block is counted and sampled
-- when the count, offset by the selected parent's DAA score, divides by the rate; `%` by a
-- zero rate panics.
def sample_blocks (self : SampledWindowManager) (sample_rate selected_parent_daa_score
    blue_score_threshold : Nat) : Nat → List SortableBlock → Option (List SampledBlock)
  | _, [] => some []
  | index, block :: rest => do
    let data ← self.ghostdag_store.lookup block.hash
    if data.blue_score < blue_score_threshold then
      (self.sample_blocks sample_rate selected_parent_daa_score blue_score_threshold index rest).map
        (.NonDaa block.hash :: ·)
    else
      let index := index + 1
      if sample_rate = 0 then none
      else if (selected_parent_daa_score + index) % sample_rate = 0 then
        (self.sample_blocks sample_rate selected_parent_daa_score blue_score_threshold index rest).map
          (.Sampled block :: ·)
      else self.sample_blocks sample_rate selected_parent_daa_score blue_score_threshold index rest

-- The selected parent, then the mergeset in descending order.
def sampled_mergeset_iterator (self : SampledWindowManager) (sample_rate : Nat)
    (ghostdag_data : GhostdagData) (selected_parent_blue_work : Nat) : Option (List SampledBlock) := do
  let selected_parent_block : SortableBlock := ⟨ghostdag_data.selected_parent, selected_parent_blue_work⟩
  let selected_parent_daa_score ← self.headers_store.lookup ghostdag_data.selected_parent
  let blue_score_threshold := self.lowest_daa_blue_score ghostdag_data
  let descending ← ghostdag_data.descending_mergeset_without_selected_parent self.ghostdag_store
  self.sample_blocks sample_rate selected_parent_daa_score blue_score_threshold 0
    (selected_parent_block :: descending)

-- The sampled blocks are pushed until the first refusal and the others skipped. Returns
-- whether the selected parent is too low to enter the full window.
def try_push_mergeset (self : SampledWindowManager) (heap : BoundedSizeBlockHeap)
    (sample_rate : Nat) (ghostdag_data : GhostdagData) (selected_parent_blue_work : Nat) :
    Option (BoundedSizeBlockHeap × Bool) := do
  if !(← heap.can_push ghostdag_data.selected_parent selected_parent_blue_work) then
    return (heap, true)
  let blocks ← self.sampled_mergeset_iterator sample_rate ghostdag_data selected_parent_blue_work
  pure (heap.push_while (blocks.filterMap SampledBlock.sampled), false)

-- Returns the hashes given to `mergeset_non_daa_inserter`, in order, with the window.
def build_block_window (self : SampledWindowManager) (ghostdag_data : GhostdagData)
    (window_type : WindowType) : Option (List Hash × Except RuleError BlockWindowHeap) :=
  let window_size := self.window_size window_type
  let sample_rate := self.sample_rate window_type
  if window_size = 0 then some ([], .ok (BlockWindowHeap.new .Sampled))
  -- genesis does not enter the DAA window, its timestamp being fixed
  else if ghostdag_data.selected_parent = self.genesis_hash then
    some ([self.genesis_hash], .ok (BlockWindowHeap.new .Sampled))
  else if is_origin ghostdag_data.selected_parent then
    some ([], .error (.InsufficientDaaWindowSize 0))
  else
    let cache := match window_type with
      | .SampledDifficultyWindow => some self.block_window_cache_for_difficulty
      | .SampledMedianTimeWindow => some self.block_window_cache_for_past_median_time
      | .FullDifficultyWindow | .VaryingWindow _ => none
    let uncached := do
      let parent_ghostdag ← self.ghostdag_store.lookup ghostdag_data.selected_parent
      let blocks ← self.sampled_mergeset_iterator sample_rate ghostdag_data parent_ghostdag.blue_work
      let window_heap := (BoundedSizeBlockHeap.new .Sampled window_size).push_all
        (blocks.filterMap SampledBlock.sampled)
      let window ← walk sample_rate (parent_ghostdag.blue_score + 1) window_heap parent_ghostdag
      pure (blocks.filterMap SampledBlock.non_daa, window)
    match cache.bind fun cache => cache.lookup ghostdag_data.selected_parent with
    | some selected_parent_binary_heap =>
      -- only a window that originates from here is used
      if selected_parent_binary_heap.origin = .Sampled then do
        let selected_parent_data ← self.ghostdag_store.lookup ghostdag_data.selected_parent
        let blocks ←
          self.sampled_mergeset_iterator sample_rate ghostdag_data selected_parent_data.blue_work
        -- the `Lazy` heap: left untouched, it is the cached window itself
        let heap := (BoundedSizeBlockHeap.from_binary_heap window_size selected_parent_binary_heap).push_all
          (blocks.filterMap SampledBlock.sampled)
        pure (blocks.filterMap SampledBlock.non_daa, .ok heap.binary_heap)
      else uncached
    | none => uncached
where
  walk (sample_rate : Nat) :
      Nat → BoundedSizeBlockHeap → GhostdagData → Option (Except RuleError BlockWindowHeap)
    | 0, _, _ => none
    | fuel + 1, window_heap, current_ghostdag =>
      if is_origin current_ghostdag.selected_parent then
        if window_heap.reached_size_bound then some (.ok window_heap.binary_heap)
        else some (.error (.InsufficientDaaWindowSize window_heap.binary_heap.len))
      else if current_ghostdag.selected_parent = self.genesis_hash then
        some (.ok window_heap.binary_heap)
      else do
        let parent_ghostdag ← self.ghostdag_store.lookup current_ghostdag.selected_parent
        let (window_heap, selected_parent_blue_work_too_low) ←
          self.try_push_mergeset window_heap sample_rate current_ghostdag parent_ghostdag.blue_work
        if selected_parent_blue_work_too_low then some (.ok window_heap.binary_heap)
        else walk sample_rate fuel window_heap parent_ghostdag

end SampledWindowManager

end Waglayla.Consensus
