import Waglayla.Consensus.Window.Chain

-- The windows of `FullWindowManager`: the `window_size` greatest blocks the chain offers.

namespace Waglayla.Consensus

open GhostdagManager BoundedSizeBlockHeap TopK

namespace FullWindowManager

-- What a chain block offers a full window: its selected parent, then its mergeset in
-- descending order.
def chain_block_items (self : FullWindowManager) (ghostdag_data : GhostdagData) :
    Option (List SortableBlock) := do
  let selected_parent_data ← self.ghostdag_store.lookup ghostdag_data.selected_parent
  let descending ← ghostdag_data.descending_mergeset_without_selected_parent self.ghostdag_store
  pure (⟨ghostdag_data.selected_parent, selected_parent_data.blue_work⟩ :: descending)

-- The manager with both caches empty.
def without_caches (self : FullWindowManager) : FullWindowManager :=
  { self with
    block_window_cache_for_difficulty := ∅
    block_window_cache_for_past_median_time := ∅ }

-- Every window of origin Full in a cache is the one the manager computes for its block
-- without caches, at the cache's window size.
structure CacheSound (manager : FullWindowManager) : Prop where
  difficulty : ∀ hash window, manager.block_window_cache_for_difficulty.lookup hash = some window →
    window.origin = .Full → ∃ data, manager.ghostdag_store.lookup hash = some data ∧
      manager.without_caches.build_block_window data .FullDifficultyWindow = some (.ok window)
  past_median_time : ∀ hash window,
    manager.block_window_cache_for_past_median_time.lookup hash = some window →
    window.origin = .Full → ∃ data, manager.ghostdag_store.lookup hash = some data ∧
      manager.without_caches.build_block_window data .SampledMedianTimeWindow = some (.ok window)

variable {F : FullWindowManager} {d : GhostdagData}

theorem walk_eq (fuel : Nat) (heap : BoundedSizeBlockHeap) (d : GhostdagData) :
    build_block_window.walk F fuel heap d =
      chain_walk F.ghostdag_store F.genesis_hash F.try_push_mergeset fuel heap d := by
  induction fuel generalizing heap d with
  | zero => rfl
  | succ fuel ih => simp only [build_block_window.walk, chain_walk, ih]

@[simp] theorem without_caches_ghostdag_store : F.without_caches.ghostdag_store = F.ghostdag_store :=
  rfl

@[simp] theorem without_caches_genesis_hash : F.without_caches.genesis_hash = F.genesis_hash :=
  rfl

@[simp] theorem without_caches_window_size : F.without_caches.window_size = F.window_size :=
  rfl

@[simp] theorem without_caches_try_push_mergeset :
    F.without_caches.try_push_mergeset = F.try_push_mergeset :=
  rfl

theorem bind_lookup_empty_caches {c₁ c₂ : Prop} [Decidable c₁] [Decidable c₂] (x : Hash) :
    ((if c₁ then some (∅ : AList fun _ : Hash => BlockWindowHeap) else if c₂ then some ∅ else none).bind
      fun cache => cache.lookup x) = none := by
  split_ifs <;> rfl

-- Without caches a window is the walk from an empty heap.
theorem without_caches_build_block_window (window_type : WindowType)
    (hk : F.window_size window_type ≠ 0) :
    F.without_caches.build_block_window d window_type =
      chain_walk F.ghostdag_store F.genesis_hash F.try_push_mergeset (d.blue_score + 1)
        (BoundedSizeBlockHeap.new .Full (F.window_size window_type)) d := by
  simp only [build_block_window, without_caches_window_size, if_neg hk, walk_eq]
  -- both caches are empty, so the lookup finds nothing
  erw [bind_lookup_empty_caches]
  rfl

-- Genesis has ORIGIN as selected parent, so its window is never full.
theorem without_caches_build_block_window_genesis (window_type : WindowType)
    (hk : F.window_size window_type ≠ 0) :
    F.without_caches.build_block_window genesis_ghostdag_data window_type =
      some (.error (.InsufficientDaaWindowSize 0)) := by
  rw [without_caches_build_block_window window_type hk]
  simp [chain_walk, genesis_ghostdag_data, is_origin, BoundedSizeBlockHeap.new, from_binary_heap,
    reached_size_bound, BlockWindowHeap.with_capacity, BlockWindowHeap.len, Ne.symm hk]

-- A window found in the cache chosen for its size, of origin Full, is one the manager
-- computes without caches at that size.
theorem CacheSound.cached (hsound : F.CacheSound) {size : Nat} {hash : Hash} {window : BlockWindowHeap}
    (hcache : ((if size = F.difficulty_window_size then some F.block_window_cache_for_difficulty
      else if size = F.past_median_time_window_size then
        some F.block_window_cache_for_past_median_time
      else none).bind fun cache => cache.lookup hash) = some window)
    (horigin : window.origin = .Full) :
    ∃ window_type data, F.window_size window_type = size ∧ F.ghostdag_store.lookup hash = some data ∧
      F.without_caches.build_block_window data window_type = some (.ok window) := by
  split_ifs at hcache with hdifficulty hmedian
  · obtain ⟨data, hdata, hbuild⟩ := hsound.difficulty hash window hcache horigin
    exact ⟨.FullDifficultyWindow, data, hdifficulty.symm, hdata, hbuild⟩
  · obtain ⟨data, hdata, hbuild⟩ := hsound.past_median_time hash window hcache horigin
    exact ⟨.SampledMedianTimeWindow, data, hmedian.symm, hdata, hbuild⟩
  · cases hcache

section Windows

variable {M : GhostdagManager} (hstore : F.ghostdag_store = M.ghostdag_store)
include hstore

-- A chain block's items are its selected parent ahead of the descending mergeset.
theorem chain_block_items_spec (hd : M.ChainData d) :
    ∃ descending, F.chain_block_items d = some (M.sortable d.selected_parent :: descending) ∧
      (M.sortable d.selected_parent :: descending).Pairwise (· > ·) ∧
      d.descending_mergeset_without_selected_parent F.ghostdag_store = some descending := by
  obtain ⟨parent, hp⟩ := exists_lookup hd.selected_parent_mem
  obtain ⟨descending, hdesc, hsorted, -⟩ := descending_mergeset_spec hd.mergeset_order
  refine ⟨descending, ?_, hsorted, hstore ▸ hdesc⟩
  simp [chain_block_items, hstore, hp, hdesc, sortable_of_lookup hp]

theorem chain_block_items_le (d : GhostdagData) (own : List SortableBlock) (hd : M.ChainData d)
    (hown : F.chain_block_items d = some own) : ∀ y ∈ own, y ≤ M.sortable d.selected_parent := by
  obtain ⟨descending, hitems, hsorted, -⟩ := chain_block_items_spec hstore hd
  rw [hitems, Option.some.injEq] at hown
  subst hown
  exact le_of_pairwise_gt hsorted

-- The full manager's push: the selected parent, and if it is taken, the mergeset from the
-- top down until the first refusal.
theorem try_push_mergeset_pushes : M.PushesItems F.chain_block_items F.try_push_mergeset := by
  intro heap offered d parent own hk h hd hp hown
  obtain ⟨descending, hitems, hsorted, hdesc⟩ := chain_block_items_spec hstore hd
  rw [hitems, Option.some.injEq] at hown
  subst hown
  rw [sortable_of_lookup hp] at hsorted ⊢
  obtain ⟨hbelow, hrest⟩ := List.pairwise_cons.mp hsorted
  obtain ⟨hholds, hrefused, hsame⟩ := try_push_spec h hk ⟨d.selected_parent, parent.blue_work⟩
  have hbound := try_push_size_bound heap d.selected_parent parent.blue_work
  have horigin := try_push_origin heap d.selected_parent parent.blue_work
  rcases hr : heap.try_push d.selected_parent parent.blue_work with ⟨heap₁, pushed⟩
  simp only [hr] at hholds hrefused hsame hbound horigin
  cases pushed with
  | false =>
    -- the selected parent is refused, and with it everything below it
    have hrefuses := hrefused.mp rfl
    have hres : F.try_push_mergeset heap d parent.blue_work = some (heap, true) := by
      simp [try_push_mergeset, hr, hsame rfl]
    exact ⟨heap, true, hres, h.append_refused fun y hy => hrefuses.of_le (le_of_pairwise_gt hsorted y hy),
      rfl, rfl, fun _ => hrefuses⟩
  | true =>
    have hres : F.try_push_mergeset heap d parent.blue_work =
        some (heap₁.push_while descending, false) := by
      simp [try_push_mergeset, hr, hdesc]
    obtain ⟨hholds', hbound', horigin'⟩ := push_while_spec (hbound ▸ hk) hrest hholds
    exact ⟨_, false, hres, hholds'.perm List.perm_middle, hbound'.trans hbound,
      horigin'.trans horigin, fun h => absurd h Bool.false_ne_true⟩

variable (hinv : M.Inv)
include hinv

theorem exists_chain_block_candidates (hd : M.ChainData d) :
    ∃ cs, ChainCandidates M.ghostdag_store M.genesis_hash F.chain_block_items d cs := by
  refine exists_chain_candidates hinv (fun d hd => ?_) hd
  obtain ⟨descending, hitems, -⟩ := chain_block_items_spec hstore hd
  exact ⟨_, hitems⟩

variable (hgen : F.genesis_hash = M.genesis_hash)
include hgen

-- The walk without caches selects the greatest candidates of the whole chain.
theorem without_caches_build_block_window_spec {cs : List SortableBlock}
    (hcc : ChainCandidates M.ghostdag_store M.genesis_hash F.chain_block_items d cs)
    (hd : M.ChainData d) (window_type : WindowType) :
    ∃ window, F.without_caches.build_block_window d window_type = some (.ok window) ∧
      window.blocks = top (F.window_size window_type) cs ∧ window.origin = .Full := by
  by_cases hk : F.window_size window_type = 0
  · refine ⟨BlockWindowHeap.new .Full, by simp [build_block_window, hk], ?_, rfl⟩
    rw [hk, top_zero]
    rfl
  · have hnew := holds_new .Full (F.window_size window_type)
    obtain ⟨window, hwalk, hblocks, horigin⟩ :=
      chain_walk_spec hinv (chain_block_items_le hstore) (try_push_mergeset_pushes hstore) hcc hd
        (Nat.lt_succ_self d.blue_score) (Nat.pos_of_ne_zero hk) hnew
    rw [without_caches_build_block_window window_type hk, hstore, hgen]
    rw [List.append_nil, new_size_bound] at hblocks
    exact ⟨window, hwalk, hblocks, horigin⟩

-- The cached path: when the cache holds a full window for the selected parent, that window
-- extended by the block's own items is the window of the whole chain, and so the one the
-- walk computes.
theorem build_block_window_spec (hsound : F.CacheSound) {cs : List SortableBlock}
    (hcc : ChainCandidates M.ghostdag_store M.genesis_hash F.chain_block_items d cs)
    (hd : M.ChainData d) (window_type : WindowType) :
    ∃ window, F.build_block_window d window_type = some (.ok window) ∧
      F.without_caches.build_block_window d window_type = some (.ok window) ∧
      window.blocks = top (F.window_size window_type) cs ∧ window.origin = .Full := by
  obtain ⟨window, huncached, hblocks, horigin⟩ :=
    without_caches_build_block_window_spec hstore hinv hgen hcc hd window_type
  refine ⟨window, ?_, huncached, hblocks, horigin⟩
  by_cases hk : F.window_size window_type = 0
  · simpa [build_block_window, hk] using huncached
  rw [without_caches_build_block_window window_type hk] at huncached
  simp only [build_block_window, if_neg hk, walk_eq]
  split
  · next cached hcache =>
    split_ifs with hfull hne
    · obtain ⟨cached_type, data, hsize, hdata, hbuild⟩ := hsound.cached hcache hfull
      cases hcc with
      | genesis_child hg => exact absurd (hgen ▸ hg) hne
      | @step _ parent own rest hne' hp hown hrest =>
        rw [hstore, hp, Option.some.injEq] at hdata
        subst hdata
        -- the cached window is the selected parent's window of its own chain
        obtain ⟨parent_window, hparent, hparent_blocks, -⟩ :=
          without_caches_build_block_window_spec hstore hinv hgen hrest
            (chain_data_of_selected_parent hinv hp hne') cached_type
        rw [hbuild, Option.some.injEq, Except.ok.injEq] at hparent
        subst hparent
        have hholds : (from_binary_heap (F.window_size window_type) cached).Holds rest := by
          rw [Holds, ← hsize]
          exact hparent_blocks
        obtain ⟨heap', too_low, hres, hholds', hbound, horigin', -⟩ :=
          try_push_mergeset_pushes hstore _ rest d parent own (Nat.pos_of_ne_zero hk) hholds hd hp
            hown
        have hwindow : heap'.binary_heap = window := by
          ext1
          · rw [hblocks, hholds', hbound]
            rfl
          · rw [horigin, horigin']
            exact hfull
        simp [hstore, hp, hres, hwindow]
    -- genesis has no window to cache: its walk reaches ORIGIN with an empty heap
    · obtain ⟨cached_type, data, hsize, hdata, hbuild⟩ := hsound.cached hcache hfull
      have hg : d.selected_parent = M.genesis_hash := hgen ▸ not_not.mp hne
      rw [hstore, hg, hinv.genesis_data, Option.some.injEq] at hdata
      subst hdata
      rw [without_caches_build_block_window_genesis cached_type (hsize ▸ hk)] at hbuild
      cases hbuild
    · exact huncached
  · exact huncached

end Windows

end FullWindowManager

end Waglayla.Consensus
