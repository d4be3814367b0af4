import Waglayla.Consensus.Window.Full

-- The windows of `SampledWindowManager`: the DAA blocks whose count falls on the sample rate.

namespace Waglayla.Consensus

open GhostdagManager BoundedSizeBlockHeap TopK

namespace SampledWindowManager

-- What a chain block offers a sampled window: the blocks of its sampled mergeset iterator
-- that are sampled.
def chain_block_items (self : SampledWindowManager) (sample_rate : Nat)
    (ghostdag_data : GhostdagData) : Option (List SortableBlock) := do
  let selected_parent_data ← self.ghostdag_store.lookup ghostdag_data.selected_parent
  let blocks ←
    self.sampled_mergeset_iterator sample_rate ghostdag_data selected_parent_data.blue_work
  pure (blocks.filterMap SampledBlock.sampled)

-- The manager with both caches empty.
def without_caches (self : SampledWindowManager) : SampledWindowManager :=
  { self with
    block_window_cache_for_difficulty := ∅
    block_window_cache_for_past_median_time := ∅ }

-- Every window of origin Sampled in a cache is the one the manager computes for its block
-- without caches, for the cache's window type.
structure CacheSound (manager : SampledWindowManager) : Prop where
  difficulty : ∀ hash window,
    manager.block_window_cache_for_difficulty.lookup hash = some window →
    window.origin = .Sampled → ∃ data non_daa, manager.ghostdag_store.lookup hash = some data ∧
      manager.without_caches.build_block_window data .SampledDifficultyWindow =
        some (non_daa, .ok window)
  past_median_time : ∀ hash window,
    manager.block_window_cache_for_past_median_time.lookup hash = some window →
    window.origin = .Sampled → ∃ data non_daa, manager.ghostdag_store.lookup hash = some data ∧
      manager.without_caches.build_block_window data .SampledMedianTimeWindow =
        some (non_daa, .ok window)

variable {S : SampledWindowManager} {d : GhostdagData} {sample_rate : Nat}

theorem walk_eq (fuel : Nat) (heap : BoundedSizeBlockHeap) (d : GhostdagData) :
    build_block_window.walk S sample_rate fuel heap d =
      chain_walk S.ghostdag_store S.genesis_hash
        (fun heap d blue_work => S.try_push_mergeset heap sample_rate d blue_work) fuel heap d := by
  induction fuel generalizing heap d with
  | zero => rfl
  | succ fuel ih => simp only [build_block_window.walk, chain_walk, ih]

@[simp] theorem without_caches_ghostdag_store : S.without_caches.ghostdag_store = S.ghostdag_store :=
  rfl

@[simp] theorem without_caches_genesis_hash : S.without_caches.genesis_hash = S.genesis_hash :=
  rfl

@[simp] theorem without_caches_window_size : S.without_caches.window_size = S.window_size :=
  rfl

@[simp] theorem without_caches_sample_rate : S.without_caches.sample_rate = S.sample_rate :=
  rfl

-- Sampling reads the GHOSTDAG store only.
@[simp] theorem without_caches_sample_blocks (sample_rate selected_parent_daa_score
    blue_score_threshold : Nat) (index : Nat) (blocks : List SortableBlock) :
    S.without_caches.sample_blocks sample_rate selected_parent_daa_score blue_score_threshold index
      blocks =
      S.sample_blocks sample_rate selected_parent_daa_score blue_score_threshold index blocks := by
  induction blocks generalizing index with
  | nil => rfl
  | cons block rest ih => simp only [sample_blocks, without_caches_ghostdag_store, ih]

@[simp] theorem without_caches_sampled_mergeset_iterator :
    S.without_caches.sampled_mergeset_iterator = S.sampled_mergeset_iterator := by
  funext sample_rate ghostdag_data selected_parent_blue_work
  simp only [sampled_mergeset_iterator, without_caches_sample_blocks]
  rfl

@[simp] theorem without_caches_try_push_mergeset :
    S.without_caches.try_push_mergeset = S.try_push_mergeset := by
  funext heap sample_rate ghostdag_data selected_parent_blue_work
  simp only [try_push_mergeset, without_caches_sampled_mergeset_iterator]

section Sampling

-- The blocks sampled are some of the blocks offered, in their order.
theorem sample_blocks_sublist {selected_parent_daa_score blue_score_threshold : Nat}
    {blocks : List SortableBlock} :
    ∀ {index out}, S.sample_blocks sample_rate selected_parent_daa_score blue_score_threshold index
      blocks = some out → (out.filterMap SampledBlock.sampled).Sublist blocks := by
  induction blocks with
  | nil =>
    intro index out h
    cases h
    exact List.Sublist.slnil
  | cons block rest ih =>
    intro index out h
    simp only [sample_blocks] at h
    obtain ⟨data, -, h⟩ := Option.bind_eq_some_iff.mp h
    -- a zero rate panics, which `split_ifs` discards
    split_ifs at h with hlow hzero hsampled
    · -- below the threshold: not a DAA block
      obtain ⟨out', hout', rfl⟩ := Option.map_eq_some_iff.mp h
      exact (ih hout').cons block
    · obtain ⟨out', hout', rfl⟩ := Option.map_eq_some_iff.mp h
      exact (ih hout').cons_cons block
    · exact (ih h).cons block

-- With a positive rate and every block stored, sampling never panics.
theorem exists_sample_blocks (hrate : 0 < sample_rate)
    (selected_parent_daa_score blue_score_threshold : Nat) (blocks : List SortableBlock)
    (hmem : ∀ b ∈ blocks, b.hash ∈ S.ghostdag_store) :
    ∀ index, ∃ out, S.sample_blocks sample_rate selected_parent_daa_score blue_score_threshold
      index blocks = some out := by
  induction blocks with
  | nil => exact fun _ => ⟨[], rfl⟩
  | cons block rest ih =>
    intro index
    have hrest : ∀ b ∈ rest, b.hash ∈ S.ghostdag_store := fun b hb =>
      hmem b (List.mem_cons_of_mem block hb)
    obtain ⟨data, hdata⟩ := Option.isSome_iff_exists.mp
      (AList.lookup_isSome.mpr (hmem block List.mem_cons_self))
    obtain ⟨out, hout⟩ := ih hrest index
    obtain ⟨out', hout'⟩ := ih hrest (index + 1)
    by_cases hlow : data.blue_score < blue_score_threshold
    · exact ⟨.NonDaa block.hash :: out, by simp [sample_blocks, hdata, hlow, hout]⟩
    · by_cases hsampled : (selected_parent_daa_score + (index + 1)) % sample_rate = 0
      · exact ⟨.Sampled block :: out',
          by simp [sample_blocks, hdata, hlow, Nat.ne_of_gt hrate, hsampled, hout']⟩
      · exact ⟨out', by simp [sample_blocks, hdata, hlow, Nat.ne_of_gt hrate, hsampled, hout']⟩

end Sampling

-- The sampled blocks of a chain block are some of its selected parent and descending
-- mergeset.
theorem sampled_mergeset_iterator_sublist {descending : List SortableBlock}
    {blocks : List SampledBlock} {blue_work : Nat}
    (hdesc : d.descending_mergeset_without_selected_parent S.ghostdag_store = some descending)
    (h : S.sampled_mergeset_iterator sample_rate d blue_work = some blocks) :
    (blocks.filterMap SampledBlock.sampled).Sublist
      (⟨d.selected_parent, blue_work⟩ :: descending) := by
  simp only [sampled_mergeset_iterator, hdesc, Option.bind_eq_bind, Option.bind_some] at h
  obtain ⟨daa_score, -, h⟩ := Option.bind_eq_some_iff.mp h
  exact sample_blocks_sublist h

theorem exists_sampled_mergeset_iterator {descending : List SortableBlock} (blue_work : Nat)
    (hrate : 0 < sample_rate) (hdaa : d.selected_parent ∈ S.headers_store)
    (hsp : d.selected_parent ∈ S.ghostdag_store)
    (hdesc : d.descending_mergeset_without_selected_parent S.ghostdag_store = some descending)
    (hmem : ∀ b ∈ descending, b.hash ∈ S.ghostdag_store) :
    ∃ blocks, S.sampled_mergeset_iterator sample_rate d blue_work = some blocks := by
  obtain ⟨daa_score, hdaa_score⟩ := Option.isSome_iff_exists.mp (AList.lookup_isSome.mpr hdaa)
  have hall : ∀ b ∈ (⟨d.selected_parent, blue_work⟩ :: descending : List SortableBlock),
      b.hash ∈ S.ghostdag_store := by
    intro b hb
    rcases List.mem_cons.mp hb with rfl | hb
    · exact hsp
    · exact hmem b hb
  obtain ⟨out, hout⟩ :=
    exists_sample_blocks hrate daa_score (S.lowest_daa_blue_score d) _ hall 0
  exact ⟨out, by simp [sampled_mergeset_iterator, hdaa_score, hdesc, hout]⟩

theorem bind_lookup_without_caches (window_type : WindowType) (hash : Hash) :
    ((match window_type with
      | .SampledDifficultyWindow => some S.without_caches.block_window_cache_for_difficulty
      | .SampledMedianTimeWindow => some S.without_caches.block_window_cache_for_past_median_time
      | .FullDifficultyWindow | .VaryingWindow _ => none).bind fun cache => cache.lookup hash) =
      none := by
  cases window_type <;> rfl

-- Without caches, past the early returns, a window is the new block's own sampled blocks
-- followed by the walk from its selected parent.
theorem without_caches_build_block_window (window_type : WindowType)
    (hk : S.window_size window_type ≠ 0) (hg : d.selected_parent ≠ S.genesis_hash)
    (horigin : is_origin d.selected_parent = false) :
    S.without_caches.build_block_window d window_type = (do
      let parent_ghostdag ← S.ghostdag_store.lookup d.selected_parent
      let blocks ←
        S.sampled_mergeset_iterator (S.sample_rate window_type) d parent_ghostdag.blue_work
      let window ← chain_walk S.ghostdag_store S.genesis_hash
        (fun heap d blue_work => S.try_push_mergeset heap (S.sample_rate window_type) d blue_work)
        (parent_ghostdag.blue_score + 1)
        ((BoundedSizeBlockHeap.new .Sampled (S.window_size window_type)).push_all
          (blocks.filterMap SampledBlock.sampled)) parent_ghostdag
      pure (blocks.filterMap SampledBlock.non_daa, window)) := by
  simp only [build_block_window, without_caches_window_size, without_caches_sample_rate,
    without_caches_genesis_hash, if_neg hk, if_neg hg, horigin, Bool.false_eq_true, if_false,
    walk_eq]
  erw [bind_lookup_without_caches]
  simp only [without_caches_ghostdag_store, without_caches_sampled_mergeset_iterator,
    without_caches_try_push_mergeset]

-- Genesis has ORIGIN as selected parent, which is not genesis.
theorem build_block_window_genesis (window_type : WindowType) (hk : S.window_size window_type ≠ 0)
    (hgenesis : S.genesis_hash ≠ ORIGIN) :
    S.build_block_window genesis_ghostdag_data window_type =
      some ([], .error (.InsufficientDaaWindowSize 0)) := by
  simp [build_block_window, hk, genesis_ghostdag_data, is_origin, Ne.symm hgenesis]

-- A window found in the cache of its window type, of origin Sampled, is one the manager
-- computes without caches for that type.
theorem CacheSound.cached (hsound : S.CacheSound) {window_type : WindowType} {hash : Hash}
    {window : BlockWindowHeap}
    (hcache : ((match window_type with
      | .SampledDifficultyWindow => some S.block_window_cache_for_difficulty
      | .SampledMedianTimeWindow => some S.block_window_cache_for_past_median_time
      | .FullDifficultyWindow | .VaryingWindow _ => none).bind fun cache => cache.lookup hash) =
      some window)
    (horigin : window.origin = .Sampled) :
    ∃ data non_daa, S.ghostdag_store.lookup hash = some data ∧
      S.without_caches.build_block_window data window_type = some (non_daa, .ok window) := by
  cases window_type with
  | SampledDifficultyWindow => exact hsound.difficulty hash window hcache horigin
  | SampledMedianTimeWindow => exact hsound.past_median_time hash window hcache horigin
  | FullDifficultyWindow => cases hcache
  | VaryingWindow => cases hcache

section Windows

variable {M : GhostdagManager} (hstore : S.ghostdag_store = M.ghostdag_store)
include hstore

theorem exists_blocks_of_chain_block_items {parent : GhostdagData} {own : List SortableBlock}
    (hp : M.ghostdag_store.lookup d.selected_parent = some parent)
    (hown : S.chain_block_items sample_rate d = some own) :
    ∃ blocks, S.sampled_mergeset_iterator sample_rate d parent.blue_work = some blocks ∧
      blocks.filterMap SampledBlock.sampled = own := by
  have h : ((S.sampled_mergeset_iterator sample_rate d parent.blue_work).bind fun blocks =>
      some (blocks.filterMap SampledBlock.sampled)) = some own := by
    simpa [chain_block_items, hstore, hp] using hown
  obtain ⟨blocks, hblocks, hown'⟩ := Option.bind_eq_some_iff.mp h
  exact ⟨blocks, hblocks, Option.some.inj hown'⟩

-- What a chain block offers a sampled window is descending and at most its selected parent.
theorem chain_block_items_sorted (hd : M.ChainData d) {own : List SortableBlock}
    (hown : S.chain_block_items sample_rate d = some own) :
    own.Pairwise (· > ·) ∧ ∀ y ∈ own, y ≤ M.sortable d.selected_parent := by
  obtain ⟨parent, hp⟩ := exists_lookup hd.selected_parent_mem
  obtain ⟨descending, hdesc, hsorted, -⟩ := descending_mergeset_spec hd.mergeset_order
  obtain ⟨blocks, hblocks, rfl⟩ := exists_blocks_of_chain_block_items hstore hp hown
  have hsub := sampled_mergeset_iterator_sublist (hstore ▸ hdesc) hblocks
  rw [← sortable_of_lookup hp] at hsub
  exact ⟨hsorted.sublist hsub, fun y hy => le_of_pairwise_gt hsorted y (hsub.subset hy)⟩

theorem chain_block_items_le (d : GhostdagData) (own : List SortableBlock) (hd : M.ChainData d)
    (hown : S.chain_block_items sample_rate d = some own) :
    ∀ y ∈ own, y ≤ M.sortable d.selected_parent :=
  (chain_block_items_sorted hstore hd hown).2

-- The sampled manager's push: nothing when the selected parent cannot enter, and otherwise
-- the sampled blocks from the top down until the first refusal.
theorem try_push_mergeset_pushes :
    M.PushesItems (S.chain_block_items sample_rate)
      (fun heap d blue_work => S.try_push_mergeset heap sample_rate d blue_work) := by
  intro heap offered d parent own hk h hd hp hown
  obtain ⟨hsorted, hle⟩ := chain_block_items_sorted hstore hd hown
  obtain ⟨pushable, hcan, hpushable⟩ := can_push_spec hk ⟨d.selected_parent, parent.blue_work⟩
  rw [sortable_of_lookup hp] at hle ⊢
  cases pushable with
  | false =>
    -- the selected parent is refused, and so is everything below it
    have hrefuses := hpushable.mp rfl
    have hres : S.try_push_mergeset heap sample_rate d parent.blue_work = some (heap, true) := by
      simp [try_push_mergeset, hcan]
    exact ⟨heap, true, hres, h.append_refused fun y hy => hrefuses.of_le (hle y hy), rfl, rfl,
      fun _ => hrefuses⟩
  | true =>
    obtain ⟨blocks, hblocks, rfl⟩ := exists_blocks_of_chain_block_items hstore hp hown
    have hres : S.try_push_mergeset heap sample_rate d parent.blue_work =
        some (heap.push_while (blocks.filterMap SampledBlock.sampled), false) := by
      simp [try_push_mergeset, hcan, hblocks]
    obtain ⟨hholds, hbound, horigin⟩ := push_while_spec hk hsorted h
    exact ⟨_, false, hres, hholds, hbound, horigin, fun h => absurd h Bool.false_ne_true⟩

-- With a positive rate and a DAA score for every block, every chain block has its items.
theorem exists_chain_block_items (hrate : 0 < sample_rate)
    (hheaders : ∀ x ∈ M.ghostdag_store, x ∈ S.headers_store) (hd : M.ChainData d) :
    ∃ own, S.chain_block_items sample_rate d = some own := by
  obtain ⟨parent, hp⟩ := exists_lookup hd.selected_parent_mem
  obtain ⟨descending, hdesc, -, hmem⟩ := descending_mergeset_spec hd.mergeset_order
  obtain ⟨blocks, hblocks⟩ := exists_sampled_mergeset_iterator parent.blue_work hrate
    (hheaders _ hd.selected_parent_mem) (hstore ▸ hd.selected_parent_mem) (hstore ▸ hdesc)
    (hstore ▸ hmem)
  exact ⟨blocks.filterMap SampledBlock.sampled, by simp [chain_block_items, hstore, hp, hblocks]⟩

variable (hinv : M.Inv)
include hinv

theorem exists_chain_block_candidates (hrate : 0 < sample_rate)
    (hheaders : ∀ x ∈ M.ghostdag_store, x ∈ S.headers_store) (hd : M.ChainData d) :
    ∃ cs, ChainCandidates M.ghostdag_store M.genesis_hash (S.chain_block_items sample_rate) d cs :=
  exists_chain_candidates hinv (fun _ hd => exists_chain_block_items hstore hrate hheaders hd) hd

variable (hgen : S.genesis_hash = M.genesis_hash)
include hgen

-- The walk without caches selects the greatest sampled candidates of the whole chain; the
-- new block's own blocks enter first, with no early exit.
theorem without_caches_build_block_window_spec (window_type : WindowType) {cs : List SortableBlock}
    (hcc : ChainCandidates M.ghostdag_store M.genesis_hash
      (S.chain_block_items (S.sample_rate window_type)) d cs)
    (hd : M.ChainData d) :
    ∃ non_daa window, S.without_caches.build_block_window d window_type =
        some (non_daa, .ok window) ∧
      window.blocks = top (S.window_size window_type) cs ∧ window.origin = .Sampled := by
  by_cases hk : S.window_size window_type = 0
  · refine ⟨[], BlockWindowHeap.new .Sampled, by simp [build_block_window, hk], ?_, rfl⟩
    rw [hk, top_zero]
    rfl
  cases hcc with
  | genesis_child hg =>
    exact ⟨[S.genesis_hash], BlockWindowHeap.new .Sampled,
      by simp [build_block_window, hk, hgen, hg], by simp, rfl⟩
  | @step _ parent own rest hne hp hown hrest =>
    have hg : d.selected_parent ≠ S.genesis_hash := hgen ▸ hne
    have horigin : is_origin d.selected_parent = false := by
      simpa [is_origin] using ne_origin_of_mem hinv hd.selected_parent_mem
    obtain ⟨blocks, hblocks, rfl⟩ := exists_blocks_of_chain_block_items hstore hp hown
    have hpos : 0 < S.window_size window_type := Nat.pos_of_ne_zero hk
    obtain ⟨hholds, hbound, hnew_origin⟩ := push_all_spec hpos
      (blocks.filterMap SampledBlock.sampled) (holds_new .Sampled (S.window_size window_type))
    obtain ⟨window, hwalk, hwblocks, hworigin⟩ :=
      chain_walk_spec hinv (chain_block_items_le hstore) (try_push_mergeset_pushes hstore) hrest
        (chain_data_of_selected_parent hinv hp hne) (Nat.lt_succ_self _) (hbound ▸ hpos) hholds
    refine ⟨blocks.filterMap SampledBlock.non_daa, window, ?_, ?_, hworigin.trans hnew_origin⟩
    · rw [without_caches_build_block_window window_type hk hg horigin, hstore, hgen]
      simp [hp, hblocks, hwalk]
    · rw [hwblocks, hbound, new_size_bound, List.append_nil]
      exact top_perm List.perm_append_comm _

-- The cached path: a sampled window cached for the selected parent, with the new block's own
-- sampled blocks pushed onto it, is the window of the whole chain, and the non-DAA blocks
-- are read off the same iterator as on the walk.
theorem build_block_window_spec (hsound : S.CacheSound) (window_type : WindowType)
    {cs : List SortableBlock}
    (hcc : ChainCandidates M.ghostdag_store M.genesis_hash
      (S.chain_block_items (S.sample_rate window_type)) d cs)
    (hd : M.ChainData d) :
    ∃ non_daa window, S.build_block_window d window_type = some (non_daa, .ok window) ∧
      S.without_caches.build_block_window d window_type = some (non_daa, .ok window) ∧
      window.blocks = top (S.window_size window_type) cs ∧ window.origin = .Sampled := by
  obtain ⟨non_daa, window, huncached, hblocks, horigin⟩ :=
    without_caches_build_block_window_spec hstore hinv hgen window_type hcc hd
  refine ⟨non_daa, window, ?_, huncached, hblocks, horigin⟩
  by_cases hk : S.window_size window_type = 0
  · simpa [build_block_window, hk] using huncached
  by_cases hg : d.selected_parent = S.genesis_hash
  · simpa [build_block_window, hk, hg] using huncached
  have horigin_sp : is_origin d.selected_parent = false := by
    simpa [is_origin] using ne_origin_of_mem hinv hd.selected_parent_mem
  rw [without_caches_build_block_window window_type hk hg horigin_sp] at huncached
  simp only [build_block_window, if_neg hk, if_neg hg, horigin_sp, Bool.false_eq_true, if_false,
    walk_eq]
  split
  · next cached hcache =>
    split_ifs with hsampled
    · obtain ⟨data, parent_non_daa, hdata, hbuild⟩ := hsound.cached hcache hsampled
      cases hcc with
      | genesis_child hg' => exact absurd (hgen ▸ hg') hg
      | @step _ parent own rest hne hp hown hrest =>
        rw [hstore, hp, Option.some.injEq] at hdata
        subst hdata
        obtain ⟨blocks, hblocks_eq, rfl⟩ := exists_blocks_of_chain_block_items hstore hp hown
        -- the cached window is the selected parent's window of its own chain
        obtain ⟨_, parent_window, hparent, hparent_blocks, -⟩ :=
          without_caches_build_block_window_spec hstore hinv hgen window_type hrest
            (chain_data_of_selected_parent hinv hp hne)
        rw [hbuild, Option.some.injEq, Prod.mk.injEq, Except.ok.injEq] at hparent
        obtain ⟨-, rfl⟩ := hparent
        have hholds : (from_binary_heap (S.window_size window_type) cached).Holds rest :=
          hparent_blocks
        obtain ⟨hholds', hbound, horigin'⟩ := push_all_spec (Nat.pos_of_ne_zero hk)
          (blocks.filterMap SampledBlock.sampled) hholds
        -- the walk returned the same non-DAA blocks
        simp only [hstore, hp, hblocks_eq, Option.bind_eq_bind, Option.bind_some] at huncached
        obtain ⟨walked, -, hwalked⟩ := Option.bind_eq_some_iff.mp huncached
        rw [Option.pure_def, Option.some.injEq, Prod.mk.injEq] at hwalked
        have hwindow : ((from_binary_heap (S.window_size window_type) cached).push_all
            (blocks.filterMap SampledBlock.sampled)).binary_heap = window := by
          ext1
          · rw [hblocks, hholds', hbound]
            rfl
          · rw [horigin, horigin']
            exact hsampled
        simp [hstore, hp, hblocks_eq, hwalked.1, hwindow]
    · exact huncached
  · exact huncached

end Windows

end SampledWindowManager

end Waglayla.Consensus
