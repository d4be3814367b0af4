import Waglayla.Consensus.Window.Manager
import Waglayla.Consensus.Ghostdag.Ordering

-- What a block window is chosen from: what each block down the selected chain adds.

namespace Waglayla.Consensus

open GhostdagManager

section Candidates

variable {store : AList fun _ : Hash => GhostdagData} {genesis_hash : Hash}
  {items : GhostdagData → Option (List SortableBlock)}

variable (store genesis_hash items) in
inductive ChainCandidates : GhostdagData → List SortableBlock → Prop
  | genesis_child {d : GhostdagData} : d.selected_parent = genesis_hash → ChainCandidates d []
  | step {d parent : GhostdagData} {own rest : List SortableBlock} :
      d.selected_parent ≠ genesis_hash → store.lookup d.selected_parent = some parent →
      items d = some own → ChainCandidates parent rest → ChainCandidates d (own ++ rest)

theorem ChainCandidates.unique {d : GhostdagData} {cs cs' : List SortableBlock}
    (h : ChainCandidates store genesis_hash items d cs)
    (h' : ChainCandidates store genesis_hash items d cs') : cs = cs' := by
  induction h generalizing cs' with
  | genesis_child hg =>
    cases h' with
    | genesis_child => rfl
    | step hne => exact absurd hg hne
  | step hne hp hown _ ih =>
    cases h' with
    | genesis_child hg => exact absurd hg hne
    | step _ hp' hown' hrest' =>
      rw [hp, Option.some.injEq] at hp'
      subst hp'
      rw [hown, Option.some.injEq] at hown'
      rw [hown', ih hrest']

end Candidates

section Walk

variable (store : AList fun _ : Hash => GhostdagData) (genesis_hash : Hash)
  (try_push_mergeset : BoundedSizeBlockHeap → GhostdagData → Nat →
    Option (BoundedSizeBlockHeap × Bool))

-- The loop of both managers' `build_block_window`, over the push of one chain block's
-- mergeset; each manager's own `walk` is this one at its own `try_push_mergeset`.
def chain_walk : Nat → BoundedSizeBlockHeap → GhostdagData →
    Option (Except RuleError BlockWindowHeap)
  | 0, _, _ => none
  | fuel + 1, window_heap, current_ghostdag =>
    if is_origin current_ghostdag.selected_parent then
      if window_heap.reached_size_bound then some (.ok window_heap.binary_heap)
      else some (.error (.InsufficientDaaWindowSize window_heap.binary_heap.len))
    else if current_ghostdag.selected_parent = genesis_hash then
      some (.ok window_heap.binary_heap)
    else do
      let parent_ghostdag ← store.lookup current_ghostdag.selected_parent
      let (window_heap, selected_parent_blue_work_too_low) ←
        try_push_mergeset window_heap current_ghostdag parent_ghostdag.blue_work
      if selected_parent_blue_work_too_low then some (.ok window_heap.binary_heap)
      else chain_walk fuel window_heap parent_ghostdag

end Walk

namespace GhostdagManager

open BoundedSizeBlockHeap TopK

variable {M : GhostdagManager} {d parent : GhostdagData}
  {items : GhostdagData → Option (List SortableBlock)}
  {try_push_mergeset : BoundedSizeBlockHeap → GhostdagData → Nat →
    Option (BoundedSizeBlockHeap × Bool)}

variable (M) in
-- A block's data as the window walks read it: a stored selected parent of lower blue score,
-- and a mergeset in the order the stores keep.
structure ChainData (d : GhostdagData) : Prop where
  selected_parent_mem : d.selected_parent ∈ M.ghostdag_store
  blue_score_lt : ∀ sp_data, M.ghostdag_store.lookup d.selected_parent = some sp_data →
    sp_data.blue_score < d.blue_score
  mergeset_order : M.MergesetOrder d

variable (M) in
-- What pushing one chain block does: the heap comes to hold the block's items as well,
-- keeps its bound and origin, and stops the walk only when it refused the selected parent.
def PushesItems (items : GhostdagData → Option (List SortableBlock))
    (try_push_mergeset : BoundedSizeBlockHeap → GhostdagData → Nat →
      Option (BoundedSizeBlockHeap × Bool)) : Prop :=
  ∀ (heap : BoundedSizeBlockHeap) offered d parent own, 0 < heap.size_bound →
    heap.Holds offered → M.ChainData d → M.ghostdag_store.lookup d.selected_parent = some parent →
    items d = some own →
    ∃ heap' too_low, try_push_mergeset heap d parent.blue_work = some (heap', too_low) ∧
      heap'.Holds (own ++ offered) ∧ heap'.size_bound = heap.size_bound ∧
      heap'.binary_heap.origin = heap.binary_heap.origin ∧
      (too_low = true → heap'.Refuses (M.sortable d.selected_parent))

theorem BlockInv.chain_data {X : Hash} (h : M.BlockInv X d) : M.ChainData d :=
  ⟨h.selected_parent_mem, h.blue_score_lt, h.mergeset_order⟩

theorem sortable_of_lookup {x : Hash} {data : GhostdagData}
    (h : M.ghostdag_store.lookup x = some data) : M.sortable x = ⟨x, data.blue_work⟩ := by
  simp [sortable, blue_work_of, h]

theorem le_of_pairwise_gt {a : SortableBlock} {l : List SortableBlock}
    (h : (a :: l).Pairwise (· > ·)) : ∀ y ∈ a :: l, y ≤ a := by
  intro y hy
  rcases List.mem_cons.mp hy with rfl | hy
  · exact le_rfl
  · exact (List.rel_of_pairwise_cons h hy).le

section Chain

variable (hinv : M.Inv)
include hinv

-- The selected parent, when it is not genesis, has chain data of its own.
theorem chain_data_of_selected_parent
    (hp : M.ghostdag_store.lookup d.selected_parent = some parent)
    (hne : d.selected_parent ≠ M.genesis_hash) : M.ChainData parent :=
  (hinv.block _ _ hp hne).chain_data

-- Down the chain the selected parents sort lower and lower.
theorem sortable_parent_lt (hp : M.ghostdag_store.lookup d.selected_parent = some parent)
    (hne : d.selected_parent ≠ M.genesis_hash) :
    M.sortable parent.selected_parent < M.sortable d.selected_parent := by
  have hblock := hinv.block _ _ hp hne
  have hlt := blue_work_of_lt hinv hblock.selected_parent hblock.selected_parent_mem
  exact SortableBlock.lt_of_blue_work_lt hlt

variable (hitems : ∀ d own, M.ChainData d → items d = some own →
  ∀ y ∈ own, y ≤ M.sortable d.selected_parent)
include hitems

-- What a chain block adds is at most its selected parent, and all of the chain below it.
theorem candidates_le_selected_parent {cs : List SortableBlock}
    (hcc : ChainCandidates M.ghostdag_store M.genesis_hash items d cs) (hd : M.ChainData d) :
    ∀ y ∈ cs, y ≤ M.sortable d.selected_parent := by
  induction hcc with
  | genesis_child => exact fun _ hy => absurd hy List.not_mem_nil
  | @step d parent own rest hne hp hown _ ih =>
    intro y hy
    rcases List.mem_append.mp hy with hy | hy
    · exact hitems d own hd hown y hy
    · exact (ih (chain_data_of_selected_parent hinv hp hne) y hy).trans
        (sortable_parent_lt hinv hp hne).le

-- So the candidates below a chain block are below its selected parent.
theorem candidates_lt_selected_parent {rest : List SortableBlock}
    (hp : M.ghostdag_store.lookup d.selected_parent = some parent)
    (hne : d.selected_parent ≠ M.genesis_hash)
    (hrest : ChainCandidates M.ghostdag_store M.genesis_hash items parent rest) :
    ∀ y ∈ rest, y < M.sortable d.selected_parent := fun y hy =>
  lt_of_le_of_lt (candidates_le_selected_parent hinv hitems hrest
    (chain_data_of_selected_parent hinv hp hne) y hy)
    (sortable_parent_lt hinv hp hne)

variable (hpush : M.PushesItems items try_push_mergeset)
include hpush

-- The walk offers every candidate down the chain, early exit or not: when it stops at a
-- refused selected parent, all that is left below is smaller still. The induction is on the
-- candidate sequence, with the blocks offered so far generalized.
theorem chain_walk_spec {cs : List SortableBlock}
    (hcc : ChainCandidates M.ghostdag_store M.genesis_hash items d cs) (hd : M.ChainData d) :
    ∀ {fuel heap offered}, d.blue_score < fuel → 0 < heap.size_bound → heap.Holds offered →
      ∃ window, chain_walk M.ghostdag_store M.genesis_hash try_push_mergeset fuel heap d =
          some (.ok window) ∧
        window.blocks = top heap.size_bound (cs ++ offered) ∧
        window.origin = heap.binary_heap.origin := by
  induction hcc with
  | @genesis_child d hg =>
    intro fuel heap offered hfuel _ h
    obtain ⟨fuel, rfl⟩ : ∃ f, fuel = f + 1 := ⟨fuel - 1, by omega⟩
    have horigin : is_origin M.genesis_hash = false := by
      simp [is_origin, hinv.genesis_ne_origin]
    exact ⟨heap.binary_heap, by simp [chain_walk, horigin, hg], h, rfl⟩
  | @step d parent own rest hne hp hown hrest ih =>
    intro fuel heap offered hfuel hk h
    obtain ⟨fuel, rfl⟩ : ∃ f, fuel = f + 1 := ⟨fuel - 1, by omega⟩
    have horigin : is_origin d.selected_parent = false := by
      simpa [is_origin] using ne_origin_of_mem hinv hd.selected_parent_mem
    have hscore := hd.blue_score_lt parent hp
    have hperm : (rest ++ (own ++ offered)).Perm ((own ++ rest) ++ offered) := by
      rw [List.append_assoc]
      exact List.perm_append_comm_assoc rest own offered
    obtain ⟨heap', too_low, hres, hholds, hbound, horigin', hrefuses⟩ :=
      hpush heap offered d parent own hk h hd hp hown
    cases too_low with
    | true =>
      -- stopped early: the heap refuses everything further down the chain
      have hrefused : ∀ y ∈ rest, heap'.Refuses y := fun y hy =>
        (hrefuses rfl).of_le (candidates_lt_selected_parent hinv hitems hp hne hrest y hy).le
      refine ⟨heap'.binary_heap, by simp [chain_walk, horigin, hne, hp, hres], ?_, horigin'⟩
      rw [← hbound]
      exact ((hholds.append_refused hrefused).perm hperm : _)
    | false =>
      have hfuel' : parent.blue_score < fuel := by omega
      obtain ⟨window, hwalk, hblocks, hworigin⟩ :=
        ih (chain_data_of_selected_parent hinv hp hne) hfuel' (hbound ▸ hk) hholds
      have hnext : chain_walk M.ghostdag_store M.genesis_hash try_push_mergeset (fuel + 1) heap d =
          chain_walk M.ghostdag_store M.genesis_hash try_push_mergeset fuel heap' parent := by
        simp [chain_walk, horigin, hne, hp, hres]
      refine ⟨window, hnext.trans hwalk, ?_, hworigin.trans horigin'⟩
      rw [hblocks, hbound, top_perm hperm]

end Chain

-- Every chain block with items has a full candidate sequence: the blue scores fall down
-- the chain, which ends at a child of genesis.
theorem exists_chain_candidates (hinv : M.Inv)
    (hitems : ∀ d, M.ChainData d → ∃ own, items d = some own) (hd : M.ChainData d) :
    ∃ cs, ChainCandidates M.ghostdag_store M.genesis_hash items d cs := by
  suffices h : ∀ n d, d.blue_score < n → M.ChainData d →
      ∃ cs, ChainCandidates M.ghostdag_store M.genesis_hash items d cs from
    h _ d (Nat.lt_succ_self _) hd
  intro n
  induction n with
  | zero => exact fun _ h => absurd h (Nat.not_lt_zero _)
  | succ n ih =>
    intro d hlt hd
    by_cases hg : d.selected_parent = M.genesis_hash
    · exact ⟨[], .genesis_child hg⟩
    · obtain ⟨parent, hp⟩ := exists_lookup hd.selected_parent_mem
      obtain ⟨own, hown⟩ := hitems d hd
      have hscore := hd.blue_score_lt parent hp
      obtain ⟨rest, hrest⟩ := ih parent (by omega) (chain_data_of_selected_parent hinv hp hg)
      exact ⟨own ++ rest, .step hg hp hown hrest⟩

end GhostdagManager

end Waglayla.Consensus
