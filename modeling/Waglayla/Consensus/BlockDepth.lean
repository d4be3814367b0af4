import Waglayla.Consensus.Pipeline.Windows

-- The block at a given depth (merge depth root, finality point): `calculate_block_at_depth`
-- resumes from the depth store's entry for the selected parent and walks up the selected chain.

namespace Waglayla.Consensus

section Prefix

variable {α : Type*} {f : α → Nat}

-- On a list sorted by `f`, the elements below a bound are a prefix.
theorem filter_eq_takeWhile_of_pairwise (r : Nat) :
    ∀ {l : List α}, l.Pairwise (fun a b => f a < f b) →
      l.filter (fun x => f x < r) = l.takeWhile (fun x => f x < r)
  | [], _ => rfl
  | a :: l, h => by
    obtain ⟨hlt, hl⟩ := List.pairwise_cons.mp h
    by_cases ha : f a < r
    · rw [List.filter_cons_of_pos (by simpa using ha), List.takeWhile_cons_of_pos (by simpa using ha),
        filter_eq_takeWhile_of_pairwise r hl]
    · -- everything after `a` is above it, so above the bound as well
      rw [List.filter_cons_of_neg (by simpa using ha), List.takeWhile_cons_of_neg (by simpa using ha),
        List.filter_eq_nil_iff]
      intro x hx
      have := hlt x hx
      simp only [decide_eq_true_eq]
      omega

end Prefix

section SelectedChain

variable (store : AList fun _ : Hash => GhostdagData) (genesis_hash : Hash)

-- The selected chain of a block, from genesis up to the block itself: what the
-- chain-selection tree of the reachability service holds above genesis.
inductive SelectedChain : Hash → List Hash → Prop
  | genesis : SelectedChain genesis_hash [genesis_hash]
  | step {X : Hash} {data : GhostdagData} {chain : List Hash} :
      X ≠ genesis_hash → store.lookup X = some data →
      SelectedChain data.selected_parent chain → SelectedChain X (chain ++ [X])

-- What the depth calculation needs of the GHOSTDAG store: genesis at blue score zero, no
-- data for ORIGIN, and for every other block a stored selected parent of lower blue score.
structure ChainStore : Prop where
  genesis_data : ∃ data, store.lookup genesis_hash = some data ∧ data.blue_score = 0
  origin_not_mem : ORIGIN ∉ store
  selected_parent_lt : ∀ X data, store.lookup X = some data → X ≠ genesis_hash →
    ∃ sp_data, store.lookup data.selected_parent = some sp_data ∧
      sp_data.blue_score < data.blue_score

-- `get_blue_score`, read as zero for a block without data.
def blue_score_of (hash : Hash) : Nat :=
  match store.lookup hash with
  | some data => data.blue_score
  | none => 0

-- The block at depth `depth` below a block of blue score `blue_score` whose selected parent
-- has selected chain `chain`: genesis while the block is less than `depth` deep, otherwise the
-- last chain block of blue score below `blue_score - depth`, or genesis if there is none.
def block_at_depth (chain : List Hash) (blue_score depth : Nat) : Hash :=
  if blue_score < depth then genesis_hash
  else ((chain.filter fun c => blue_score_of store c < blue_score - depth).getLast?).getD
    genesis_hash

variable {store genesis_hash}

theorem blue_score_of_eq {hash : Hash} {data : GhostdagData} (h : store.lookup hash = some data) :
    blue_score_of store hash = data.blue_score := by
  simp [blue_score_of, h]

namespace SelectedChain

variable {X : Hash} {chain : List Hash}

theorem eq_cons (h : SelectedChain store genesis_hash X chain) :
    ∃ rest, chain = genesis_hash :: rest := by
  induction h with
  | genesis => exact ⟨[], rfl⟩
  | step _ _ _ ih =>
    obtain ⟨rest, rfl⟩ := ih
    exact ⟨rest ++ [_], rfl⟩

theorem genesis_mem (h : SelectedChain store genesis_hash X chain) : genesis_hash ∈ chain := by
  obtain ⟨rest, rfl⟩ := h.eq_cons
  exact List.mem_cons_self

-- The selected chain of a block on a selected chain is the part of it up to that block.
theorem up_to (h : SelectedChain store genesis_hash X chain) :
    ∀ {pre post : List Hash} {c : Hash}, chain = pre ++ c :: post →
      SelectedChain store genesis_hash c (pre ++ [c]) := by
  induction h with
  | genesis =>
    intro pre post c heq
    rcases pre with _ | ⟨a, pre⟩
    · obtain ⟨rfl, -⟩ := List.cons.inj heq
      exact .genesis
    · simp at heq
  | step hne hX hchain ih =>
    rename_i X' data chain'
    intro pre post c heq
    rcases List.eq_nil_or_concat' post with rfl | ⟨post', z, rfl⟩
    · -- `c` is the block itself
      obtain ⟨rfl, hc⟩ := List.append_inj' heq rfl
      cases hc
      exact .step hne hX hchain
    · -- `c` is further down, on the selected parent's chain
      have h' : chain' ++ [X'] = (pre ++ c :: post') ++ [z] := by simpa using heq
      exact ih (List.append_inj' h' rfl).1

-- A block has one selected chain: each step down reads the one stored selected parent.
theorem unique (h : SelectedChain store genesis_hash X chain) :
    ∀ {chain' : List Hash}, SelectedChain store genesis_hash X chain' → chain' = chain := by
  induction h with
  | genesis =>
    intro chain' h'
    cases h' with
    | genesis => rfl
    | step hne _ _ => exact absurd rfl hne
  | step hne hX _ ih =>
    intro chain' h'
    cases h' with
    | genesis => exact absurd rfl hne
    | step _ hX' hchain' =>
      rw [hX, Option.some.injEq] at hX'
      subst hX'
      rw [ih hchain']

end SelectedChain

section Store

variable (hstore : ChainStore store genesis_hash)
include hstore

theorem genesis_mem_store : genesis_hash ∈ store := by
  obtain ⟨data, hdata, -⟩ := hstore.genesis_data
  exact AList.lookup_isSome.mp (by rw [hdata]; rfl)

theorem blue_score_of_genesis : blue_score_of store genesis_hash = 0 := by
  obtain ⟨data, hdata, hbs⟩ := hstore.genesis_data
  rw [blue_score_of_eq hdata, hbs]

theorem genesis_ne_origin : genesis_hash ≠ ORIGIN :=
  fun h => hstore.origin_not_mem (h ▸ genesis_mem_store hstore)

-- Every block of a selected chain is stored, and the blue scores rise along it up to the
-- block itself.
theorem SelectedChain.sorted {X : Hash} {chain : List Hash}
    (h : SelectedChain store genesis_hash X chain) :
    (∀ c ∈ chain, c ∈ store) ∧
      chain.Pairwise (fun a b => blue_score_of store a < blue_score_of store b) ∧
      ∀ c ∈ chain, blue_score_of store c ≤ blue_score_of store X := by
  induction h with
  | genesis =>
    refine ⟨fun c hc => ?_, List.pairwise_singleton _ _, fun c hc => ?_⟩
    · rw [List.mem_singleton.mp hc]
      exact genesis_mem_store hstore
    · rw [List.mem_singleton.mp hc]
  | step hne hX _ ih =>
    rename_i X data chain _
    obtain ⟨hmem, hsorted, hle⟩ := ih
    obtain ⟨sp_data, hsp, hlt⟩ := hstore.selected_parent_lt X data hX hne
    -- the selected parent tops its own chain and sits below `X`
    have hX_bs : blue_score_of store X = data.blue_score := blue_score_of_eq hX
    have hsp_bs : blue_score_of store data.selected_parent = sp_data.blue_score :=
      blue_score_of_eq hsp
    have hbelow : ∀ c ∈ chain, blue_score_of store c < blue_score_of store X := fun c hc => by
      have := hle c hc
      omega
    refine ⟨fun c hc => ?_, List.pairwise_append.mpr ⟨hsorted, List.pairwise_singleton _ _,
      fun a ha b hb => ?_⟩, fun c hc => ?_⟩
    · rcases List.mem_append.mp hc with hc | hc
      · exact hmem c hc
      · rw [List.mem_singleton.mp hc]
        exact AList.lookup_isSome.mp (by rw [hX]; rfl)
    · rw [List.mem_singleton.mp hb]
      exact hbelow a ha
    · rcases List.mem_append.mp hc with hc | hc
      · exact (hbelow c hc).le
      · rw [List.mem_singleton.mp hc]

theorem SelectedChain.nodup {X : Hash} {chain : List Hash}
    (h : SelectedChain store genesis_hash X chain) : chain.Nodup :=
  (h.sorted hstore).2.1.imp fun hlt => ne_of_apply_ne (blue_score_of store) hlt.ne

-- Every stored block has a selected chain: the blue score falls at every step down, and
-- only genesis has no stored selected parent.
theorem exists_selected_chain :
    ∀ (n : Nat) {X : Hash} {data : GhostdagData}, store.lookup X = some data →
      data.blue_score = n → ∃ chain, SelectedChain store genesis_hash X chain := by
  intro n
  induction n using Nat.strong_induction_on with
  | _ n ih =>
    intro X data hX hn
    by_cases hgen : X = genesis_hash
    · subst hgen
      exact ⟨_, .genesis⟩
    obtain ⟨sp_data, hsp, hlt⟩ := hstore.selected_parent_lt X data hX hgen
    obtain ⟨chain, hchain⟩ := ih sp_data.blue_score (hn ▸ hlt) hsp rfl
    exact ⟨_, .step hgen hX hchain⟩

-- A table that gives genesis its own chain and every other stored block its selected parent's
-- chain followed by the block lists the selected chains; the induction is the one above.
theorem selected_chain_of_table {table : Hash → List Hash}
    (hg : table genesis_hash = [genesis_hash])
    (hstep : ∀ X data, store.lookup X = some data → X ≠ genesis_hash →
      table X = table data.selected_parent ++ [X]) :
    ∀ (n : Nat) {X : Hash} {data : GhostdagData}, store.lookup X = some data →
      data.blue_score = n → SelectedChain store genesis_hash X (table X) := by
  intro n
  induction n using Nat.strong_induction_on with
  | _ n ih =>
    intro X data hX hn
    by_cases hgen : X = genesis_hash
    · subst hgen
      rw [hg]
      exact .genesis
    obtain ⟨sp_data, hsp, hlt⟩ := hstore.selected_parent_lt X data hX hgen
    rw [hstep X data hX hgen]
    exact .step hgen hX (ih sp_data.blue_score (hn ▸ hlt) hsp rfl)

-- So every selected chain is the table's.
theorem SelectedChain.eq_table {table : Hash → List Hash}
    (hg : table genesis_hash = [genesis_hash])
    (hstep : ∀ X data, store.lookup X = some data → X ≠ genesis_hash →
      table X = table data.selected_parent ++ [X])
    {X : Hash} {chain : List Hash} (h : SelectedChain store genesis_hash X chain) :
    chain = table X := by
  obtain ⟨data, hX⟩ : ∃ data, store.lookup X = some data := by
    cases h with
    | genesis =>
      obtain ⟨data, hdata, -⟩ := hstore.genesis_data
      exact ⟨data, hdata⟩
    | step _ hX _ => exact ⟨_, hX⟩
  exact (selected_chain_of_table hstore hg hstep _ hX rfl).unique h

end Store

end SelectedChain

-- The depths, genesis, the depth store, and what the manager asks of the reachability
-- service and of the GHOSTDAG store.
structure BlockDepthManager where
  merge_depth : Nat
  finality_depth : Nat
  genesis_hash : Hash
  -- `DepthStore`: a block's merge depth root and finality point
  depth_store : AList fun _ : Hash => Hash × Hash
  -- `MTReachabilityService`: chain ancestry, and the chain from an ancestor up to a block
  is_chain_ancestor_of : Hash → Hash → Bool
  forward_chain_iterator : Hash → Hash → Bool → List Hash
  ghostdag_store : AList fun _ : Hash => GhostdagData

namespace BlockDepthManager

variable (self : BlockDepthManager)

-- The loop of `calculate_block_at_depth`: up the chain, keep the last block below the
-- required blue score and stop at the first one that is not.
def walk_to_depth (required_blue_score : Nat) : List Hash → Hash → Option Hash
  | [], current => some current
  | chain_block :: rest, current =>
    match self.ghostdag_store.lookup chain_block with
    | none => none
    | some data =>
      if data.blue_score ≥ required_blue_score then some current
      else walk_to_depth required_blue_score rest chain_block

-- A failed `assert!` or `unwrap` is `none`.
def calculate_block_at_depth (ghostdag_data : GhostdagData) (depth : Nat) (pruning_point : Hash) :
    Option Hash :=
  if ¬(depth = self.merge_depth ∨ depth = self.finality_depth) then none
  else if ghostdag_data.blue_score < depth then some self.genesis_hash
  else
    match self.ghostdag_store.lookup pruning_point with
    | none => none
    | some pp_data =>
      if ghostdag_data.blue_score < pp_data.blue_score + depth then some ORIGIN
      else if !self.is_chain_ancestor_of pruning_point ghostdag_data.selected_parent then
        some ORIGIN
      else
        match self.depth_store.lookup ghostdag_data.selected_parent with
        | none => none
        | some (merge_depth_root, finality_point) =>
          let current := if depth = self.merge_depth then merge_depth_root else finality_point
          -- the pruning point or a block above it is the block at depth
          let current := if current = ORIGIN then pruning_point else current
          self.walk_to_depth (ghostdag_data.blue_score - depth)
            (self.forward_chain_iterator current ghostdag_data.selected_parent true) current

def calc_merge_depth_root (ghostdag_data : GhostdagData) (pruning_point : Hash) : Option Hash :=
  self.calculate_block_at_depth ghostdag_data self.merge_depth pruning_point

def calc_finality_point (ghostdag_data : GhostdagData) (pruning_point : Hash) : Option Hash :=
  self.calculate_block_at_depth ghostdag_data self.finality_depth pruning_point

-- The reachability service answers along the selected chains: a chain ancestor is a block
-- of the chain, and the forward iterator runs up the chain from the ancestor to the block.
structure ChainReachabilityCorrect (manager : BlockDepthManager) : Prop where
  is_chain_ancestor_of_iff : ∀ a b chain,
    SelectedChain manager.ghostdag_store manager.genesis_hash b chain →
      (manager.is_chain_ancestor_of a b = true ↔ a ∈ chain)
  forward_chain_iterator_eq : ∀ a b pre post,
    SelectedChain manager.ghostdag_store manager.genesis_hash b (pre ++ a :: post) →
      manager.forward_chain_iterator a b true = a :: post

-- Every stored block's depth-store entry is what the manager computes for it with genesis as
-- the pruning point; genesis's own entry is ORIGIN twice, as the header processor writes it.
structure DepthStoreComputed (manager : BlockDepthManager) : Prop where
  genesis : manager.depth_store.lookup manager.genesis_hash = some (ORIGIN, ORIGIN)
  block : ∀ X data, manager.ghostdag_store.lookup X = some data → X ≠ manager.genesis_hash →
    ∃ merge_depth_root finality_point,
      manager.calc_merge_depth_root data manager.genesis_hash = some merge_depth_root ∧
      manager.calc_finality_point data manager.genesis_hash = some finality_point ∧
      manager.depth_store.lookup X = some (merge_depth_root, finality_point)

section Walk

theorem walk_to_depth_eq (required_blue_score : Nat) :
    ∀ (chain : List Hash) (current : Hash), (∀ c ∈ chain, c ∈ self.ghostdag_store) →
      self.walk_to_depth required_blue_score chain current =
        some (((chain.takeWhile fun c =>
          blue_score_of self.ghostdag_store c < required_blue_score).getLast?).getD current)
  | [], current, _ => rfl
  | chain_block :: rest, current, hmem => by
    obtain ⟨data, hdata⟩ := Option.isSome_iff_exists.mp
      (AList.lookup_isSome.mpr (hmem chain_block List.mem_cons_self))
    have hbs := blue_score_of_eq hdata
    rw [walk_to_depth, hdata]
    dsimp only
    by_cases hge : data.blue_score ≥ required_blue_score
    · -- the loop breaks and keeps the block before
      rw [if_pos hge, List.takeWhile_cons_of_neg (by simp [hbs]; omega)]
      rfl
    · rw [if_neg hge, walk_to_depth_eq required_blue_score rest chain_block
        (fun c hc => hmem c (List.mem_cons_of_mem _ hc)),
        List.takeWhile_cons_of_pos (by simp [hbs]; omega), List.getLast?_cons]
      rfl

-- The loop keeps where it started or a block it walked over.
theorem walk_to_depth_mem {required_blue_score : Nat} :
    ∀ {chain : List Hash} {current result : Hash},
      self.walk_to_depth required_blue_score chain current = some result →
        result = current ∨ result ∈ chain
  | [], current, result, h => .inl (Option.some.inj h).symm
  | chain_block :: rest, current, result, h => by
    rw [walk_to_depth] at h
    split at h
    · cases h
    · split_ifs at h
      · exact .inl (Option.some.inj h).symm
      · rcases walk_to_depth_mem h with rfl | hmem
        · exact .inr List.mem_cons_self
        · exact .inr (List.mem_cons_of_mem _ hmem)

variable {self}

-- The block the walk ends at has the block it started from on its selected chain.
theorem mem_selected_chain_of_walk {X start result : Hash} {pre post : List Hash}
    (hchain : SelectedChain self.ghostdag_store self.genesis_hash X (pre ++ start :: post))
    (hresult : result ∈ start :: post) :
    ∃ chain, SelectedChain self.ghostdag_store self.genesis_hash result chain ∧ start ∈ chain := by
  obtain ⟨mid, rest, hsplit⟩ := List.append_of_mem hresult
  have hup := hchain.up_to (show pre ++ start :: post = (pre ++ mid) ++ result :: rest by
    rw [hsplit, List.append_assoc])
  refine ⟨_, hup, ?_⟩
  -- `start` heads the walked part, so it is `result` or comes before it
  cases mid with
  | nil =>
    obtain ⟨rfl, -⟩ := List.cons.inj hsplit
    exact List.mem_append_right _ (List.mem_singleton_self _)
  | cons m mid =>
    obtain ⟨rfl, -⟩ := List.cons.inj hsplit
    exact List.mem_append_left _ (List.mem_append_right _ List.mem_cons_self)

variable (hstore : ChainStore self.ghostdag_store self.genesis_hash)
include hstore

-- Walking up a selected chain from one of its blocks, below the required blue score or genesis
-- with nothing required, ends at the last chain block below the required blue score.
theorem walk_to_depth_resume {X start : Hash} {pre post : List Hash} {r : Nat}
    (hchain : SelectedChain self.ghostdag_store self.genesis_hash X (pre ++ start :: post))
    (hstart : blue_score_of self.ghostdag_store start < r ∨ (start = self.genesis_hash ∧ r = 0)) :
    self.walk_to_depth r (start :: post) start =
      some ((((pre ++ start :: post).filter fun c =>
        blue_score_of self.ghostdag_store c < r).getLast?).getD self.genesis_hash) := by
  obtain ⟨hmem, hsorted, -⟩ := hchain.sorted hstore
  rw [walk_to_depth_eq self r _ _ fun c hc => hmem c (List.mem_append_right _ hc),
    filter_eq_takeWhile_of_pairwise r hsorted]
  by_cases hlt : blue_score_of self.ghostdag_store start < r
  · -- the chain below `start` is below the bound too, and the walk goes on from `start`
    have hpre : ∀ c ∈ pre, (decide (blue_score_of self.ghostdag_store c < r)) = true := by
      intro c hc
      have := (List.pairwise_append.mp hsorted).2.2 c hc start List.mem_cons_self
      simp only [decide_eq_true_eq]
      omega
    rw [List.takeWhile_append_of_pos hpre, List.takeWhile_cons_of_pos (by simpa using hlt),
      List.getLast?_append, List.getLast?_cons]
    rfl
  · -- nothing is required, and the walk stays at genesis
    obtain ⟨rfl, rfl⟩ := hstart.resolve_left hlt
    obtain ⟨rest, hrest⟩ := hchain.eq_cons
    rw [List.takeWhile_cons_of_neg (by simp), hrest, List.takeWhile_cons_of_neg (by simp)]

end Walk

section BlockAtDepth

variable {store : AList fun _ : Hash => GhostdagData} {genesis_hash : Hash}

theorem block_at_depth_mem {Y : Hash} {chain : List Hash}
    (hchain : SelectedChain store genesis_hash Y chain) (blue_score depth : Nat) :
    block_at_depth store genesis_hash chain blue_score depth ∈ chain := by
  unfold block_at_depth
  split_ifs
  · exact hchain.genesis_mem
  · cases hlast : (chain.filter fun c => blue_score_of store c < blue_score - depth).getLast? with
    | none => exact hchain.genesis_mem
    | some c => exact List.mem_of_mem_filter (List.mem_of_getLast? hlast)

-- What a block's selected parent has at depth is where the walk for the block can resume:
-- below the block's required blue score, or genesis when nothing is required.
theorem block_at_depth_resumable (hstore : ChainStore store genesis_hash) (chain : List Hash)
    {parent_blue_score blue_score depth : Nat} (hlt : parent_blue_score < blue_score)
    (hdeep : depth ≤ blue_score) :
    blue_score_of store (block_at_depth store genesis_hash chain parent_blue_score depth) <
        blue_score - depth ∨
      (block_at_depth store genesis_hash chain parent_blue_score depth = genesis_hash ∧
        blue_score - depth = 0) := by
  have hgen := blue_score_of_genesis hstore
  unfold block_at_depth
  split_ifs with hshallow
  · -- genesis, below anything but a zero bound
    rcases Nat.eq_zero_or_pos (blue_score - depth) with h | h
    · exact .inr ⟨rfl, h⟩
    · exact .inl (by omega)
  · cases hlast : (chain.filter fun c =>
        blue_score_of store c < parent_blue_score - depth).getLast? with
    | none => exact .inl (by simp only [Option.getD_none]; omega)
    | some c =>
      -- the last chain block below the parent's bound is below the block's bound too
      have hc := List.of_mem_filter (List.mem_of_getLast? hlast)
      simp only [decide_eq_true_eq] at hc
      exact .inl (by simp only [Option.getD_some]; omega)

end BlockAtDepth

section Calculate

variable {self} {depth : Nat} {ghostdag_data : GhostdagData}

theorem calculate_block_at_depth_of_shallow
    (hd : depth = self.merge_depth ∨ depth = self.finality_depth)
    (hshallow : ghostdag_data.blue_score < depth) (pruning_point : Hash) :
    self.calculate_block_at_depth ghostdag_data depth pruning_point = some self.genesis_hash := by
  rw [calculate_block_at_depth, if_neg (not_not.mpr hd), if_pos hshallow]

-- Past the checks, with genesis as the pruning point: the walk from where the selected
-- parent's entry points.
theorem calculate_block_at_depth_of_deep (hstore : ChainStore self.ghostdag_store self.genesis_hash)
    (hd : depth = self.merge_depth ∨ depth = self.finality_depth)
    (hdeep : depth ≤ ghostdag_data.blue_score)
    (hanc : self.is_chain_ancestor_of self.genesis_hash ghostdag_data.selected_parent = true)
    {merge_depth_root finality_point : Hash}
    (hentry : self.depth_store.lookup ghostdag_data.selected_parent =
      some (merge_depth_root, finality_point)) :
    self.calculate_block_at_depth ghostdag_data depth self.genesis_hash =
      let current := if depth = self.merge_depth then merge_depth_root else finality_point
      let current := if current = ORIGIN then self.genesis_hash else current
      self.walk_to_depth (ghostdag_data.blue_score - depth)
        (self.forward_chain_iterator current ghostdag_data.selected_parent true) current := by
  obtain ⟨gdata, hgdata, hgbs⟩ := hstore.genesis_data
  rw [calculate_block_at_depth, if_neg (not_not.mpr hd), if_neg (by omega), hgdata]
  dsimp only
  rw [if_neg (by omega), hanc, hentry]
  rfl

variable (hstore : ChainStore self.ghostdag_store self.genesis_hash)
  (hreach : self.ChainReachabilityCorrect)
  (hd : depth = self.merge_depth ∨ depth = self.finality_depth)
include hstore hreach hd

-- From a resumable start on the selected parent's chain, the calculation gives the block at
-- depth, which has the start on its own selected chain.
theorem calculate_block_at_depth_resume {chain : List Hash}
    (hchain : SelectedChain self.ghostdag_store self.genesis_hash ghostdag_data.selected_parent
      chain)
    (hdeep : depth ≤ ghostdag_data.blue_score) {merge_depth_root finality_point start : Hash}
    (hentry : self.depth_store.lookup ghostdag_data.selected_parent =
      some (merge_depth_root, finality_point))
    (hcurrent : (if (if depth = self.merge_depth then merge_depth_root else finality_point) = ORIGIN
      then self.genesis_hash
      else if depth = self.merge_depth then merge_depth_root else finality_point) = start)
    (hmem : start ∈ chain)
    (hstart : blue_score_of self.ghostdag_store start < ghostdag_data.blue_score - depth ∨
      (start = self.genesis_hash ∧ ghostdag_data.blue_score - depth = 0)) :
    self.calculate_block_at_depth ghostdag_data depth self.genesis_hash =
        some (block_at_depth self.ghostdag_store self.genesis_hash chain ghostdag_data.blue_score
          depth) ∧
      ∃ l, SelectedChain self.ghostdag_store self.genesis_hash
        (block_at_depth self.ghostdag_store self.genesis_hash chain ghostdag_data.blue_score depth)
        l ∧ start ∈ l := by
  have hanc := (hreach.is_chain_ancestor_of_iff _ _ _ hchain).mpr hchain.genesis_mem
  rw [calculate_block_at_depth_of_deep hstore hd hdeep hanc hentry]
  dsimp only
  rw [hcurrent]
  obtain ⟨pre, post, rfl⟩ := List.append_of_mem hmem
  rw [hreach.forward_chain_iterator_eq _ _ _ _ hchain]
  have hwalk := walk_to_depth_resume hstore hchain hstart
  have hvalue : block_at_depth self.ghostdag_store self.genesis_hash (pre ++ start :: post)
      ghostdag_data.blue_score depth =
      (((pre ++ start :: post).filter fun c =>
        blue_score_of self.ghostdag_store c < ghostdag_data.blue_score - depth).getLast?).getD
        self.genesis_hash := if_neg (by omega)
  rw [hvalue]
  refine ⟨hwalk, mem_selected_chain_of_walk hchain ?_⟩
  rcases walk_to_depth_mem self hwalk with h | h
  · rw [h]
    exact List.mem_cons_self
  · exact h

end Calculate

section Chain

variable {self} {depth : Nat} (hstore : ChainStore self.ghostdag_store self.genesis_hash)
  (hreach : self.ChainReachabilityCorrect) (hdepth : self.DepthStoreComputed)
  (hd : depth = self.merge_depth ∨ depth = self.finality_depth) (hpos : 0 < depth)
include hstore hreach hdepth hd hpos

-- By induction up the selected parent's chain: the depth store holds, for the selected
-- parent, its own block at depth, from which the walk resumes; so the calculation gives the
-- block at depth, and the selected parent's block at depth is on the selected chain of the
-- result.
theorem calculate_block_at_depth_chain {sp : Hash} {chain : List Hash}
    (hchain : SelectedChain self.ghostdag_store self.genesis_hash sp chain) :
    ∀ {ghostdag_data : GhostdagData}, ghostdag_data.selected_parent = sp →
      (∀ sp_data, self.ghostdag_store.lookup sp = some sp_data →
        sp_data.blue_score < ghostdag_data.blue_score) →
      self.calculate_block_at_depth ghostdag_data depth self.genesis_hash =
          some (block_at_depth self.ghostdag_store self.genesis_hash chain
            ghostdag_data.blue_score depth) ∧
        ∃ l, SelectedChain self.ghostdag_store self.genesis_hash
          (block_at_depth self.ghostdag_store self.genesis_hash chain ghostdag_data.blue_score
            depth) l ∧
          block_at_depth self.ghostdag_store self.genesis_hash chain.dropLast
            (blue_score_of self.ghostdag_store sp) depth ∈ l := by
  induction hchain with
  | genesis =>
    intro ghostdag_data hsp _
    -- the selected parent's entry is ORIGIN, and the walk starts from genesis
    have hgen : block_at_depth self.ghostdag_store self.genesis_hash [] (blue_score_of
        self.ghostdag_store self.genesis_hash) depth = self.genesis_hash := by
      rw [block_at_depth, blue_score_of_genesis hstore, if_pos hpos]
    rw [List.dropLast_singleton, hgen]
    by_cases hshallow : ghostdag_data.blue_score < depth
    · rw [calculate_block_at_depth_of_shallow hd hshallow, block_at_depth, if_pos hshallow]
      exact ⟨rfl, _, .genesis, List.mem_singleton_self _⟩
    have hchain : SelectedChain self.ghostdag_store self.genesis_hash
        ghostdag_data.selected_parent [self.genesis_hash] := hsp ▸ .genesis
    have hentry : self.depth_store.lookup ghostdag_data.selected_parent = some (ORIGIN, ORIGIN) :=
      hsp ▸ hdepth.genesis
    have hstart : blue_score_of self.ghostdag_store self.genesis_hash <
        ghostdag_data.blue_score - depth ∨
        (self.genesis_hash = self.genesis_hash ∧ ghostdag_data.blue_score - depth = 0) := by
      rw [blue_score_of_genesis hstore]
      rcases Nat.eq_zero_or_pos (ghostdag_data.blue_score - depth) with h | h
      · exact .inr ⟨rfl, h⟩
      · exact .inl h
    exact calculate_block_at_depth_resume hstore hreach hd hchain (by omega) hentry
      (by simp) (List.mem_singleton_self _) hstart
  | step hne hX hchain' ih =>
    rename_i X data chain'
    intro ghostdag_data hsp hlt
    have hX_bs : blue_score_of self.ghostdag_store X = data.blue_score := blue_score_of_eq hX
    have hlt_X : data.blue_score < ghostdag_data.blue_score := hlt data hX
    rw [List.dropLast_concat, hX_bs]
    -- the selected parent's own block at depth, by the induction hypothesis
    obtain ⟨sp_data, hsp_data, hsp_lt⟩ := hstore.selected_parent_lt X data hX hne
    obtain ⟨hcalc_X, -⟩ := @ih data rfl fun d hd' => by
      rw [hsp_data, Option.some.injEq] at hd'
      exact hd' ▸ hsp_lt
    by_cases hshallow : ghostdag_data.blue_score < depth
    · -- both are genesis
      have hX_shallow : data.blue_score < depth := by omega
      rw [calculate_block_at_depth_of_shallow hd hshallow, block_at_depth, if_pos hshallow,
        block_at_depth, if_pos hX_shallow]
      exact ⟨rfl, _, .genesis, List.mem_singleton_self _⟩
    have hchain : SelectedChain self.ghostdag_store self.genesis_hash
        ghostdag_data.selected_parent (chain' ++ [X]) := by
      rw [hsp]
      exact .step hne hX hchain'
    obtain ⟨merge_depth_root, finality_point, hmerge, hfinality, hentry⟩ :=
      hdepth.block X data hX hne
    -- the entry for this depth is the selected parent's block at depth, never ORIGIN
    have hcurrent_eq : (if depth = self.merge_depth then merge_depth_root else finality_point) =
        block_at_depth self.ghostdag_store self.genesis_hash chain' data.blue_score depth := by
      split_ifs with hm
      · subst hm
        exact Option.some.inj (hmerge.symm.trans hcalc_X)
      · have hf := hd.resolve_left hm
        subst hf
        exact Option.some.inj (hfinality.symm.trans hcalc_X)
    have hmem := block_at_depth_mem hchain' data.blue_score depth
    have hne_origin : block_at_depth self.ghostdag_store self.genesis_hash chain'
        data.blue_score depth ≠ ORIGIN := fun h =>
      hstore.origin_not_mem (h ▸ (hchain'.sorted hstore).1 _ hmem)
    exact calculate_block_at_depth_resume hstore hreach hd hchain (by omega) (hsp ▸ hentry)
      (by rw [hcurrent_eq, if_neg hne_origin]) (List.mem_append_left _ hmem)
      (block_at_depth_resumable hstore chain' hlt_X (by omega))

-- A stored block's calculated block at depth is its block at depth, from the selected chain
-- below it.
theorem calculate_block_at_depth_stored {Y : Hash} {chain : List Hash}
    (hchain : SelectedChain self.ghostdag_store self.genesis_hash Y chain) {data : GhostdagData}
    (hY : self.ghostdag_store.lookup Y = some data) :
    self.calculate_block_at_depth data depth self.genesis_hash =
      some (block_at_depth self.ghostdag_store self.genesis_hash chain.dropLast data.blue_score
        depth) := by
  cases hchain with
  | genesis =>
    -- genesis is shallower than any depth
    obtain ⟨gdata, hgdata, hgbs⟩ := hstore.genesis_data
    rw [hY, Option.some.injEq] at hgdata
    subst hgdata
    rw [calculate_block_at_depth_of_shallow hd (by omega), List.dropLast_singleton, block_at_depth,
      if_pos (by omega)]
  | step hne hY' hchain_sp =>
    rw [hY, Option.some.injEq] at hY'
    subst hY'
    rw [List.dropLast_concat]
    obtain ⟨sp_data, hsp, hlt⟩ := hstore.selected_parent_lt Y data hY hne
    exact (calculate_block_at_depth_chain hstore hreach hdepth hd hpos hchain_sp rfl
      fun d hd' => by
        rw [hsp, Option.some.injEq] at hd'
        exact hd' ▸ hlt).1

end Chain

end BlockDepthManager

-- The stores of a DAG built by the pipeline are what the depth calculation needs.
theorem GhostdagManager.Inv.chain_store {M : GhostdagManager} (hinv : M.Inv) :
    ChainStore M.ghostdag_store M.genesis_hash where
  genesis_data := ⟨_, hinv.genesis_data, rfl⟩
  origin_not_mem := hinv.origin_no_data
  selected_parent_lt X data hX hne := by
    have hblock := hinv.block X data hX hne
    obtain ⟨sp_data, hsp⟩ := GhostdagManager.exists_lookup hblock.selected_parent_mem
    exact ⟨sp_data, hsp, hblock.blue_score_lt sp_data hsp⟩

open BlockDepthManager HeaderProcessor in
-- In a DAG grown from genesis by the header pipeline, with genesis as the pruning point, a
-- reachability service that answers along the selected chains and a depth store the manager
-- filled itself, for both depths: every block's block at depth is genesis while the block is
-- less than the depth deep, and otherwise the last block of its selected chain below the
-- required blue score (genesis if there is none); and the selected parent's block at depth is
-- on the selected chain of the block's own, so both only move up a selected chain.
theorem calculate_block_at_depth_selected_chain {max_block_parents : Nat} {M : GhostdagManager}
    (hbuilt : Built max_block_parents M) (D : BlockDepthManager)
    (hstore : D.ghostdag_store = M.ghostdag_store) (hgenesis : D.genesis_hash = M.genesis_hash)
    (hreach : D.ChainReachabilityCorrect) (hdepth : D.DepthStoreComputed)
    (hmerge : 0 < D.merge_depth) (hfinality : 0 < D.finality_depth) :
    ∀ depth ∈ [D.merge_depth, D.finality_depth], ∀ B data,
      D.ghostdag_store.lookup B = some data →
        (∃ chain, SelectedChain D.ghostdag_store D.genesis_hash B chain) ∧
        ∀ chain, SelectedChain D.ghostdag_store D.genesis_hash B chain →
          D.calculate_block_at_depth data depth D.genesis_hash =
              some (block_at_depth D.ghostdag_store D.genesis_hash chain.dropLast
                data.blue_score depth) ∧
            ∀ sp_data, D.ghostdag_store.lookup data.selected_parent = some sp_data →
              B ≠ D.genesis_hash →
              ∃ sp_at_depth l,
                D.calculate_block_at_depth sp_data depth D.genesis_hash = some sp_at_depth ∧
                SelectedChain D.ghostdag_store D.genesis_hash
                  (block_at_depth D.ghostdag_store D.genesis_hash chain.dropLast data.blue_score
                    depth) l ∧
                sp_at_depth ∈ l := by
  intro depth hmem B data hB
  have hd : depth = D.merge_depth ∨ depth = D.finality_depth := by simpa using hmem
  have hpos : 0 < depth := by rcases hd with rfl | rfl <;> assumption
  have hcs : ChainStore D.ghostdag_store D.genesis_hash := by
    rw [hstore, hgenesis]
    exact hbuilt.inv.chain_store
  refine ⟨exists_selected_chain hcs _ hB rfl, fun chain hchain =>
    ⟨calculate_block_at_depth_stored hcs hreach hdepth hd hpos hchain hB, ?_⟩⟩
  intro sp_data hsp hne
  cases hchain with
  | genesis => exact absurd rfl hne
  | step _ hB' hchain_sp =>
    rw [hB, Option.some.injEq] at hB'
    subst hB'
    -- the step from the selected parent up to the block
    obtain ⟨-, l, hl, hsp_mem⟩ := calculate_block_at_depth_chain hcs hreach hdepth hd hpos
      hchain_sp rfl fun d hd' => by
        obtain ⟨sp_data', hsp', hlt⟩ := hcs.selected_parent_lt B data hB hne
        rw [hsp', Option.some.injEq] at hd'
        exact hd' ▸ hlt
    rw [blue_score_of_eq hsp] at hsp_mem
    rw [List.dropLast_concat]
    exact ⟨_, l, calculate_block_at_depth_stored hcs hreach hdepth hd hpos hchain_sp hsp, hl,
      hsp_mem⟩

section Tables

open BlockDepthManager

-- Up a list without repeats, dropping until a block leaves the part from that block on.
theorem dropWhile_bne_of_nodup {a : Hash} :
    ∀ {pre post : List Hash}, (pre ++ a :: post).Nodup →
      (pre ++ a :: post).dropWhile (fun c => c != a) = a :: post
  | [], post, _ => by simp
  | p :: pre, post, h => by
    have hp : p ≠ a := fun hpa => (List.nodup_cons.mp h).1 (by simp [hpa])
    rw [List.cons_append, List.dropWhile_cons_of_pos (by simpa using hp)]
    exact dropWhile_bne_of_nodup (List.nodup_cons.mp h).2

variable {D : BlockDepthManager} {table : Hash → List Hash}

-- A manager that reads chain ancestry and the forward chain off a table of the selected
-- chains answers along the selected chains.
theorem BlockDepthManager.ChainReachabilityCorrect.of_table
    (hstore : ChainStore D.ghostdag_store D.genesis_hash)
    (hg : table D.genesis_hash = [D.genesis_hash])
    (hstep : ∀ X data, D.ghostdag_store.lookup X = some data → X ≠ D.genesis_hash →
      table X = table data.selected_parent ++ [X])
    (hanc : ∀ a b, D.is_chain_ancestor_of a b = decide (a ∈ table b))
    (hiter : ∀ a b, D.forward_chain_iterator a b true = (table b).dropWhile fun c => c != a) :
    D.ChainReachabilityCorrect where
  is_chain_ancestor_of_iff a b chain h := by
    rw [hanc, h.eq_table hstore hg hstep]
    exact decide_eq_true_iff
  forward_chain_iterator_eq a b pre post h := by
    rw [hiter, ← h.eq_table hstore hg hstep]
    exact dropWhile_bne_of_nodup (h.nodup hstore)

-- A depth store is the computed one when it is at genesis and at every other key of the
-- GHOSTDAG store, which a concrete manager decides.
theorem BlockDepthManager.DepthStoreComputed.of_keys
    (hg : D.depth_store.lookup D.genesis_hash = some (ORIGIN, ORIGIN))
    (hblock : ∀ X ∈ D.ghostdag_store.keys, ∀ data ∈ D.ghostdag_store.lookup X,
      X ≠ D.genesis_hash → (D.depth_store.lookup X).isSome ∧
        D.depth_store.lookup X = (D.calc_merge_depth_root data D.genesis_hash).bind fun m =>
          (D.calc_finality_point data D.genesis_hash).map fun f => (m, f)) :
    D.DepthStoreComputed where
  genesis := hg
  block X data hX hne := by
    obtain ⟨hsome, heq⟩ := AListFold.forall_lookup_of_forall_keys hblock X data hX hne
    obtain ⟨⟨m, f⟩, hmf⟩ := Option.isSome_iff_exists.mp hsome
    rw [hmf, eq_comm, Option.bind_eq_some_iff] at heq
    obtain ⟨m', hm, hf⟩ := heq
    obtain ⟨f', hf', hmf'⟩ := Option.map_eq_some_iff.mp hf
    cases hmf'
    exact ⟨_, _, hm, hf', hmf⟩

end Tables

section Fork

open HeaderProcessor BlockDepthManager

-- The selected chains of the forked DAG: [5] has [4] as its selected parent.
def fork_chain (b : Hash) : List Hash :=
  if b = [1] then [[1]] else if b = [5] then [[1], [4], [5]]
  else if b = [6] then [[1], [4], [5], [6]] else [[1], b]

theorem fork_chain_store : ChainStore fork_node_6.ghostdag_store [1] :=
  fork_node_6_genesis_hash ▸ fork_node_6_built.1.inv.chain_store

theorem fork_chain_step : ∀ X data, fork_node_6.ghostdag_store.lookup X = some data → X ≠ [1] →
    fork_chain X = fork_chain data.selected_parent ++ [X] :=
  AListFold.forall_lookup_of_forall_keys (by decide)

-- A depth manager over the fork at merge depth 2 and finality depth 3, with the depth store
-- the header processor writes: [6], at blue score 4, has [4] as its merge depth root.
def fork_depth_manager : BlockDepthManager where
  merge_depth := 2
  finality_depth := 3
  genesis_hash := [1]
  depth_store := (((((((∅ : AList fun _ : Hash => Hash × Hash).insert [1] (ORIGIN, ORIGIN)).insert
    [2] ([1], [1])).insert [3] ([1], [1])).insert [4] ([1], [1])).insert [5] ([1], [1])).insert [6]
    ([4], [1]))
  is_chain_ancestor_of a b := decide (a ∈ fork_chain b)
  forward_chain_iterator a b _ := (fork_chain b).dropWhile fun c => c != a
  ghostdag_store := fork_node_6.ghostdag_store

theorem fork_depth_manager_reachability : fork_depth_manager.ChainReachabilityCorrect :=
  .of_table fork_chain_store rfl fork_chain_step (fun _ _ => rfl) (fun _ _ => rfl)

theorem fork_depth_manager_depth_store : fork_depth_manager.DepthStoreComputed :=
  .of_keys rfl (by decide)

-- Over the fork at merge depth 2 and finality depth 3: the walk up the selected chain of [6]
-- passes genesis and stops at [4], below [5].
theorem calculate_block_at_depth_selected_chain_fork :
    ((fork_node_6.ghostdag_store.lookup [6]).bind fun data =>
      fork_depth_manager.calc_merge_depth_root data [1]) = some [4] ∧
    fork_depth_manager.ChainReachabilityCorrect ∧ fork_depth_manager.DepthStoreComputed ∧
    ∀ depth ∈ [fork_depth_manager.merge_depth, fork_depth_manager.finality_depth], ∀ B data,
      fork_depth_manager.ghostdag_store.lookup B = some data →
        (∃ chain, SelectedChain fork_depth_manager.ghostdag_store
          fork_depth_manager.genesis_hash B chain) ∧
        ∀ chain, SelectedChain fork_depth_manager.ghostdag_store
            fork_depth_manager.genesis_hash B chain →
          fork_depth_manager.calculate_block_at_depth data depth
              fork_depth_manager.genesis_hash =
            some (block_at_depth fork_depth_manager.ghostdag_store
              fork_depth_manager.genesis_hash chain.dropLast data.blue_score depth) ∧
          ∀ sp_data, fork_depth_manager.ghostdag_store.lookup data.selected_parent = some sp_data →
            B ≠ fork_depth_manager.genesis_hash →
            ∃ sp_at_depth l,
              fork_depth_manager.calculate_block_at_depth sp_data depth
                fork_depth_manager.genesis_hash = some sp_at_depth ∧
              SelectedChain fork_depth_manager.ghostdag_store fork_depth_manager.genesis_hash
                (block_at_depth fork_depth_manager.ghostdag_store fork_depth_manager.genesis_hash
                  chain.dropLast data.blue_score depth) l ∧
              sp_at_depth ∈ l :=
  ⟨by decide, fork_depth_manager_reachability, fork_depth_manager_depth_store,
    calculate_block_at_depth_selected_chain fork_node_6_built.1 fork_depth_manager rfl
      fork_node_6_genesis_hash.symm fork_depth_manager_reachability fork_depth_manager_depth_store
      (by decide) (by decide)⟩

end Fork

section ZeroDepth

open HeaderProcessor BlockDepthManager

-- A depth manager over the node that holds genesis `[1]` only, with merge depth 0.
def genesis_depth_manager : BlockDepthManager where
  merge_depth := 0
  finality_depth := 2
  genesis_hash := [1]
  depth_store := (∅ : AList fun _ : Hash => Hash × Hash).insert [1] (ORIGIN, ORIGIN)
  is_chain_ancestor_of a b := decide (b = [1] ∧ a = [1])
  forward_chain_iterator a b _ := if b = [1] ∧ a = [1] then [[1]] else []
  ghostdag_store := genesis_node.ghostdag_store

theorem selected_chain_genesis {b : Hash} {chain : List Hash}
    (h : SelectedChain genesis_node.ghostdag_store [1] b chain) : b = [1] ∧ chain = [[1]] := by
  cases h with
  | genesis => exact ⟨rfl, rfl⟩
  | step hne hX =>
    -- genesis is the only stored block
    have hkeys : b ∈ [[1]] := by
      rw [← show genesis_node.ghostdag_store.keys = [[1]] by decide]
      exact AList.mem_keys.mpr (AList.lookup_isSome.mp (by rw [hX]; rfl))
    exact absurd (List.mem_singleton.mp hkeys) hne

-- At depth 0 genesis is not less than the depth deep, and it is no chain ancestor of its
-- selected parent ORIGIN, so the calculation gives ORIGIN where the block at depth is genesis.
theorem calculate_block_at_depth_zero_depth_genesis :
    Built 10 genesis_node ∧ genesis_depth_manager.ChainReachabilityCorrect ∧
      genesis_depth_manager.DepthStoreComputed ∧
      genesis_node.ghostdag_store.lookup [1] = some genesis_ghostdag_data ∧
      SelectedChain genesis_node.ghostdag_store [1] [1] [[1]] ∧
      genesis_depth_manager.calculate_block_at_depth genesis_ghostdag_data
        genesis_depth_manager.merge_depth [1] = some ORIGIN ∧
      block_at_depth genesis_node.ghostdag_store [1] [] genesis_ghostdag_data.blue_score
        genesis_depth_manager.merge_depth = [1] := by
  refine ⟨Built.genesis genesis_reachability genesis_reachability (by decide)
    ⟨4295032833, by decide, by decide⟩, ⟨fun a b chain h => ?_, fun a b pre post h => ?_⟩,
    ⟨rfl, fun X data hX hne => ?_⟩, genesis_node_inv.genesis_data, .genesis, by decide, rfl⟩
  · obtain ⟨rfl, rfl⟩ := selected_chain_genesis h
    simp [genesis_depth_manager]
  · obtain ⟨rfl, hc⟩ := selected_chain_genesis h
    obtain ⟨rfl, rfl, rfl⟩ : pre = [] ∧ a = [1] ∧ post = [] := by
      rcases pre with _ | ⟨p, pre⟩
      · simpa using hc
      · simp at hc
    rfl
  · -- no other block is stored
    have hkeys : X ∈ [[1]] := by
      rw [← show genesis_node.ghostdag_store.keys = [[1]] by decide]
      exact AList.mem_keys.mpr (AList.lookup_isSome.mp (by
        rw [show genesis_node.ghostdag_store = genesis_depth_manager.ghostdag_store from rfl, hX]
        rfl))
    exact absurd (List.mem_singleton.mp hkeys) hne

end ZeroDepth

end Waglayla.Consensus
