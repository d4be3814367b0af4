import Waglayla.Consensus.Reachability.ReindexAtRoot

-- The memory reachability store with `add_tree_block` and the chain queries. The heights the
-- store keeps are left out, as nothing modelled reads them.

namespace Waglayla.Consensus.Reachability

open FiniteTree

-- The store: the tree with the interval of every block, the future covering sets and the
-- reindex root. Only the blocks below `ORIGIN` have children.
structure MemoryReachabilityStore where
  store : ReachabilityStore
  future_covering_set : Hash → List Hash
  reindex_root : Hash
  rooted : store.tree.Rooted ORIGIN

namespace MemoryReachabilityStore

variable (self : MemoryReachabilityStore)

def has (hash : Hash) : Bool := hash ∈ self.store.tree.nodes ORIGIN

def get_interval (hash : Hash) : Except ReachabilityError Interval :=
  if self.has hash then .ok (self.store.get_interval hash) else .error (.key_not_found hash)

def get_children (hash : Hash) : Except ReachabilityError (List Hash) :=
  if self.has hash then .ok (self.store.get_children hash) else .error (.key_not_found hash)

def get_future_covering_set (hash : Hash) : Except ReachabilityError (List Hash) :=
  if self.has hash then .ok (self.future_covering_set hash) else .error (.key_not_found hash)

-- The tree of `ORIGIN` alone: no block has children, and `ORIGIN` has the parent `NONE`.
def origin_tree : FiniteTree Hash where
  children _ := []
  parent _ := NONE
  height _ := 0
  parent_eq h := absurd h List.not_mem_nil
  height_lt h := absurd h List.not_mem_nil
  nodup _ := List.nodup_nil

-- `init_with_params` on an empty store, with `ORIGIN` as the origin: `ORIGIN` with the given
-- capacity, and as the reindex root.
def init_with_params (capacity : Interval) : MemoryReachabilityStore where
  store := ⟨origin_tree, Function.update (fun _ => Interval.empty) ORIGIN capacity⟩
  future_covering_set _ := []
  reindex_root := ORIGIN
  rooted := by
    intro _ _ h
    exact absurd h List.not_mem_nil

def init : MemoryReachabilityStore := init_with_params Interval.maximal

section AddTreeBlock

variable (round : Nat → List Nat → Nat → Nat) (reindex_slack : Nat)

-- `add_tree_block`; the reindex depth is left out, as the reindex it starts never reads it. The
-- reindex writes intervals only, which the store takes from its context.
def add_tree_block (new_block parent : Hash) :
    ExceptT ReachabilityError Option MemoryReachabilityStore :=
  if hp : parent ∈ self.store.tree.nodes ORIGIN then
    let remaining := self.store.interval_remaining_after parent
    if hn : new_block ∈ self.store.tree.nodes ORIGIN then throw (.hash_already_exists new_block)
    else
      let tree := self.store.tree.add_child parent new_block (fun h => hn (h ▸ hp))
        (self.rooted.children_eq_nil hn) (self.rooted.not_mem_children hn)
      let rooted : tree.Rooted ORIGIN :=
        self.rooted.add_child hp fun h => hn (h ▸ mem_nodes_self ORIGIN)
      if remaining.is_empty then do
        -- the empty interval at the end of the room, until the reindex gives it one
        let store : ReachabilityStore :=
          ⟨tree, Function.update self.store.interval new_block remaining⟩
        let ctx ← ReindexOperationContext.reindex_intervals round reindex_slack self.reindex_root
          ⟨store, fun _ => none⟩ new_block
        pure { self with store := ⟨tree, ctx.store.interval⟩, rooted }
      else
        let allocated := remaining.split_half.1
        pure { self with
          store := ⟨tree, Function.update self.store.interval new_block allocated⟩, rooted }
  else throw (.key_not_found parent)

end AddTreeBlock

def is_chain_ancestor_of (this queried : Hash) : Except ReachabilityError Bool := do
  let this_interval ← self.get_interval this
  let queried_interval ← self.get_interval queried
  pure (this_interval.contains queried_interval)

def is_strict_chain_ancestor_of (this queried : Hash) : Except ReachabilityError Bool := do
  let this_interval ← self.get_interval this
  let queried_interval ← self.get_interval queried
  pure (this_interval.strictly_contains queried_interval)

-- Runs with the reindex root at `ORIGIN`.

-- What every run from `init_with_params` keeps, with a capacity starting from one: the intervals
-- label the tree below `ORIGIN`, `NONE` is no block, and `ORIGIN` stays the reindex root.
structure Valid (s : MemoryReachabilityStore) : Prop where
  labelled : s.store.Labelled
  origin_start : 1 ≤ (s.store.interval ORIGIN).start
  none_not_mem : NONE ∉ s.store.tree.nodes ORIGIN
  reindex_root_eq : s.reindex_root = ORIGIN

theorem origin_tree_nodes : origin_tree.nodes ORIGIN = [ORIGIN] := rfl

theorem init_with_params_valid {capacity : Interval} (hstart : 1 ≤ capacity.start)
    (hcapacity : capacity.start ≤ capacity.end_) : (init_with_params capacity).Valid where
  labelled x hx := by
    rw [show (init_with_params capacity).store.tree = origin_tree from rfl, origin_tree_nodes,
      List.mem_singleton] at hx
    subst hx
    exact ⟨by simpa [init_with_params] using hcapacity, fun _ hc => absurd hc List.not_mem_nil,
      List.Pairwise.nil⟩
  origin_start := by simpa [init_with_params] using hstart
  none_not_mem := by
    rw [show (init_with_params capacity).store.tree = origin_tree from rfl, origin_tree_nodes,
      List.mem_singleton]
    decide
  reindex_root_eq := rfl

variable {self}

section AddTreeBlock

variable (round : Nat → List Nat → Nat → Nat) (reindex_slack : Nat)

-- `add_tree_block` on a labelled store, with the reindex it may start taken as given. The new
-- block goes under its parent with the first half of the room after its siblings; or, where no
-- room is left, with the empty interval at the end of that room, which keeps the labelling at
-- every block but the new one, and then the reindex labels the tree.
theorem add_tree_block_of_reindex (hlabelled : self.store.Labelled)
    (horigin : 1 ≤ (self.store.interval ORIGIN).start)
    (hnone_mem : NONE ∉ self.store.tree.nodes ORIGIN) {new_block parent : Hash}
    (hp : parent ∈ self.store.tree.nodes ORIGIN) (hn : new_block ∉ self.store.tree.nodes ORIGIN)
    (hnone : new_block ≠ NONE)
    (hreindex : ∀ hne hleaf horphan,
      LabelledBut (self.store.tree.add_child parent new_block hne hleaf horphan)
        (Function.update self.store.interval new_block (self.store.interval_remaining_after parent))
        new_block →
      ∃ ctx', (ReindexOperationContext.reindex_intervals round reindex_slack self.reindex_root
          ⟨⟨self.store.tree.add_child parent new_block hne hleaf horphan,
            Function.update self.store.interval new_block
              (self.store.interval_remaining_after parent)⟩, fun _ => none⟩ new_block).run =
          some (.ok ctx') ∧
        (self.store.tree.add_child parent new_block hne hleaf horphan).Labelled ORIGIN
          (fun x => (ctx'.store.interval x).start) (fun x => (ctx'.store.interval x).end_) ∧
        ctx'.store.interval ORIGIN = self.store.interval ORIGIN) :
    ∃ s', (self.add_tree_block round reindex_slack new_block parent).run = some (.ok s') ∧
      s'.store.Labelled ∧ 1 ≤ (s'.store.interval ORIGIN).start ∧
      NONE ∉ s'.store.tree.nodes ORIGIN ∧
      (∃ hne hleaf horphan,
        s'.store.tree = self.store.tree.add_child parent new_block hne hleaf horphan) ∧
      s'.store.interval ORIGIN = self.store.interval ORIGIN ∧
      s'.reindex_root = self.reindex_root ∧
      s'.future_covering_set = self.future_covering_set ∧
      (¬(self.store.interval_remaining_after parent).is_empty →
        s'.store.interval = Function.update self.store.interval new_block
          (self.store.interval_remaining_after parent).split_half.1) := by
  have hne : parent ≠ new_block := fun h => hn (h ▸ hp)
  have hleaf := self.rooted.children_eq_nil hn
  have horphan := self.rooted.not_mem_children hn
  have hroot : ORIGIN ≠ new_block := fun h => hn (h ▸ mem_nodes_self ORIGIN)
  -- the room after the children of `parent`
  have hstart_p : 1 ≤ (self.store.interval parent).start :=
    horigin.trans (hlabelled.le_of_mem_nodes (mem_nodes_self ORIGIN) hp).1
  obtain ⟨hrem_start, hrem_end, hrem_after⟩ :=
    ReachabilityStore.interval_remaining_after_spec hlabelled hp hstart_p
  set rem := self.store.interval_remaining_after parent with hrem
  set t' := self.store.tree.add_child parent new_block hne hleaf horphan
  have hnone' : NONE ∉ t'.nodes ORIGIN := fun h => by
    rcases (mem_nodes_add_child hroot).mp h with h | ⟨h, -⟩
    · exact hnone_mem h
    · exact hnone h.symm
  -- the interval given to the new block keeps every other one
  have hsame : ∀ J : Interval, ∀ z, z ≠ new_block →
      ((Function.update self.store.interval new_block J) z).start = (self.store.interval z).start ∧
      ((Function.update self.store.interval new_block J) z).end_ = (self.store.interval z).end_ :=
    fun J z hz => by rw [Function.update_of_ne hz]; exact ⟨rfl, rfl⟩
  unfold add_tree_block
  rw [dif_pos hp, dif_neg hn]
  dsimp only
  by_cases hempty : rem.size = 0
  · -- no room left: the empty interval, then a reindex from the new block
    rw [if_pos (by simpa [Interval.is_empty] using hempty)]
    obtain ⟨ctx', hloop, hlab', horigin'⟩ := hreindex hne hleaf horphan
      (hlabelled.add_child_of_ne hroot (hsame rem)
        (by simp only [Function.update_self]; omega)
        (fun c hc => by simp only [Function.update_self]; exact hrem_after c hc))
    rw [run_bind_of_ok hloop]
    refine ⟨_, rfl, hlab', ?_, hnone', ⟨hne, hleaf, horphan, rfl⟩, horigin', rfl, rfl,
      fun hroom => absurd (by simpa [Interval.is_empty] using hempty) hroom⟩
    rw [horigin']
    exact horigin
  · -- the first half of the room
    rw [if_neg (by simpa [Interval.is_empty] using hempty)]
    obtain ⟨hleft_pos, hleft_le⟩ := Interval.split_half_size_bounds (Nat.pos_of_ne_zero hempty)
    have hsize : rem.size = rem.end_ + 1 - rem.start := rfl
    have hhalf : rem.split_half.1 =
        Interval.new rem.start (rem.start + (Interval.to_f32 rem.size + 1) / 2 - 1) := rfl
    set I := Function.update self.store.interval new_block rem.split_half.1
    have hnew : I new_block = Interval.new rem.start
        (rem.start + (Interval.to_f32 rem.size + 1) / 2 - 1) :=
      (Function.update_self _ _ _).trans hhalf
    have hlab : t'.Labelled ORIGIN (fun x => (I x).start) (fun x => (I x).end_) :=
      hlabelled.add_child hroot (hsame _)
        (by simp only [hnew, Interval.new]; omega) (by simp only [hnew, Interval.new]; omega)
        (fun c hc => by simp only [hnew, Interval.new]; exact hrem_after c hc)
    have hI : I ORIGIN = self.store.interval ORIGIN := Function.update_of_ne hroot _ _
    refine ⟨_, rfl, hlab, ?_, hnone', ⟨hne, hleaf, horphan, rfl⟩, hI, rfl, rfl, fun _ => rfl⟩
    dsimp only
    rw [hI]
    exact horigin

-- On a valid store with room in the interval of `ORIGIN`, the reindex an addition starts
-- succeeds from `ORIGIN`, the reindex root, and labels the tree with the new leaf.
theorem reindex_of_valid (hvalid : self.Valid) {new_block parent : Hash}
    (hp : parent ∈ self.store.tree.nodes ORIGIN) (hn : new_block ∉ self.store.tree.nodes ORIGIN)
    (hnone : new_block ≠ NONE)
    (hroom : self.store.tree.size ORIGIN + 1 ≤ (self.store.interval ORIGIN).size) :
    ∀ hne hleaf horphan,
      LabelledBut (self.store.tree.add_child parent new_block hne hleaf horphan)
        (Function.update self.store.interval new_block (self.store.interval_remaining_after parent))
        new_block →
      ∃ ctx', (ReindexOperationContext.reindex_intervals round reindex_slack self.reindex_root
          ⟨⟨self.store.tree.add_child parent new_block hne hleaf horphan,
            Function.update self.store.interval new_block
              (self.store.interval_remaining_after parent)⟩, fun _ => none⟩ new_block).run =
          some (.ok ctx') ∧
        (self.store.tree.add_child parent new_block hne hleaf horphan).Labelled ORIGIN
          (fun x => (ctx'.store.interval x).start) (fun x => (ctx'.store.interval x).end_) ∧
        ctx'.store.interval ORIGIN = self.store.interval ORIGIN := by
  intro hne hleaf horphan hlab
  have hroot : ORIGIN ≠ new_block := fun h => hn (h ▸ mem_nodes_self ORIGIN)
  set t' := self.store.tree.add_child parent new_block hne hleaf horphan
  have hleaf' : t'.children new_block = [] := by
    rw [children_add_child_of_ne hne.symm, hleaf]
  have horigin : t'.size ORIGIN ≤ (Function.update self.store.interval new_block
      (self.store.interval_remaining_after parent) ORIGIN).size := by
    rw [size_add_child hp hroot, Function.update_of_ne hroot]
    exact hroom
  have hnone' : NONE ∉ t'.nodes ORIGIN := fun h => by
    rcases (mem_nodes_add_child hroot).mp h with h | ⟨h, -⟩
    · exact hvalid.none_not_mem h
    · exact hnone h.symm
  obtain ⟨ctx', hloop, -, hlab', horigin'⟩ :=
    ReindexOperationContext.reindex_loop_spec round reindex_slack hlab hleaf' horigin hnone'
      (t'.height ORIGIN + 1) new_block ⟨⟨t', _⟩, fun _ => none⟩ rfl
      (fun _ _ h => nomatch h) (fun _ h => absurd rfl h)
      ((mem_nodes_add_child hroot).mpr (.inr ⟨rfl, hp⟩))
      (mem_nodes_self new_block) (Nat.lt_succ_of_le (Nat.sub_le _ _))
  refine ⟨ctx', ?_, hlab', horigin'.trans (Function.update_of_ne hroot _ _)⟩
  rw [ReindexOperationContext.reindex_intervals, hvalid.reindex_root_eq]
  exact hloop

-- A valid store with room left in the interval of `ORIGIN` adds a new block under a block it
-- has: the tree grows by that leaf, `ORIGIN` keeps its interval, and the store stays valid.
theorem add_tree_block_valid (hvalid : self.Valid) {new_block parent : Hash}
    (hp : parent ∈ self.store.tree.nodes ORIGIN) (hn : new_block ∉ self.store.tree.nodes ORIGIN)
    (hnone : new_block ≠ NONE)
    (hroom : self.store.tree.size ORIGIN + 1 ≤ (self.store.interval ORIGIN).size) :
    ∃ s', (self.add_tree_block round reindex_slack new_block parent).run = some (.ok s') ∧
      s'.Valid ∧
      (∃ hne hleaf horphan,
        s'.store.tree = self.store.tree.add_child parent new_block hne hleaf horphan) ∧
      s'.store.interval ORIGIN = self.store.interval ORIGIN ∧
      s'.future_covering_set = self.future_covering_set := by
  obtain ⟨s', hrun, hlab', hstart', hnone', htree', horigin', hR', hfcs', -⟩ :=
    add_tree_block_of_reindex round reindex_slack hvalid.labelled hvalid.origin_start
      hvalid.none_not_mem hp hn hnone (reindex_of_valid round reindex_slack hvalid hp hn hnone hroom)
  exact ⟨s', hrun, ⟨hlab', hstart', hnone', hR'.trans hvalid.reindex_root_eq⟩, htree', horigin',
    hfcs'⟩

-- The store after adding a block under a parent, or as before where the addition fails; and
-- a run of such additions, with what `add_tree_block_valid` asks of each one along the run.
def add_tree_block_or_keep (s : MemoryReachabilityStore) (new_block parent : Hash) :
    MemoryReachabilityStore :=
  match (s.add_tree_block (fun _ _ n => n) 0 new_block parent).run with
  | some (.ok s') => s'
  | _ => s

def add_tree_blocks (s : MemoryReachabilityStore) : List (Hash × Hash) → MemoryReachabilityStore
  | [] => s
  | (new_block, parent) :: rest => (add_tree_block_or_keep s new_block parent).add_tree_blocks rest

def additions_fit (s : MemoryReachabilityStore) : List (Hash × Hash) → Bool
  | [] => true
  | (new_block, parent) :: rest =>
    decide (parent ∈ s.store.tree.nodes ORIGIN) && decide (new_block ∉ s.store.tree.nodes ORIGIN) &&
      decide (new_block ≠ NONE) &&
      decide (s.store.tree.size ORIGIN + 1 ≤ (s.store.interval ORIGIN).size) &&
      (add_tree_block_or_keep s new_block parent).additions_fit rest

-- Every addition of a run that fits keeps the store valid; the induction is on the run.
theorem add_tree_blocks_valid :
    ∀ {s : MemoryReachabilityStore} (blocks : List (Hash × Hash)), s.Valid →
      s.additions_fit blocks = true → (s.add_tree_blocks blocks).Valid
  | _, [], hvalid, _ => hvalid
  | s, (new_block, parent) :: rest, hvalid, hfit => by
    simp only [additions_fit, Bool.and_eq_true, decide_eq_true_eq] at hfit
    obtain ⟨⟨⟨⟨hp, hn⟩, hnone⟩, hroom⟩, hrest⟩ := hfit
    obtain ⟨s', hrun, hvalid', -⟩ := add_tree_block_valid (fun _ _ n => n) 0 hvalid hp hn hnone hroom
    have hkeep : add_tree_block_or_keep s new_block parent = s' := by
      unfold add_tree_block_or_keep
      rw [hrun]
    rw [add_tree_blocks, hkeep]
    rw [hkeep] at hrest
    exact add_tree_blocks_valid rest hvalid' hrest

-- A store with room for three blocks: [1] under `ORIGIN` takes the first half of the room
-- left, after which a child of [1] finds none and is placed by a reindex.
def small_store : MemoryReachabilityStore := init_with_params ⟨1, 3⟩

def small_store_one : MemoryReachabilityStore := small_store.add_tree_blocks [([1], ORIGIN)]

theorem small_store_valid : small_store.Valid :=
  init_with_params_valid (by decide) (by decide)

theorem small_store_one_valid : small_store_one.Valid :=
  add_tree_blocks_valid _ small_store_valid (by decide)

-- A tree of five blocks under the maximal interval: [2] and [3] under [1], and [4] and [5]
-- under [2].
def fork_tree_store : MemoryReachabilityStore :=
  init.add_tree_blocks [([1], ORIGIN), ([2], [1]), ([3], [1]), ([4], [2]), ([5], [2])]

theorem fork_tree_store_valid : fork_tree_store.Valid :=
  add_tree_blocks_valid _ (init_with_params_valid (by decide) (by decide)) (by decide)

-- As above, and where room is left after the children of the parent, the new block takes the
-- first half of it and every other block keeps its interval.
theorem add_tree_block_spec (hvalid : self.Valid) {new_block parent : Hash}
    (hp : parent ∈ self.store.tree.nodes ORIGIN) (hn : new_block ∉ self.store.tree.nodes ORIGIN)
    (hnone : new_block ≠ NONE)
    (hroom : self.store.tree.size ORIGIN + 1 ≤ (self.store.interval ORIGIN).size) :
    ∃ s', (self.add_tree_block round reindex_slack new_block parent).run = some (.ok s') ∧
      s'.Valid ∧
      (∃ hne hleaf horphan,
        s'.store.tree = self.store.tree.add_child parent new_block hne hleaf horphan) ∧
      s'.store.interval ORIGIN = self.store.interval ORIGIN ∧
      s'.future_covering_set = self.future_covering_set ∧
      (¬(self.store.interval_remaining_after parent).is_empty →
        s'.store.interval = Function.update self.store.interval new_block
          (self.store.interval_remaining_after parent).split_half.1) := by
  obtain ⟨s', hrun, hlab', hstart', hnone', htree', horigin', hR', hfcs', halloc⟩ :=
    add_tree_block_of_reindex round reindex_slack hvalid.labelled hvalid.origin_start
      hvalid.none_not_mem hp hn hnone (reindex_of_valid round reindex_slack hvalid hp hn hnone hroom)
  exact ⟨s', hrun, ⟨hlab', hstart', hnone', hR'.trans hvalid.reindex_root_eq⟩, htree', horigin',
    hfcs', halloc⟩

theorem add_tree_block_spec_reindex :
    (small_store.store.interval_remaining_after ORIGIN).split_half.1 = ⟨1, 1⟩ ∧
    (small_store_one.store.interval_remaining_after [1]).is_empty = true ∧
    (∃ s', (small_store.add_tree_block (fun _ _ n => n) 0 [1] ORIGIN).run = some (.ok s') ∧
      s'.Valid ∧
      (∃ hne hleaf horphan,
        s'.store.tree = small_store.store.tree.add_child ORIGIN [1] hne hleaf horphan) ∧
      s'.store.interval ORIGIN = small_store.store.interval ORIGIN ∧
      s'.future_covering_set = small_store.future_covering_set ∧
      (¬(small_store.store.interval_remaining_after ORIGIN).is_empty →
        s'.store.interval = Function.update small_store.store.interval [1]
          (small_store.store.interval_remaining_after ORIGIN).split_half.1)) ∧
    ∃ s', (small_store_one.add_tree_block (fun _ _ n => n) 0 [2] [1]).run = some (.ok s') ∧
      s'.Valid ∧
      (∃ hne hleaf horphan,
        s'.store.tree = small_store_one.store.tree.add_child [1] [2] hne hleaf horphan) ∧
      s'.store.interval ORIGIN = small_store_one.store.interval ORIGIN ∧
      s'.future_covering_set = small_store_one.future_covering_set ∧
      (¬(small_store_one.store.interval_remaining_after [1]).is_empty →
        s'.store.interval = Function.update small_store_one.store.interval [2]
          (small_store_one.store.interval_remaining_after [1]).split_half.1) :=
  ⟨by decide, by decide,
    add_tree_block_spec _ _ small_store_valid (mem_nodes_self ORIGIN) (by decide) (by decide)
      (by decide),
    add_tree_block_spec _ _ small_store_one_valid (by decide) (by decide) (by decide)
      (by decide)⟩

-- Runs with the reindex root anywhere in the tree.

-- What every run keeps with the reindex root anywhere: as `Valid`, with the reindex root a block
-- of the tree.
structure Sound (s : MemoryReachabilityStore) : Prop where
  labelled : s.store.Labelled
  origin_start : 1 ≤ (s.store.interval ORIGIN).start
  none_not_mem : NONE ∉ s.store.tree.nodes ORIGIN
  reindex_root_mem : s.reindex_root ∈ s.store.tree.nodes ORIGIN

theorem Valid.sound (hvalid : self.Valid) : self.Sound :=
  ⟨hvalid.labelled, hvalid.origin_start, hvalid.none_not_mem,
    by rw [hvalid.reindex_root_eq]; exact mem_nodes_self ORIGIN⟩

-- A sound store adds a new block under a block it has, as long as the reindex root has room for
-- the tree with the new block and a slack for each block of it: the tree grows by that leaf, the
-- reindex root and the interval of `ORIGIN` stay, and the store stays sound.
theorem add_tree_block_sound (hsound : self.Sound) {new_block parent : Hash}
    (hp : parent ∈ self.store.tree.nodes ORIGIN) (hn : new_block ∉ self.store.tree.nodes ORIGIN)
    (hnone : new_block ≠ NONE)
    (hroom : (reindex_slack + 1) * (self.store.tree.size ORIGIN + 1) ≤
      (self.store.interval self.reindex_root).size) :
    ∃ s', (self.add_tree_block round reindex_slack new_block parent).run = some (.ok s') ∧
      s'.Sound ∧
      (∃ hne hleaf horphan,
        s'.store.tree = self.store.tree.add_child parent new_block hne hleaf horphan) ∧
      s'.store.interval ORIGIN = self.store.interval ORIGIN ∧ s'.reindex_root = self.reindex_root ∧
      s'.future_covering_set = self.future_covering_set := by
  have hroot : ORIGIN ≠ new_block := fun h => hn (h ▸ mem_nodes_self ORIGIN)
  have hRn : self.reindex_root ≠ new_block := fun h => hn (h ▸ hsound.reindex_root_mem)
  obtain ⟨s', hrun, hlab', hstart', hnone', htree', horigin', hR', hfcs', -⟩ :=
    add_tree_block_of_reindex round reindex_slack hsound.labelled hsound.origin_start
      hsound.none_not_mem hp hn hnone fun hne hleaf horphan hlab => by
        set t' := self.store.tree.add_child parent new_block hne hleaf horphan
        set I := Function.update self.store.interval new_block
          (self.store.interval_remaining_after parent)
        have hleaf' : t'.children new_block = [] := by
          rw [children_add_child_of_ne hne.symm, hleaf]
        -- the new leaf is the last child of `parent`
        have hlast : ∃ pre, t'.children (t'.parent new_block) = pre ++ [new_block] :=
          ⟨_, by rw [show t'.parent new_block = parent from Function.update_self _ _ _,
            children_add_child_self]⟩
        -- its interval is empty by one number at most
        have hnew_size : (I new_block).start ≤ (I new_block).end_ + 1 := by
          have := ReachabilityStore.interval_remaining_after_start_le hsound.labelled hp
          have hend := (ReachabilityStore.interval_remaining_after_spec hsound.labelled hp
            (hsound.origin_start.trans
              (hsound.labelled.le_of_mem_nodes (mem_nodes_self ORIGIN) hp).1)).2.1
          simp only [I, Function.update_self]
          omega
        have hnone' : NONE ∉ t'.nodes ORIGIN := fun h => by
          rcases (mem_nodes_add_child hroot).mp h with h | ⟨h, -⟩
          · exact hsound.none_not_mem h
          · exact hnone h.symm
        have hR : self.reindex_root ∈ t'.nodes ORIGIN :=
          (mem_nodes_add_child hroot).mpr (.inl hsound.reindex_root_mem)
        have hroot' : (reindex_slack + 1) * t'.size ORIGIN ≤ (I self.reindex_root).size := by
          rw [size_add_child hp hroot]
          simp only [I, Function.update_of_ne hRn]
          exact hroom
        have hstart : 1 ≤ (I ORIGIN).start := by
          simp only [I, Function.update_of_ne hroot]
          exact hsound.origin_start
        -- the reindex root is a block of the tree before, so not below the new leaf
        have hRnew : self.reindex_root ∈ t'.nodes new_block → self.reindex_root = new_block :=
          fun h => by
            rw [nodes_add_child_new] at h
            exact List.mem_singleton.mp h
        obtain ⟨ctx', hloop, -, hlab', horigin'⟩ :=
          ReindexOperationContext.reindex_loop_labels round reindex_slack hlab hleaf' hlast
            hnew_size hstart hR hRn hroot' hnone' (t'.height ORIGIN + 1) new_block
            ⟨⟨t', I⟩, fun _ => none⟩ rfl (fun _ _ h => nomatch h) (fun _ h => absurd rfl h)
            ((mem_nodes_add_child hroot).mpr (.inr ⟨rfl, hp⟩)) (mem_nodes_self new_block) hRnew
            (Nat.lt_succ_of_le (Nat.sub_le _ _))
        exact ⟨ctx', hloop, hlab', horigin'.trans (Function.update_of_ne hroot _ _)⟩
  refine ⟨s', hrun, ⟨hlab', hstart', hnone', ?_⟩, htree', horigin', hR', hfcs'⟩
  obtain ⟨_, _, _, ht⟩ := htree'
  rw [hR', ht]
  exact (mem_nodes_add_child hroot).mpr (.inl hsound.reindex_root_mem)

theorem add_tree_block_sound_reindex :
    (small_store_one.store.interval_remaining_after [1]).is_empty = true ∧
    ∃ s', (small_store_one.add_tree_block (fun _ _ n => n) 0 [2] [1]).run = some (.ok s') ∧
      s'.Sound ∧
      (∃ hne hleaf horphan,
        s'.store.tree = small_store_one.store.tree.add_child [1] [2] hne hleaf horphan) ∧
      s'.store.interval ORIGIN = small_store_one.store.interval ORIGIN ∧
      s'.reindex_root = small_store_one.reindex_root ∧
      s'.future_covering_set = small_store_one.future_covering_set :=
  ⟨by decide, add_tree_block_sound _ _ small_store_one_valid.sound (by decide)
    (by decide) (by decide) (by decide)⟩

end AddTreeBlock

section Queries

variable {hash : Hash}

theorem get_interval_of_mem (h : hash ∈ self.store.tree.nodes ORIGIN) :
    self.get_interval hash = .ok (self.store.get_interval hash) := by
  simp [get_interval, has, h]

theorem get_interval_of_not_mem (h : hash ∉ self.store.tree.nodes ORIGIN) :
    self.get_interval hash = .error (.key_not_found hash) := by
  simp [get_interval, has, h]

theorem get_children_of_mem (h : hash ∈ self.store.tree.nodes ORIGIN) :
    self.get_children hash = .ok (self.store.get_children hash) := by
  simp [get_children, has, h]

theorem get_future_covering_set_of_mem (h : hash ∈ self.store.tree.nodes ORIGIN) :
    self.get_future_covering_set hash = .ok (self.future_covering_set hash) := by
  simp [get_future_covering_set, has, h]

-- On a valid store the chain queries name the first block missing, and otherwise answer whether
-- the queried block is in the subtree of the other.
theorem is_chain_ancestor_of_eq (hvalid : self.Valid) (this queried : Hash) :
    self.is_chain_ancestor_of this queried =
      if this ∉ self.store.tree.nodes ORIGIN then .error (.key_not_found this)
      else if queried ∉ self.store.tree.nodes ORIGIN then .error (.key_not_found queried)
      else .ok (decide (queried ∈ self.store.tree.nodes this)) := by
  unfold is_chain_ancestor_of
  by_cases hthis : this ∈ self.store.tree.nodes ORIGIN
  · rw [get_interval_of_mem hthis, if_neg (not_not_intro hthis)]
    by_cases hq : queried ∈ self.store.tree.nodes ORIGIN
    · rw [get_interval_of_mem hq, if_neg (not_not_intro hq)]
      show Except.ok (self.store.is_chain_ancestor_of this queried) = _
      rw [Bool.eq_iff_iff.mpr ((ReachabilityStore.is_chain_ancestor_of_iff hvalid.labelled hthis
        hq).trans decide_eq_true_iff.symm)]
    · rw [get_interval_of_not_mem hq, if_pos hq]
      rfl
  · rw [get_interval_of_not_mem hthis, if_pos hthis]
    rfl

-- Over the five-block tree: [1] is a chain ancestor of [5], its sibling [3] is not, and a
-- block the store lacks is named.
theorem is_chain_ancestor_of_eq_fork :
    fork_tree_store.is_chain_ancestor_of [1] [5] = .ok true ∧
    fork_tree_store.is_chain_ancestor_of [3] [5] = .ok false ∧
    fork_tree_store.is_chain_ancestor_of [3] [6] = .error (.key_not_found [6]) ∧
    fork_tree_store.is_chain_ancestor_of [3] [5] =
      if [3] ∉ fork_tree_store.store.tree.nodes ORIGIN then .error (.key_not_found [3])
      else if [5] ∉ fork_tree_store.store.tree.nodes ORIGIN then .error (.key_not_found [5])
      else .ok (decide ([5] ∈ fork_tree_store.store.tree.nodes [3])) :=
  ⟨by decide, by decide, by decide,
    is_chain_ancestor_of_eq fork_tree_store_valid [3] [5]⟩

theorem is_strict_chain_ancestor_of_eq (hvalid : self.Valid) (this queried : Hash) :
    self.is_strict_chain_ancestor_of this queried =
      if this ∉ self.store.tree.nodes ORIGIN then .error (.key_not_found this)
      else if queried ∉ self.store.tree.nodes ORIGIN then .error (.key_not_found queried)
      else .ok (decide (queried ∈ self.store.tree.nodes this ∧ queried ≠ this)) := by
  unfold is_strict_chain_ancestor_of
  by_cases hthis : this ∈ self.store.tree.nodes ORIGIN
  · rw [get_interval_of_mem hthis, if_neg (not_not_intro hthis)]
    by_cases hq : queried ∈ self.store.tree.nodes ORIGIN
    · rw [get_interval_of_mem hq, if_neg (not_not_intro hq)]
      show Except.ok (self.store.is_strict_chain_ancestor_of this queried) = _
      rw [Bool.eq_iff_iff.mpr ((ReachabilityStore.is_strict_chain_ancestor_of_iff hvalid.labelled
        hthis hq).trans decide_eq_true_iff.symm)]
    · rw [get_interval_of_not_mem hq, if_pos hq]
      rfl
  · rw [get_interval_of_not_mem hthis, if_pos hthis]
    rfl

end Queries

end MemoryReachabilityStore

end Waglayla.Consensus.Reachability
