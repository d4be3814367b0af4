import Waglayla.Consensus.Reachability.Tree
import Waglayla.Consensus.Ghostdag.Blues

-- The DAG side of the reachability store: `add_block`, the future covering sets and
-- `is_dag_ancestor_of`, which over every run the pipeline makes answers the past exactly.

namespace Waglayla.Consensus.Reachability

open FiniteTree DagPast

-- A block the header pipeline hands to `add_block`, with its selected parent and mergeset.
structure BlockRequest where
  new_block : Hash
  selected_parent : Hash
  mergeset : List Hash

namespace MemoryReachabilityStore

variable (self : MemoryReachabilityStore)

-- `binary_search_descendant` over the store, which reads the interval of `descendant` first.
def binary_search_descendant (ordered_hashes : List Hash) (descendant : Hash) :
    ExceptT ReachabilityError Option SearchOutput := do
  let _ ← ExceptT.mk (some (self.get_interval descendant))
  ExceptT.lift (self.store.binary_search_descendant ordered_hashes descendant)

-- `insert_future_covering_item` of the memory store: `Vec::insert`, which panics past the end.
def insert_future_covering_item (hash fci : Hash) (insertion_index : Nat) :
    ExceptT ReachabilityError Option MemoryReachabilityStore := do
  let future_covering_set ← ExceptT.mk (some (self.get_future_covering_set hash))
  if insertion_index ≤ future_covering_set.length then
    pure { self with
      future_covering_set := Function.update self.future_covering_set hash
        (future_covering_set.insertIdx insertion_index fci) }
  else ExceptT.lift none

def insert_to_future_covering_set (merged_block new_block : Hash) :
    ExceptT ReachabilityError Option MemoryReachabilityStore := do
  let future_covering_set ← ExceptT.mk (some (self.get_future_covering_set merged_block))
  match ← self.binary_search_descendant future_covering_set new_block with
  -- an item above `new_block` contradicts `merged_block` being in its mergeset
  | .found _ _ => throw .data_inconsistency
  | .not_found i => self.insert_future_covering_item merged_block new_block i

def add_dag_block (self : MemoryReachabilityStore) (new_block : Hash) :
    List Hash → ExceptT ReachabilityError Option MemoryReachabilityStore
  | [] => pure self
  | merged_block :: mergeset => do
    let self ← self.insert_to_future_covering_set merged_block new_block
    self.add_dag_block new_block mergeset

section AddBlock

variable (round : Nat → List Nat → Nat → Nat) (reindex_slack : Nat)

-- `add_block_with_params`; the mergeset iterator runs over a set, a list without repeats here.
def add_block (new_block selected_parent : Hash) (mergeset : List Hash) :
    ExceptT ReachabilityError Option MemoryReachabilityStore := do
  let self ← self.add_tree_block round reindex_slack new_block selected_parent
  self.add_dag_block new_block mergeset

-- The blocks of the requests added one after another, as the header pipeline does.
def add_blocks (self : MemoryReachabilityStore) :
    List BlockRequest → ExceptT ReachabilityError Option MemoryReachabilityStore
  | [] => pure self
  | r :: requests => do
    let self ← self.add_block round reindex_slack r.new_block r.selected_parent r.mergeset
    self.add_blocks requests

end AddBlock

def is_dag_ancestor_of (this queried : Hash) : ExceptT ReachabilityError Option Bool := do
  if ← ExceptT.mk (some (self.is_chain_ancestor_of this queried)) then pure true
  else
    let future_covering_set ← ExceptT.mk (some (self.get_future_covering_set this))
    match ← self.binary_search_descendant future_covering_set queried with
    | .found _ _ => pure true
    | .not_found _ => pure false

def get_next_chain_ancestor_unchecked (descendant ancestor : Hash) :
    ExceptT ReachabilityError Option Hash := do
  let children ← ExceptT.mk (some (self.get_children ancestor))
  match ← self.binary_search_descendant children descendant with
  | .found hash _ => pure hash
  | .not_found _ => throw .bad_query

def get_next_chain_ancestor (descendant ancestor : Hash) : ExceptT ReachabilityError Option Hash :=
  -- the next ancestor does not exist
  if descendant = ancestor then throw .bad_query
  else do
    if !(← ExceptT.mk (some (self.is_strict_chain_ancestor_of ancestor descendant))) then
      throw .bad_query
    else self.get_next_chain_ancestor_unchecked descendant ancestor

-- `d` is in the future of `b` as the store records it: in the subtree of `b` or of an item of
-- its future covering set.
def Covers (b d : Hash) : Prop :=
  d ∈ self.store.tree.nodes b ∨ ∃ f ∈ self.future_covering_set b, d ∈ self.store.tree.nodes f

instance (b d : Hash) : Decidable (self.Covers b d) :=
  inferInstanceAs (Decidable (d ∈ self.store.tree.nodes b ∨
    ∃ f ∈ self.future_covering_set b, d ∈ self.store.tree.nodes f))

-- The future covering sets as the queries read them: blocks of the store, in the order of their
-- intervals.
structure FcsOrdered (s : MemoryReachabilityStore) : Prop where
  mem : ∀ b, ∀ f ∈ s.future_covering_set b, f ∈ s.store.tree.nodes ORIGIN
  sorted : ∀ b, (s.future_covering_set b).Pairwise fun c d =>
    (s.store.interval c).end_ < (s.store.interval d).start

variable {self}

theorem Valid.with_future_covering_set (h : self.Valid) (F : Hash → List Hash) :
    Valid { self with future_covering_set := F } :=
  ⟨h.labelled, h.origin_start, h.none_not_mem, h.reindex_root_eq⟩

-- Future covering sets that are empty but at one block, where they list blocks of the store
-- in the order of their intervals.
theorem fcs_ordered_single {m : Hash} {l : List Hash}
    (hmem : ∀ f ∈ l, f ∈ self.store.tree.nodes ORIGIN)
    (hsorted : l.Pairwise fun c d => (self.store.interval c).end_ < (self.store.interval d).start) :
    FcsOrdered { self with future_covering_set := fun b => if b = m then l else [] } := by
  refine ⟨fun b f hf => ?_, fun b => ?_⟩ <;> dsimp only at *
  · split_ifs at hf
    · exact hmem f hf
    · exact absurd hf List.not_mem_nil
  · split_ifs
    · exact hsorted
    · exact List.Pairwise.nil

-- The five-block tree with the future covering set of [3] as the DAG of the diamond gives it
-- when [4] and [5] have [3] in their mergesets: [4] alone before [5] is added, then both.
def fork_dag_store (l : List Hash) : MemoryReachabilityStore :=
  { fork_tree_store with future_covering_set := fun b => if b = [3] then l else [] }

theorem fork_dag_store_valid (l : List Hash) : (fork_dag_store l).Valid :=
  fork_tree_store_valid.with_future_covering_set _

theorem binary_search_descendant_of_mem {ordered : List Hash} {d : Hash}
    (hd : d ∈ self.store.tree.nodes ORIGIN) :
    (self.binary_search_descendant ordered d).run =
      (self.store.binary_search_descendant ordered d).map .ok := by
  rw [binary_search_descendant, get_interval_of_mem hd]
  rfl

theorem get_next_chain_ancestor_unchecked_of_mem {d a : Hash}
    (ha : a ∈ self.store.tree.nodes ORIGIN) (hd : d ∈ self.store.tree.nodes ORIGIN) :
    (self.get_next_chain_ancestor_unchecked d a).run =
      (self.store.get_next_chain_ancestor_unchecked d a).run := by
  unfold get_next_chain_ancestor_unchecked ReachabilityStore.get_next_chain_ancestor_unchecked
  rw [get_children_of_mem ha, run_mk_ok_bind, ExceptT.run_bind, binary_search_descendant_of_mem hd]
  cases self.store.binary_search_descendant (self.store.get_children a) d with
  | none => rfl
  | some output => cases output <;> rfl

-- On blocks it has, the next chain ancestor of `d` above `a` is the child of `a` above `d` when
-- `a` is strictly above `d`, and a bad query otherwise.
theorem get_next_chain_ancestor_spec (hvalid : self.Valid) {d a : Hash}
    (ha : a ∈ self.store.tree.nodes ORIGIN) (hd : d ∈ self.store.tree.nodes ORIGIN) :
    (d ∈ self.store.tree.nodes a ∧ d ≠ a →
      ∃ c ∈ self.store.tree.children a, d ∈ self.store.tree.nodes c ∧
        (self.get_next_chain_ancestor d a).run = some (.ok c)) ∧
    (¬(d ∈ self.store.tree.nodes a ∧ d ≠ a) →
      (self.get_next_chain_ancestor d a).run = some (.error .bad_query)) := by
  by_cases hda : d = a
  · refine ⟨fun h => absurd hda h.2, fun _ => ?_⟩
    rw [get_next_chain_ancestor, if_pos hda]
    rfl
  unfold get_next_chain_ancestor
  rw [if_neg hda, is_strict_chain_ancestor_of_eq hvalid, if_neg (not_not_intro ha),
    if_neg (not_not_intro hd), run_mk_ok_bind]
  refine ⟨fun h => ?_, fun h => ?_⟩
  · obtain ⟨c, hc, hdc, hrun⟩ :=
      ReachabilityStore.get_next_chain_ancestor_unchecked_spec hvalid.labelled ha h.1 h.2
    refine ⟨c, hc, hdc, ?_⟩
    rw [decide_eq_true h, Bool.not_true, if_neg Bool.false_ne_true,
      get_next_chain_ancestor_unchecked_of_mem ha hd, hrun]
  · rw [decide_eq_false h, Bool.not_false, if_pos rfl]
    rfl

-- Over the five-block tree: the next chain ancestor of [5] above [1] is [2], and [3], off
-- its chain, is a bad query.
theorem get_next_chain_ancestor_spec_fork :
    (fork_tree_store.get_next_chain_ancestor [5] [1]).run = some (.ok [2]) ∧
    (fork_tree_store.get_next_chain_ancestor [5] [3]).run = some (.error .bad_query) ∧
    ([5] ∈ fork_tree_store.store.tree.nodes [1] ∧ ([5] : Hash) ≠ [1] →
      ∃ c ∈ fork_tree_store.store.tree.children [1], [5] ∈ fork_tree_store.store.tree.nodes c ∧
        (fork_tree_store.get_next_chain_ancestor [5] [1]).run = some (.ok c)) ∧
    (¬([5] ∈ fork_tree_store.store.tree.nodes [1] ∧ ([5] : Hash) ≠ [1]) →
      (fork_tree_store.get_next_chain_ancestor [5] [1]).run = some (.error .bad_query)) :=
  ⟨by decide, by decide,
    get_next_chain_ancestor_spec fork_tree_store_valid
      (show [1] ∈ fork_tree_store.store.tree.nodes ORIGIN by decide)
      (show [5] ∈ fork_tree_store.store.tree.nodes ORIGIN by decide)⟩

-- On blocks it has, the DAG query answers whether the store records the one in the future of
-- the other.
theorem is_dag_ancestor_of_eq (hvalid : self.Valid) (hfcs : self.FcsOrdered) {a b : Hash}
    (ha : a ∈ self.store.tree.nodes ORIGIN) (hb : b ∈ self.store.tree.nodes ORIGIN) :
    (self.is_dag_ancestor_of a b).run = some (.ok (decide (self.Covers a b))) := by
  unfold is_dag_ancestor_of
  rw [is_chain_ancestor_of_eq hvalid, if_neg (not_not_intro ha), if_neg (not_not_intro hb),
    run_mk_ok_bind]
  by_cases hab : b ∈ self.store.tree.nodes a
  · rw [decide_eq_true hab, if_pos rfl, decide_eq_true (.inl hab)]
    rfl
  · rw [decide_eq_false hab, if_neg Bool.false_ne_true, get_future_covering_set_of_mem ha,
      run_mk_ok_bind]
    obtain ⟨output, hout, hspec⟩ := ReachabilityStore.binary_search_descendant_spec
      hvalid.labelled (hfcs.mem a) (hfcs.sorted a) hb
    rw [run_bind_of_ok (by rw [binary_search_descendant_of_mem hb, hout]; rfl)]
    rcases hspec with ⟨c, i, rfl, hc, hbc⟩ | ⟨i, rfl, -, hnone, -⟩
    · rw [decide_eq_true (.inr ⟨c, List.mem_of_getElem? hc, hbc⟩)]
      rfl
    · -- no item of the set is above `b`
      rw [decide_eq_false (by rintro (h | ⟨f, hf, hbf⟩); exacts [hab h, hnone f hf hbf])]
      rfl

-- Over the five-block tree with [4] and [5] in the future covering set of [3]: [5] is not
-- below [3] in the tree, and the query finds it in that set.
theorem is_dag_ancestor_of_eq_fork :
    (fork_dag_store [[4], [5]]).Covers [3] [5] ∧ [5] ∉ fork_tree_store.store.tree.nodes [3] ∧
    ((fork_dag_store [[4], [5]]).is_dag_ancestor_of [3] [5]).run =
      some (.ok (decide ((fork_dag_store [[4], [5]]).Covers [3] [5]))) :=
  ⟨by decide, by decide,
    is_dag_ancestor_of_eq (fork_dag_store_valid _) (fcs_ordered_single (by decide)
      (by decide)) (by decide) (by decide)⟩

-- A leaf of the store goes into the future covering set of a block none of whose items is
-- above it, at the place its interval takes among theirs.
theorem insert_to_future_covering_set_spec (hvalid : self.Valid) (hfcs : self.FcsOrdered)
    {m new : Hash} (hm : m ∈ self.store.tree.nodes ORIGIN)
    (hnew : new ∈ self.store.tree.nodes ORIGIN) (hleaf : self.store.tree.children new = [])
    (habove : ∀ f ∈ self.future_covering_set m, new ∉ self.store.tree.nodes f) :
    ∃ F, (self.insert_to_future_covering_set m new).run =
        some (.ok { self with future_covering_set := F }) ∧
      FcsOrdered { self with future_covering_set := F } ∧
      ∀ b f, f ∈ F b ↔ f ∈ self.future_covering_set b ∨ (b = m ∧ f = new) := by
  obtain ⟨output, hout, hspec⟩ := ReachabilityStore.binary_search_descendant_spec
    hvalid.labelled (hfcs.mem m) (hfcs.sorted m) hnew
  rcases hspec with ⟨c, i, rfl, hc, hnc⟩ | ⟨i, rfl, hi, -, htake, hdrop⟩
  · exact absurd hnc (habove c (List.mem_of_getElem? hc))
  -- the items and the leaf are not below one another, so their intervals are apart
  have hapart : ∀ f ∈ self.future_covering_set m,
      (self.store.interval f).end_ < (self.store.interval new).start ∨
        (self.store.interval new).end_ < (self.store.interval f).start := fun f hf => by
    refine hvalid.labelled.lt_or_lt_of_not_mem_nodes (hfcs.mem m f hf) hnew (habove f hf) ?_
    rw [nodes_eq_singleton hleaf, List.mem_singleton]
    rintro rfl
    exact habove f hf (mem_nodes_self f)
  refine ⟨Function.update self.future_covering_set m ((self.future_covering_set m).insertIdx i new),
    ?_, ⟨fun b f hf => ?_, fun b => ?_⟩, fun b f => ?_⟩
  · unfold insert_to_future_covering_set insert_future_covering_item
    rw [get_future_covering_set_of_mem hm, run_mk_ok_bind,
      run_bind_of_ok (by rw [binary_search_descendant_of_mem hnew, hout]; rfl)]
    dsimp only
    rw [run_mk_ok_bind, if_pos hi]
    rfl
  · dsimp only at hf ⊢
    by_cases hb : b = m
    · subst hb
      rw [Function.update_self] at hf
      rcases List.eq_or_mem_of_mem_insertIdx hf with rfl | hf
      · exact hnew
      · exact hfcs.mem b f hf
    · rw [Function.update_of_ne hb] at hf
      exact hfcs.mem b f hf
  · dsimp only
    by_cases hb : b = m
    · subst hb
      rw [Function.update_self]
      refine BinarySearch.pairwise_insertIdx (hfcs.sorted b) hi (fun f hf => ?_) hdrop
      -- an item before the index starts before the end of the leaf's interval
      have := htake f hf
      have := (hvalid.labelled new hnew).nonempty
      rcases hapart f (List.mem_of_mem_take hf) with h | h
      · exact h
      · omega
    · rw [Function.update_of_ne hb]
      exact hfcs.sorted b
  · by_cases hb : b = m
    · subst hb
      rw [Function.update_self, List.mem_insertIdx hi]
      simp only [true_and]
      exact or_comm
    · rw [Function.update_of_ne hb]
      simp only [hb, false_and, or_false]

-- Over the five-block tree with [4] in the future covering set of [3]: the leaf [5] goes in
-- after [4], whose interval comes first.
theorem insert_to_future_covering_set_spec_fork :
    ((fork_dag_store [[4]]).insert_to_future_covering_set [3] [5]).run.map
      (Except.map fun s => s.future_covering_set [3]) = some (.ok [[4], [5]]) ∧
    ∃ F, ((fork_dag_store [[4]]).insert_to_future_covering_set [3] [5]).run =
        some (.ok { fork_dag_store [[4]] with future_covering_set := F }) ∧
      FcsOrdered { fork_dag_store [[4]] with future_covering_set := F } ∧
      ∀ b f, f ∈ F b ↔ f ∈ (fork_dag_store [[4]]).future_covering_set b ∨ (b = [3] ∧ f = [5]) :=
  ⟨by decide,
    insert_to_future_covering_set_spec (fork_dag_store_valid _)
      (fcs_ordered_single (by decide) (by decide)) (by decide)
      (by decide) (by decide) (by decide)⟩

-- The leaf goes into the future covering set of every block of the mergeset.
theorem add_dag_block_spec (hvalid : self.Valid) (hfcs : self.FcsOrdered) {new : Hash}
    (hnew : new ∈ self.store.tree.nodes ORIGIN) (hleaf : self.store.tree.children new = [])
    {mergeset : List Hash} (hnodup : mergeset.Nodup)
    (hmem : ∀ m ∈ mergeset, m ∈ self.store.tree.nodes ORIGIN)
    (habove : ∀ m ∈ mergeset, ∀ f ∈ self.future_covering_set m, new ∉ self.store.tree.nodes f) :
    ∃ F, (self.add_dag_block new mergeset).run = some (.ok { self with future_covering_set := F }) ∧
      FcsOrdered { self with future_covering_set := F } ∧
      ∀ b f, f ∈ F b ↔ f ∈ self.future_covering_set b ∨ (b ∈ mergeset ∧ f = new) := by
  induction mergeset generalizing self with
  | nil => exact ⟨self.future_covering_set, rfl, hfcs, fun b f => by simp⟩
  | cons m mergeset ih =>
    obtain ⟨hm_notin, hnodup⟩ := List.nodup_cons.mp hnodup
    obtain ⟨F, hrun, hfcs', hF⟩ := insert_to_future_covering_set_spec hvalid hfcs
      (hmem m List.mem_cons_self) hnew hleaf (habove m List.mem_cons_self)
    -- the later blocks of the mergeset keep their sets
    have habove' : ∀ m' ∈ mergeset, ∀ f ∈ F m', new ∉ self.store.tree.nodes f := by
      intro m' hm' f hf
      rcases (hF m' f).mp hf with hf | ⟨rfl, -⟩
      · exact habove m' (List.mem_cons_of_mem m hm') f hf
      · exact absurd hm' hm_notin
    obtain ⟨F', hrun', hfcs'', hF'⟩ := ih (hvalid.with_future_covering_set F) hfcs' hnew hleaf
      hnodup (fun m' hm' => hmem m' (List.mem_cons_of_mem m hm')) habove'
    refine ⟨F', ?_, hfcs'', fun b f => ?_⟩
    · rw [add_dag_block, run_bind_of_ok hrun]
      exact hrun'
    · rw [hF', hF, List.mem_cons]
      constructor
      · rintro ((h | ⟨rfl, rfl⟩) | ⟨hb, rfl⟩)
        exacts [.inl h, .inr ⟨.inl rfl, rfl⟩, .inr ⟨.inr hb, rfl⟩]
      · rintro (h | ⟨hb | hb, rfl⟩)
        exacts [.inl (.inl h), .inl (.inr ⟨hb, rfl⟩), .inr ⟨hb, rfl⟩]

-- The order of blocks in a future covering set survives `add_tree_block`: its reindex moves
-- intervals, but no two blocks of the old tree change places.
theorem FcsOrdered.of_add_child {s' : MemoryReachabilityStore} {p new : Hash} {hne hleaf horphan}
    (hfcs : self.FcsOrdered) (hvalid : self.Valid) (hvalid' : s'.Valid)
    (htree : s'.store.tree = self.store.tree.add_child p new hne hleaf horphan)
    (hroot : ORIGIN ≠ new) (hF : s'.future_covering_set = self.future_covering_set) :
    s'.FcsOrdered where
  mem b f hf := by
    rw [htree, mem_nodes_add_child hroot]
    exact .inl (hfcs.mem b f (hF ▸ hf))
  sorted b := by
    have hlab' := hvalid'.labelled
    unfold ReachabilityStore.Labelled at hlab'
    rw [htree] at hlab'
    rw [hF]
    exact (hfcs.sorted b).imp_of_mem fun hc hd hlt => hvalid.labelled.lt_of_lt
      (hlab'.of_add_child hroot) (hfcs.mem b _ hc) (hfcs.mem b _ hd) hlt

section Dag

variable (parent : Hash → Hash → Prop)

-- What a run of `add_block` keeps of a DAG with parent links `parent`: the store holds the
-- parents of each of its blocks, each tree parent is a parent in the DAG, each future covering
-- set lists blocks in the future of its owner, and the store records the whole future of each
-- block.
structure DagValid (s : MemoryReachabilityStore) : Prop extends s.Valid, s.FcsOrdered where
  closed : ∀ y ∈ s.store.tree.nodes ORIGIN, ∀ x, parent x y → x ∈ s.store.tree.nodes ORIGIN
  chain_parent : ∀ x c, c ∈ s.store.tree.children x → parent x c
  fcs_past : ∀ b, ∀ f ∈ s.future_covering_set b, Past parent b f
  covered : ∀ b ∈ s.store.tree.nodes ORIGIN, ∀ d ∈ s.store.tree.nodes ORIGIN,
    Past parent b d → s.Covers b d

-- A block the header pipeline adds after `blocks`: a fresh block that is not `NONE`, whose
-- parents come before it, with one of them as its selected parent and, as its mergeset, the
-- blocks of its past off the past of the selected parent.
structure Admissible (blocks : List Hash) (new_block selected_parent : Hash)
    (mergeset : List Hash) : Prop where
  fresh : new_block ∉ blocks
  not_none : new_block ≠ NONE
  selected_parent_mem : selected_parent ∈ blocks
  selected_parent_parent : parent selected_parent new_block
  parents_mem : ∀ x, parent x new_block → x ∈ blocks
  nodup : mergeset.Nodup
  mem_mergeset : ∀ x, x ∈ mergeset ↔
    Past parent x new_block ∧ x ≠ new_block ∧ ¬Past parent x selected_parent

-- The requests come in an order the header pipeline keeps, after the blocks of `blocks`.
def AdmissibleRun : List Hash → List BlockRequest → Prop
  | _, [] => True
  | blocks, r :: requests => Admissible parent blocks r.new_block r.selected_parent r.mergeset ∧
    AdmissibleRun (r.new_block :: blocks) requests

variable {parent}

theorem Admissible.congr {blocks blocks' : List Hash} {new_block selected_parent : Hash}
    {mergeset : List Hash} (h : Admissible parent blocks new_block selected_parent mergeset)
    (hblocks : ∀ x, x ∈ blocks ↔ x ∈ blocks') :
    Admissible parent blocks' new_block selected_parent mergeset where
  fresh := (hblocks new_block).not.mp h.fresh
  not_none := h.not_none
  selected_parent_mem := (hblocks _).mp h.selected_parent_mem
  selected_parent_parent := h.selected_parent_parent
  parents_mem x hx := (hblocks x).mp (h.parents_mem x hx)
  nodup := h.nodup
  mem_mergeset := h.mem_mergeset

-- A block whose only parent is its selected parent merges nothing.
theorem mem_mergeset_nil {new_block selected_parent : Hash}
    (honly : ∀ x, parent x new_block → x = selected_parent) (x : Hash) :
    x ∈ ([] : List Hash) ↔
      Past parent x new_block ∧ x ≠ new_block ∧ ¬Past parent x selected_parent := by
  refine ⟨fun hx => absurd hx List.not_mem_nil, fun ⟨hpast, hne, hnot⟩ => ?_⟩
  rcases Relation.ReflTransGen.cases_tail hpast with rfl | ⟨c, hxc, hc⟩
  · exact absurd rfl hne
  · exact absurd (honly c hc ▸ hxc) hnot

-- The subtree of a block is in its future when every tree parent is a parent in the DAG.
theorem past_of_mem_nodes (hchain : ∀ x c, c ∈ self.store.tree.children x → parent x c)
    {b d : Hash} (hd : d ∈ self.store.tree.nodes b) : Past parent b d :=
  nodes_induction (P := fun w => Past parent b w) b (past_refl b)
    (fun _ _ _ hP hc => Relation.ReflTransGen.tail hP (hchain _ _ hc)) d hd

theorem DagValid.mem_of_past (h : self.DagValid parent) {b d : Hash}
    (hd : d ∈ self.store.tree.nodes ORIGIN) (hbd : Past parent b d) :
    b ∈ self.store.tree.nodes ORIGIN :=
  DagPast.mem_of_past (fun x y hxy hy => h.closed y hy x hxy) hbd hd

theorem DagValid.past_iff_covers (h : self.DagValid parent) {b d : Hash}
    (hb : b ∈ self.store.tree.nodes ORIGIN) (hd : d ∈ self.store.tree.nodes ORIGIN) :
    Past parent b d ↔ self.Covers b d := by
  refine ⟨h.covered b hb d hd, ?_⟩
  rintro (hbd | ⟨f, hf, hdf⟩)
  · exact past_of_mem_nodes h.chain_parent hbd
  · exact past_trans (h.fcs_past b f hf) (past_of_mem_nodes h.chain_parent hdf)

-- On the blocks of a store that keeps the DAG, the DAG query answers the past of the DAG.
theorem DagValid.is_dag_ancestor_of_iff (h : self.DagValid parent) {a b : Hash}
    (ha : a ∈ self.store.tree.nodes ORIGIN) (hb : b ∈ self.store.tree.nodes ORIGIN) :
    ∃ r, (self.is_dag_ancestor_of a b).run = some (.ok r) ∧ (r = true ↔ Past parent a b) :=
  ⟨_, is_dag_ancestor_of_eq h.toValid h.toFcsOrdered ha hb,
    decide_eq_true_iff.trans (h.past_iff_covers ha hb).symm⟩

theorem init_with_params_dag_valid {capacity : Interval} (hstart : 1 ≤ capacity.start)
    (hcapacity : capacity.start ≤ capacity.end_) (horigin : ∀ x, ¬parent x ORIGIN) :
    (init_with_params capacity).DagValid parent where
  toValid := init_with_params_valid hstart hcapacity
  mem _ _ hf := absurd hf List.not_mem_nil
  sorted _ := List.Pairwise.nil
  closed y hy x hxy := by
    rw [show (init_with_params capacity).store.tree = origin_tree from rfl, origin_tree_nodes,
      List.mem_singleton] at hy
    exact absurd (hy ▸ hxy) (horigin x)
  chain_parent _ _ hc := absurd hc List.not_mem_nil
  fcs_past _ _ hf := absurd hf List.not_mem_nil
  covered b hb d hd _ := by
    rw [show (init_with_params capacity).store.tree = origin_tree from rfl, origin_tree_nodes,
      List.mem_singleton] at hb hd
    subst hb hd
    exact .inl (mem_nodes_self _)

section Step

variable (round : Nat → List Nat → Nat → Nat) (reindex_slack : Nat)

-- `add_block` of a block the header pipeline may add keeps the DAG and never fails; the tree
-- grows by the block under its selected parent, and `ORIGIN` keeps its interval.
theorem add_block_dag_valid (h : self.DagValid parent) {new_block selected_parent : Hash}
    {mergeset : List Hash}
    (hadm : Admissible parent (self.store.tree.nodes ORIGIN) new_block selected_parent mergeset)
    (hroom : self.store.tree.size ORIGIN + 1 ≤ (self.store.interval ORIGIN).size) :
    ∃ s', (self.add_block round reindex_slack new_block selected_parent mergeset).run =
        some (.ok s') ∧ s'.DagValid parent ∧
      (∀ x, x ∈ s'.store.tree.nodes ORIGIN ↔ x ∈ self.store.tree.nodes ORIGIN ∨ x = new_block) ∧
      (∀ x c, c ∈ s'.store.tree.children x ↔
        c ∈ self.store.tree.children x ∨ (x = selected_parent ∧ c = new_block)) ∧
      s'.store.tree.size ORIGIN = self.store.tree.size ORIGIN + 1 ∧
      s'.store.interval ORIGIN = self.store.interval ORIGIN := by
  obtain ⟨s1, hrun1, hvalid1, ⟨hne, hleaf, horphan, htree⟩, horigin1, hF1⟩ :=
    add_tree_block_valid round reindex_slack h.toValid hadm.selected_parent_mem hadm.fresh
      hadm.not_none hroom
  have hold : ∀ x ∈ self.store.tree.nodes ORIGIN, x ≠ new_block :=
    fun x hx heq => hadm.fresh (heq ▸ hx)
  have hroot := hold ORIGIN (mem_nodes_self ORIGIN)
  have hsub : ∀ x y, x ≠ new_block → (y ∈ s1.store.tree.nodes x ↔
      y ∈ self.store.tree.nodes x ∨ (y = new_block ∧ selected_parent ∈ self.store.tree.nodes x)) :=
    fun x y hx => by rw [htree]; exact mem_nodes_add_child hx
  have hmem1 : ∀ x, x ∈ s1.store.tree.nodes ORIGIN ↔
      x ∈ self.store.tree.nodes ORIGIN ∨ x = new_block := fun x => by
    rw [hsub ORIGIN x hroot]
    exact or_congr_right ⟨fun h => h.1, fun h => ⟨h, hadm.selected_parent_mem⟩⟩
  have hleaf1 : s1.store.tree.children new_block = [] := by
    rw [htree, children_add_child_of_ne hne.symm, hleaf]
  -- the blocks of the mergeset are in the past of a parent of the new block
  have hmerge_mem : ∀ m ∈ mergeset, m ∈ self.store.tree.nodes ORIGIN := fun m hm => by
    obtain ⟨hpast, hne', -⟩ := (hadm.mem_mergeset m).mp hm
    rcases Relation.ReflTransGen.cases_tail hpast with rfl | ⟨c, hmc, hc⟩
    · exact absurd rfl hne'
    · exact h.mem_of_past (hadm.parents_mem c hc) hmc
  -- an item above the new block would be a chain ancestor of the selected parent, in the future
  -- of the merged block, which would then be in the past of the selected parent
  have habove : ∀ m ∈ mergeset, ∀ f ∈ s1.future_covering_set m,
      new_block ∉ s1.store.tree.nodes f := by
    intro m hm f hf hnf
    rw [hF1] at hf
    have hf_mem := h.mem m f hf
    rcases (hsub f new_block (hold f hf_mem)).mp hnf with hnf | ⟨-, hspf⟩
    · exact hadm.fresh (mem_nodes_trans hf_mem hnf)
    · exact ((hadm.mem_mergeset m).mp hm).2.2
        (past_trans (h.fcs_past m f hf) (past_of_mem_nodes h.chain_parent hspf))
  obtain ⟨F, hrun2, hfcs2, hF⟩ := add_dag_block_spec hvalid1
    (h.toFcsOrdered.of_add_child h.toValid hvalid1 htree hroot hF1)
    ((hmem1 new_block).mpr (.inr rfl)) hleaf1 hadm.nodup
    (fun m hm => (hmem1 m).mpr (.inl (hmerge_mem m hm))) habove
  -- the subtrees and the future covering sets only grow
  have hgrow : ∀ b d, b ∈ self.store.tree.nodes ORIGIN → self.Covers b d →
      Covers { s1 with future_covering_set := F } b d := by
    rintro b d hb (hbd | ⟨f, hf, hdf⟩)
    · exact .inl ((hsub b d (hold b hb)).mpr (.inl hbd))
    · exact .inr ⟨f, (hF b f).mpr (.inl (hF1 ▸ hf)),
        (hsub f d (hold f (h.mem b f hf))).mpr (.inl hdf)⟩
  refine ⟨_, by rw [add_block, run_bind_of_ok hrun1]; exact hrun2,
    { toValid := hvalid1.with_future_covering_set F, toFcsOrdered := hfcs2,
      closed := ?_, chain_parent := ?_, fcs_past := ?_, covered := ?_ },
    hmem1, fun x c => by rw [htree]; exact mem_children_add_child,
    by rw [htree]; exact size_add_child hadm.selected_parent_mem hroot, horigin1⟩
  · intro y hy x hxy
    rw [hmem1] at hy ⊢
    rcases hy with hy | rfl
    · exact .inl (h.closed y hy x hxy)
    · exact .inl (hadm.parents_mem x hxy)
  · intro x c hc
    rw [htree, mem_children_add_child] at hc
    rcases hc with hc | ⟨rfl, rfl⟩
    · exact h.chain_parent x c hc
    · exact hadm.selected_parent_parent
  · intro b f hf
    rcases (hF b f).mp hf with hf | ⟨hb, rfl⟩
    · exact h.fcs_past b f (hF1 ▸ hf)
    · exact ((hadm.mem_mergeset b).mp hb).1
  · intro b hb d hd hbd
    dsimp only at hb hd
    rw [hmem1] at hb hd
    rcases hd with hd | hd
    · have hb' := h.mem_of_past hd hbd
      exact hgrow b d hb' (h.covered b hb' d hd hbd)
    subst d
    by_cases hbn : b = new_block
    · subst b
      exact .inl (mem_nodes_self _)
    have hb' := hb.resolve_right hbn
    by_cases hsp : Past parent b selected_parent
    · -- the new block is below the selected parent, which the store records in `b`'s future
      rcases h.covered b hb' _ hadm.selected_parent_mem hsp with hsp | ⟨f, hf, hspf⟩
      · exact .inl ((hsub b _ hbn).mpr (.inr ⟨rfl, hsp⟩))
      · exact .inr ⟨f, (hF b f).mpr (.inl (hF1 ▸ hf)),
          (hsub f _ (hold f (h.mem b f hf))).mpr (.inr ⟨rfl, hspf⟩)⟩
    · -- `b` is in the mergeset, whose sets now hold the new block
      have hbm := (hadm.mem_mergeset b).mpr ⟨hbd, hbn, hsp⟩
      exact .inr ⟨new_block, (hF b _).mpr (.inr ⟨hbm, rfl⟩), mem_nodes_self _⟩

-- A run of such requests keeps the DAG and never fails; the tree grows by the blocks of the
-- requests, each under its selected parent.
theorem add_blocks_dag_valid (h : self.DagValid parent) {blocks : List Hash}
    {requests : List BlockRequest} (hblocks : ∀ x, x ∈ blocks ↔ x ∈ self.store.tree.nodes ORIGIN)
    (hadm : AdmissibleRun parent blocks requests)
    (hroom : self.store.tree.size ORIGIN + requests.length ≤ (self.store.interval ORIGIN).size) :
    ∃ s', (self.add_blocks round reindex_slack requests).run = some (.ok s') ∧
      s'.DagValid parent ∧
      (∀ x, x ∈ s'.store.tree.nodes ORIGIN ↔
        x ∈ self.store.tree.nodes ORIGIN ∨ ∃ r ∈ requests, r.new_block = x) ∧
      (∀ x c, c ∈ s'.store.tree.children x ↔
        c ∈ self.store.tree.children x ∨ ∃ r ∈ requests, r.selected_parent = x ∧ r.new_block = c) ∧
      s'.store.interval ORIGIN = self.store.interval ORIGIN := by
  induction requests generalizing self blocks with
  | nil => exact ⟨self, rfl, h, fun x => by simp, fun x c => by simp, rfl⟩
  | cons r requests ih =>
    obtain ⟨hr, hrest⟩ := hadm
    rw [List.length_cons] at hroom
    obtain ⟨s1, hrun1, h1, hnodes1, hchildren1, hsize1, horigin1⟩ :=
      add_block_dag_valid round reindex_slack h (hr.congr hblocks) (by omega)
    have hblocks1 : ∀ x, x ∈ r.new_block :: blocks ↔ x ∈ s1.store.tree.nodes ORIGIN := fun x => by
      rw [List.mem_cons, hnodes1, hblocks, or_comm]
    obtain ⟨s2, hrun2, h2, hnodes2, hchildren2, horigin2⟩ :=
      ih h1 hblocks1 hrest (by rw [hsize1, horigin1]; omega)
    refine ⟨s2, by rw [add_blocks, run_bind_of_ok hrun1]; exact hrun2, h2, fun x => ?_,
      fun x c => ?_, horigin2.trans horigin1⟩
    · rw [hnodes2, hnodes1]
      simp only [List.mem_cons, exists_eq_or_imp]
      rw [or_assoc, @eq_comm _ x]
    · rw [hchildren2, hchildren1]
      simp only [List.mem_cons, exists_eq_or_imp]
      rw [or_assoc, @eq_comm _ x, @eq_comm _ c]

theorem init_with_params_nodes {capacity : Interval} :
    (init_with_params capacity).store.tree.nodes ORIGIN = [ORIGIN] := rfl

theorem init_with_params_interval_origin {capacity : Interval} :
    (init_with_params capacity).store.interval ORIGIN = capacity := by
  simp [init_with_params]

-- A run from `init_with_params` with room for every block keeps the DAG; its blocks are
-- `ORIGIN` and those of the requests, each under its selected parent.
theorem add_blocks_from_init {capacity : Interval} (hstart : 1 ≤ capacity.start)
    (horigin : ∀ x, ¬parent x ORIGIN) {requests : List BlockRequest}
    (hadm : AdmissibleRun parent [ORIGIN] requests) (hroom : requests.length + 1 ≤ capacity.size) :
    ∃ s, ((init_with_params capacity).add_blocks round reindex_slack requests).run =
        some (.ok s) ∧ s.DagValid parent ∧
      (∀ x, x ∈ s.store.tree.nodes ORIGIN ↔ x = ORIGIN ∨ ∃ r ∈ requests, r.new_block = x) ∧
      (∀ x c, c ∈ s.store.tree.children x ↔
        ∃ r ∈ requests, r.selected_parent = x ∧ r.new_block = c) ∧
      s.store.interval ORIGIN = capacity := by
  have hcapacity : capacity.start ≤ capacity.end_ := by
    unfold Interval.size at hroom
    omega
  have hblocks : ∀ x, x ∈ [ORIGIN] ↔ x ∈ (init_with_params capacity).store.tree.nodes ORIGIN :=
    fun x => by rw [init_with_params_nodes]
  obtain ⟨s, hrun, h, hnodes, hchildren, horigin⟩ := add_blocks_dag_valid round reindex_slack
    (init_with_params_dag_valid hstart hcapacity horigin) hblocks hadm
    (by rw [init_with_params_interval_origin, size, init_with_params_nodes, List.length_singleton]
        omega)
  refine ⟨s, hrun, h, fun x => ?_, fun x c => ?_, horigin.trans init_with_params_interval_origin⟩
  · rw [hnodes, init_with_params_nodes, List.mem_singleton]
  · rw [hchildren]
    exact or_iff_right List.not_mem_nil

-- A diamond over the genesis `[1]` on `ORIGIN`: `[2]` and `[3]` on the genesis, and `[4]` on
-- both, with `[2]` as its selected parent and `[3]` in its mergeset.
def diamond_parents (y : Hash) : List Hash :=
  if y = [1] then [ORIGIN]
  else if y = [2] ∨ y = [3] then [[1]]
  else if y = [4] then [[2], [3]]
  else []

def diamond_requests : List BlockRequest :=
  [⟨[1], ORIGIN, []⟩, ⟨[2], [1], []⟩, ⟨[3], [1], []⟩, ⟨[4], [2], [[3]]⟩]

theorem diamond_origin : ∀ x, ¬x ∈ diamond_parents ORIGIN := by
  intro x hx
  rw [show diamond_parents ORIGIN = [] by decide] at hx
  exact List.not_mem_nil hx

theorem diamond_admissible :
    AdmissibleRun (fun x y => x ∈ diamond_parents y) [ORIGIN] diamond_requests := by
  -- the past of a block lies in a list holding it and the parents of each of its blocks
  have hpast : ∀ (L : List Hash) (y : Hash), y ∈ L → (∀ b ∈ L, ∀ a ∈ diamond_parents b, a ∈ L) →
      ∀ x, Past (fun x y => x ∈ diamond_parents y) x y → x ∈ L :=
    fun L y hy hL x hx => DagPast.mem_of_past (fun a b hab hb => hL b hb a hab) hx hy
  have h2 := hpast [[2], [1], ORIGIN] [2] (by decide) (by decide)
  have h4 := hpast [[4], [3], [2], [1], ORIGIN] [4] (by decide) (by decide)
  have only : ∀ y p, diamond_parents y = [p] → ∀ x, x ∈ diamond_parents y → x = p :=
    fun y p hy x hx => List.mem_singleton.mp (hy ▸ hx)
  refine ⟨⟨by decide, by decide, by decide, by decide,
      fun x hx => (by decide : ∀ x ∈ diamond_parents [1], x ∈ [ORIGIN]) x hx, by decide,
      mem_mergeset_nil (only [1] ORIGIN (by decide))⟩,
    ⟨by decide, by decide, by decide, by decide,
      fun x hx => (by decide : ∀ x ∈ diamond_parents [2], x ∈ [[1], ORIGIN]) x hx, by decide,
      mem_mergeset_nil (only [2] [1] (by decide))⟩,
    ⟨by decide, by decide, by decide, by decide,
      fun x hx => (by decide : ∀ x ∈ diamond_parents [3], x ∈ [[2], [1], ORIGIN]) x hx, by decide,
      mem_mergeset_nil (only [3] [1] (by decide))⟩,
    ⟨by decide, by decide, by decide, by decide,
      fun x hx => (by decide : ∀ x ∈ diamond_parents [4], x ∈ [[3], [2], [1], ORIGIN]) x hx,
      by decide, fun x => ⟨fun hx => ?_, fun ⟨hx, hne, hnot⟩ => ?_⟩⟩, trivial⟩
  · -- `[3]` is below `[4]`, and not below `[2]`
    rw [List.mem_singleton.mp hx]
    exact ⟨past_of_parent (by decide), by decide, fun h => absurd (h2 _ h) (by decide)⟩
  · -- what is below `[4]` and not below `[2]` is `[3]`
    have h21 : Past (fun x y => x ∈ diamond_parents y) [1] [2] := past_of_parent (by decide)
    have h10 : Past (fun x y => x ∈ diamond_parents y) ORIGIN [1] := past_of_parent (by decide)
    simp only [List.mem_cons, List.not_mem_nil, or_false] at h4 ⊢
    rcases h4 x hx with rfl | rfl | rfl | rfl | rfl
    · exact absurd rfl hne
    · rfl
    · exact absurd (past_refl _) hnot
    · exact absurd h21 hnot
    · exact absurd (past_trans h10 h21) hnot

-- Over every such run, no `add_block` fails, and on the blocks added `is_dag_ancestor_of`
-- answers the past of the DAG exactly.
theorem add_blocks_is_dag_ancestor_of {capacity : Interval} (hstart : 1 ≤ capacity.start)
    (horigin : ∀ x, ¬parent x ORIGIN) {requests : List BlockRequest}
    (hadm : AdmissibleRun parent [ORIGIN] requests) (hroom : requests.length + 1 ≤ capacity.size) :
    ∃ s, ((init_with_params capacity).add_blocks round reindex_slack requests).run =
        some (.ok s) ∧
      (∀ x, x ∈ s.store.tree.nodes ORIGIN ↔ x = ORIGIN ∨ ∃ r ∈ requests, r.new_block = x) ∧
      ∀ a ∈ s.store.tree.nodes ORIGIN, ∀ b ∈ s.store.tree.nodes ORIGIN,
        ∃ r, (s.is_dag_ancestor_of a b).run = some (.ok r) ∧ (r = true ↔ Past parent a b) := by
  obtain ⟨s, hrun, h, hnodes, -, -⟩ :=
    add_blocks_from_init round reindex_slack hstart horigin hadm hroom
  exact ⟨s, hrun, hnodes, fun a ha b hb => h.is_dag_ancestor_of_iff ha hb⟩

theorem add_blocks_is_dag_ancestor_of_diamond :
    ∃ s, (init.add_blocks (fun _ _ n => n) 0 diamond_requests).run = some (.ok s) ∧
      (∀ x, x ∈ s.store.tree.nodes ORIGIN ↔ x = ORIGIN ∨ ∃ r ∈ diamond_requests, r.new_block = x) ∧
      ∀ a ∈ s.store.tree.nodes ORIGIN, ∀ b ∈ s.store.tree.nodes ORIGIN,
        ∃ r, (s.is_dag_ancestor_of a b).run = some (.ok r) ∧
          (r = true ↔ Past (fun x y => x ∈ diamond_parents y) a b) :=
  add_blocks_is_dag_ancestor_of _ _ (by decide) diamond_origin diamond_admissible (by decide)

-- Over every such run, `is_chain_ancestor_of` answers whether a block is on the chain of
-- selected parents of another.
theorem add_blocks_is_chain_ancestor_of {capacity : Interval} (hstart : 1 ≤ capacity.start)
    (horigin : ∀ x, ¬parent x ORIGIN) {requests : List BlockRequest}
    (hadm : AdmissibleRun parent [ORIGIN] requests) (hroom : requests.length + 1 ≤ capacity.size) :
    ∃ s, ((init_with_params capacity).add_blocks round reindex_slack requests).run =
        some (.ok s) ∧
      ∀ a ∈ s.store.tree.nodes ORIGIN, ∀ b ∈ s.store.tree.nodes ORIGIN,
        s.is_chain_ancestor_of a b = .ok true ↔
          Relation.ReflTransGen (fun x y => ∃ r ∈ requests, r.selected_parent = x ∧ r.new_block = y)
            a b := by
  obtain ⟨s, hrun, h, -, hchildren, -⟩ :=
    add_blocks_from_init round reindex_slack hstart horigin hadm hroom
  refine ⟨s, hrun, fun a ha b hb => ?_⟩
  rw [is_chain_ancestor_of_eq h.toValid, if_neg (not_not_intro ha), if_neg (not_not_intro hb),
    Except.ok.injEq, decide_eq_true_iff, mem_nodes_iff_reflTransGen,
    ← Relation.reflTransGen_swap]
  -- the child links of the tree are the requests' links to their selected parents
  have hlinks : Function.swap (fun u v => u ∈ s.store.tree.children v) =
      fun x y => ∃ r ∈ requests, r.selected_parent = x ∧ r.new_block = y := by
    funext x y
    exact propext (hchildren x y)
  rw [hlinks]

theorem add_blocks_is_chain_ancestor_of_diamond :
    ∃ s, (init.add_blocks (fun _ _ n => n) 0 diamond_requests).run = some (.ok s) ∧
      ∀ a ∈ s.store.tree.nodes ORIGIN, ∀ b ∈ s.store.tree.nodes ORIGIN,
        s.is_chain_ancestor_of a b = .ok true ↔
          Relation.ReflTransGen
            (fun x y => ∃ r ∈ diamond_requests, r.selected_parent = x ∧ r.new_block = y) a b :=
  add_blocks_is_chain_ancestor_of _ _ (by decide) diamond_origin diamond_admissible
    (by decide)

-- Over every such run from `init`, every block's interval lies in the maximal one `ORIGIN`
-- keeps: its bounds stay within `[1, u64::MAX - 1]`, where the source holds them in `u64`s.
theorem add_blocks_interval_bounds (horigin : ∀ x, ¬parent x ORIGIN)
    {requests : List BlockRequest} (hadm : AdmissibleRun parent [ORIGIN] requests)
    (hroom : requests.length + 1 ≤ Interval.maximal.size) :
    ∃ s, (init.add_blocks round reindex_slack requests).run = some (.ok s) ∧
      ∀ x ∈ s.store.tree.nodes ORIGIN,
        1 ≤ (s.store.interval x).start ∧ (s.store.interval x).end_ ≤ 2 ^ 64 - 2 := by
  obtain ⟨s, hrun, h, -, -, hinterval⟩ :=
    add_blocks_from_init round reindex_slack (by decide) horigin hadm hroom
  refine ⟨s, hrun, fun x hx => ?_⟩
  -- the labelling puts every interval inside the one of `ORIGIN`
  have hin := FiniteTree.Labelled.le_of_mem_nodes h.labelled (mem_nodes_self ORIGIN) hx
  rw [hinterval] at hin
  exact hin

theorem add_blocks_interval_bounds_diamond :
    ∃ s, (init.add_blocks (fun _ _ n => n) 0 diamond_requests).run = some (.ok s) ∧
      ∀ x ∈ s.store.tree.nodes ORIGIN,
        1 ≤ (s.store.interval x).start ∧ (s.store.interval x).end_ ≤ 2 ^ 64 - 2 :=
  add_blocks_interval_bounds _ _ diamond_origin diamond_admissible (by decide)

end Step

end Dag

end MemoryReachabilityStore

end Waglayla.Consensus.Reachability
