import Waglayla.Consensus.Reachability.Reindex
import Waglayla.Trees.Labelling
import Waglayla.Lists.BinarySearch

-- The chain queries of the reachability tree over the store as a reindex reads it. Store
-- errors are left out, as every block read is in the tree; an index out of bounds is `none`.

namespace Waglayla.Consensus.Reachability

-- `ReachabilityError`, with the store errors it wraps; a store key is the hash it names, and the
-- texts of `DataOverflow` are left out.
inductive ReachabilityError where
  | key_not_found (hash : Hash)
  | hash_already_exists (hash : Hash)
  | data_overflow
  | data_inconsistency
  | bad_query
  deriving DecidableEq, Repr

inductive SearchOutput where
  | not_found (i : Nat)
  | found (hash : Hash) (i : Nat)
  deriving DecidableEq, Repr

namespace ReachabilityStore

variable (self : ReachabilityStore)

def is_strict_chain_ancestor_of (this queried : Hash) : Bool :=
  (self.get_interval this).strictly_contains (self.get_interval queried)

def is_chain_ancestor_of (this queried : Hash) : Bool :=
  (self.get_interval this).contains (self.get_interval queried)

-- The room for children before the first child, from `extensions.rs`.
def interval_remaining_before (block : Hash) : Interval :=
  let alloc_capacity := self.interval_children_capacity block
  match (self.get_children block).head? with
  | some first_child => Interval.new alloc_capacity.start ((self.get_interval first_child).start - 1)
  | none => alloc_capacity

-- The room for children after the last child.
def interval_remaining_after (block : Hash) : Interval :=
  let alloc_capacity := self.interval_children_capacity block
  match (self.get_children block).getLast? with
  | some last_child => Interval.new ((self.get_interval last_child).end_ + 1) alloc_capacity.end_
  | none => alloc_capacity

def binary_search_descendant (ordered_hashes : List Hash) (descendant : Hash) :
    Option SearchOutput :=
  -- the end of an interval is the one number allocated to the block itself
  let point := (self.get_interval descendant).end_
  match BinarySearch.binary_search_by_key ordered_hashes point fun c => (self.get_interval c).start
  with
  | .ok i => ordered_hashes[i]?.map fun hash => .found hash i
  | .error i =>
    -- `point` is before the start of `ordered_hashes[i]`: only the block before can hold it
    if 0 < i then
      ordered_hashes[i - 1]?.map fun hash =>
        if self.is_chain_ancestor_of hash descendant then .found hash (i - 1) else .not_found i
    else some (.not_found i)

def get_next_chain_ancestor_unchecked (descendant ancestor : Hash) :
    ExceptT ReachabilityError Option Hash :=
  ExceptT.mk <| (self.binary_search_descendant (self.get_children ancestor) descendant).map
    fun output =>
      match output with
      | .found hash _ => .ok hash
      | .not_found _ => .error .bad_query

-- The intervals label the tree below `ORIGIN`.
def Labelled : Prop :=
  self.tree.Labelled ORIGIN (fun x => (self.interval x).start) (fun x => (self.interval x).end_)

variable {self}

section Queries

variable (h : self.Labelled)
include h

theorem is_chain_ancestor_of_iff {x y : Hash} (hx : x ∈ self.tree.nodes ORIGIN)
    (hy : y ∈ self.tree.nodes ORIGIN) :
    self.is_chain_ancestor_of x y = true ↔ y ∈ self.tree.nodes x := by
  rw [← FiniteTree.Labelled.le_iff_mem_nodes h hx hy]
  exact Interval.contains_iff

theorem is_strict_chain_ancestor_of_iff {x y : Hash} (hx : x ∈ self.tree.nodes ORIGIN)
    (hy : y ∈ self.tree.nodes ORIGIN) :
    self.is_strict_chain_ancestor_of x y = true ↔ y ∈ self.tree.nodes x ∧ y ≠ x := by
  rw [← FiniteTree.Labelled.lt_iff_mem_nodes h hx hy]
  exact Interval.strictly_contains_iff

-- A block whose interval starts after the end of `d`'s, or ends before it, is no ancestor of `d`.
theorem not_mem_nodes_of_end_lt {c d : Hash} (hc : c ∈ self.tree.nodes ORIGIN)
    (hlt : (self.interval d).end_ < (self.interval c).start ∨
      (self.interval c).end_ < (self.interval d).end_) :
    d ∉ self.tree.nodes c := fun hdc => by
  have hle := FiniteTree.Labelled.le_of_mem_nodes h hc hdc
  have hne := (h d (FiniteTree.mem_nodes_trans hc hdc)).nonempty
  omega

variable {ordered : List Hash} {d : Hash}

-- Among blocks of the tree with intervals in increasing order, the search finds the ancestor
-- of `d`, or else none is one, and the index splits them at the end of `d`'s interval.
theorem binary_search_descendant_spec (hmem : ∀ c ∈ ordered, c ∈ self.tree.nodes ORIGIN)
    (hsorted : ordered.Pairwise fun c e => (self.interval c).end_ < (self.interval e).start)
    (hd : d ∈ self.tree.nodes ORIGIN) :
    ∃ output, self.binary_search_descendant ordered d = some output ∧
      ((∃ c i, output = .found c i ∧ ordered[i]? = some c ∧ d ∈ self.tree.nodes c) ∨
        ∃ i, output = .not_found i ∧ i ≤ ordered.length ∧ (∀ c ∈ ordered, d ∉ self.tree.nodes c) ∧
          (∀ c ∈ ordered.take i, (self.interval c).start < (self.interval d).end_) ∧
          ∀ c ∈ ordered.drop i, (self.interval d).end_ < (self.interval c).start) := by
  -- the starts increase along the list
  have hkeys : ordered.Pairwise fun c e => (self.interval c).start < (self.interval e).start :=
    hsorted.imp_of_mem fun hc _ hlt => ((h _ (hmem _ hc)).nonempty).trans_lt hlt
  unfold binary_search_descendant
  dsimp only
  cases hb : BinarySearch.binary_search_by_key ordered (self.get_interval d).end_
      (fun c => (self.get_interval c).start) with
  | ok i =>
    dsimp only
    -- a block starting at the end of `d`'s interval holds it
    obtain ⟨c, hc, hkey⟩ := BinarySearch.binary_search_by_key_ok hb
    have hcmem := hmem c (List.mem_of_getElem? hc)
    refine ⟨_, by rw [hc]; rfl, .inl ⟨c, i, rfl, hc, ?_⟩⟩
    refine FiniteTree.Labelled.mem_nodes_of_hi_mem h hcmem hd (le_of_eq hkey) ?_
    exact hkey ▸ (h c hcmem).nonempty
  | error i =>
    dsimp only
    obtain ⟨hle, htake, hdrop⟩ := BinarySearch.binary_search_by_key_error hkeys hb
    simp only [get_interval] at htake hdrop
    -- the blocks from `i` on start after the end of `d`'s interval
    have hafter : ∀ c ∈ ordered.drop i, d ∉ self.tree.nodes c := fun c hc =>
      not_mem_nodes_of_end_lt h (hmem c (List.mem_of_mem_drop hc)) (.inl (hdrop c hc))
    by_cases hi : 0 < i
    · obtain ⟨n, rfl⟩ : ∃ n, i = n + 1 := ⟨i - 1, by omega⟩
      obtain ⟨c, hc⟩ : ∃ c, ordered[n]? = some c := ⟨ordered[n], List.getElem?_eq_getElem (by omega)⟩
      rw [if_pos hi, Nat.add_sub_cancel, hc]
      have hcmem := hmem c (List.mem_of_getElem? hc)
      by_cases hanc : self.is_chain_ancestor_of c d = true
      · refine ⟨_, rfl, .inl ⟨c, n, by dsimp only; rw [if_pos hanc], hc, ?_⟩⟩
        exact (is_chain_ancestor_of_iff h hcmem hd).mp hanc
      · refine ⟨_, rfl, .inr ⟨n + 1, by dsimp only; rw [if_neg hanc], hle, fun e he => ?_,
          htake, hdrop⟩⟩
        have htake_eq : ordered.take (n + 1) = ordered.take n ++ [c] := by
          rw [List.take_add_one, hc, Option.toList_some]
        have hcd := htake c (by rw [htake_eq]; exact List.mem_append_right _ List.mem_cons_self)
        rcases List.mem_append.mp ((List.take_append_drop (n + 1) ordered).symm ▸ he) with he | he
        · rw [htake_eq] at he
          rcases List.mem_append.mp he with he | he
          · -- a block before `c` ends before `c` starts, so before the end of `d`'s interval
            have hec := List.pairwise_append.mp (htake_eq ▸ hsorted.sublist (List.take_sublist _ _))
            have := hec.2.2 e he c List.mem_cons_self
            exact not_mem_nodes_of_end_lt h (hmem e (List.mem_of_mem_take he)) (.inr (by omega))
          · rw [List.mem_singleton.mp he]
            exact fun hdc => hanc ((is_chain_ancestor_of_iff h hcmem hd).mpr hdc)
        · exact hafter e he
    · rw [if_neg hi]
      have hi0 : i = 0 := by omega
      subst hi0
      exact ⟨_, rfl, .inr ⟨0, rfl, hle, fun e he => hafter e (by rwa [List.drop_zero]), htake, hdrop⟩⟩

-- The room after the children of a block with an interval starting from one: it starts within
-- the block's interval and after every child's, and ends one before the block does.
theorem interval_remaining_after_spec {p : Hash} (hp : p ∈ self.tree.nodes ORIGIN)
    (hstart : 1 ≤ (self.interval p).start) :
    (self.interval p).start ≤ (self.interval_remaining_after p).start ∧
      (self.interval_remaining_after p).end_ + 1 = (self.interval p).end_ ∧
      ∀ c ∈ self.tree.children p,
        (self.interval c).end_ < (self.interval_remaining_after p).start := by
  have hp_ne := (h p hp).nonempty
  unfold interval_remaining_after
  cases hlast : (self.get_children p).getLast? with
  | none =>
    rw [get_children, List.getLast?_eq_none_iff] at hlast
    simp only [interval_children_capacity, get_interval, Interval.decrease_end, Interval.new]
    refine ⟨le_rfl, by omega, fun c hc => ?_⟩
    rw [hlast] at hc
    exact absurd hc List.not_mem_nil
  | some last =>
    rw [get_children] at hlast
    obtain ⟨ys, hys⟩ := List.getLast?_eq_some_iff.mp hlast
    have hlast_mem := List.mem_of_getLast? hlast
    have hin := (h p hp).inside last hlast_mem
    have hlast_ne := (h last (FiniteTree.mem_nodes_trans hp
      (FiniteTree.mem_nodes_of_mem_children hlast_mem (FiniteTree.mem_nodes_self last)))).nonempty
    simp only [interval_children_capacity, get_interval, Interval.decrease_end, Interval.new]
    refine ⟨by omega, by omega, fun c hc => ?_⟩
    -- a child before the last ends before the last starts
    have hordered := (h p hp).ordered
    rw [hys] at hc hordered
    rcases List.mem_append.mp hc with hc | hc
    · have := (List.pairwise_append.mp hordered).2.2 c hc last List.mem_cons_self
      omega
    · rw [List.mem_singleton.mp hc]
      omega

-- The room after the children starts no later than the block's interval ends: where it is
-- empty, it is empty by one number, the interval `add_tree_block` gives a block that waits for a
-- reindex.
theorem interval_remaining_after_start_le {p : Hash} (hp : p ∈ self.tree.nodes ORIGIN) :
    (self.interval_remaining_after p).start ≤ (self.interval p).end_ := by
  have hp_ne := (h p hp).nonempty
  unfold interval_remaining_after
  cases hlast : (self.get_children p).getLast? with
  | none =>
    simp only [interval_children_capacity, get_interval, Interval.decrease_end, Interval.new]
    exact hp_ne
  | some last =>
    have hin := (h p hp).inside last (List.mem_of_getLast? hlast)
    simp only [get_interval, Interval.new]
    omega

-- For a block strictly below `a`, the next chain ancestor is the child of `a` above it.
theorem get_next_chain_ancestor_unchecked_spec {a : Hash} (ha : a ∈ self.tree.nodes ORIGIN)
    (hd : d ∈ self.tree.nodes a) (hne : d ≠ a) :
    ∃ c ∈ self.tree.children a, d ∈ self.tree.nodes c ∧
      (self.get_next_chain_ancestor_unchecked d a).run = some (.ok c) := by
  have hchildren : ∀ c ∈ self.tree.children a, c ∈ self.tree.nodes ORIGIN := fun c hc =>
    FiniteTree.mem_nodes_trans ha (FiniteTree.mem_nodes_of_mem_children hc (FiniteTree.mem_nodes_self c))
  obtain ⟨output, hout, hspec⟩ := binary_search_descendant_spec h hchildren (h a ha).ordered
    (FiniteTree.mem_nodes_trans ha hd)
  rcases hspec with ⟨c, i, rfl, hc, hdc⟩ | ⟨i, rfl, -, hnone, -⟩
  · refine ⟨c, List.mem_of_getElem? hc, hdc, ?_⟩
    simp only [get_next_chain_ancestor_unchecked, ExceptT.run_mk, get_children, hout, Option.map_some]
  · -- `d` lies below one of the children of `a`
    obtain ⟨c, hc, hdc⟩ := (FiniteTree.mem_nodes_iff.mp hd).resolve_left hne
    exact absurd hdc (hnone c hc)

end Queries

end ReachabilityStore

end Waglayla.Consensus.Reachability
