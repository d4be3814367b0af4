import Waglayla.Consensus.BlockDepth
import Waglayla.Consensus.Ghostdag.Mergeset
import Mathlib.Data.Set.Card

-- The DAG traversal manager: the bounded search for the antipast or anticone of a block from a
-- set of tips, and the chain path between the selected chains of two blocks.

namespace Waglayla.Consensus

open DagPast

-- `TraversalError`.
inductive TraversalError where
  | ReachedMaxTraversalAllowed (traversal_count max_traversal_allowed : Nat)
  deriving Repr, DecidableEq

-- `ChainPath`: the blocks to add and to remove when moving from one selected chain to another.
structure ChainPath where
  added : List Hash
  removed : List Hash
  deriving Repr, DecidableEq

-- The stores the manager reads, and the reachability service: DAG and chain ancestry, and
-- the parent of each block in the reachability tree, which the chain iterators walk.
structure DagTraversalManager where
  genesis_hash : Hash
  ghostdag_store : AList fun _ : Hash => GhostdagData
  relations_store : AList fun _ : Hash => List Hash
  is_dag_ancestor_of : Hash → Hash → Bool
  is_chain_ancestor_of : Hash → Hash → Bool
  reachability_parent : AList fun _ : Hash => Hash

namespace DagTraversalManager

variable (self : DagTraversalManager)

-- A walk down the reachability tree reads each stored block once at most.
def chain_fuel : Nat := self.reachability_parent.entries.length + 1

-- `BackwardChainIterator`, collected: from `current` down the reachability tree to
-- `to_ancestor`, which is yielded only if `inclusive`. A block is read for its tree parent
-- before it is yielded, and a missing parent is the `unwrap` panic.
def backward_chain_iterator (to_ancestor : Hash) (inclusive : Bool) :
    Nat → Hash → Option (List Hash)
  | 0, _ => none
  | fuel + 1, current =>
    if current = to_ancestor then some (if inclusive then [current] else [])
    else
      match self.reachability_parent.lookup current with
      | some next => (backward_chain_iterator to_ancestor inclusive fuel next).map (current :: ·)
      | none => none

-- `calculate_chain_path`. The loop runs the default backward chain iterator from `from_`
-- (down to ORIGIN, excluded) and breaks at the first block that is a chain ancestor of `to_`.
def calculate_chain_path (from_ to_ : Hash) : Option ChainPath := do
  let (removed, common_ancestor) ← walk self.chain_fuel from_ []
  let added ← self.backward_chain_iterator common_ancestor false self.chain_fuel to_
  pure ⟨added.reverse, removed⟩
where
  walk : Nat → Hash → List Hash → Option (List Hash × Hash)
    | 0, _, _ => none
    | fuel + 1, current, removed =>
      -- the iterator ends at ORIGIN, and `common_ancestor` is then still `from_`
      if current = ORIGIN then some (removed, from_)
      else
        match self.reachability_parent.lookup current with
        | none => none
        | some next =>
          if !self.is_chain_ancestor_of current to_ then walk fuel next (removed ++ [current])
          else some (removed, current)

-- `visited.insert(parent)`, and the push on the queue of a block it had not held.
def enqueue : List Hash × List Hash → Hash → List Hash × List Hash
  | (queue, visited), parent =>
    if parent ∈ visited then (queue, visited) else (queue ++ [parent], insert_hash visited parent)

-- The `max_traversal_allowed` check on the count of blocks of the antipast.
def max_traversal_error (max_traversal_allowed : Option Nat) (traversal_count : Nat) :
    Option TraversalError :=
  match max_traversal_allowed with
  | some max_traversal_allowed =>
    if traversal_count > max_traversal_allowed then
      some (.ReachedMaxTraversalAllowed traversal_count max_traversal_allowed)
    else none
  | none => none

-- `antipast_traversal`: the breadth-first search down the parents from `tips`, cut at the past
-- of `block`. A block enters the queue once, as a tip or as a parent, so the tips and the
-- stored blocks bound the rounds; a block without stored parents is the `unwrap` panic.
def antipast_traversal (tips : List Hash) (block : Hash) (max_traversal_allowed : Option Nat)
    (return_anticone_only : Bool) : Option (Except TraversalError (List Hash)) :=
  go (tips.length + self.relations_store.entries.length) [] 0 tips (tips.foldl insert_hash [])
where
  go : Nat → List Hash → Nat → List Hash → List Hash → Option (Except TraversalError (List Hash))
    | _, output, _, [], _ => some (.ok output)
    | 0, _, _, _ :: _, _ => none
    | fuel + 1, output, traversal_count, current :: queue, visited =>
      -- a block of the past of `block`: the search goes no further down from it
      if self.is_dag_ancestor_of current block then go fuel output traversal_count queue visited
      else
        match max_traversal_error max_traversal_allowed (traversal_count + 1) with
        | some err => some (.error err)
        | none => do
          let output :=
            if !return_anticone_only || !self.is_dag_ancestor_of block current then
              output ++ [current]
            else output
          let parents ← self.relations_store.lookup current
          let (queue, visited) := parents.foldl enqueue (queue, visited)
          go fuel output (traversal_count + 1) queue visited

def anticone (block : Hash) (tips : List Hash) (max_traversal_allowed : Option Nat) :
    Option (Except TraversalError (List Hash)) :=
  self.antipast_traversal tips block max_traversal_allowed true

def antipast (block : Hash) (tips : List Hash) (max_traversal_allowed : Option Nat) :
    Option (Except TraversalError (List Hash)) :=
  self.antipast_traversal tips block max_traversal_allowed false

-- `a` is one of the parents the relations store holds for `b`.
def IsParent (a b : Hash) : Prop :=
  ∃ parents, self.relations_store.lookup b = some parents ∧ a ∈ parents

-- The inclusive past in the DAG of the relations store.
def Past (a b : Hash) : Prop := DagPast.Past self.IsParent a b

-- A block of the antipast of `block` seen from `tips`: in the inclusive past of a tip and not
-- in the inclusive past of `block`.
def InAntipast (tips : List Hash) (block x : Hash) : Prop :=
  (∃ t ∈ tips, self.Past x t) ∧ ¬self.Past x block

-- What the search asks of the DAG: the parents of a stored block are stored, and the
-- reachability service answers `is_dag_ancestor_of` exactly on stored blocks.
structure DagCorrect (manager : DagTraversalManager) : Prop where
  parents_stored : ∀ a b, manager.IsParent a b → a ∈ manager.relations_store
  is_dag_ancestor_of_iff : ∀ a b, a ∈ manager.relations_store → b ∈ manager.relations_store →
    (manager.is_dag_ancestor_of a b = true ↔ manager.Past a b)

-- What the chain path asks of the reachability service: its tree is the selected-parent tree
-- of the GHOSTDAG store, hung from ORIGIN at genesis, and chain ancestry is membership in the
-- selected chain.
structure ReachabilityTreeCorrect (manager : DagTraversalManager) : Prop where
  genesis_parent : manager.reachability_parent.lookup manager.genesis_hash = some ORIGIN
  tree_parent : ∀ X data, manager.ghostdag_store.lookup X = some data →
    X ≠ manager.genesis_hash → manager.reachability_parent.lookup X = some data.selected_parent
  is_chain_ancestor_of_iff : ∀ {b : Hash} {chain : List Hash},
    SelectedChain manager.ghostdag_store manager.genesis_hash b chain →
      ∀ a, manager.is_chain_ancestor_of a b = true ↔ a ∈ chain

-- The state of the search. `seen` lists the blocks of the antipast popped so far, in the
-- order they were popped: the output keeps those the caller asked for, and the count counts
-- them all. A visited block off the queue has its parents visited, unless the search stopped
-- at it.
structure TraversalInv (manager : DagTraversalManager) (tips : List Hash) (block : Hash)
    (return_anticone_only : Bool) (seen output : List Hash) (traversal_count : Nat)
    (queue visited : List Hash) : Prop where
  visited_nodup : visited.Nodup
  queue_nodup : queue.Nodup
  queue_sub : ∀ x ∈ queue, x ∈ visited
  stored : ∀ x ∈ visited, x ∈ manager.relations_store
  below : ∀ x ∈ visited, ∃ t ∈ tips, manager.Past x t
  tips_visited : ∀ t ∈ tips, t ∈ visited
  closed : ∀ x ∈ visited, x ∉ queue → ¬manager.Past x block →
    ∀ p, manager.IsParent p x → p ∈ visited
  seen_nodup : seen.Nodup
  mem_seen : ∀ x, x ∈ seen ↔ x ∈ visited ∧ x ∉ queue ∧ ¬manager.Past x block
  output_eq : output = seen.filter fun x =>
    !return_anticone_only || !manager.is_dag_ancestor_of block x
  count_eq : traversal_count = seen.length

-- Queued blocks plus stored blocks not visited yet: each round takes one off.
def traversal_measure (queue visited : List Hash) : Nat :=
  queue.length + (self.relations_store.entries.length - visited.length)

section Enqueue

-- Visiting the parents of a block appends the same new blocks to the queue and to the
-- visited set: blocks among the parents, none visited before, and after it every parent is
-- visited.
theorem foldl_enqueue (parents : List Hash) :
    ∀ {queue visited : List Hash}, visited.Nodup →
      ∃ new, parents.foldl enqueue (queue, visited) = (queue ++ new, visited ++ new) ∧
        (visited ++ new).Nodup ∧ (∀ x ∈ new, x ∈ parents) ∧ ∀ p ∈ parents, p ∈ visited ++ new := by
  induction parents with
  | nil =>
    intro queue visited hvisited
    exact ⟨[], by simp, by simpa using hvisited, by simp, by simp⟩
  | cons p parents ih =>
    intro queue visited hvisited
    rw [List.foldl_cons]
    by_cases hp : p ∈ visited
    · -- seen before: nothing is pushed
      rw [show enqueue (queue, visited) p = (queue, visited) by simp [enqueue, hp]]
      obtain ⟨new, heq, hnodup, hnew, hall⟩ := ih hvisited
      refine ⟨new, heq, hnodup, fun x hx => List.mem_cons_of_mem _ (hnew x hx), ?_⟩
      intro x hx
      rcases List.mem_cons.mp hx with rfl | hx
      · exact List.mem_append_left _ hp
      · exact hall x hx
    · -- new: pushed on the queue and inserted in the visited set
      have hins : insert_hash visited p = visited ++ [p] := by simp [insert_hash, hp]
      rw [show enqueue (queue, visited) p = (queue ++ [p], visited ++ [p]) by
        simp [enqueue, hp, hins]]
      obtain ⟨new, heq, hnodup, hnew, hall⟩ :=
        @ih (queue ++ [p]) _ (hvisited.append (List.nodup_singleton p) (by simpa using hp))
      refine ⟨p :: new, by simpa using heq, by simpa using hnodup, ?_, ?_⟩
      · intro x hx
        rcases List.mem_cons.mp hx with rfl | hx
        · exact List.mem_cons_self
        · exact List.mem_cons_of_mem _ (hnew x hx)
      · intro x hx
        rcases List.mem_cons.mp hx with rfl | hx
        · simp
        · have := hall x hx
          simp only [List.mem_append, List.mem_cons] at this ⊢
          tauto

end Enqueue

section Invariant

variable {self} {tips : List Hash} {block : Hash} {return_anticone_only : Bool}
  {seen output queue visited : List Hash} {traversal_count : Nat} {current : Hash}

-- Popping a block of the past of `block` takes it off the queue and changes nothing else.
theorem TraversalInv.pop_past
    (hinv : self.TraversalInv tips block return_anticone_only seen output traversal_count
      (current :: queue) visited) (hpast : self.Past current block) :
    self.TraversalInv tips block return_anticone_only seen output traversal_count queue
      visited :=
  { hinv with
    queue_nodup := (List.nodup_cons.mp hinv.queue_nodup).2
    queue_sub := fun x hx => hinv.queue_sub x (List.mem_cons_of_mem _ hx)
    closed := fun x hx hxq hxb => by
      have hne : x ≠ current := fun h => hxb (h ▸ hpast)
      exact hinv.closed x hx (by simp [hxq, hne]) hxb
    mem_seen := fun x => by
      rw [hinv.mem_seen x]
      by_cases hx : x = current
      · subst hx
        simp [hpast]
      · simp [hx] }

-- Popping a block of the antipast records it as seen and visits its parents, which adds
-- `new` to the queue and to the visited set.
theorem TraversalInv.visit (hdag : self.DagCorrect)
    (hinv : self.TraversalInv tips block return_anticone_only seen output traversal_count
      (current :: queue) visited) (hnot : ¬self.Past current block) {parents new : List Hash}
    (hps : self.relations_store.lookup current = some parents) (hnodup : (visited ++ new).Nodup)
    (hnew : ∀ x ∈ new, x ∈ parents) (hall : ∀ p ∈ parents, p ∈ visited ++ new) :
    self.TraversalInv tips block return_anticone_only (seen ++ [current])
      (if !return_anticone_only || !self.is_dag_ancestor_of block current then
        output ++ [current] else output)
      (traversal_count + 1) (queue ++ new) (visited ++ new) := by
  have hcur : current ∈ visited := hinv.queue_sub current List.mem_cons_self
  obtain ⟨hcur_queue, hqueue⟩ := List.nodup_cons.mp hinv.queue_nodup
  -- the new blocks were not visited before
  have hfresh : ∀ x ∈ new, x ∉ visited := fun x hx hxv => List.disjoint_of_nodup_append hnodup hxv hx
  have hparent : ∀ x ∈ new, self.IsParent x current := fun x hx => ⟨parents, hps, hnew x hx⟩
  have hcur_seen : current ∉ seen := fun h => ((hinv.mem_seen current).mp h).2.1 List.mem_cons_self
  refine ⟨hnodup, ?_, ?_, ?_, ?_, ?_, ?_, ?_, ?_, ?_, ?_⟩
  · exact hqueue.append (List.nodup_append.mp hnodup).2.1
      fun x hx hx' => hfresh x hx' (hinv.queue_sub x (List.mem_cons_of_mem _ hx))
  · intro x hx
    rcases List.mem_append.mp hx with hx | hx
    · exact List.mem_append_left _ (hinv.queue_sub x (List.mem_cons_of_mem _ hx))
    · exact List.mem_append_right _ hx
  · intro x hx
    rcases List.mem_append.mp hx with hx | hx
    · exact hinv.stored x hx
    · exact hdag.parents_stored x current (hparent x hx)
  · intro x hx
    rcases List.mem_append.mp hx with hx | hx
    · exact hinv.below x hx
    · -- a parent of `current` is below the tip `current` is below
      obtain ⟨t, ht, hct⟩ := hinv.below current hcur
      exact ⟨t, ht, Past.head (hparent x hx) hct⟩
  · exact fun t ht => List.mem_append_left _ (hinv.tips_visited t ht)
  · intro x hx hxq hxb p hp
    have hx_new : x ∉ new := fun h => hxq (List.mem_append_right _ h)
    have hx_visited : x ∈ visited := (List.mem_append.mp hx).resolve_right hx_new
    by_cases hxc : x = current
    · -- the popped block: its parents are the ones just visited
      subst hxc
      obtain ⟨ps, hps', hp⟩ := hp
      rw [hps, Option.some.injEq] at hps'
      exact hall p (hps' ▸ hp)
    · have hxq' : x ∉ current :: queue := by
        simp only [List.mem_cons, not_or]
        exact ⟨hxc, fun h => hxq (List.mem_append_left _ h)⟩
      exact List.mem_append_left _ (hinv.closed x hx_visited hxq' hxb p hp)
  · exact hinv.seen_nodup.append (List.nodup_singleton current)
      (by simpa [List.disjoint_singleton] using hcur_seen)
  · intro x
    by_cases hxc : x = current
    · subst hxc
      simp only [List.mem_append, List.mem_singleton, or_true, true_iff]
      have hcur_new : x ∉ new := fun h => hfresh x h hcur
      exact ⟨.inl hcur, by simp [hcur_queue, hcur_new], hnot⟩
    · -- any other block is seen as before: a new block is still queued
      have hx_fresh : x ∈ new → x ∉ visited := hfresh x
      rw [List.mem_append, List.mem_singleton, hinv.mem_seen x]
      simp only [List.mem_append, List.mem_cons, hxc, false_or, or_false, not_or]
      tauto
  · rw [hinv.output_eq, List.filter_append]
    split <;> simp_all
  · rw [hinv.count_eq, List.length_append, List.length_singleton]

-- A block of the antipast is stored where its tip is: the relations store is closed under
-- parents.
theorem stored_of_past (hdag : self.DagCorrect) {x t : Hash} (h : self.Past x t)
    (ht : t ∈ self.relations_store) : x ∈ self.relations_store := by
  induction h using Relation.ReflTransGen.head_induction_on with
  | refl => exact ht
  | head hab _ ih => exact hdag.parents_stored _ _ hab

-- A list of distinct stored blocks is no longer than the store.
theorem length_le_of_stored {l : List Hash} (hl : l.Nodup) (hstored : ∀ x ∈ l, x ∈ self.relations_store) :
    l.length ≤ self.relations_store.entries.length := by
  have hsub := (hl.subperm fun x hx => AList.mem_keys.mpr (hstored x hx)).length_le
  simpa [AList.keys, List.keys] using hsub

-- A round of the search from a state with a block on the queue. Either the block is in the
-- past of `block` and only leaves the queue, or it is in the antipast: it has stored parents,
-- visiting them adds the same blocks to the queue and to the visited set, and the block is
-- recorded as seen. The measure falls either way.
theorem TraversalInv.round (hdag : self.DagCorrect) (hblock : block ∈ self.relations_store)
    (hinv : self.TraversalInv tips block return_anticone_only seen output traversal_count
      (current :: queue) visited) :
    (self.is_dag_ancestor_of current block = true ∧
      self.TraversalInv tips block return_anticone_only seen output traversal_count queue
        visited ∧
      self.traversal_measure queue visited < self.traversal_measure (current :: queue) visited) ∨
    (self.is_dag_ancestor_of current block = false ∧ ¬self.Past current block ∧
      ∃ parents new, self.relations_store.lookup current = some parents ∧
        parents.foldl enqueue (queue, visited) = (queue ++ new, visited ++ new) ∧
        self.TraversalInv tips block return_anticone_only (seen ++ [current])
          (if !return_anticone_only || !self.is_dag_ancestor_of block current then
            output ++ [current] else output)
          (traversal_count + 1) (queue ++ new) (visited ++ new) ∧
        self.traversal_measure (queue ++ new) (visited ++ new) <
          self.traversal_measure (current :: queue) visited) := by
  have hcur := hinv.stored current (hinv.queue_sub current List.mem_cons_self)
  have hiff := hdag.is_dag_ancestor_of_iff current block hcur hblock
  by_cases hpast : self.Past current block
  · refine .inl ⟨hiff.mpr hpast, hinv.pop_past hpast, ?_⟩
    simp only [traversal_measure, List.length_cons]
    omega
  · obtain ⟨parents, hps⟩ := Option.isSome_iff_exists.mp (AList.lookup_isSome.mpr hcur)
    obtain ⟨new, hfold, hnodup, hnew, hall⟩ := @foldl_enqueue parents queue _ hinv.visited_nodup
    have hinv' := hinv.visit hdag hpast hps hnodup hnew hall
    -- the visited set stays inside the store, so the stored blocks not visited fall by `new`
    have hle := length_le_of_stored hinv'.visited_nodup hinv'.stored
    refine .inr ⟨by simpa [hpast] using hiff, hpast, parents, new, hps, hfold, hinv', ?_⟩
    simp only [traversal_measure, List.length_append, List.length_cons] at hle ⊢
    omega

end Invariant

section Antipast

variable {self} {tips : List Hash} {block : Hash}

theorem TraversalInv.mem_antipast {return_anticone_only : Bool} {seen output queue visited : List Hash}
    {traversal_count : Nat}
    (hinv : self.TraversalInv tips block return_anticone_only seen output traversal_count queue
      visited) {x : Hash} (hx : x ∈ seen) : self.InAntipast tips block x := by
  obtain ⟨hv, -, hnot⟩ := (hinv.mem_seen x).mp hx
  exact ⟨hinv.below x hv, hnot⟩

-- Once the queue is empty the visited set is closed under parents off the past of `block`,
-- so every path down from a tip to a block of the antipast stays in it.
theorem TraversalInv.mem_seen_iff {return_anticone_only : Bool} {seen output visited : List Hash}
    {traversal_count : Nat}
    (hinv : self.TraversalInv tips block return_anticone_only seen output traversal_count []
      visited) (x : Hash) : x ∈ seen ↔ self.InAntipast tips block x := by
  refine ⟨hinv.mem_antipast, ?_⟩
  rintro ⟨⟨t, ht, hxt⟩, hnot⟩
  have hdown : ∀ a b, self.IsParent a b → self.Past b block → self.Past a block :=
    fun a b hab hb => Past.head hab hb
  have hclosed : ∀ a b, self.IsParent a b → b ∈ visited → self.Past a block ∨ a ∈ visited := by
    intro a b hab hb
    by_cases hbp : self.Past b block
    · exact .inl (hdown a b hab hbp)
    · exact .inr (hinv.closed b hb List.not_mem_nil hbp a hab)
  have hxv : x ∈ visited :=
    mem_of_past_of_closed hdown hclosed hxt (fun _ => hinv.tips_visited t ht) hnot
  exact (hinv.mem_seen x).mpr ⟨hxv, List.not_mem_nil, hnot⟩

theorem ncard_mem_of_nodup {l : List Hash} (hl : l.Nodup) : {x | x ∈ l}.ncard = l.length := by
  rw [show {x | x ∈ l} = ↑l.toFinset by ext; simp, Set.ncard_coe_finset,
    List.toFinset_card_of_nodup hl]

-- The antipast is finite: it lies in the store.
theorem antipast_finite (hdag : self.DagCorrect) (htips : ∀ t ∈ tips, t ∈ self.relations_store) :
    {x | self.InAntipast tips block x}.Finite := by
  refine (List.finite_toSet self.relations_store.keys).subset fun x hx => ?_
  obtain ⟨⟨t, ht, hxt⟩, -⟩ := hx
  exact AList.mem_keys.mpr (stored_of_past hdag hxt (htips t ht))

theorem TraversalInv.length_le_ncard (hdag : self.DagCorrect) {return_anticone_only : Bool}
    {seen output queue visited : List Hash} {traversal_count : Nat}
    (hinv : self.TraversalInv tips block return_anticone_only seen output traversal_count queue
      visited) : seen.length ≤ {x | self.InAntipast tips block x}.ncard := by
  have htips : ∀ t ∈ tips, t ∈ self.relations_store :=
    fun t ht => hinv.stored t (hinv.tips_visited t ht)
  rw [← ncard_mem_of_nodup hinv.seen_nodup]
  exact Set.ncard_le_ncard (fun x hx => hinv.mem_antipast hx) (antipast_finite hdag htips)

theorem TraversalInv.ncard_eq {return_anticone_only : Bool} {seen output visited : List Hash}
    {traversal_count : Nat}
    (hinv : self.TraversalInv tips block return_anticone_only seen output traversal_count []
      visited) : {x | self.InAntipast tips block x}.ncard = seen.length := by
  rw [← ncard_mem_of_nodup hinv.seen_nodup]
  exact congrArg Set.ncard (Set.ext fun x => (hinv.mem_seen_iff x).symm)

end Antipast

section Go

variable {self} {block : Hash} {max_traversal_allowed : Option Nat} {return_anticone_only : Bool}
  {output queue visited : List Hash} {traversal_count : Nat} {current : Hash}

theorem go_nil (fuel : Nat) :
    antipast_traversal.go self block max_traversal_allowed return_anticone_only fuel output
      traversal_count [] visited = some (.ok output) := by
  cases fuel <;> rfl

theorem go_succ_of_ancestor (fuel : Nat) (h : self.is_dag_ancestor_of current block = true) :
    antipast_traversal.go self block max_traversal_allowed return_anticone_only (fuel + 1) output
      traversal_count (current :: queue) visited =
    antipast_traversal.go self block max_traversal_allowed return_anticone_only fuel output
      traversal_count queue visited := by
  simp [antipast_traversal.go, h]

theorem go_succ_of_error (fuel : Nat) (h : self.is_dag_ancestor_of current block = false)
    {err : TraversalError}
    (herr : max_traversal_error max_traversal_allowed (traversal_count + 1) = some err) :
    antipast_traversal.go self block max_traversal_allowed return_anticone_only (fuel + 1) output
      traversal_count (current :: queue) visited = some (.error err) := by
  simp [antipast_traversal.go, h, herr]

theorem go_succ_of_visit (fuel : Nat) (h : self.is_dag_ancestor_of current block = false)
    (herr : max_traversal_error max_traversal_allowed (traversal_count + 1) = none)
    {parents : List Hash} (hps : self.relations_store.lookup current = some parents) :
    antipast_traversal.go self block max_traversal_allowed return_anticone_only (fuel + 1) output
      traversal_count (current :: queue) visited =
    antipast_traversal.go self block max_traversal_allowed return_anticone_only fuel
      (if !return_anticone_only || !self.is_dag_ancestor_of block current then
        output ++ [current] else output)
      (traversal_count + 1) (parents.foldl enqueue (queue, visited)).1
      (parents.foldl enqueue (queue, visited)).2 := by
  simp only [antipast_traversal.go, h, herr, hps, Bool.false_eq_true, ↓reduceIte,
    Option.bind_eq_bind, Option.bind_some]

end Go

section Run

variable {self} (hdag : self.DagCorrect) {tips : List Hash} {block : Hash}
  (hblock : block ∈ self.relations_store) {return_anticone_only : Bool}
include hdag hblock

-- With fuel for the measure, the search without a bound ends with the invariant and an empty
-- queue.
theorem go_none (fuel : Nat) :
    ∀ {seen output queue visited : List Hash} {traversal_count : Nat},
      self.TraversalInv tips block return_anticone_only seen output traversal_count queue
        visited →
      self.traversal_measure queue visited ≤ fuel →
      ∃ seen' output' visited' traversal_count',
        antipast_traversal.go self block none return_anticone_only fuel output traversal_count
          queue visited = some (.ok output') ∧
        self.TraversalInv tips block return_anticone_only seen' output' traversal_count' []
          visited' := by
  induction fuel with
  | zero =>
    intro seen output queue visited traversal_count hinv hfuel
    cases queue with
    | nil => exact ⟨seen, output, visited, traversal_count, go_nil 0, hinv⟩
    | cons _ _ => simp [traversal_measure] at hfuel
  | succ fuel ih =>
    intro seen output queue visited traversal_count hinv hfuel
    cases queue with
    | nil => exact ⟨seen, output, visited, traversal_count, go_nil _, hinv⟩
    | cons current queue =>
      rcases hinv.round hdag hblock with ⟨hanc, hinv', hlt⟩ | ⟨hanc, -, parents, new, hps, hfold, hinv', hlt⟩
      · rw [go_succ_of_ancestor _ hanc]
        exact ih hinv' (by omega)
      · rw [go_succ_of_visit _ hanc rfl hps, hfold]
        exact ih hinv' (show self.traversal_measure (queue ++ new) (visited ++ new) ≤ fuel by omega)

-- With a bound `m`, the search runs as the unbounded one while it has counted at most `m`
-- blocks of the antipast, and it counts all of them: it fails with the count `m + 1` exactly
-- when the antipast has more than `m` blocks.
theorem go_some (m fuel : Nat) :
    ∀ {seen output queue visited : List Hash} {traversal_count : Nat},
      self.TraversalInv tips block return_anticone_only seen output traversal_count queue
        visited →
      traversal_count ≤ m → self.traversal_measure queue visited ≤ fuel →
      antipast_traversal.go self block (some m) return_anticone_only fuel output traversal_count
          queue visited =
        if {x | self.InAntipast tips block x}.ncard ≤ m then
          antipast_traversal.go self block none return_anticone_only fuel output traversal_count
            queue visited
        else some (.error (.ReachedMaxTraversalAllowed (m + 1) m)) := by
  induction fuel with
  | zero =>
    intro seen output queue visited traversal_count hinv hm hfuel
    cases queue with
    | nil =>
      -- the search is over and it has counted the whole antipast
      rw [if_pos (hinv.ncard_eq ▸ hinv.count_eq ▸ hm)]
      rw [go_nil, go_nil]
    | cons _ _ => simp [traversal_measure] at hfuel
  | succ fuel ih =>
    intro seen output queue visited traversal_count hinv hm hfuel
    cases queue with
    | nil =>
      rw [if_pos (hinv.ncard_eq ▸ hinv.count_eq ▸ hm)]
      rw [go_nil, go_nil]
    | cons current queue =>
      rcases hinv.round hdag hblock with ⟨hanc, hinv', hlt⟩ | ⟨hanc, -, parents, new, hps, hfold, hinv', hlt⟩
      · rw [go_succ_of_ancestor _ hanc, go_succ_of_ancestor _ hanc]
        exact ih hinv' hm (by omega)
      · by_cases hover : traversal_count + 1 > m
        · -- the `m + 1`-st block of the antipast: the antipast has more than `m` blocks
          have hcount : traversal_count = m := by omega
          subst hcount
          have herr : max_traversal_error (some traversal_count) (traversal_count + 1) =
              some (.ReachedMaxTraversalAllowed (traversal_count + 1) traversal_count) := by
            simp [max_traversal_error]
          have hlarge := hinv'.length_le_ncard hdag
          rw [go_succ_of_error _ hanc herr, if_neg]
          rw [← hinv'.count_eq] at hlarge
          omega
        · have herr : max_traversal_error (some m) (traversal_count + 1) = none := by
            simp [max_traversal_error, hover]
          rw [go_succ_of_visit _ hanc herr hps, go_succ_of_visit _ hanc rfl hps, hfold]
          exact ih hinv' (by omega)
            (show self.traversal_measure (queue ++ new) (visited ++ new) ≤ fuel by omega)

end Run

section Init

variable {self} {tips : List Hash} {block : Hash} {return_anticone_only : Bool}

-- The search starts with the tips queued and visited, and nothing seen.
theorem traversal_inv_init (htips : tips.Nodup)
    (hstored : ∀ t ∈ tips, t ∈ self.relations_store) :
    self.TraversalInv tips block return_anticone_only [] [] 0 tips
      (tips.foldl insert_hash []) := by
  have hvisited : ∀ x, x ∈ tips.foldl insert_hash [] ↔ x ∈ tips := fun x => by
    simp [GhostdagManager.mem_foldl_insert_hash]
  refine ⟨GhostdagManager.nodup_foldl_insert_hash tips List.nodup_nil, htips,
    fun x hx => (hvisited x).mpr hx, fun x hx => hstored x ((hvisited x).mp hx),
    fun x hx => ⟨x, (hvisited x).mp hx, past_refl x⟩, fun t ht => (hvisited t).mpr ht, ?_,
    List.nodup_nil, ?_, rfl, rfl⟩
  · intro x hx hxq
    exact absurd ((hvisited x).mp hx) hxq
  · intro x
    simp only [List.not_mem_nil, false_iff, not_and, not_not]
    exact fun hx hxq => absurd ((hvisited x).mp hx) hxq

theorem traversal_measure_init :
    self.traversal_measure tips (tips.foldl insert_hash []) ≤
      tips.length + self.relations_store.entries.length := by
  simp only [traversal_measure]
  omega

end Init

section Spec

variable {self} (hdag : self.DagCorrect) {tips : List Hash} {block : Hash}
  (hblock : block ∈ self.relations_store) {return_anticone_only : Bool}
  (htips : tips.Nodup) (hstored : ∀ t ∈ tips, t ∈ self.relations_store)
include hdag hblock htips hstored

-- Without a bound the search returns the blocks of the antipast the caller asked for, each
-- once, in the order it popped them.
theorem antipast_traversal_none :
    ∃ seen : List Hash, seen.Nodup ∧ (∀ x, x ∈ seen ↔ self.InAntipast tips block x) ∧
      self.antipast_traversal tips block none return_anticone_only =
        some (.ok (seen.filter fun x =>
          !return_anticone_only || !self.is_dag_ancestor_of block x)) := by
  have hinit : self.TraversalInv tips block return_anticone_only [] [] 0 tips
      (tips.foldl insert_hash []) := traversal_inv_init htips hstored
  obtain ⟨seen, output, visited, traversal_count, hgo, hinv⟩ :=
    go_none hdag hblock _ hinit traversal_measure_init
  refine ⟨seen, hinv.seen_nodup, hinv.mem_seen_iff, ?_⟩
  rw [antipast_traversal, hgo, hinv.output_eq]

-- With a bound `m` the search returns what it returns without one when the antipast has at
-- most `m` blocks, and fails with the count `m + 1` otherwise.
theorem antipast_traversal_some (m : Nat) :
    self.antipast_traversal tips block (some m) return_anticone_only =
      if {x | self.InAntipast tips block x}.ncard ≤ m then
        self.antipast_traversal tips block none return_anticone_only
      else some (.error (.ReachedMaxTraversalAllowed (m + 1) m)) :=
  go_some hdag hblock m _ (traversal_inv_init htips hstored) (Nat.zero_le m)
    traversal_measure_init

end Spec

-- Taking the removed blocks off the top of the selected chain of `from_` and putting the
-- added ones on gives the selected chain of `to_`.
theorem take_append_added {pre removed added chain_from chain_to : List Hash} {c : Hash}
    (hfrom : chain_from = pre ++ c :: removed.reverse) (hto : chain_to = pre ++ c :: added) :
    chain_from.take (chain_from.length - removed.length) ++ added = chain_to := by
  have htake : chain_from.take (chain_from.length - removed.length) = pre ++ [c] := by
    rw [hfrom, show pre ++ c :: removed.reverse = (pre ++ [c]) ++ removed.reverse by simp]
    exact List.take_left' (by simp; omega)
  rw [htake, hto]
  simp

section ChainPath

variable {self} (hstore : ChainStore self.ghostdag_store self.genesis_hash)
  (hreach : self.ReachabilityTreeCorrect)
include hstore hreach

-- Every block of a selected chain has its parent in the reachability tree: ORIGIN for
-- genesis, the selected parent for the others.
theorem tree_parent_of_selected_chain {X : Hash} {chain : List Hash}
    (h : SelectedChain self.ghostdag_store self.genesis_hash X chain) {c : Hash} (hc : c ∈ chain) :
    c ≠ ORIGIN ∧ ∃ next, self.reachability_parent.lookup c = some next ∧
      (c ≠ self.genesis_hash → ∃ data, self.ghostdag_store.lookup c = some data ∧
        next = data.selected_parent) := by
  have hcs : c ∈ self.ghostdag_store := (h.sorted hstore).1 c hc
  refine ⟨fun hco => hstore.origin_not_mem (hco ▸ hcs), ?_⟩
  by_cases hcg : c = self.genesis_hash
  · exact ⟨ORIGIN, hcg ▸ hreach.genesis_parent, fun hne => absurd hcg hne⟩
  · obtain ⟨data, hdata⟩ := Option.isSome_iff_exists.mp (AList.lookup_isSome.mpr hcs)
    exact ⟨_, hreach.tree_parent c data hdata hcg, fun _ => ⟨data, hdata, rfl⟩⟩

-- A selected chain is no longer than the reachability tree has blocks.
theorem length_lt_chain_fuel {X : Hash} {chain : List Hash}
    (h : SelectedChain self.ghostdag_store self.genesis_hash X chain) :
    chain.length < self.chain_fuel := by
  have hsub : ∀ c ∈ chain, c ∈ self.reachability_parent.keys := fun c hc => by
    obtain ⟨-, next, hnext, -⟩ := tree_parent_of_selected_chain hstore hreach h hc
    exact AList.mem_keys.mpr (AList.lookup_isSome.mp (by rw [hnext]; rfl))
  have hle := ((h.nodup hstore).subperm hsub).length_le
  simp only [AList.keys, List.keys, List.length_map] at hle
  simp only [chain_fuel]
  omega

-- Down the selected chain of `X`, the loop of `calculate_chain_path` stops at the highest
-- block of the selected chain of `to_`, and removes the blocks above it, top first.
theorem walk_selected_chain (from_ : Hash) {to_ : Hash} {chain_to : List Hash}
    (hto : SelectedChain self.ghostdag_store self.genesis_hash to_ chain_to) :
    ∀ {X : Hash} {chain : List Hash}, SelectedChain self.ghostdag_store self.genesis_hash X chain →
      ∀ (fuel : Nat) (removed : List Hash), chain.length ≤ fuel →
        ∃ pre c rest, chain = pre ++ c :: rest ∧ c ∈ chain_to ∧ (∀ x ∈ rest, x ∉ chain_to) ∧
          calculate_chain_path.walk self from_ to_ fuel X removed =
            some (removed ++ rest.reverse, c) := by
  intro X chain h
  induction h with
  | genesis =>
    intro fuel removed hfuel
    obtain ⟨fuel, rfl⟩ : ∃ f, fuel = f + 1 := ⟨fuel - 1, by simp at hfuel; omega⟩
    obtain ⟨hne, next, hnext, -⟩ := tree_parent_of_selected_chain hstore hreach .genesis
      (List.mem_singleton_self _)
    -- genesis is on every selected chain, so the loop breaks there at the latest
    have hanc := (hreach.is_chain_ancestor_of_iff hto _).mpr hto.genesis_mem
    refine ⟨[], self.genesis_hash, [], rfl, hto.genesis_mem, fun _ h => absurd h List.not_mem_nil, ?_⟩
    simp [calculate_chain_path.walk, hne, hnext, hanc]
  | step hne hX hchain ih =>
    rename_i X data chain
    intro fuel removed hfuel
    obtain ⟨fuel, rfl⟩ : ∃ f, fuel = f + 1 := ⟨fuel - 1, by simp at hfuel; omega⟩
    have hstep : SelectedChain self.ghostdag_store self.genesis_hash X (chain ++ [X]) :=
      .step hne hX hchain
    obtain ⟨hne_origin, next, hnext, hsp⟩ := tree_parent_of_selected_chain hstore hreach hstep
      (List.mem_append_right _ (List.mem_singleton_self X))
    obtain ⟨data', hX', rfl⟩ := hsp hne
    rw [hX, Option.some.injEq] at hX'
    subst hX'
    by_cases hXto : X ∈ chain_to
    · -- `X` is on the selected chain of `to_`: the loop breaks at it
      have hanc := (hreach.is_chain_ancestor_of_iff hto X).mpr hXto
      refine ⟨chain, X, [], rfl, hXto, fun _ h => absurd h List.not_mem_nil, ?_⟩
      simp [calculate_chain_path.walk, hne_origin, hnext, hanc]
    · -- `X` is removed and the loop goes on to the selected parent
      have hanc : self.is_chain_ancestor_of X to_ = false :=
        Bool.eq_false_iff.mpr fun h => hXto ((hreach.is_chain_ancestor_of_iff hto X).mp h)
      obtain ⟨pre, c, rest, hchain_eq, hc, hrest, hwalk⟩ :=
        ih fuel (removed ++ [X]) (by simp at hfuel; omega)
      refine ⟨pre, c, rest ++ [X], by simp [hchain_eq], hc, ?_, ?_⟩
      · intro x hx
        rcases List.mem_append.mp hx with hx | hx
        · exact hrest x hx
        · exact List.mem_singleton.mp hx ▸ hXto
      · simp [calculate_chain_path.walk, hne_origin, hnext, hanc, hwalk]

-- Down the selected chain of `Y` to a block `c` on it, the backward chain iterator yields
-- the blocks above `c`, top first.
theorem backward_chain_iterator_selected_chain {c : Hash} :
    ∀ {Y : Hash} {chain : List Hash}, SelectedChain self.ghostdag_store self.genesis_hash Y chain →
      ∀ {pre post : List Hash}, chain = pre ++ c :: post → ∀ fuel, post.length < fuel →
        self.backward_chain_iterator c false fuel Y = some post.reverse := by
  intro Y chain h
  induction h with
  | genesis =>
    intro pre post heq fuel hfuel
    obtain ⟨fuel, rfl⟩ : ∃ f, fuel = f + 1 := ⟨fuel - 1, by omega⟩
    -- the chain of genesis is genesis alone, so `c` is genesis and nothing is above it
    rcases pre with _ | ⟨a, pre⟩
    · obtain ⟨rfl, rfl⟩ := List.cons.inj heq
      simp [backward_chain_iterator]
    · simp at heq
  | step hne hX hchain ih =>
    rename_i X data chain
    intro pre post heq fuel hfuel
    obtain ⟨fuel, rfl⟩ : ∃ f, fuel = f + 1 := ⟨fuel - 1, by omega⟩
    have hstep : SelectedChain self.ghostdag_store self.genesis_hash X (chain ++ [X]) :=
      .step hne hX hchain
    rcases List.eq_nil_or_concat' post with rfl | ⟨post', z, rfl⟩
    · -- `c` is `X` itself
      obtain ⟨-, hc⟩ := List.append_inj' heq rfl
      obtain rfl : X = c := (List.cons.inj hc).1
      simp [backward_chain_iterator]
    · -- `c` is further down: `X` is yielded, then the walk goes on from the selected parent
      obtain ⟨hchain_eq, hz⟩ := List.append_inj' (show chain ++ [X] = (pre ++ c :: post') ++ [z] by
        simpa using heq) rfl
      obtain rfl : X = z := (List.cons.inj hz).1
      have hXc : X ≠ c := by
        rintro rfl
        have hnodup := hstep.nodup hstore
        rw [hchain_eq, List.nodup_append] at hnodup
        exact hnodup.2.2 X (by simp) X (List.mem_singleton_self X) rfl
      obtain ⟨-, next, hnext, hsp⟩ := tree_parent_of_selected_chain hstore hreach hstep
        (List.mem_append_right _ (List.mem_singleton_self X))
      obtain ⟨data', hX', rfl⟩ := hsp hne
      rw [hX, Option.some.injEq] at hX'
      subst hX'
      have hrest := ih hchain_eq fuel (by simp at hfuel; omega)
      simp [backward_chain_iterator, hXc, hnext, hrest]

-- `calculate_chain_path` goes down the selected chain of `from_` to the highest block `c` it
-- shares with the selected chain of `to_`: it removes the blocks of the first above `c`, top
-- first, and adds those of the second above `c`, bottom first. Below `c` the two chains agree.
theorem calculate_chain_path_spec {from_ to_ : Hash} {chain_from chain_to : List Hash}
    (hfrom : SelectedChain self.ghostdag_store self.genesis_hash from_ chain_from)
    (hto : SelectedChain self.ghostdag_store self.genesis_hash to_ chain_to) :
    ∃ path, self.calculate_chain_path from_ to_ = some path ∧
      ∃ pre c, chain_from = pre ++ c :: path.removed.reverse ∧ chain_to = pre ++ c :: path.added ∧
        ∀ x ∈ path.removed, x ∉ chain_to := by
  obtain ⟨pre, c, rest, hfrom_eq, hc, hrest, hwalk⟩ := walk_selected_chain hstore hreach from_ hto hfrom
    self.chain_fuel [] (length_lt_chain_fuel hstore hreach hfrom).le
  obtain ⟨pre', post, hto_eq⟩ := List.append_of_mem hc
  -- both chains pass through `c`, and the selected chain of `c` is unique
  have hpre : pre' = pre := by
    have h := (hto.up_to hto_eq).unique (hfrom.up_to hfrom_eq)
    exact List.append_cancel_right h.symm
  subst hpre
  have hpost_lt : post.length < self.chain_fuel := by
    have := length_lt_chain_fuel hstore hreach hto
    rw [hto_eq] at this
    simp at this
    omega
  have hadded := backward_chain_iterator_selected_chain hstore hreach hto hto_eq _ hpost_lt
  refine ⟨⟨post, rest.reverse⟩, ?_, pre', c, by simpa using hfrom_eq, hto_eq, ?_⟩
  · simp [calculate_chain_path, hwalk, hadded]
  · intro x hx
    exact hrest x (List.mem_reverse.mp hx)

end ChainPath

end DagTraversalManager

open DagTraversalManager in
-- In every DAG whose relations store is closed under parents, with a reachability service
-- that answers DAG ancestry exactly and whose tree is the selected-parent tree: from a set
-- of stored tips, `antipast` returns each block of the antipast of a stored block once, and
-- `anticone` those of them outside its future; with a bound `m` both return the same when the
-- antipast has at most `m` blocks and fail with the count `m + 1` otherwise. Between two
-- selected chains `calculate_chain_path` removes the blocks above their highest common block,
-- top first, and adds the other chain's, bottom first.
theorem dag_traversal_exact (D : DagTraversalManager) (hdag : D.DagCorrect)
    (hstore : ChainStore D.ghostdag_store D.genesis_hash) (hreach : D.ReachabilityTreeCorrect) :
    (∀ (block : Hash) (tips : List Hash), block ∈ D.relations_store → tips.Nodup →
      (∀ t ∈ tips, t ∈ D.relations_store) →
      (∃ out, D.antipast block tips none = some (.ok out) ∧ out.Nodup ∧
        ∀ x, x ∈ out ↔ D.InAntipast tips block x) ∧
      (∃ out, D.anticone block tips none = some (.ok out) ∧ out.Nodup ∧
        ∀ x, x ∈ out ↔ D.InAntipast tips block x ∧ ¬D.Past block x) ∧
      ∀ m, D.antipast block tips (some m) =
          (if {x | D.InAntipast tips block x}.ncard ≤ m then D.antipast block tips none
            else some (.error (.ReachedMaxTraversalAllowed (m + 1) m))) ∧
        D.anticone block tips (some m) =
          (if {x | D.InAntipast tips block x}.ncard ≤ m then D.anticone block tips none
            else some (.error (.ReachedMaxTraversalAllowed (m + 1) m)))) ∧
    ∀ (from_ to_ : Hash) (chain_from chain_to : List Hash),
      SelectedChain D.ghostdag_store D.genesis_hash from_ chain_from →
      SelectedChain D.ghostdag_store D.genesis_hash to_ chain_to →
      ∃ path, D.calculate_chain_path from_ to_ = some path ∧
        ∃ pre c, chain_from = pre ++ c :: path.removed.reverse ∧
          chain_to = pre ++ c :: path.added ∧ (∀ x ∈ path.removed, x ∉ chain_to) ∧
          chain_from.take (chain_from.length - path.removed.length) ++ path.added = chain_to := by
  refine ⟨fun block tips hblock htips hstored => ⟨?_, ?_, fun m => ⟨?_, ?_⟩⟩, ?_⟩
  · obtain ⟨seen, hnodup, hmem, hrun⟩ :=
      @antipast_traversal_none D hdag tips block hblock false htips hstored
    refine ⟨seen, by simpa [antipast] using hrun, hnodup, hmem⟩
  · obtain ⟨seen, hnodup, hmem, hrun⟩ :=
      @antipast_traversal_none D hdag tips block hblock true htips hstored
    refine ⟨_, hrun, hnodup.filter _, fun x => ?_⟩
    rw [List.mem_filter, hmem]
    -- a block of the antipast is stored, where the service answers exactly
    have hiff : x ∈ D.relations_store → (D.is_dag_ancestor_of block x = true ↔ D.Past block x) :=
      hdag.is_dag_ancestor_of_iff block x hblock
    constructor
    · rintro ⟨hx, hkeep⟩
      obtain ⟨⟨t, ht, hxt⟩, -⟩ := id hx
      have hxs := stored_of_past hdag hxt (hstored t ht)
      exact ⟨hx, fun h => by simp [(hiff hxs).mpr h] at hkeep⟩
    · rintro ⟨hx, hnot⟩
      obtain ⟨⟨t, ht, hxt⟩, -⟩ := id hx
      have hxs := stored_of_past hdag hxt (hstored t ht)
      have hfalse : D.is_dag_ancestor_of block x = false :=
        Bool.eq_false_iff.mpr fun h => hnot ((hiff hxs).mp h)
      exact ⟨hx, by simp [hfalse]⟩
  · exact antipast_traversal_some hdag hblock htips hstored m
  · exact antipast_traversal_some hdag hblock htips hstored m
  · intro from_ to_ chain_from chain_to hfrom hto
    obtain ⟨path, hpath, pre, c, hfrom_eq, hto_eq, hremoved⟩ :=
      calculate_chain_path_spec hstore hreach hfrom hto
    exact ⟨path, hpath, pre, c, hfrom_eq, hto_eq, hremoved, take_append_added hfrom_eq hto_eq⟩

section ForkTraversal

open HeaderProcessor DagTraversalManager

-- The traversal manager of the forked DAG; its reachability tree is the selected-parent tree.
def fork_traversal_manager : DagTraversalManager where
  genesis_hash := [1]
  ghostdag_store := fork_node_6.ghostdag_store
  relations_store := fork_node_6.relations_store
  is_dag_ancestor_of := fork_node_6.reachability_service
  is_chain_ancestor_of a b := decide (a ∈ fork_chain b)
  reachability_parent := ((((((∅ : AList fun _ : Hash => Hash).insert [1] ORIGIN).insert [2]
    [1]).insert [3] [1]).insert [4] [1]).insert [5] [4]).insert [6] [5]

theorem fork_traversal_manager_dag : fork_traversal_manager.DagCorrect where
  parents_stored a b h := fork_node_6_built.1.inv.parents_present a b h
  is_dag_ancestor_of_iff a b ha hb := fork_node_6_built.2 a b ha hb

theorem fork_traversal_manager_tree : fork_traversal_manager.ReachabilityTreeCorrect where
  genesis_parent := by decide
  tree_parent := AListFold.forall_lookup_of_forall_keys (by decide)
  is_chain_ancestor_of_iff h a := by
    rw [h.eq_table fork_chain_store rfl fork_chain_step]
    exact decide_eq_true_iff

-- Over the fork, from the tip [6]: the antipast of [3] is the other two branches with the
-- merge above them, its anticone the other two branches, a bound of 3 stops the search at
-- the fourth block, and the path from [3] to [6] removes [3] and adds [4], [5] and [6].
theorem dag_traversal_exact_fork :
    fork_traversal_manager.antipast [3] [[6]] none = some (.ok [[6], [5], [2], [4]]) ∧
    (∀ x, x ∈ [[6], [5], [2], [4]] ↔ fork_traversal_manager.InAntipast [[6]] [3] x) ∧
    fork_traversal_manager.anticone [3] [[6]] none = some (.ok [[2], [4]]) ∧
    (∀ x, x ∈ [[2], [4]] ↔
      fork_traversal_manager.InAntipast [[6]] [3] x ∧ ¬fork_traversal_manager.Past [3] x) ∧
    fork_traversal_manager.antipast [3] [[6]] (some 3) =
      some (.error (.ReachedMaxTraversalAllowed 4 3)) ∧
    fork_traversal_manager.calculate_chain_path [3] [6] = some ⟨[[4], [5], [6]], [[3]]⟩ := by
  have hexact := dag_traversal_exact fork_traversal_manager fork_traversal_manager_dag
    fork_chain_store fork_traversal_manager_tree
  have hblock : [3] ∈ fork_traversal_manager.relations_store := by decide
  have htips : ∀ t ∈ [[6]], t ∈ fork_traversal_manager.relations_store := by decide
  obtain ⟨⟨A, hA, hAnodup, hAiff⟩, ⟨C, hC, -, hCiff⟩, hbound⟩ :=
    hexact.1 [3] [[6]] hblock (List.nodup_singleton _) htips
  have hA' : fork_traversal_manager.antipast [3] [[6]] none = some (.ok [[6], [5], [2], [4]]) := by
    decide
  have hC' : fork_traversal_manager.anticone [3] [[6]] none = some (.ok [[2], [4]]) := by
    decide
  obtain rfl : A = [[6], [5], [2], [4]] := by simpa [hA] using hA'
  obtain rfl : C = [[2], [4]] := by simpa [hC] using hC'
  -- the search counts the four blocks of the antipast
  have hcard : {x | fork_traversal_manager.InAntipast [[6]] [3] x}.ncard = 4 := by
    rw [show {x | fork_traversal_manager.InAntipast [[6]] [3] x} = {x | x ∈ [[6], [5], [2], [4]]}
      from Set.ext fun x => (hAiff x).symm, ncard_mem_of_nodup hAnodup]
    rfl
  refine ⟨hA', hAiff, hC', hCiff, ?_, by decide⟩
  rw [(hbound 3).1, hcard, if_neg (by decide)]

end ForkTraversal

end Waglayla.Consensus
