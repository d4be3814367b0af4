import Waglayla.Consensus.Ghostdag.Blues
import Mathlib.Data.List.Sort

-- The selected parent (highest blue work) and the mergeset a new block's GHOSTDAG data starts
-- from, in ascending blue work.

namespace Waglayla.Consensus.GhostdagManager

open DagPast

variable {M : GhostdagManager}

section Lists

theorem le_of_max?_eq_some {α : Type*} [LinearOrder α] {l : List α} {m : α}
    (h : l.max? = some m) : ∀ x ∈ l, x ≤ m := by
  induction l generalizing m with
  | nil => simp at h
  | cons a l ih =>
    rw [List.max?_cons, Option.some.injEq] at h
    cases hl : l.max? with
    | none =>
      rw [List.max?_eq_none_iff.mp hl]
      rw [hl] at h
      intro x hx
      rw [List.mem_singleton.mp hx, ← h]
      rfl
    | some m' =>
      rw [hl] at h
      intro x hx
      rw [← h]
      rcases List.mem_cons.mp hx with rfl | hx
      · exact le_max_left _ _
      · exact (ih hl x hx).trans (le_max_right _ _)

end Lists

section HashSet

theorem mem_insert_hash {set : List Hash} {hash x : Hash} :
    x ∈ insert_hash set hash ↔ x ∈ set ∨ x = hash := by
  unfold insert_hash
  split_ifs with h
  · exact ⟨.inl, fun hx => hx.elim id (fun hx => hx ▸ h)⟩
  · simp

theorem nodup_insert_hash {set : List Hash} (hset : set.Nodup) (hash : Hash) :
    (insert_hash set hash).Nodup := by
  unfold insert_hash
  split_ifs with h
  · exact hset
  · exact hset.append (List.nodup_singleton hash) (by simpa using h)

theorem mem_foldl_insert_hash (l : List Hash) {set : List Hash} {x : Hash} :
    x ∈ l.foldl insert_hash set ↔ x ∈ set ∨ x ∈ l := by
  induction l generalizing set with
  | nil => simp
  | cons y l ih =>
    rw [List.foldl_cons, ih, mem_insert_hash]
    simp only [List.mem_cons]
    tauto

theorem nodup_foldl_insert_hash (l : List Hash) {set : List Hash} (hset : set.Nodup) :
    (l.foldl insert_hash set).Nodup := by
  induction l generalizing set with
  | nil => exact hset
  | cons y l ih => exact ih (nodup_insert_hash hset y)

end HashSet

section Search

variable {sp : Hash} {parents : List Hash}

variable (M) in
-- The state of the search: the mergeset found so far holds stored blocks of the past of
-- the parents off the selected parent's chain, and the queue holds blocks of the mergeset.
structure SearchInv (sp : Hash) (parents : List Hash) (queue mergeset : List Hash) : Prop where
  nodup : mergeset.Nodup
  queue_sub : ∀ x ∈ queue, x ∈ mergeset
  mem : ∀ x ∈ mergeset, x ∈ M.relations_store
  below : ∀ x ∈ mergeset, ∃ p ∈ parents, M.Past x p
  off_chain : ∀ x ∈ mergeset, ¬M.Past x sp

variable (M) in
-- Queued blocks plus stored blocks not yet found: each round takes one off.
noncomputable def search_measure (queue mergeset : List Hash) : Nat :=
  open Classical in queue.length + (M.relations_store.keys.toFinset \ mergeset.toFinset).card

variable (M) in
-- What the search has settled: the blocks it put aside are in the selected parent's past,
-- the parents other than the selected parent are found, and a found block off the queue
-- has each of its parents found or in the selected parent's past.
structure SearchClosed (sp : Hash) (parents : List Hash) (queue mergeset past : List Hash) :
    Prop where
  past_below : ∀ z ∈ past, M.Past z sp
  parents_found : ∀ p ∈ parents, p ≠ sp → p ∈ mergeset
  closed : ∀ y ∈ mergeset, y ∉ queue → ∀ z, M.IsParent z y → z ∈ mergeset ∨ M.Past z sp

-- One search state extends another: the queue and the mergeset only grow, and a block new
-- to the mergeset is queued. The blocks put aside do not count.
structure SearchGrows (s s' : List Hash × List Hash × List Hash) : Prop where
  queue_sub : ∀ x ∈ s.1, x ∈ s'.1
  mergeset_sub : ∀ x ∈ s.2.1, x ∈ s'.2.1
  new_queued : ∀ x ∈ s'.2.1, x ∉ s.2.1 → x ∈ s'.1

theorem SearchGrows.refl (queue mergeset past past' : List Hash) :
    SearchGrows (queue, mergeset, past) (queue, mergeset, past') :=
  ⟨fun _ hx => hx, fun _ hx => hx, fun _ hx hx' => absurd hx hx'⟩

theorem SearchGrows.trans {s s' s'' : List Hash × List Hash × List Hash} (h : SearchGrows s s')
    (h' : SearchGrows s' s'') : SearchGrows s s'' where
  queue_sub x hx := h'.queue_sub x (h.queue_sub x hx)
  mergeset_sub x hx := h'.mergeset_sub x (h.mergeset_sub x hx)
  new_queued x hx hx' := by
    by_cases hmid : x ∈ s'.2.1
    · exact h'.queue_sub x (h.new_queued x hmid hx')
    · exact h'.new_queued x hx hmid

-- The search starts closed: every block found is still queued.
theorem search_closed_init :
    M.SearchClosed sp parents (parents.filter (· != sp))
      ((parents.filter (· != sp)).foldl insert_hash []) [] where
  past_below _ hz := absurd hz List.not_mem_nil
  parents_found p hp hne := (mem_foldl_insert_hash _).mpr (.inr (List.mem_filter.mpr ⟨hp, by simpa using hne⟩))
  closed y hy hyq := by
    rcases (mem_foldl_insert_hash _).mp hy with hy | hy
    · cases hy
    · exact absurd hy hyq

theorem SearchClosed.forget_past {queue mergeset past : List Hash}
    (h : M.SearchClosed sp parents queue mergeset past) : M.SearchClosed sp parents queue mergeset [] :=
  { h with past_below := fun _ hz => absurd hz List.not_mem_nil }

-- Popping a block and visiting all its parents keeps the search closed.
theorem search_closed_pop {current : Hash} {current_parents queue mergeset past : List Hash}
    {r : List Hash × List Hash × List Hash}
    (hps : M.relations_store.lookup current = some current_parents)
    (hclosed : M.SearchClosed sp parents (current :: queue) mergeset past)
    (hgrow : SearchGrows (queue, mergeset, past) r) (hpast : ∀ z ∈ r.2.2, M.Past z sp)
    (hfound : ∀ z ∈ current_parents, z ∈ r.2.1 ∨ M.Past z sp) :
    M.SearchClosed sp parents r.1 r.2.1 r.2.2 where
  past_below := hpast
  parents_found p hp hne := hgrow.mergeset_sub p (hclosed.parents_found p hp hne)
  closed y hy hyq z hz := by
    by_cases hym : y ∈ mergeset
    · by_cases hyc : y = current
      -- the popped block: its parents are the ones just visited
      · subst hyc
        obtain ⟨ps, hps', hz⟩ := hz
        rw [hps, Option.some.injEq] at hps'
        exact hfound z (hps' ▸ hz)
      · have hyq' : y ∉ current :: queue := fun h =>
          (List.mem_cons.mp h).elim hyc fun h => hyq (hgrow.queue_sub y h)
        exact (hclosed.closed y hym hyq' z hz).imp_left (hgrow.mergeset_sub z)
    · exact absurd (hgrow.new_queued y hy hym) hyq

variable (hinv : M.Inv) (hreach : M.ReachabilityCorrect) (hsp : sp ∈ M.relations_store)
include hinv hreach hsp

-- Visiting a parent of a block of the mergeset keeps the invariant and the measure.
theorem search_visit {current : Hash}
    (hbelow : ∃ p ∈ parents, M.Past current p) {queue mergeset : List Hash} (past : List Hash)
    (hinvs : M.SearchInv sp parents queue mergeset) {parent : Hash}
    (hparent : M.IsParent parent current) :
    let r := unordered_mergeset_without_selected_parent.visit M.reachability_service sp
      (queue, mergeset, past) parent
    M.SearchInv sp parents r.1 r.2.1 ∧
      M.search_measure r.1 r.2.1 = M.search_measure queue mergeset := by
  classical
  have hpmem : parent ∈ M.relations_store := hinv.parents_present _ _ hparent
  simp only [unordered_mergeset_without_selected_parent.visit]
  split_ifs with hseen hpast
  · exact ⟨hinvs, rfl⟩
  · exact ⟨hinvs, rfl⟩
  -- a new block of the mergeset: pushed on the queue and taken off the blocks not found
  have hnew : parent ∉ mergeset := fun h => hseen (.inl h)
  have hoff : ¬M.Past parent sp := fun h =>
    hpast ((hreach parent sp hpmem hsp).mpr h)
  have hins : insert_hash mergeset parent = mergeset ++ [parent] := by
    simp [insert_hash, hnew]
  refine ⟨⟨?_, ?_, ?_, ?_, ?_⟩, ?_⟩
  · exact nodup_insert_hash hinvs.nodup parent
  · intro x hx
    rw [mem_insert_hash]
    rcases List.mem_append.mp hx with hx | hx
    · exact .inl (hinvs.queue_sub x hx)
    · exact .inr (List.mem_singleton.mp hx)
  · intro x hx
    rcases mem_insert_hash.mp hx with hx | rfl
    · exact hinvs.mem x hx
    · exact hpmem
  · intro x hx
    rcases mem_insert_hash.mp hx with hx | rfl
    · exact hinvs.below x hx
    · obtain ⟨p, hp, hcp⟩ := hbelow
      exact ⟨p, hp, (past_of_parent hparent).trans hcp⟩
  · intro x hx
    rcases mem_insert_hash.mp hx with hx | rfl
    · exact hinvs.off_chain x hx
    · exact hoff
  · have hkey : parent ∈ M.relations_store.keys.toFinset \ mergeset.toFinset := by
      simp [AList.mem_keys.mp hpmem, hnew]
    have hsdiff : M.relations_store.keys.toFinset \ (mergeset ++ [parent]).toFinset =
        (M.relations_store.keys.toFinset \ mergeset.toFinset).erase parent := by
      ext x
      simp only [Finset.mem_sdiff, List.mem_toFinset, List.mem_append, List.mem_singleton,
        Finset.mem_erase]
      tauto
    have hcard := Finset.card_erase_of_mem hkey
    have hpos := Finset.card_pos.mpr ⟨parent, hkey⟩
    simp only [search_measure, hins, hsdiff, hcard, List.length_append, List.length_singleton]
    omega

theorem search_visit_all {current : Hash} (hbelow : ∃ p ∈ parents, M.Past current p)
    (l : List Hash) (hl : ∀ p ∈ l, M.IsParent p current) {queue mergeset : List Hash}
    (past : List Hash) (hinvs : M.SearchInv sp parents queue mergeset) :
    let r := l.foldl (unordered_mergeset_without_selected_parent.visit M.reachability_service sp)
      (queue, mergeset, past)
    M.SearchInv sp parents r.1 r.2.1 ∧
      M.search_measure r.1 r.2.1 = M.search_measure queue mergeset := by
  induction l generalizing queue mergeset past with
  | nil => exact ⟨hinvs, rfl⟩
  | cons parent l ih =>
    obtain ⟨hinv', hmeasure⟩ := search_visit hinv hreach hsp hbelow past hinvs
      (hl parent List.mem_cons_self)
    obtain ⟨hinv'', hmeasure'⟩ := ih (fun p hp => hl p (List.mem_cons_of_mem _ hp)) _ hinv'
    exact ⟨hinv'', hmeasure'.trans hmeasure⟩

-- With fuel for the measure, the search ends with the invariant.
theorem search_go (fuel : Nat) :
    ∀ {queue mergeset past : List Hash}, M.SearchInv sp parents queue mergeset →
      M.search_measure queue mergeset ≤ fuel →
      ∃ ms, unordered_mergeset_without_selected_parent.go M.relations_store M.reachability_service
          sp fuel queue mergeset past = some ms ∧ M.SearchInv sp parents [] ms := by
  induction fuel with
  | zero =>
    intro queue mergeset past hinvs hfuel
    cases queue with
    | nil => exact ⟨mergeset, rfl, hinvs⟩
    | cons _ _ => simp [search_measure] at hfuel
  | succ fuel ih =>
    intro queue mergeset past hinvs hfuel
    cases queue with
    | nil => exact ⟨mergeset, rfl, hinvs⟩
    | cons current queue =>
      have hcurrent := hinvs.mem current (hinvs.queue_sub current List.mem_cons_self)
      have hbelow := hinvs.below current (hinvs.queue_sub current List.mem_cons_self)
      obtain ⟨current_parents, hps⟩ := Option.isSome_iff_exists.mp (AList.lookup_isSome.mpr hcurrent)
      -- popping `current` leaves the rest of the queue under the invariant
      have hpop : M.SearchInv sp parents queue mergeset :=
        { hinvs with queue_sub := fun x hx => hinvs.queue_sub x (List.mem_cons_of_mem _ hx) }
      obtain ⟨hinv', hmeasure⟩ := search_visit_all hinv hreach hsp hbelow current_parents
        (fun p hp => ⟨current_parents, hps, hp⟩) past hpop
      have hle : M.search_measure queue mergeset ≤ fuel := by
        simp only [search_measure, List.length_cons] at hfuel ⊢
        omega
      obtain ⟨ms, hms, hinvms⟩ := ih hinv' (hmeasure ▸ hle)
      refine ⟨ms, ?_, hinvms⟩
      simp only [unordered_mergeset_without_selected_parent.go, hps, Option.bind_eq_bind,
        Option.bind_some]
      exact hms

omit hinv in
-- Visiting a block finds it or puts it aside in the selected parent's past.
theorem search_visit_closed (queue mergeset : List Hash) {past : List Hash}
    (hpast : ∀ z ∈ past, M.Past z sp)
    {parent : Hash} (hpmem : parent ∈ M.relations_store) :
    let r := unordered_mergeset_without_selected_parent.visit M.reachability_service sp
      (queue, mergeset, past) parent
    SearchGrows (queue, mergeset, past) r ∧ (∀ z ∈ r.2.2, M.Past z sp) ∧
      (parent ∈ r.2.1 ∨ M.Past parent sp) := by
  simp only [unordered_mergeset_without_selected_parent.visit]
  split_ifs with hseen hreached
  · exact ⟨SearchGrows.refl _ _ _ _, hpast, hseen.imp_right (hpast parent)⟩
  · have hbelow := (hreach parent sp hpmem hsp).mp hreached
    refine ⟨SearchGrows.refl _ _ _ _, fun z hz => ?_, .inr hbelow⟩
    rcases mem_insert_hash.mp hz with hz | rfl
    · exact hpast z hz
    · exact hbelow
  · refine ⟨⟨fun x hx => List.mem_append_left _ hx, fun x hx => mem_insert_hash.mpr (.inl hx),
      fun x hx hx' => ?_⟩, hpast, .inl (mem_insert_hash.mpr (.inr rfl))⟩
    rcases mem_insert_hash.mp hx with hx | rfl
    · exact absurd hx hx'
    · exact List.mem_append_right _ (List.mem_singleton_self x)

theorem search_visit_all_closed {current : Hash} (l : List Hash)
    (hl : ∀ p ∈ l, M.IsParent p current) {queue mergeset past : List Hash}
    (hpast : ∀ z ∈ past, M.Past z sp) :
    let r := l.foldl (unordered_mergeset_without_selected_parent.visit M.reachability_service sp)
      (queue, mergeset, past)
    SearchGrows (queue, mergeset, past) r ∧ (∀ z ∈ r.2.2, M.Past z sp) ∧
      ∀ z ∈ l, z ∈ r.2.1 ∨ M.Past z sp := by
  induction l generalizing queue mergeset past with
  | nil => exact ⟨SearchGrows.refl _ _ _ _, hpast, fun _ hz => absurd hz List.not_mem_nil⟩
  | cons parent l ih =>
    obtain ⟨hgrow, hpast', hparent⟩ := search_visit_closed hreach hsp queue mergeset hpast (hinv.parents_present _ _ (hl parent List.mem_cons_self))
    obtain ⟨hgrow', hpast'', hrest⟩ := ih (fun p hp => hl p (List.mem_cons_of_mem _ hp)) hpast'
    refine ⟨hgrow.trans hgrow', hpast'', fun z hz => ?_⟩
    rcases List.mem_cons.mp hz with rfl | hz
    · exact hparent.imp_left (hgrow'.mergeset_sub z)
    · exact hrest z hz

-- A search that ends has found, with each block, every parent off the selected parent's past.
theorem search_go_closed (fuel : Nat) :
    ∀ {queue mergeset past ms : List Hash}, M.SearchClosed sp parents queue mergeset past →
      unordered_mergeset_without_selected_parent.go M.relations_store M.reachability_service
          sp fuel queue mergeset past = some ms → M.SearchClosed sp parents [] ms [] := by
  induction fuel with
  | zero =>
    intro queue mergeset past ms hclosed hgo
    cases queue with
    | nil => exact Option.some.inj hgo ▸ hclosed.forget_past
    | cons _ _ => cases hgo
  | succ fuel ih =>
    intro queue mergeset past ms hclosed hgo
    cases queue with
    | nil => exact Option.some.inj hgo ▸ hclosed.forget_past
    | cons current queue =>
      cases hps : M.relations_store.lookup current with
      | none => simp [unordered_mergeset_without_selected_parent.go, hps] at hgo
      | some current_parents =>
        simp only [unordered_mergeset_without_selected_parent.go, hps, Option.bind_eq_bind,
          Option.bind_some] at hgo
        obtain ⟨hgrow, hpast, hfound⟩ := search_visit_all_closed hinv hreach hsp current_parents
          (fun p hp => ⟨current_parents, hps, hp⟩) hclosed.past_below
        exact ih (search_closed_pop hps hclosed hgrow hpast hfound) hgo

end Search

section Order

-- The sortable block of a stored block.
theorem lookup_sortable {x : Hash} (hx : x ∈ M.ghostdag_store) :
    (M.ghostdag_store.lookup x).map (fun data => SortableBlock.mk x data.blue_work) =
      some ⟨x, M.blue_work_of x⟩ := by
  obtain ⟨data, hdata⟩ := Option.isSome_iff_exists.mp (AList.lookup_isSome.mpr hx)
  simp [hdata, blue_work_of]

-- The selected parent is the parent of greatest blue work, ties broken by hash.
theorem find_selected_parent_spec {parents : List Hash} (hne : parents ≠ [])
    (hall : ∀ p ∈ parents, p ∈ M.ghostdag_store) :
    ∃ sp, M.find_selected_parent parents = some sp ∧ sp ∈ parents ∧
      ∀ p ∈ parents, (⟨p, M.blue_work_of p⟩ : SortableBlock) ≤ ⟨sp, M.blue_work_of sp⟩ := by
  have hmap := mapM_eq_some_map (g := fun p => (⟨p, M.blue_work_of p⟩ : SortableBlock))
    fun p hp => lookup_sortable (hall p hp)
  obtain ⟨p0, hp0⟩ := List.exists_mem_of_ne_nil parents hne
  obtain ⟨m, hm⟩ : ∃ m, (parents.map fun p => (⟨p, M.blue_work_of p⟩ : SortableBlock)).max? = some m :=
    Option.isSome_iff_exists.mp (List.isSome_max?_of_mem (List.mem_map_of_mem hp0))
  obtain ⟨sp, hsp, rfl⟩ := List.mem_map.mp (List.max?_mem hm)
  refine ⟨sp, ?_, hsp, fun p hp => le_of_max?_eq_some hm _ (List.mem_map_of_mem hp)⟩
  simp [find_selected_parent, hmap, hm]

-- Sorting keeps the blocks and puts them in ascending blue work.
theorem sort_blocks_spec {blocks : List Hash} (hall : ∀ x ∈ blocks, x ∈ M.ghostdag_store) :
    ∃ sorted, M.sort_blocks blocks = some sorted ∧ sorted.Perm blocks ∧
      sorted.Pairwise fun a b =>
        (⟨a, M.blue_work_of a⟩ : SortableBlock) ≤ ⟨b, M.blue_work_of b⟩ := by
  set g := fun x => (⟨x, M.blue_work_of x⟩ : SortableBlock)
  have hmap := mapM_eq_some_map (g := g) fun x hx => lookup_sortable (hall x hx)
  have hsorted := List.pairwise_insertionSort (fun a b : SortableBlock => a ≤ b) (blocks.map g)
  have hperm := List.perm_insertionSort (fun a b : SortableBlock => a ≤ b) (blocks.map g)
  refine ⟨((blocks.map g).insertionSort (· ≤ ·)).map SortableBlock.hash, ?_, ?_, ?_⟩
  · simp [sort_blocks, hmap]
  · simpa [g, Function.comp_def] using hperm.map SortableBlock.hash
  · rw [List.pairwise_map]
    refine hsorted.imp_of_mem fun ha hb hab => ?_
    obtain ⟨a', -, rfl⟩ := List.mem_map.mp (hperm.subset ha)
    obtain ⟨b', -, rfl⟩ := List.mem_map.mp (hperm.subset hb)
    exact hab

end Order

section Ordered

variable {sp : Hash} {parents : List Hash}

variable (M) in
-- What the colouring loop reads of the ordered mergeset: distinct stored blocks of the
-- past of the parents, off the selected parent's chain, in ascending blue work.
structure OrderedMergeset (sp : Hash) (parents : List Hash) (ms : List Hash) : Prop where
  nodup : ms.Nodup
  mem : ∀ x ∈ ms, x ∈ M.ghostdag_store
  below : ∀ x ∈ ms, ∃ p ∈ parents, M.Past x p
  off_chain : ∀ x ∈ ms, ¬M.Past x sp
  sorted : ms.Pairwise fun a b =>
    (⟨a, M.blue_work_of a⟩ : SortableBlock) ≤ ⟨b, M.blue_work_of b⟩

theorem OrderedMergeset.sublist {ms ms' : List Hash} (h : M.OrderedMergeset sp parents ms)
    (hsub : ms'.Sublist ms) : M.OrderedMergeset sp parents ms' where
  nodup := h.nodup.sublist hsub
  mem x hx := h.mem x (hsub.subset hx)
  below x hx := h.below x (hsub.subset hx)
  off_chain x hx := h.off_chain x (hsub.subset hx)
  sorted := h.sorted.sublist hsub

theorem search_measure_init :
    M.search_measure (parents.filter (· != sp)) ((parents.filter (· != sp)).foldl insert_hash []) ≤
      parents.length + M.relations_store.entries.length := by
  classical
  have hqueue := List.length_filter_le (· != sp) parents
  have hkeys : M.relations_store.keys.toFinset.card ≤ M.relations_store.entries.length := by
    simpa [AList.keys, List.keys] using List.toFinset_card_le M.relations_store.keys
  have hsdiff := Finset.card_le_card (Finset.sdiff_subset (s := M.relations_store.keys.toFinset)
    (t := ((parents.filter (· != sp)).foldl insert_hash []).toFinset))
  unfold search_measure
  omega

variable (hall : ∀ p ∈ parents, p ∈ M.relations_store)
  (hanti : ∀ p ∈ parents, ∀ q ∈ parents, p ≠ q → ¬M.Past p q)
include hall hanti

-- The search starts from the parents other than the selected parent, none of which is in
-- its past since the parents are an antichain.
theorem search_inv_init (hsp : sp ∈ parents) :
    M.SearchInv sp parents (parents.filter (· != sp))
      ((parents.filter (· != sp)).foldl insert_hash []) where
  nodup := nodup_foldl_insert_hash _ List.nodup_nil
  queue_sub _ hx := (mem_foldl_insert_hash _).mpr (.inr hx)
  mem x hx := by
    rcases (mem_foldl_insert_hash _).mp hx with hx | hx
    · cases hx
    · exact hall x (List.mem_of_mem_filter hx)
  below x hx := by
    rcases (mem_foldl_insert_hash _).mp hx with hx | hx
    · cases hx
    · exact ⟨x, List.mem_of_mem_filter hx, past_refl x⟩
  off_chain x hx := by
    rcases (mem_foldl_insert_hash _).mp hx with hx | hx
    · cases hx
    · have hne : x ≠ sp := by simpa using (List.mem_filter.mp hx).2
      exact hanti x (List.mem_of_mem_filter hx) sp hsp hne

variable (hinv : M.Inv) (hreach : M.ReachabilityCorrect)
include hinv hreach

omit hanti hreach in
-- ORIGIN is below the selected parent, so the blocks found off its chain have data.
theorem SearchInv.stored {found : List Hash} (hsp : sp ∈ parents)
    (hsearch : M.SearchInv sp parents [] found) : ∀ x ∈ found, x ∈ M.ghostdag_store := by
  intro x hx
  have hxo : x ≠ ORIGIN := fun h =>
    hsearch.off_chain x hx (h ▸ origin_past hinv (hall sp hsp))
  exact (hinv.same_keys x hxo).mpr (hsearch.mem x hx)

theorem unordered_mergeset_spec (hsp : sp ∈ parents) :
    ∃ ms, unordered_mergeset_without_selected_parent M.relations_store M.reachability_service
      sp parents = some ms ∧ M.SearchInv sp parents [] ms :=
  search_go hinv hreach (hall sp hsp) _ (search_inv_init hall hanti hsp)
    search_measure_init

-- The search returns exactly the blocks of the parents' past off the selected parent's past:
-- what it finds is there, and the closed search finds all of it.
theorem unordered_mergeset_mem_iff (hsp : sp ∈ parents) :
    ∃ ms, unordered_mergeset_without_selected_parent M.relations_store M.reachability_service
      sp parents = some ms ∧ M.SearchInv sp parents [] ms ∧
      ∀ x, x ∈ ms ↔ (∃ p ∈ parents, M.Past x p) ∧ ¬M.Past x sp := by
  obtain ⟨ms, hms, hsearch⟩ := unordered_mergeset_spec hall hanti hinv hreach hsp
  have hclosed := search_go_closed hinv hreach (hall sp hsp) _ search_closed_init hms
  refine ⟨ms, hms, hsearch, fun x => ⟨fun hx => ⟨hsearch.below x hx, hsearch.off_chain x hx⟩, ?_⟩⟩
  rintro ⟨⟨p, hp, hxp⟩, hx⟩
  refine mem_of_past_of_closed (fun a b hab hb => (past_of_parent hab).trans hb)
    (fun a b hab hb => (hclosed.closed b hb List.not_mem_nil a hab).symm) hxp (fun hpsp => ?_) hx
  exact hclosed.parents_found p hp fun h => hpsp (h ▸ past_refl sp)

theorem ordered_mergeset_spec (hsp : sp ∈ parents) :
    ∃ ms, M.ordered_mergeset_without_selected_parent sp parents = some ms ∧
      M.OrderedMergeset sp parents ms := by
  obtain ⟨found, hfound, hsearch⟩ := unordered_mergeset_spec hall hanti hinv hreach hsp
  have hstored := hsearch.stored hall hinv hsp
  obtain ⟨ms, hms, hperm, hsorted⟩ := M.sort_blocks_spec hstored
  refine ⟨ms, by simp [ordered_mergeset_without_selected_parent, hfound, hms], ?_⟩
  exact {
    nodup := hperm.nodup_iff.mpr hsearch.nodup
    mem x hx := hstored x (hperm.subset hx)
    below x hx := hsearch.below x (hperm.subset hx)
    off_chain x hx := hsearch.off_chain x (hperm.subset hx)
    sorted := hsorted }

end Ordered

end Waglayla.Consensus.GhostdagManager
