import Waglayla.Consensus.Pipeline.HeaderProcessor
import Waglayla.Consensus.Ghostdag.Run

-- Committing a new block keeps the store invariant: nothing read about the old blocks changes.

namespace Waglayla.Consensus.HeaderProcessor

open DagPast GhostdagManager

section Frame

variable {M : GhostdagManager} {B : Hash} {parents : List Hash} {bits : UInt32}
  {data : GhostdagData} {reach : Hash → Hash → Bool}

@[simp] theorem commit_header_ghostdag_store :
    (commit_header M B parents bits data reach).ghostdag_store = M.ghostdag_store.insert B data :=
  rfl

@[simp] theorem commit_header_relations_store :
    (commit_header M B parents bits data reach).relations_store =
      M.relations_store.insert B parents :=
  rfl

@[simp] theorem commit_header_headers_store :
    (commit_header M B parents bits data reach).headers_store = M.headers_store.insert B bits :=
  rfl

@[simp] theorem commit_header_genesis_hash :
    (commit_header M B parents bits data reach).genesis_hash = M.genesis_hash :=
  rfl

@[simp] theorem commit_header_k : (commit_header M B parents bits data reach).k = M.k :=
  rfl

theorem lookup_commit {x : Hash} (hx : x ≠ B) :
    (commit_header M B parents bits data reach).ghostdag_store.lookup x =
      M.ghostdag_store.lookup x := by
  simp [AList.lookup_insert_ne hx]

theorem is_parent_commit {a b : Hash} (hb : b ≠ B) :
    (commit_header M B parents bits data reach).IsParent a b ↔ M.IsParent a b := by
  simp [IsParent, AList.lookup_insert_ne hb]

theorem is_parent_commit_new {a : Hash} :
    (commit_header M B parents bits data reach).IsParent a B ↔ a ∈ parents := by
  simp [IsParent, AList.lookup_insert]

theorem blue_work_of_commit {x : Hash} (hx : x ≠ B) :
    (commit_header M B parents bits data reach).blue_work_of x = M.blue_work_of x := by
  simp only [blue_work_of, lookup_commit hx]

theorem work_of_commit {x : Hash} (hx : x ≠ B) :
    (commit_header M B parents bits data reach).work_of x = M.work_of x := by
  simp only [work_of, commit_header_headers_store, AList.lookup_insert_ne hx]

theorem chain_fuel_commit {d : GhostdagData} (hd : d.selected_parent ≠ B) :
    (commit_header M B parents bits data reach).chain_fuel d = M.chain_fuel d := by
  simp only [chain_fuel, lookup_commit hd]

theorem sortable_commit {x : Hash} (hx : x ≠ B) :
    (commit_header M B parents bits data reach).sortable x = M.sortable x := by
  simp only [sortable, blue_work_of_commit hx]

theorem mem_commit {x : Hash} (hx : x ∈ M.ghostdag_store) :
    x ∈ (commit_header M B parents bits data reach).ghostdag_store := by
  rw [commit_header_ghostdag_store, AList.mem_insert]
  exact .inr hx

theorem ne_new_of_mem (hB : B ∉ M.relations_store) {x : Hash} (hx : x ∈ M.relations_store) :
    x ≠ B :=
  fun h => hB (h ▸ hx)

variable (hinv : M.Inv) (hB : B ∉ M.relations_store)
include hinv hB

theorem origin_ne_new : ORIGIN ≠ B :=
  ne_new_of_mem hB (AList.lookup_isSome.mp (by rw [hinv.origin_parents]; rfl))

-- The past of an old block is unchanged: its parents are old.
theorem past_commit {a b : Hash} (hb : b ∈ M.relations_store) :
    (commit_header M B parents bits data reach).Past a b ↔ M.Past a b :=
  past_congr (· ∈ M.relations_store)
    (fun x y (hxy : (commit_header M B parents bits data reach).IsParent x y) hy =>
      hinv.parents_present x y ((is_parent_commit (ne_new_of_mem hB hy)).mp hxy))
    (fun _ _ hy => is_parent_commit (ne_new_of_mem hB hy)) hb

theorem anticone_commit {a b : Hash} (ha : a ∈ M.relations_store) (hb : b ∈ M.relations_store) :
    (commit_header M B parents bits data reach).Anticone a b ↔ M.Anticone a b := by
  show (¬(commit_header M B parents bits data reach).Past a b ∧
      ¬(commit_header M B parents bits data reach).Past b a) ↔ ¬M.Past a b ∧ ¬M.Past b a
  rw [past_commit hinv hB hb, past_commit hinv hB ha]

theorem past_commit_new (hparents : ∀ p ∈ parents, p ∈ M.relations_store) {x : Hash}
    (h : ∃ p ∈ parents, M.Past x p) : (commit_header M B parents bits data reach).Past x B := by
  obtain ⟨p, hp, hxp⟩ := h
  exact Relation.ReflTransGen.tail ((past_commit hinv hB (hparents p hp)).mpr hxp)
    (is_parent_commit_new.mpr hp)

omit hB in
-- A block in the past of an old block is old.
theorem mem_of_past_old {a b : Hash} (hab : M.Past a b) (hb : b ∈ M.relations_store) :
    a ∈ M.relations_store :=
  mem_of_past (fun x y hxy _ => hinv.parents_present x y hxy) hab hb

-- The new block's past is itself and the past of its parents.
theorem past_commit_new_iff (hparents : ∀ p ∈ parents, p ∈ M.relations_store) {x : Hash} :
    (commit_header M B parents bits data reach).Past x B ↔ x = B ∨ ∃ p ∈ parents, M.Past x p := by
  constructor
  · intro h
    rcases Relation.ReflTransGen.cases_tail h with rfl | ⟨y, hxy, hyB⟩
    · exact .inl rfl
    · have hy := is_parent_commit_new.mp hyB
      exact .inr ⟨y, hy, (past_commit hinv hB (hparents y hy)).mp hxy⟩
  · rintro (rfl | h)
    · exact past_refl _
    · exact past_commit_new hinv hB hparents h

-- A reachability service that answers as before on the old blocks, puts the new block above
-- the past of its parents and below no old block answers exactly after the commit.
theorem reachability_correct_commit (hreach : M.ReachabilityCorrect)
    (hparents : ∀ p ∈ parents, p ∈ M.relations_store)
    (hold : ∀ a ∈ M.relations_store, ∀ b ∈ M.relations_store,
      reach a b = M.reachability_service a b)
    (hnew : ∀ a ∈ M.relations_store, reach a B = parents.any (M.reachability_service a))
    (hnew_old : ∀ b ∈ M.relations_store, reach B b = false) (hself : reach B B = true) :
    (commit_header M B parents bits data reach).ReachabilityCorrect := by
  intro a b ha hb
  simp only [commit_header_relations_store, AList.mem_insert] at ha hb
  show reach a b = true ↔ _
  rcases hb with rfl | hb
  · -- the new block: its past is itself and the past of its parents
    rw [past_commit_new_iff hinv hB hparents]
    rcases ha with rfl | ha
    · simp [hself]
    · rw [hnew a ha, List.any_eq_true]
      constructor
      · rintro ⟨p, hp, hap⟩
        exact .inr ⟨p, hp, (hreach a p ha (hparents p hp)).mp hap⟩
      · rintro (rfl | ⟨p, hp, hap⟩)
        · exact absurd ha hB
        · exact ⟨p, hp, (hreach a p ha (hparents p hp)).mpr hap⟩
  · -- an old block: its past is as before, and holds old blocks only
    rw [past_commit hinv hB hb]
    rcases ha with rfl | ha
    · rw [hnew_old b hb]
      exact ⟨fun h => absurd h Bool.false_ne_true,
        fun h => absurd (mem_of_past_old hinv h hb) hB⟩
    · rw [hold a ha b hb]
      exact hreach a b ha hb

-- The selected parent of stored data is an old block or ORIGIN, never the new block.
theorem selected_parent_ne_new {X : Hash} {d : GhostdagData}
    (hX : M.ghostdag_store.lookup X = some d) : d.selected_parent ≠ B := by
  by_cases hg : X = M.genesis_hash
  · subst hg
    rw [hinv.genesis_data] at hX
    cases hX
    exact origin_ne_new hinv hB
  · exact ne_new_of_mem hB (mem_relations hinv (hinv.block X d hX hg).selected_parent_mem)

-- A worldview whose selected parent is old sees the same blue set: the walk down its
-- chain meets old data only.
theorem in_blues_of_commit {d : GhostdagData} {x : Hash}
    (h : (commit_header M B parents bits data reach).InBlues d x) (hd : d.selected_parent ≠ B) :
    M.InBlues d x := by
  induction h with
  | mergeset hx => exact .mergeset hx
  | @chain d d' x hsp _ ih =>
    rw [lookup_commit hd] at hsp
    exact .chain hsp (ih (selected_parent_ne_new hinv hB hsp))

theorem in_blues_to_commit {d : GhostdagData} {x : Hash} (h : M.InBlues d x)
    (hd : d.selected_parent ≠ B) : (commit_header M B parents bits data reach).InBlues d x := by
  induction h with
  | mergeset hx => exact .mergeset hx
  | @chain d d' x hsp _ ih =>
    have hsp' : (commit_header M B parents bits data reach).ghostdag_store.lookup
        d.selected_parent = some d' := by
      rw [lookup_commit hd]
      exact hsp
    exact .chain hsp' (ih (selected_parent_ne_new hinv hB hsp))

theorem in_blues_commit {d : GhostdagData} (hd : d.selected_parent ≠ B) (x : Hash) :
    (commit_header M B parents bits data reach).InBlues d x ↔ M.InBlues d x :=
  ⟨fun h => in_blues_of_commit hinv hB h hd, fun h => in_blues_to_commit hinv hB h hd⟩

theorem blue_anticone_commit {d : GhostdagData} (hd : d.selected_parent ≠ B)
    (hmem : ∀ x, M.InBlues d x → x ∈ M.relations_store) {b : Hash} (hb : b ∈ M.relations_store) :
    (commit_header M B parents bits data reach).blue_anticone d b = M.blue_anticone d b := by
  ext x
  rw [mem_blue_anticone, mem_blue_anticone, in_blues_commit hinv hB hd]
  constructor
  · rintro ⟨-, hx, hanti⟩
    have hxo := hmem x hx
    exact ⟨hxo, hx, (anticone_commit hinv hB hb hxo).mp hanti⟩
  · rintro ⟨hxo, hx, hanti⟩
    refine ⟨?_, hx, (anticone_commit hinv hB hb hxo).mpr hanti⟩
    rw [commit_header_relations_store, AList.mem_insert]
    exact .inr hxo

theorem blue_anticone_size_go_commit (block : Hash) :
    ∀ (fuel : Nat) (sizes : HashKTypeMap) (sp : Hash), sp ≠ B →
      blue_anticone_size.go (commit_header M B parents bits data reach) block fuel sizes sp =
        blue_anticone_size.go M block fuel sizes sp
  | 0, _, _, _ => rfl
  | fuel + 1, sizes, sp, hsp => by
    simp only [blue_anticone_size.go, commit_header_genesis_hash, lookup_commit hsp]
    cases hdata : M.ghostdag_store.lookup sp with
    | none => rfl
    | some d =>
      simp only [Option.bind_eq_bind, Option.bind_some,
        blue_anticone_size_go_commit block fuel _ _ (selected_parent_ne_new hinv hB hdata)]

theorem blue_anticone_size_commit {d : GhostdagData} (hd : d.selected_parent ≠ B) (block : Hash) :
    (commit_header M B parents bits data reach).blue_anticone_size block d =
      M.blue_anticone_size block d := by
  unfold blue_anticone_size
  rw [chain_fuel_commit hd, blue_anticone_size_go_commit hinv hB block _ _ _ hd]

theorem context_inv_commit {d : GhostdagData} (hd : d.selected_parent ≠ B)
    (hmem : ∀ x, M.InBlues d x → x ∈ M.relations_store) (h : M.ContextInv d) :
    (commit_header M B parents bits data reach).ContextInv d := by
  constructor
  · intro b hb'
    have hb := (in_blues_commit hinv hB hd b).mp hb'
    rw [blue_anticone_size_commit hinv hB hd, blue_anticone_commit hinv hB hd hmem (hmem b hb)]
    exact h.sizes b hb
  · intro b hb'
    have hb := (in_blues_commit hinv hB hd b).mp hb'
    rw [blue_anticone_commit hinv hB hd hmem (hmem b hb)]
    exact h.cluster b hb

-- The order of a mergeset of old blocks is the same in the grown stores.
theorem mergeset_order_commit {d : GhostdagData} (hsp : d.selected_parent ∈ M.ghostdag_store)
    (h : M.MergesetOrder d) : (commit_header M B parents bits data reach).MergesetOrder d := by
  have hold : ∀ x ∈ d.mergeset_blues.tail ++ d.mergeset_reds,
      (commit_header M B parents bits data reach).sortable x = M.sortable x := fun x hx =>
    sortable_commit (ne_new_of_mem hB (mem_relations hinv (h.mem x hx)))
  have hsp' : (commit_header M B parents bits data reach).sortable d.selected_parent =
      M.sortable d.selected_parent :=
    sortable_commit (ne_new_of_mem hB (mem_relations hinv hsp))
  refine ⟨fun x hx => mem_commit (h.mem x hx), fun x hx => ?_, ?_, ?_, h.disjoint⟩
  · rw [hold x hx, hsp']
    exact h.lt_selected_parent x hx
  · refine h.blues_sorted.imp_of_mem fun ha hb hab => ?_
    rw [hold _ (List.mem_append_left _ ha), hold _ (List.mem_append_left _ hb)]
    exact hab
  · refine h.reds_sorted.imp_of_mem fun ha hb hab => ?_
    rw [hold _ (List.mem_append_right _ ha), hold _ (List.mem_append_right _ hb)]
    exact hab

-- The data of an old block says the same in the grown stores.
theorem block_inv_commit {X : Hash} {d : GhostdagData} (hX : M.ghostdag_store.lookup X = some d)
    (hblock : M.BlockInv X d) : (commit_header M B parents bits data reach).BlockInv X d := by
  have hXB := ne_new_of_mem hB (mem_of_lookup hinv hX)
  have hsp_rel := mem_relations hinv hblock.selected_parent_mem
  refine ⟨(is_parent_commit hXB).mpr hblock.selected_parent, fun p hp => ?_,
    fun sp_data hsp => ?_, hblock.blues_head, fun x hx => ?_, fun x hx hne => ?_,
    hblock.blues_nodup, fun x hx => mem_commit (hblock.blues_mem x hx), fun x hx => ?_,
    mergeset_order_commit hinv hB hblock.selected_parent_mem hblock.mergeset_order⟩
  · have hp' := (is_parent_commit hXB).mp hp
    rw [blue_work_of_commit (ne_new_of_mem hB (hinv.parents_present p X hp'))]
    exact hblock.blue_work_lt p hp'
  · rw [lookup_commit (selected_parent_ne_new hinv hB hX)] at hsp
    exact hblock.blue_score_lt sp_data hsp
  · rw [past_commit hinv hB (mem_of_lookup hinv hX)]
    exact hblock.blues_past x hx
  · rw [past_commit hinv hB hsp_rel]
    exact hblock.blues_off_chain x hx hne
  · rw [past_commit hinv hB (mem_of_lookup hinv hX)]
    exact hblock.reds_past x hx

variable (hparents : ∀ p ∈ parents, p ∈ M.ghostdag_store) (hout : M.GhostdagOutput parents data)
include hparents hout

theorem selected_parent_ne_new_of_output : data.selected_parent ≠ B :=
  ne_new_of_mem hB (mem_relations hinv (hparents _ hout.selected_parent_mem))

-- The data `ghostdag` computed for the new block is what the invariant asks of it.
theorem block_inv_commit_new : (commit_header M B parents bits data reach).BlockInv B data := by
  have hsp_ne := selected_parent_ne_new_of_output hinv hB hparents hout
  have hsp_rel := mem_relations hinv (hparents _ hout.selected_parent_mem)
  have hrel : ∀ p ∈ parents, p ∈ M.relations_store := fun p hp => mem_relations hinv (hparents p hp)
  refine ⟨is_parent_commit_new.mpr hout.selected_parent_mem, fun p hp => ?_,
    fun sp_data hsp => ?_, hout.blues_head, fun x hx => ?_, fun x hx hne => ?_,
    hout.blues_nodup, fun x hx => mem_commit (hout.blues_mem x hx), fun x hx => ?_,
    mergeset_order_commit hinv hB (hparents _ hout.selected_parent_mem) hout.mergeset_order⟩
  · have hp' := is_parent_commit_new.mp hp
    rw [blue_work_of_commit (ne_new_of_mem hB (hrel p hp'))]
    exact hout.blue_work_lt p hp'
  -- the selected parent is first of the blues, so the score rises by at least one
  · obtain ⟨sp_data', hsp', hscore⟩ := hout.blue_score
    rw [lookup_commit hsp_ne, hsp'] at hsp
    cases hsp
    have hlen : 0 < data.mergeset_blues.length :=
      List.length_pos_of_mem (List.mem_of_head? hout.blues_head)
    omega
  · exact ⟨past_commit_new hinv hB hrel (hout.blues_below x hx),
      ne_new_of_mem hB (mem_relations hinv (hout.blues_mem x hx))⟩
  · rw [past_commit hinv hB hsp_rel]
    exact hout.blues_off_chain x hx hne
  · exact ⟨past_commit_new hinv hB hrel (hout.reds_below x hx), ne_new_of_mem hB
      (mem_relations hinv (hout.mergeset_order.mem x (List.mem_append_right _ hx)))⟩

-- Committing a block whose data `ghostdag` computed keeps the invariant.
theorem inv_commit (hwork : ∃ w, calc_work bits = some w ∧ 0 < w) :
    (commit_header M B parents bits data reach).Inv := by
  have hg := ne_new_of_mem hB (genesis_mem hinv)
  have ho := origin_ne_new hinv hB
  refine ⟨?_, ?_, ?_, hinv.genesis_ne_origin, ?_, fun x hx => ?_, fun x hx => ?_,
    fun a b hab => ?_, fun x hx => ?_, fun X d hX hXg => ?_, fun X d hX => ?_⟩
  · rw [commit_header_genesis_hash, lookup_commit hg]
    exact hinv.genesis_data
  · simp only [commit_header_relations_store, commit_header_genesis_hash,
      AList.lookup_insert_ne hg]
    exact hinv.genesis_parents
  · simp only [commit_header_relations_store, AList.lookup_insert_ne ho]
    exact hinv.origin_parents
  · rw [commit_header_ghostdag_store, AList.mem_insert]
    rintro (h | h)
    · exact ho h
    · exact hinv.origin_no_data h
  · simp only [commit_header_ghostdag_store, commit_header_relations_store, AList.mem_insert,
      hinv.same_keys x hx]
  · rw [commit_header_ghostdag_store, AList.mem_insert] at hx
    rcases hx with rfl | hx
    · obtain ⟨w, hw, hpos⟩ := hwork
      exact ⟨bits, w, by simp [AList.lookup_insert], hw, hpos⟩
    · have hxB := ne_new_of_mem hB (mem_relations hinv hx)
      simpa [AList.lookup_insert_ne hxB] using hinv.headers x hx
  · rw [commit_header_relations_store, AList.mem_insert]
    by_cases hbB : b = B
    · subst hbB
      exact .inr (mem_relations hinv (hparents a (is_parent_commit_new.mp hab)))
    · exact .inr (hinv.parents_present a b ((is_parent_commit hbB).mp hab))
  -- genesis is below the selected parent, hence below the new block
  · rw [commit_header_ghostdag_store, AList.mem_insert] at hx
    rw [commit_header_genesis_hash]
    rcases hx with rfl | hx
    · exact past_commit_new hinv hB (fun p hp => mem_relations hinv (hparents p hp))
        ⟨_, hout.selected_parent_mem, hinv.genesis_past _ (hparents _ hout.selected_parent_mem)⟩
    · exact (past_commit hinv hB (mem_relations hinv hx)).mpr (hinv.genesis_past x hx)
  · by_cases hXB : X = B
    · subst hXB
      rw [commit_header_ghostdag_store, AList.lookup_insert] at hX
      cases hX
      exact block_inv_commit_new hinv hB hparents hout
    · rw [lookup_commit hXB] at hX
      exact block_inv_commit hinv hB hX (hinv.block X d hX hXg)
  · by_cases hXB : X = B
    · subst hXB
      rw [commit_header_ghostdag_store, AList.lookup_insert] at hX
      cases hX
      exact context_inv_commit hinv hB (selected_parent_ne_new_of_output hinv hB hparents hout)
        (fun _ hx => hout.in_blues_mem hinv hx) hout.context
    · rw [lookup_commit hXB] at hX
      exact context_inv_commit hinv hB (selected_parent_ne_new hinv hB hX)
        (fun _ hx => in_blues_mem hinv hX hx) (hinv.context X d hX)

end Frame

end Waglayla.Consensus.HeaderProcessor
