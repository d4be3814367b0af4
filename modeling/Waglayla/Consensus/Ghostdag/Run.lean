import Waglayla.Consensus.Ghostdag.Coloring
import Waglayla.Consensus.Ghostdag.Mergeset
import Mathlib.Algebra.Order.BigOperators.Group.List
import Mathlib.Algebra.Order.Group.Nat

-- One run of `ghostdag` on a new block: every candidate is coloured by the blue rule.

namespace Waglayla.Consensus.GhostdagManager

open DagPast

variable {M : GhostdagManager}

-- The worldview depends on the selected parent, the mergeset blues and the size map only.
theorem context_inv_congr {d d' : GhostdagData} (hsp : d'.selected_parent = d.selected_parent)
    (hblues : d'.mergeset_blues = d.mergeset_blues)
    (hsizes : d'.blues_anticone_sizes = d.blues_anticone_sizes) :
    M.ContextInv d' ↔ M.ContextInv d := by
  have hin := in_blues_congr (M := M) hsp hblues
  have hba := blue_anticone_congr (M := M) hsp hblues
  have hsize : ∀ b, M.blue_anticone_size b d' = M.blue_anticone_size b d :=
    fun b => blue_anticone_size_congr hsp (by rw [hsizes])
  constructor
  · intro h
    refine ⟨fun b hb => ?_, fun b hb => ?_⟩
    · rw [← hsize, ← hba]
      exact h.sizes b ((hin b).mpr hb)
    · rw [← hba]
      exact h.cluster b ((hin b).mpr hb)
  · intro h
    refine ⟨fun b hb => ?_, fun b hb => ?_⟩
    · rw [hsize, hba]
      exact h.sizes b ((hin b).mp hb)
    · rw [hba]
      exact h.cluster b ((hin b).mp hb)

section Loop

variable {sp : Hash} {parents : List Hash}

variable (M) in
-- The block under construction once the candidates of done are coloured: its selected
-- parent, then the blues found among done, at most k + 1 in all.
structure ColorInv (sp : Hash) (done : List Hash) (D : GhostdagData) : Prop where
  selected_parent : D.selected_parent = sp
  blues : ∃ blues, D.mergeset_blues = sp :: blues ∧ blues.Sublist done
  length_le : D.mergeset_blues.length ≤ M.k + 1
  context : M.ContextInv D
  reds : D.mergeset_reds.Sublist done
  -- every candidate done is a blue or a red, and only one of them
  partition : (D.mergeset_blues.tail ++ D.mergeset_reds).Perm done

theorem ColorInv.add_red {done : List Hash} {D : GhostdagData} (hD : M.ColorInv sp done D)
    (c : Hash) : M.ColorInv sp (done ++ [c]) (D.add_red c) where
  selected_parent := hD.selected_parent
  blues := by
    obtain ⟨blues, hblues, hsub⟩ := hD.blues
    exact ⟨blues, hblues, hsub.trans (List.sublist_append_left done [c])⟩
  length_le := hD.length_le
  context := (context_inv_congr (D.add_red_selected_parent c) (D.add_red_mergeset_blues c)
    (D.add_red_blues_anticone_sizes c)).mpr hD.context
  reds := by
    rw [D.add_red_mergeset_reds c]
    exact hD.reds.append (List.Sublist.refl [c])
  partition := by
    rw [D.add_red_mergeset_reds c, D.add_red_mergeset_blues c, ← List.append_assoc]
    exact hD.partition.append_right [c]

variable (hinv : M.Inv) {sp_data : GhostdagData} (hsp : M.ghostdag_store.lookup sp = some sp_data)
include hinv hsp

theorem color_inv_new : M.ColorInv sp [] (GhostdagData.new_with_selected_parent sp M.k) where
  selected_parent := rfl
  blues := ⟨[], rfl, List.Sublist.slnil⟩
  length_le := by simp [GhostdagData.new_with_selected_parent]
  context := context_inv_new hinv hsp
  reds := by simp
  partition := by simp

-- The next candidate meets what the blue check needs: the blues found so far come before
-- it in ascending blue work, so none of them is in its future.
theorem candidate_setting {done rest : List Hash} {c : Hash} {D : GhostdagData}
    (hms : M.OrderedMergeset sp parents (done ++ c :: rest)) (hD : M.ColorInv sp done D) :
    M.CandidateSetting D c := by
  obtain ⟨blues, hblues, hsub⟩ := hD.blues
  have hspD := hD.selected_parent
  have hc : c ∈ done ++ c :: rest := by simp
  have hne_sp : ∀ x ∈ done ++ c :: rest, x ≠ sp := fun x hx h =>
    hms.off_chain x hx (h ▸ past_refl x)
  have hc_done : c ∉ done := fun h =>
    List.disjoint_of_nodup_append hms.nodup h List.mem_cons_self
  have hbefore : ∀ x ∈ done, (⟨x, M.blue_work_of x⟩ : SortableBlock) ≤ ⟨c, M.blue_work_of c⟩ :=
    fun x hx => (List.pairwise_append.mp hms.sorted).2.2 x hx c List.mem_cons_self
  have hdone : ∀ x ∈ blues, x ∈ done ++ c :: rest := fun x hx =>
    List.mem_append_left _ (hsub.subset hx)
  refine ⟨⟨sp_data, hspD ▸ hsp⟩, by simp [hblues, hspD], ?_, ?_, ?_, ?_, hms.mem c hc,
    hspD ▸ hms.off_chain c hc, ?_, hD.context⟩
  · rw [hblues]
    exact List.nodup_cons.mpr ⟨fun h => hne_sp sp (hdone sp h) rfl,
      (hms.nodup.sublist (List.sublist_append_left _ _)).sublist hsub⟩
  · intro x hx hxsp
    rw [hblues, hspD] at *
    rcases List.mem_cons.mp hx with rfl | hx
    · exact absurd rfl hxsp
    · exact hms.off_chain x (hdone x hx)
  · intro x hx
    rw [hblues] at hx
    rcases List.mem_cons.mp hx with rfl | hx
    · exact stored_of_lookup hsp
    · exact hms.mem x (hdone x hx)
  · intro x hx hcx
    rw [hblues] at hx
    rcases List.mem_cons.mp hx with rfl | hx
    · exact hms.off_chain c hc hcx
    -- a blue found earlier has no more blue work than the candidate
    · have hxc : c ≠ x := fun h => hc_done (h ▸ hsub.subset hx)
      have hlt := SortableBlock.lt_of_blue_work_lt (a := ⟨c, M.blue_work_of c⟩)
        (b := ⟨x, M.blue_work_of x⟩) (blue_work_of_lt_of_past hinv (hms.mem c hc) hcx hxc)
      exact absurd (hbefore x (hsub.subset hx)) (not_le_of_gt hlt)
  · rw [hblues]
    intro hx
    rcases List.mem_cons.mp hx with h | hx
    · exact hne_sp c hc h
    · exact hc_done (hsub.subset hx)

theorem ColorInv.add_blue {done rest : List Hash} {c : Hash} {D : GhostdagData}
    (hms : M.OrderedMergeset sp parents (done ++ c :: rest)) (hD : M.ColorInv sp done D)
    {size : Nat} {sizes : HashKTypeMap} (hcolor : M.IsColoring D c (.Blue size sizes)) :
    M.ColorInv sp (done ++ [c]) (D.add_blue c size sizes) where
  selected_parent := hD.selected_parent
  blues := by
    obtain ⟨blues, hblues, hsub⟩ := hD.blues
    exact ⟨blues ++ [c], by simp [hblues], hsub.append (List.Sublist.refl [c])⟩
  length_le := by
    have := hcolor.1.1
    simp only [GhostdagData.add_blue_mergeset_blues, List.length_append, List.length_singleton]
    omega
  context := by
    have hset := candidate_setting hinv hsp hms hD
    exact context_inv_add_blue hD.context (fun _ hx => hset.in_blues_mem hinv hx)
      (mem_relations hinv hset.candidate_mem) (hset.not_in_blues hinv) hcolor
  reds := by
    rw [D.add_blue_mergeset_reds]
    exact hD.reds.trans (List.sublist_append_left done [c])
  -- the new blue joins the blues behind the earlier ones
  partition := by
    obtain ⟨blues, hblues, -⟩ := hD.blues
    have hperm := hD.partition
    rw [hblues, List.tail_cons] at hperm
    rw [D.add_blue_mergeset_blues, D.add_blue_mergeset_reds, hblues, List.cons_append,
      List.tail_cons, List.append_assoc]
    have hswap : List.Perm (blues ++ ([c] ++ D.mergeset_reds)) (blues ++ D.mergeset_reds ++ [c]) := by
      rw [List.append_assoc]
      exact List.perm_append_comm.append_left blues
    exact hswap.trans (hperm.append_right [c])

variable (hreach : M.ReachabilityCorrect)
include hreach

-- The loop colours every remaining candidate; the induction is on the candidates left,
-- with the invariant carried over the ones done.
theorem color_spec : ∀ (rest done : List Hash) (D : GhostdagData),
    M.OrderedMergeset sp parents (done ++ rest) → M.ColorInv sp done D →
      ∃ D', ghostdag.color M rest D = some D' ∧ M.ColorInv sp (done ++ rest) D'
  | [], done, D, _, hD => ⟨D, rfl, by simpa using hD⟩
  | c :: rest, done, D, hms, hD => by
    have hset := candidate_setting hinv hsp hms hD
    have hms' : M.OrderedMergeset sp parents ((done ++ [c]) ++ rest) := by simpa using hms
    obtain ⟨out, hout, hcolor⟩ := check_blue_candidate_spec hinv hreach hset hD.length_le
    cases out with
    | Blue size sizes =>
      obtain ⟨D', hD', hinv'⟩ :=
        color_spec rest (done ++ [c]) _ hms' (hD.add_blue hinv hsp hms hcolor)
      refine ⟨D', ?_, by simpa using hinv'⟩
      simp [ghostdag.color, hout, hD']
    | Red =>
      obtain ⟨D', hD', hinv'⟩ := color_spec rest (done ++ [c]) _ hms' (hD.add_red c)
      refine ⟨D', ?_, by simpa using hinv'⟩
      simp [ghostdag.color, hout, hD']

end Loop

section Ghostdag

variable (M) in
-- The work of a block as ghostdag reads it from its header's difficulty bits.
def work_of (x : Hash) : Nat :=
  ((M.headers_store.lookup x).bind calc_work).getD 0

variable (M) in
-- What the data `ghostdag` returns for a new block with these parents says: the selected
-- parent and the blues found in the parents' past, coloured under the blue rule, with
-- score and work on top of the selected parent's.
structure GhostdagOutput (parents : List Hash) (data : GhostdagData) : Prop where
  selected_parent_eq : M.find_selected_parent parents = some data.selected_parent
  selected_parent_mem : data.selected_parent ∈ parents
  blue_work_lt : ∀ p ∈ parents, M.blue_work_of p < data.blue_work
  blue_score : ∃ sp_data, M.ghostdag_store.lookup data.selected_parent = some sp_data ∧
    data.blue_score = sp_data.blue_score + data.mergeset_blues.length
  blues_head : data.mergeset_blues.head? = some data.selected_parent
  blues_length : data.mergeset_blues.length ≤ M.k + 1
  blues_nodup : data.mergeset_blues.Nodup
  blues_mem : ∀ x ∈ data.mergeset_blues, x ∈ M.ghostdag_store
  blues_below : ∀ x ∈ data.mergeset_blues, ∃ p ∈ parents, M.Past x p
  blues_off_chain : ∀ x ∈ data.mergeset_blues, x ≠ data.selected_parent →
    ¬M.Past x data.selected_parent
  context : M.ContextInv data
  reds_below : ∀ x ∈ data.mergeset_reds, ∃ p ∈ parents, M.Past x p
  mergeset_order : M.MergesetOrder data

theorem MergesetOrder.congr {d d' : GhostdagData} (hsp : d'.selected_parent = d.selected_parent)
    (hblues : d'.mergeset_blues = d.mergeset_blues) (hreds : d'.mergeset_reds = d.mergeset_reds)
    (h : M.MergesetOrder d) : M.MergesetOrder d' := by
  obtain ⟨hmem, hlt, hbs, hrs, hdisj⟩ := h
  refine ⟨?_, ?_, ?_, ?_, ?_⟩
  · rw [hblues, hreds]
    exact hmem
  · rw [hsp, hblues, hreds]
    exact hlt
  · rw [hblues]
    exact hbs
  · rw [hreds]
    exact hrs
  · rw [hblues, hreds]
    exact hdisj

-- The blues the loop ends with are the selected parent and blues of the ordered mergeset.
theorem color_inv_blues {sp : Hash} {parents ms : List Hash} {D : GhostdagData}
    (hms : M.OrderedMergeset sp parents ms) (hD : M.ColorInv sp ms D) :
    ∀ x ∈ D.mergeset_blues, x = sp ∨ x ∈ ms := by
  obtain ⟨blues, hblues, hsub⟩ := hD.blues
  intro x hx
  rw [hblues] at hx
  rcases List.mem_cons.mp hx with rfl | hx
  · exact .inl rfl
  · exact .inr (hsub.subset hx)

-- The blues the loop ends with are stored blocks.
theorem color_inv_blues_mem {sp : Hash} {parents ms : List Hash} {D : GhostdagData}
    (hsp : sp ∈ M.ghostdag_store) (hms : M.OrderedMergeset sp parents ms)
    (hD : M.ColorInv sp ms D) : ∀ x ∈ D.mergeset_blues, x ∈ M.ghostdag_store := by
  intro x hx
  rcases color_inv_blues hms hD x hx with rfl | hx
  · exact hsp
  · exact hms.mem x hx

variable (hinv : M.Inv)
include hinv

-- The mergeset the loop ends with is ordered as the window walks need: its blocks are
-- from the ordered mergeset, each below a parent and so below the selected parent.
theorem color_inv_mergeset_order {sp : Hash} {parents ms : List Hash} {D : GhostdagData}
    (hmax : ∀ p ∈ parents, M.sortable p ≤ M.sortable sp) (hms : M.OrderedMergeset sp parents ms)
    (hD : M.ColorInv sp ms D) : M.MergesetOrder D := by
  obtain ⟨blues, hblues, hsub⟩ := hD.blues
  have htail : D.mergeset_blues.tail = blues := by rw [hblues, List.tail_cons]
  have hin : ∀ x ∈ D.mergeset_blues.tail ++ D.mergeset_reds, x ∈ ms := fun x hx =>
    hD.partition.subset hx
  have hnodup : (D.mergeset_blues.tail ++ D.mergeset_reds).Nodup :=
    hD.partition.nodup_iff.mpr hms.nodup
  refine ⟨fun x hx => hms.mem x (hin x hx), fun x hx => ?_, ?_, ?_, fun x hx hxr => ?_⟩
  · obtain ⟨p, hp, hxp⟩ := hms.below x (hin x hx)
    rw [hD.selected_parent]
    exact sortable_lt_of_below hinv (hms.mem x (hin x hx)) hxp (hmax p hp)
      fun h => hms.off_chain x (hin x hx) (h ▸ past_refl x)
  · rw [htail]
    exact pairwise_sortable_lt (hms.sorted.sublist hsub) (hms.nodup.sublist hsub)
  · exact pairwise_sortable_lt (hms.sorted.sublist hD.reds) (hms.nodup.sublist hD.reds)
  · exact List.disjoint_of_nodup_append hnodup hx hxr

-- A stored block has a header of positive work, and is not the origin.
theorem work_of_spec {x : Hash} (hx : x ∈ M.ghostdag_store) :
    (if is_origin x then some 0 else (M.headers_store.lookup x).bind calc_work) =
      some (M.work_of x) ∧ 0 < M.work_of x := by
  obtain ⟨bits, w, hbits, hw, hpos⟩ := hinv.headers x hx
  have horigin := ne_origin_of_mem hinv hx
  simp [is_origin, horigin, hbits, hw, work_of, hpos]

-- The blues of the new data are stored blocks.
theorem GhostdagOutput.in_blues_mem {parents : List Hash} {data : GhostdagData}
    (hout : M.GhostdagOutput parents data) {x : Hash} (hx : M.InBlues data x) :
    x ∈ M.relations_store := by
  obtain ⟨sp_data, hsp, -⟩ := hout.blue_score
  rcases (in_blues_iff hsp x).mp hx with hx | hx
  · exact mem_relations hinv (hout.blues_mem x hx)
  · exact GhostdagManager.in_blues_mem hinv hsp hx

variable (hreach : M.ReachabilityCorrect) {parents : List Hash} (hne : parents ≠ [])
  (hall : ∀ p ∈ parents, p ∈ M.ghostdag_store)
  (hanti : ∀ p ∈ parents, ∀ q ∈ parents, p ≠ q → ¬M.Past p q)
include hreach hne hall hanti

-- The run of `ghostdag` on parents that passed the header checks: the selected parent, its
-- ordered mergeset and the colouring loop over it, whose result is finalized.
theorem ghostdag_run : ∃ sp sp_data ms D, M.find_selected_parent parents = some sp ∧
    sp ∈ parents ∧ (∀ p ∈ parents, M.sortable p ≤ M.sortable sp) ∧
    M.ghostdag_store.lookup sp = some sp_data ∧
    M.ordered_mergeset_without_selected_parent sp parents = some ms ∧
    M.OrderedMergeset sp parents ms ∧ M.ColorInv sp ms D ∧
    M.ghostdag parents = some (D.finalize_score_and_work
      (sp_data.blue_score + D.mergeset_blues.length)
      (sp_data.blue_work + (D.mergeset_blues.map M.work_of).sum)) := by
  obtain ⟨sp, hfind, hsp_mem, hmax⟩ := M.find_selected_parent_spec hne hall
  obtain ⟨sp_data, hsp⟩ := exists_lookup (hall sp hsp_mem)
  obtain ⟨ms, hord, hms⟩ :=
    ordered_mergeset_spec (fun p hp => mem_relations hinv (hall p hp)) hanti hinv hreach hsp_mem
  obtain ⟨D, hcolor, hD⟩ := color_spec hinv hsp hreach ms [] _ (by simpa using hms)
    (color_inv_new hinv hsp)
  rw [List.nil_append] at hD
  -- every blue is a stored block, whose header has positive work
  have hworks := mapM_eq_some_map fun x hx =>
    (work_of_spec hinv (color_inv_blues_mem (hall sp hsp_mem) hms hD x hx)).1
  have hempty : parents.isEmpty = false := List.isEmpty_eq_false_iff.mpr hne
  refine ⟨sp, sp_data, ms, D, hfind, hsp_mem, hmax, hsp, hord, hms, hD, ?_⟩
  simp [ghostdag, hempty, hfind, hord, hcolor, hsp, hworks]

-- `ghostdag` on parents that passed the header checks never panics, and its data is
-- what GHOSTDAG asks of the new block.
theorem ghostdag_spec : ∃ data, M.ghostdag parents = some data ∧ M.GhostdagOutput parents data := by
  obtain ⟨sp, sp_data, ms, D, hfind, hsp_mem, hmax, hsp, -, hms, hD, hdata⟩ :=
    ghostdag_run hinv hreach hne hall hanti
  have hblues := color_inv_blues hms hD
  have hmem := color_inv_blues_mem (hall sp hsp_mem) hms hD
  have hsp_blue : sp ∈ D.mergeset_blues := by
    obtain ⟨blues, hblues, -⟩ := hD.blues
    simp [hblues]
  have hsum : M.work_of sp ≤ (D.mergeset_blues.map M.work_of).sum :=
    List.le_sum_of_mem (List.mem_map_of_mem hsp_blue)
  have hpos := (work_of_spec hinv (hall sp hsp_mem)).2
  have hspD := hD.selected_parent
  refine ⟨_, hdata, ?_⟩
  refine ⟨by simpa [hspD] using hfind, by simpa [hspD] using hsp_mem, fun p hp => ?_, ⟨sp_data, ?_, rfl⟩,
    ?_, by simpa using hD.length_le, ?_, fun x hx => hmem x (by simpa using hx), fun x hx => ?_,
    fun x hx hxsp => ?_, ?_, fun x hx => hms.below x (hD.reds.subset (by simpa using hx)), ?_⟩
  -- the selected parent has the most blue work of the parents, and the blues add work
  · have hle := SortableBlock.blue_work_le_of_le (hmax p hp)
    have hsp_work : M.blue_work_of sp = sp_data.blue_work := by simp [blue_work_of, hsp]
    simp only [GhostdagData.finalize_score_and_work_blue_work]
    simp only [sortable] at hle
    omega
  · rw [GhostdagData.finalize_score_and_work_selected_parent, hspD]
    exact hsp
  · obtain ⟨blues, hblues, -⟩ := hD.blues
    simp [hblues, hspD]
  · obtain ⟨blues, hblues, hsub⟩ := hD.blues
    simp only [GhostdagData.finalize_score_and_work_mergeset_blues, hblues]
    exact List.nodup_cons.mpr ⟨fun h => hms.off_chain sp (hsub.subset h) (past_refl sp),
      hms.nodup.sublist hsub⟩
  · rcases hblues x (by simpa using hx) with rfl | hx
    · exact ⟨x, hsp_mem, past_refl x⟩
    · exact hms.below x hx
  · simp only [GhostdagData.finalize_score_and_work_selected_parent, hspD] at hxsp ⊢
    rcases hblues x (by simpa using hx) with rfl | hx
    · exact absurd rfl hxsp
    · exact hms.off_chain x hx
  · exact (context_inv_congr (D.finalize_score_and_work_selected_parent _ _)
      (D.finalize_score_and_work_mergeset_blues _ _)
      (D.finalize_score_and_work_blues_anticone_sizes _ _)).mpr hD.context
  · exact (color_inv_mergeset_order hinv hmax hms hD).congr
      (D.finalize_score_and_work_selected_parent _ _) (D.finalize_score_and_work_mergeset_blues _ _)
      (D.finalize_score_and_work_mergeset_reds _ _)

-- The blues after the selected parent and the reds of the new data split the ordered
-- mergeset between them.
theorem ghostdag_partition {data : GhostdagData} (hdata : M.ghostdag parents = some data) :
    ∃ ms, M.ordered_mergeset_without_selected_parent data.selected_parent parents = some ms ∧
      M.OrderedMergeset data.selected_parent parents ms ∧
      (data.mergeset_blues.tail ++ data.mergeset_reds).Perm ms := by
  obtain ⟨sp, sp_data, ms, D, -, -, -, -, hord, hms, hD, hdata'⟩ :=
    ghostdag_run hinv hreach hne hall hanti
  rw [hdata', Option.some.injEq] at hdata
  subst hdata
  simp only [GhostdagData.finalize_score_and_work_selected_parent,
    GhostdagData.finalize_score_and_work_mergeset_blues,
    GhostdagData.finalize_score_and_work_mergeset_reds, hD.selected_parent]
  exact ⟨ms, hord, hms, hD.partition⟩

-- The blue work and the blue score of the new data: the selected parent's, plus the work of
-- each mergeset blue and their number.
theorem ghostdag_blue_work {data : GhostdagData} (hdata : M.ghostdag parents = some data) :
    ∃ sp_data, M.ghostdag_store.lookup data.selected_parent = some sp_data ∧
      data.blue_work = sp_data.blue_work + (data.mergeset_blues.map M.work_of).sum ∧
      data.blue_score = sp_data.blue_score + data.mergeset_blues.length := by
  obtain ⟨sp, sp_data, ms, D, -, -, -, hsp, -, -, hD, hdata'⟩ :=
    ghostdag_run hinv hreach hne hall hanti
  rw [hdata', Option.some.injEq] at hdata
  subst hdata
  refine ⟨sp_data, ?_, by simp, by simp⟩
  rw [GhostdagData.finalize_score_and_work_selected_parent, hD.selected_parent]
  exact hsp

end Ghostdag

end Waglayla.Consensus.GhostdagManager
