import Waglayla.Consensus.Ghostdag.Run

-- The orders a mergeset is read in: ascending blue work with the hash tie-break is topological,
-- and merging the stored blue and red lists gives it back.

namespace Waglayla.Consensus.GhostdagManager

open DagPast MergeJoin

variable {M : GhostdagManager}

section Iterators

variable {d : GhostdagData} {l : List Hash}

theorem mapM_sortable {xs : List Hash} (hxs : ∀ x ∈ xs, x ∈ M.ghostdag_store) :
    xs.mapM (fun h => (M.ghostdag_store.lookup h).map fun data => SortableBlock.mk h data.blue_work) =
      some (xs.map M.sortable) :=
  mapM_eq_some_map fun x hx => lookup_sortable (hxs x hx)

theorem disjoint_map_sortable {xs ys : List Hash} (h : ∀ x ∈ xs, x ∉ ys) :
    ∀ x ∈ xs.map M.sortable, x ∉ ys.map M.sortable := by
  simp only [List.mem_map]
  rintro _ ⟨a, ha, rfl⟩ ⟨b, hb, hab⟩
  exact h a ha (sortable_injective hab ▸ hb)

-- A strictly ascending list of the blocks of a mergeset is what the ascending iterator
-- yields.
theorem ascending_mergeset_eq (hord : M.MergesetOrder d)
    (hperm : l.Perm (d.mergeset_blues.tail ++ d.mergeset_reds))
    (hsorted : l.Pairwise fun a b => M.sortable a < M.sortable b) :
    d.ascending_mergeset_without_selected_parent M.ghostdag_store = some (l.map M.sortable) := by
  have hblues := mapM_sortable fun x hx => hord.mem x (List.mem_append_left _ hx)
  have hreds := mapM_sortable fun x hx => hord.mem x (List.mem_append_right _ hx)
  have hmerge : merge_join_by (fun a b => decide (a < b)) (d.mergeset_blues.tail.map M.sortable)
      (d.mergeset_reds.map M.sortable) = some (l.map M.sortable) := by
    apply merge_join_by_eq (List.pairwise_map.mpr hord.blues_sorted)
      (List.pairwise_map.mpr hord.reds_sorted) (disjoint_map_sortable hord.disjoint)
    · simpa using hperm.map M.sortable
    · exact List.pairwise_map.mpr hsorted
  simp only [GhostdagData.ascending_mergeset_without_selected_parent, hblues, hreds,
    Option.bind_eq_bind, Option.bind_some]
  exact hmerge

-- The descending iterator yields the same list backwards: the reversed lists are sorted
-- for the reversed comparison.
theorem descending_mergeset_eq (hord : M.MergesetOrder d)
    (hperm : l.Perm (d.mergeset_blues.tail ++ d.mergeset_reds))
    (hsorted : l.Pairwise fun a b => M.sortable a < M.sortable b) :
    d.descending_mergeset_without_selected_parent M.ghostdag_store =
      some (l.map M.sortable).reverse := by
  have hblues := mapM_sortable fun x hx =>
    hord.mem x (List.mem_append_left _ (List.mem_reverse.mp hx))
  have hreds := mapM_sortable fun x hx =>
    hord.mem x (List.mem_append_right _ (List.mem_reverse.mp hx))
  have hdisj : ∀ x ∈ d.mergeset_blues.tail.reverse, x ∉ d.mergeset_reds.reverse := fun x hx hxr =>
    hord.disjoint x (List.mem_reverse.mp hx) (List.mem_reverse.mp hxr)
  have hmerge : merge_join_by (fun a b => decide (b < a))
      (d.mergeset_blues.tail.reverse.map M.sortable) (d.mergeset_reds.reverse.map M.sortable) =
        some (l.map M.sortable).reverse := by
    rw [List.map_reverse, List.map_reverse]
    apply merge_join_by_eq (r := fun a b => b < a)
    · exact List.pairwise_reverse.mpr (List.pairwise_map.mpr hord.blues_sorted)
    · exact List.pairwise_reverse.mpr (List.pairwise_map.mpr hord.reds_sorted)
    · rw [← List.map_reverse, ← List.map_reverse]
      exact disjoint_map_sortable hdisj
    · refine (List.reverse_perm _).trans ((hperm.map M.sortable).trans ?_)
      rw [List.map_append]
      exact (List.reverse_perm _).symm.append (List.reverse_perm _).symm
    · exact List.pairwise_reverse.mpr (List.pairwise_map.mpr hsorted)
  simp only [GhostdagData.descending_mergeset_without_selected_parent, hblues, hreds,
    Option.bind_eq_bind, Option.bind_some]
  exact hmerge

theorem consensus_ordered_mergeset_eq (hord : M.MergesetOrder d)
    (hperm : l.Perm (d.mergeset_blues.tail ++ d.mergeset_reds))
    (hsorted : l.Pairwise fun a b => M.sortable a < M.sortable b) :
    d.consensus_ordered_mergeset M.ghostdag_store = some (d.selected_parent :: l) := by
  simp [GhostdagData.consensus_ordered_mergeset, ascending_mergeset_eq hord hperm hsorted,
    Function.comp_def, sortable]

-- The blocks of a stored mergeset in strictly ascending order: `sort_blocks` gives one.
theorem exists_sorted_mergeset (hord : M.MergesetOrder d) :
    ∃ l : List Hash, l.Perm (d.mergeset_blues.tail ++ d.mergeset_reds) ∧
      l.Pairwise fun a b => M.sortable a < M.sortable b := by
  have hne : ∀ {a b : Hash}, M.sortable a < M.sortable b → a ≠ b := fun hab =>
    ne_of_apply_ne M.sortable (ne_of_lt hab)
  have hnodup : (d.mergeset_blues.tail ++ d.mergeset_reds).Nodup :=
    List.nodup_append.mpr ⟨hord.blues_sorted.imp hne, hord.reds_sorted.imp hne,
      fun a ha b hb hab => hord.disjoint a ha (hab ▸ hb)⟩
  obtain ⟨sorted, -, hperm, hle⟩ := M.sort_blocks_spec hord.mem
  exact ⟨sorted, hperm, pairwise_sortable_lt hle (hperm.nodup_iff.mpr hnodup)⟩

-- What the window walks read of a stored mergeset: the descending iterator never panics,
-- and behind the selected parent it is strictly descending over stored blocks.
theorem descending_mergeset_spec (hord : M.MergesetOrder d) :
    ∃ descending, d.descending_mergeset_without_selected_parent M.ghostdag_store =
        some descending ∧
      (M.sortable d.selected_parent :: descending).Pairwise (· > ·) ∧
      ∀ b ∈ descending, b.hash ∈ M.ghostdag_store := by
  obtain ⟨l, hperm, hsorted⟩ := exists_sorted_mergeset hord
  refine ⟨(l.map M.sortable).reverse, descending_mergeset_eq hord hperm hsorted, ?_, ?_⟩
  · refine List.pairwise_cons.mpr ⟨fun b hb => ?_, ?_⟩
    · obtain ⟨x, hx, rfl⟩ := List.mem_map.mp (List.mem_reverse.mp hb)
      exact hord.lt_selected_parent x (hperm.subset hx)
    · exact List.pairwise_reverse.mpr (List.pairwise_map.mpr hsorted)
  · intro b hb
    obtain ⟨x, hx, rfl⟩ := List.mem_map.mp (List.mem_reverse.mp hb)
    exact hord.mem x (hperm.subset hx)

end Iterators

section Topological

variable {sp : Hash} {parents ms : List Hash}

variable (hinv : M.Inv)
include hinv

-- A stored block in the past of another has less blue work, so it sorts first.
theorem not_past_of_sortable_lt {a b : Hash} (hb : b ∈ M.ghostdag_store)
    (h : M.sortable a < M.sortable b) : ¬M.Past b a := by
  intro hba
  by_cases hne : b = a
  · subst hne
    exact lt_irrefl _ h
  · exact lt_asymm h (SortableBlock.lt_of_blue_work_lt (blue_work_of_lt_of_past hinv hb hba hne))

-- The selected parent followed by the ordered mergeset is a topological order: no block
-- comes after a block of its past.
theorem OrderedMergeset.topological (hms : M.OrderedMergeset sp parents ms) :
    (sp :: ms).Pairwise fun a b => ¬M.Past b a := by
  refine List.pairwise_cons.mpr ⟨fun x hx => hms.off_chain x hx, ?_⟩
  exact (pairwise_sortable_lt hms.sorted hms.nodup).imp_of_mem fun _ hb hab =>
    not_past_of_sortable_lt hinv (hms.mem _ hb) hab

end Topological

end Waglayla.Consensus.GhostdagManager
