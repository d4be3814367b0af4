import Waglayla.Consensus.Ghostdag.Protocol
import Waglayla.Graph.Past
import Mathlib.Data.Finset.Card

-- What GHOSTDAG computes, over the DAG the relations store holds: past, anticone, the blue set
-- of a worldview and the anticone sizes the k-cluster rule bounds; and the store invariant.

namespace Waglayla.Consensus.GhostdagManager

open DagPast

variable (M : GhostdagManager)

-- `a` is one of the parents the relations store holds for `b`.
def IsParent (a b : Hash) : Prop :=
  ∃ parents, M.relations_store.lookup b = some parents ∧ a ∈ parents

-- The inclusive past and the anticone in the DAG of the relations store.
def Past (a b : Hash) : Prop := DagPast.Past M.IsParent a b

def Anticone (a b : Hash) : Prop := DagPast.Anticone M.IsParent a b

-- The reachability service answers `is_dag_ancestor_of` exactly on stored blocks.
def ReachabilityCorrect : Prop :=
  ∀ a b, a ∈ M.relations_store → b ∈ M.relations_store →
    (M.reachability_service a b = true ↔ M.Past a b)

-- The blue set of the worldview `d`: its mergeset blues and, down the selected chain,
-- the mergeset blues of each stored chain block.
inductive InBlues : GhostdagData → Hash → Prop
  | mergeset {d : GhostdagData} {x : Hash} : x ∈ d.mergeset_blues → InBlues d x
  | chain {d d' : GhostdagData} {x : Hash} :
      M.ghostdag_store.lookup d.selected_parent = some d' → InBlues d' x → InBlues d x

open Classical in
-- The blues of the worldview `d` in the anticone of `b`.
noncomputable def blue_anticone (d : GhostdagData) (b : Hash) : Finset Hash :=
  M.relations_store.keys.toFinset.filter fun x => M.InBlues d x ∧ M.Anticone b x

-- The stored blue work of a block, read as `get_blue_work`.
def blue_work_of (x : Hash) : Nat :=
  match M.ghostdag_store.lookup x with
  | some data => data.blue_work
  | none => 0

-- A block as the orderings of the consensus compare it: by stored blue work, then hash.
def sortable (x : Hash) : SortableBlock := ⟨x, M.blue_work_of x⟩

-- The k-cluster part of GHOSTDAG's rule for colouring `c` blue in the worldview `d`: at
-- most `k` blues in the anticone of `c`, and each of those with fewer than `k` blues in
-- its own anticone.
def AnticoneRule (d : GhostdagData) (c : Hash) : Prop :=
  (M.blue_anticone d c).card ≤ M.k ∧ ∀ b ∈ M.blue_anticone d c, (M.blue_anticone d b).card < M.k

-- The whole rule adds that fewer than `k + 1` blues are merged so far.
def BlueRule (d : GhostdagData) (c : Hash) : Prop :=
  d.mergeset_blues.length ≤ M.k ∧ M.AnticoneRule d c

-- `out` colours `c` blue exactly when `rule` holds, and a blue answer carries the
-- anticone size of `c` and the sizes of the blues in its anticone.
def ColoringBy (rule : Prop) (d : GhostdagData) (c : Hash) : ColoringOutput → Prop
  | .Blue size sizes => rule ∧ size = (M.blue_anticone d c).card ∧
      ∀ x, sizes.lookup x =
        if x ∈ M.blue_anticone d c then some (M.blue_anticone d x).card else none
  | .Red => ¬rule

-- What `check_blue_candidate` must return.
def IsColoring (d : GhostdagData) (c : Hash) : ColoringOutput → Prop :=
  M.ColoringBy (M.BlueRule d c) d c

-- The anticone sizes a worldview records, read through `blue_anticone_size`, are the
-- sizes of the anticones in its blue set, and none exceeds `k`.
structure ContextInv (d : GhostdagData) : Prop where
  sizes : ∀ b, M.InBlues d b → M.blue_anticone_size b d = some (M.blue_anticone d b).card
  cluster : ∀ b, M.InBlues d b → (M.blue_anticone d b).card ≤ M.k

-- The mergeset of `d` other than its selected parent, as the window walks read it: stored
-- blocks below the selected parent in the block order, the blues and the reds each in
-- ascending order and apart.
structure MergesetOrder (d : GhostdagData) : Prop where
  mem : ∀ x ∈ d.mergeset_blues.tail ++ d.mergeset_reds, x ∈ M.ghostdag_store
  lt_selected_parent : ∀ x ∈ d.mergeset_blues.tail ++ d.mergeset_reds,
    M.sortable x < M.sortable d.selected_parent
  blues_sorted : d.mergeset_blues.tail.Pairwise fun a b => M.sortable a < M.sortable b
  reds_sorted : d.mergeset_reds.Pairwise fun a b => M.sortable a < M.sortable b
  disjoint : ∀ x ∈ d.mergeset_blues.tail, x ∉ d.mergeset_reds

-- What the data stored for a block other than genesis says about the block.
structure BlockInv (X : Hash) (d : GhostdagData) : Prop where
  selected_parent : M.IsParent d.selected_parent X
  blue_work_lt : ∀ p, M.IsParent p X → M.blue_work_of p < d.blue_work
  blue_score_lt : ∀ sp_data, M.ghostdag_store.lookup d.selected_parent = some sp_data →
    sp_data.blue_score < d.blue_score
  blues_head : d.mergeset_blues.head? = some d.selected_parent
  blues_past : ∀ x ∈ d.mergeset_blues, M.Past x X ∧ x ≠ X
  blues_off_chain : ∀ x ∈ d.mergeset_blues, x ≠ d.selected_parent → ¬M.Past x d.selected_parent
  blues_nodup : d.mergeset_blues.Nodup
  blues_mem : ∀ x ∈ d.mergeset_blues, x ∈ M.ghostdag_store
  reds_past : ∀ x ∈ d.mergeset_reds, M.Past x X ∧ x ≠ X
  mergeset_order : M.MergesetOrder d

-- The stores of a DAG built from genesis by the header pipeline. The relations store holds
-- ORIGIN as well, with no parents, as the one parent of genesis; ORIGIN has no GHOSTDAG
-- data and no header.
structure Inv : Prop where
  genesis_data : M.ghostdag_store.lookup M.genesis_hash = some genesis_ghostdag_data
  genesis_parents : M.relations_store.lookup M.genesis_hash = some [ORIGIN]
  origin_parents : M.relations_store.lookup ORIGIN = some []
  genesis_ne_origin : M.genesis_hash ≠ ORIGIN
  origin_no_data : ORIGIN ∉ M.ghostdag_store
  same_keys : ∀ x, x ≠ ORIGIN → (x ∈ M.ghostdag_store ↔ x ∈ M.relations_store)
  headers : ∀ x ∈ M.ghostdag_store, ∃ bits w, M.headers_store.lookup x = some bits ∧
    calc_work bits = some w ∧ 0 < w
  parents_present : ∀ a b, M.IsParent a b → a ∈ M.relations_store
  genesis_past : ∀ x ∈ M.ghostdag_store, M.Past M.genesis_hash x
  block : ∀ X d, M.ghostdag_store.lookup X = some d → X ≠ M.genesis_hash → M.BlockInv X d
  context : ∀ X d, M.ghostdag_store.lookup X = some d → M.ContextInv d

variable {M}

section Basic

theorem Anticone.symm {a b : Hash} (h : M.Anticone a b) : M.Anticone b a := anticone_comm.mp h

theorem Anticone.irrefl (a : Hash) : ¬M.Anticone a a := not_anticone_self a

theorem Past.not_anticone {a b : Hash} (h : M.Past a b) : ¬M.Anticone b a := not_anticone_of_past h

theorem in_blues_iff {d sp_data : GhostdagData}
    (hsp : M.ghostdag_store.lookup d.selected_parent = some sp_data) (x : Hash) :
    M.InBlues d x ↔ x ∈ d.mergeset_blues ∨ M.InBlues sp_data x := by
  constructor
  · rintro (hx | ⟨hsp', hx⟩)
    · exact .inl hx
    · rw [hsp] at hsp'
      cases hsp'
      exact .inr hx
  · rintro (hx | hx)
    · exact .mergeset hx
    · exact .chain hsp hx

theorem in_blues_of_lookup_none {d : GhostdagData}
    (hsp : M.ghostdag_store.lookup d.selected_parent = none) {x : Hash} :
    M.InBlues d x ↔ x ∈ d.mergeset_blues := by
  constructor
  · rintro (hx | ⟨hsp', -⟩)
    · exact hx
    · rw [hsp] at hsp'
      cases hsp'
  · exact .mergeset

-- The blue set depends on the selected parent and the mergeset blues only.
theorem in_blues_congr {d d' : GhostdagData} (hsp : d'.selected_parent = d.selected_parent)
    (hblues : d'.mergeset_blues = d.mergeset_blues) (x : Hash) :
    M.InBlues d' x ↔ M.InBlues d x := by
  cases h : M.ghostdag_store.lookup d.selected_parent with
  | none =>
    rw [in_blues_of_lookup_none (hsp ▸ h), in_blues_of_lookup_none h, hblues]
  | some sp_data =>
    rw [in_blues_iff (hsp ▸ h), in_blues_iff h, hblues]

theorem mem_blue_anticone {d : GhostdagData} {b x : Hash} :
    x ∈ M.blue_anticone d b ↔ x ∈ M.relations_store ∧ M.InBlues d x ∧ M.Anticone b x := by
  classical
  simp [blue_anticone, AList.mem_keys]

theorem blue_anticone_congr {d d' : GhostdagData} (hsp : d'.selected_parent = d.selected_parent)
    (hblues : d'.mergeset_blues = d.mergeset_blues) (b : Hash) :
    M.blue_anticone d' b = M.blue_anticone d b := by
  ext x
  rw [mem_blue_anticone, mem_blue_anticone, in_blues_congr hsp hblues]

end Basic

theorem sortable_injective : Function.Injective M.sortable :=
  fun _ _ h => congrArg SortableBlock.hash h

-- Distinct blocks in ascending order are in strictly ascending order.
theorem pairwise_sortable_lt {l : List Hash}
    (hsorted : l.Pairwise fun a b => M.sortable a ≤ M.sortable b) (hnodup : l.Nodup) :
    l.Pairwise fun a b => M.sortable a < M.sortable b :=
  (hsorted.and hnodup).imp fun ⟨hle, hne⟩ => lt_of_le_of_ne hle fun h => hne (sortable_injective h)

theorem stored_of_lookup {X : Hash} {d : GhostdagData} (h : M.ghostdag_store.lookup X = some d) :
    X ∈ M.ghostdag_store :=
  AList.lookup_isSome.mp (by rw [h]; rfl)

theorem exists_lookup {X : Hash} (hX : X ∈ M.ghostdag_store) :
    ∃ d, M.ghostdag_store.lookup X = some d :=
  Option.isSome_iff_exists.mp (AList.lookup_isSome.mpr hX)

-- ORIGIN has no parents, so nothing else is in its past.
theorem eq_origin_of_past {x : Hash} (h : M.Past x ORIGIN)
    (horigin : M.relations_store.lookup ORIGIN = some []) : x = ORIGIN := by
  rcases Relation.ReflTransGen.cases_tail h with h | ⟨c, -, hc⟩
  · exact h.symm
  · obtain ⟨ps, hps, hmem⟩ := hc
    rw [horigin] at hps
    cases hps
    cases hmem

-- A stored block's selected parent has data of its own.
theorem BlockInv.selected_parent_mem {X : Hash} {d : GhostdagData} (hblock : M.BlockInv X d) :
    d.selected_parent ∈ M.ghostdag_store :=
  hblock.blues_mem _ (List.mem_of_head? hblock.blues_head)

section Store

variable (hinv : M.Inv)
include hinv

theorem genesis_mem : M.genesis_hash ∈ M.relations_store :=
  AList.lookup_isSome.mp (by rw [hinv.genesis_parents]; rfl)

theorem ne_origin_of_mem {X : Hash} (hX : X ∈ M.ghostdag_store) : X ≠ ORIGIN :=
  fun h => hinv.origin_no_data (h ▸ hX)

theorem mem_relations {X : Hash} (hX : X ∈ M.ghostdag_store) : X ∈ M.relations_store :=
  (hinv.same_keys X (ne_origin_of_mem hinv hX)).mp hX

theorem mem_of_lookup {X : Hash} {d : GhostdagData} (h : M.ghostdag_store.lookup X = some d) :
    X ∈ M.relations_store :=
  mem_relations hinv (stored_of_lookup h)

-- A block with a parent is not ORIGIN, so it has GHOSTDAG data.
theorem child_mem {a b : Hash} (h : M.IsParent a b) : b ∈ M.ghostdag_store := by
  obtain ⟨parents, hps, ha⟩ := h
  have hb : b ≠ ORIGIN := by
    rintro rfl
    rw [hinv.origin_parents] at hps
    cases hps
    cases ha
  exact (hinv.same_keys b hb).mpr (AList.lookup_isSome.mp (by rw [hps]; rfl))

-- Genesis has ORIGIN, which has no data, as its one parent.
theorem ne_genesis_of_parent {a b : Hash} (h : M.IsParent a b) (ha : a ∈ M.ghostdag_store) :
    b ≠ M.genesis_hash := by
  rintro rfl
  obtain ⟨parents, hps, hmem⟩ := h
  rw [hinv.genesis_parents] at hps
  cases hps
  rw [List.mem_singleton.mp hmem] at ha
  exact hinv.origin_no_data ha

-- Blue work rises along every parent link out of a block with data, hence along the
-- strict past of such a block.
theorem blue_work_of_lt {a b : Hash} (h : M.IsParent a b) (ha : a ∈ M.ghostdag_store) :
    M.blue_work_of a < M.blue_work_of b := by
  obtain ⟨d, hd⟩ := exists_lookup (child_mem hinv h)
  have hlt := (hinv.block b d hd (ne_genesis_of_parent hinv h ha)).blue_work_lt a h
  simpa [blue_work_of, hd] using hlt

theorem blue_work_of_lt_of_past {a b : Hash} (ha : a ∈ M.ghostdag_store) (h : M.Past a b)
    (hne : a ≠ b) : M.blue_work_of a < M.blue_work_of b :=
  key_lt_of_past (fun x y (hxy : M.IsParent x y) => child_mem hinv hxy)
    (fun x y (hxy : M.IsParent x y) hx => blue_work_of_lt hinv hxy hx) ha h hne

theorem ne_of_past_of_parent' {a b c : Hash} (ha : a ∈ M.ghostdag_store) (hab : M.Past a b)
    (hbc : M.IsParent b c) : a ≠ c :=
  ne_of_past_of_parent (fun x y (hxy : M.IsParent x y) => child_mem hinv hxy)
    (fun x y (hxy : M.IsParent x y) hx => blue_work_of_lt hinv hxy hx) ha hab hbc

-- A block in the past of a parent is below the selected parent, the parent of greatest
-- order, unless it is the selected parent itself.
theorem sortable_lt_of_below {sp p x : Hash} (hx : x ∈ M.ghostdag_store) (hxp : M.Past x p)
    (hmax : M.sortable p ≤ M.sortable sp) (hne : x ≠ sp) : M.sortable x < M.sortable sp := by
  by_cases hxp' : x = p
  · subst hxp'
    exact lt_of_le_of_ne hmax fun h => hne (sortable_injective h)
  · have hlt := blue_work_of_lt_of_past hinv hx hxp hxp'
    have hle := SortableBlock.blue_work_le_of_le hmax
    exact SortableBlock.lt_of_blue_work_lt (lt_of_lt_of_le hlt hle)

-- ORIGIN is in the past of every block of the relations store.
theorem origin_past {x : Hash} (hx : x ∈ M.relations_store) : M.Past ORIGIN x := by
  by_cases hxo : x = ORIGIN
  · rw [hxo]
    exact past_refl ORIGIN
  · have hgenesis : M.IsParent ORIGIN M.genesis_hash :=
      ⟨[ORIGIN], hinv.genesis_parents, List.mem_singleton_self ORIGIN⟩
    exact past_trans (past_of_parent hgenesis)
      (hinv.genesis_past x ((hinv.same_keys x hxo).mpr hx))

-- The blue set of a stored block holds blocks with data only.
theorem in_blues_stored {X : Hash} {d : GhostdagData} (hX : M.ghostdag_store.lookup X = some d)
    {x : Hash} (hx : M.InBlues d x) : x ∈ M.ghostdag_store := by
  induction hx generalizing X with
  | @mergeset d x hx =>
    by_cases hg : X = M.genesis_hash
    · subst hg
      rw [hinv.genesis_data] at hX
      cases hX
      cases hx
    · exact (hinv.block X d hX hg).blues_mem x hx
  | @chain d d' x hsp _ ih => exact ih hsp

-- The blue set of a stored block lies in its strict past.
theorem in_blues_past {X : Hash} {d : GhostdagData} (hX : M.ghostdag_store.lookup X = some d)
    {x : Hash} (hx : M.InBlues d x) : M.Past x X ∧ x ≠ X := by
  induction hx generalizing X with
  | @mergeset d x hx =>
    by_cases hg : X = M.genesis_hash
    · subst hg
      rw [hinv.genesis_data] at hX
      cases hX
      cases hx
    · exact (hinv.block X d hX hg).blues_past x hx
  | @chain d d' x hsp hx ih =>
    have hg : X ≠ M.genesis_hash := by
      rintro rfl
      rw [hinv.genesis_data] at hX
      cases hX
      exact hinv.origin_no_data (stored_of_lookup hsp)
    have hparent := (hinv.block X d hX hg).selected_parent
    have hpast := (ih hsp).1
    exact ⟨past_trans hpast (past_of_parent hparent),
      ne_of_past_of_parent' hinv (in_blues_stored hinv hsp hx) hpast hparent⟩

-- Mergeset blues off the selected parent's chain are not among its blues, and neither is
-- the selected parent itself.
theorem not_in_blues_of_off_chain {d d' : GhostdagData}
    (hsp : M.ghostdag_store.lookup d.selected_parent = some d')
    (hoff : ∀ x ∈ d.mergeset_blues, x ≠ d.selected_parent → ¬M.Past x d.selected_parent) :
    ∀ x ∈ d.mergeset_blues, ¬M.InBlues d' x := by
  intro x hx hxd
  obtain ⟨hpast, hne⟩ := in_blues_past hinv hsp hxd
  exact hoff x hx hne hpast

theorem in_blues_mem {X : Hash} {d : GhostdagData} (hX : M.ghostdag_store.lookup X = some d)
    {x : Hash} (hx : M.InBlues d x) : x ∈ M.relations_store :=
  mem_relations hinv (in_blues_stored hinv hX hx)

end Store

end Waglayla.Consensus.GhostdagManager
