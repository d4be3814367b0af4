import Waglayla.Consensus.Pipeline.Commit
import Waglayla.Consensus.Ghostdag.Ordering
import Mathlib.Algebra.Group.Action.Defs

-- The stores a node builds from `init`, one header at a time, keep the invariant.

namespace Waglayla.Consensus.HeaderProcessor

open DagPast GhostdagManager

-- The stores reachable from a new node: genesis first, then ordinary headers the node does
-- not know yet, each processed while the reachability service answers exactly, with
-- difficulty bits of positive work.
inductive Built (max_block_parents : Nat) : GhostdagManager → Prop
  | genesis {genesis_hash : Hash} {k : Nat} {genesis_bits : UInt32}
      (reach reach' : Hash → Hash → Bool) (horigin : genesis_hash ≠ ORIGIN)
      (hwork : ∃ w, calc_work genesis_bits = some w ∧ 0 < w) :
      Built max_block_parents (process_genesis (init genesis_hash k reach) genesis_bits reach')
  | process_header {M M' : GhostdagManager} {header : Header} {reach : Hash → Hash → Bool}
      (hM : Built max_block_parents M) (hreach : M.ReachabilityCorrect)
      (hnew : header.hash ∉ M.relations_store)
      (hwork : ∃ w, calc_work header.bits = some w ∧ 0 < w)
      (hstep : process_header M max_block_parents header reach = some (.ok M')) :
      Built max_block_parents M'

section Genesis

variable {genesis_hash : Hash} {k : Nat} {genesis_bits : UInt32} {reach reach' : Hash → Hash → Bool}

theorem not_in_blues_genesis_data {M : GhostdagManager} (horigin : ORIGIN ∉ M.ghostdag_store)
    (x : Hash) : ¬M.InBlues genesis_ghostdag_data x := by
  rintro (hx | ⟨hsp, -⟩)
  · cases hx
  · exact horigin (stored_of_lookup hsp)

-- The stores right after genesis: genesis with its data, header and ORIGIN as parent, and
-- ORIGIN with no parents.
@[simp] theorem process_genesis_genesis_hash :
    (process_genesis (init genesis_hash k reach) genesis_bits reach').genesis_hash = genesis_hash :=
  rfl

theorem process_genesis_ghostdag_lookup (X : Hash) :
    (process_genesis (init genesis_hash k reach) genesis_bits reach').ghostdag_store.lookup X =
      if X = genesis_hash then some genesis_ghostdag_data else none := by
  split_ifs with hX
  · subst hX
    simp only [process_genesis, init, commit_header, AList.lookup_insert]
  · simp only [process_genesis, init, commit_header, AList.lookup_insert_ne hX, AList.lookup_empty]

theorem eq_genesis_data_of_lookup {X : Hash} {d : GhostdagData}
    (hX : (process_genesis (init genesis_hash k reach) genesis_bits reach').ghostdag_store.lookup X =
      some d) : d = genesis_ghostdag_data := by
  rw [process_genesis_ghostdag_lookup] at hX
  split_ifs at hX
  exact (Option.some_inj.mp hX).symm

theorem process_genesis_relations_lookup (X : Hash) :
    (process_genesis (init genesis_hash k reach) genesis_bits reach').relations_store.lookup X =
      if X = genesis_hash then some [ORIGIN] else if X = ORIGIN then some [] else none := by
  split_ifs with hX hXo
  · subst hX
    simp only [process_genesis, init, commit_header, AList.lookup_insert]
  · subst hXo
    simp only [process_genesis, init, commit_header, AList.lookup_insert_ne hX, AList.lookup_insert]
  · simp only [process_genesis, init, commit_header, AList.lookup_insert_ne hX,
      AList.lookup_insert_ne hXo, AList.lookup_empty]

theorem process_genesis_headers_lookup :
    (process_genesis (init genesis_hash k reach) genesis_bits reach').headers_store.lookup
      genesis_hash = some genesis_bits := by
  simp only [process_genesis, init, commit_header, AList.lookup_insert]

theorem process_genesis_ghostdag_mem {X : Hash} :
    X ∈ (process_genesis (init genesis_hash k reach) genesis_bits reach').ghostdag_store ↔
      X = genesis_hash := by
  rw [← AList.lookup_isSome, process_genesis_ghostdag_lookup]
  split_ifs with hX <;> simp [hX]

theorem process_genesis_relations_mem {X : Hash} :
    X ∈ (process_genesis (init genesis_hash k reach) genesis_bits reach').relations_store ↔
      X = genesis_hash ∨ X = ORIGIN := by
  rw [← AList.lookup_isSome, process_genesis_relations_lookup]
  split_ifs with hX hXo <;> simp_all

theorem inv_process_genesis (horigin : genesis_hash ≠ ORIGIN)
    (hwork : ∃ w, calc_work genesis_bits = some w ∧ 0 < w) :
    (process_genesis (init genesis_hash k reach) genesis_bits reach').Inv := by
  have hog : ORIGIN ≠ genesis_hash := Ne.symm horigin
  have hno : ORIGIN ∉ (process_genesis (init genesis_hash k reach) genesis_bits reach').ghostdag_store :=
    fun h => hog (process_genesis_ghostdag_mem.mp h)
  refine ⟨by simp [process_genesis_ghostdag_lookup], by simp [process_genesis_relations_lookup],
    by simp [process_genesis_relations_lookup, hog], horigin, hno, fun x hx => ?_, fun x hx => ?_,
    fun a b hab => ?_, fun x hx => ?_, fun X d hX hXg => ?_, fun X d hX => ?_⟩
  · rw [process_genesis_ghostdag_mem, process_genesis_relations_mem]
    simp [hx]
  · obtain ⟨w, hw, hpos⟩ := hwork
    rw [process_genesis_ghostdag_mem.mp hx]
    exact ⟨genesis_bits, w, process_genesis_headers_lookup, hw, hpos⟩
  -- genesis has ORIGIN as its parent and ORIGIN has none
  · obtain ⟨ps, hps, hmem⟩ := hab
    rw [process_genesis_relations_lookup] at hps
    rw [process_genesis_relations_mem]
    split_ifs at hps with hbg hbo
    · cases hps
      exact .inr (List.mem_singleton.mp hmem)
    · cases hps
      cases hmem
  · rw [process_genesis_ghostdag_mem.mp hx, process_genesis_genesis_hash]
    exact past_refl _
  · rw [process_genesis_genesis_hash] at hXg
    rw [process_genesis_ghostdag_lookup, if_neg hXg] at hX
    cases hX
  · rw [eq_genesis_data_of_lookup hX]
    exact ⟨fun b hb => absurd hb (not_in_blues_genesis_data hno b),
      fun b hb => absurd hb (not_in_blues_genesis_data hno b)⟩

-- After genesis the relations hold genesis over ORIGIN, so a service that puts ORIGIN below
-- genesis and genesis below nothing else answers exactly.
theorem reachability_correct_process_genesis (horigin : genesis_hash ≠ ORIGIN)
    (hwork : ∃ w, calc_work genesis_bits = some w ∧ 0 < w)
    (hgg : reach' genesis_hash genesis_hash = true) (hgo : reach' genesis_hash ORIGIN = false)
    (hog : reach' ORIGIN genesis_hash = true) (hoo : reach' ORIGIN ORIGIN = true) :
    (process_genesis (init genesis_hash k reach) genesis_bits reach').ReachabilityCorrect := by
  have hinv : (process_genesis (init genesis_hash k reach) genesis_bits reach').Inv :=
    inv_process_genesis horigin hwork
  have hparent :
      (process_genesis (init genesis_hash k reach) genesis_bits reach').IsParent ORIGIN
        genesis_hash :=
    ⟨[ORIGIN], by rw [process_genesis_relations_lookup, if_pos rfl], List.mem_singleton_self _⟩
  intro a b ha hb
  rw [process_genesis_relations_mem] at ha hb
  show reach' a b = true ↔ _
  rcases ha with rfl | rfl <;> rcases hb with rfl | rfl
  · exact ⟨fun _ => past_refl _, fun _ => hgg⟩
  · rw [hgo]
    exact ⟨fun h => absurd h Bool.false_ne_true,
      fun h => absurd (eq_origin_of_past h hinv.origin_parents) horigin⟩
  · exact ⟨fun _ => past_of_parent hparent, fun _ => hog⟩
  · exact ⟨fun _ => past_refl _, fun _ => hoo⟩

end Genesis

section Step

variable {M M' : GhostdagManager} {max_block_parents : Nat} {header : Header}
  {reach : Hash → Hash → Bool}

theorem process_header_ok (h : process_header M max_block_parents header reach = some (.ok M')) :
    ∃ data, validate_parents M max_block_parents header = .ok () ∧
      M.ghostdag (collect_known_parents M header) = some data ∧
      M' = commit_header M header.hash (collect_known_parents M header) header.bits data reach := by
  unfold process_header at h
  split at h
  · cases h
  next hvalid =>
  obtain ⟨data, hdata, hM'⟩ := Option.map_eq_some_iff.mp h
  exact ⟨data, hvalid, hdata, (Except.ok.inj hM').symm⟩

-- With an exact reachability service the parents the checks pass are an antichain.
theorem ValidParents.not_past (hinv : M.Inv) (hreach : M.ReachabilityCorrect)
    {parents : List Hash} (hvalid : ValidParents M parents) :
    ∀ p ∈ parents, ∀ q ∈ parents, p ≠ q → ¬M.Past p q := by
  intro p hp q hq hpq hpast
  have htrue := (hreach p q (mem_relations hinv (hvalid.mem p hp))
    (mem_relations hinv (hvalid.mem q hq))).mpr hpast
  rw [hvalid.antichain p hp q hq hpq] at htrue
  cases htrue

-- GHOSTDAG over parents that pass the checks: their known parents are themselves, and
-- the run returns data with the output properties.
theorem ghostdag_known_parents (hinv : M.Inv) (hreach : M.ReachabilityCorrect)
    (hvalid : ValidParents M header.direct_parents) :
    collect_known_parents M header = header.direct_parents ∧
      ∃ data, M.ghostdag header.direct_parents = some data ∧
        M.GhostdagOutput header.direct_parents data :=
  ⟨collect_known_parents_eq hvalid fun _ hx => mem_relations hinv hx,
    ghostdag_spec hinv hreach hvalid.ne_nil hvalid.mem (hvalid.not_past hinv hreach)⟩

-- A header a store with the invariant and an exact service accepts commits its block over its
-- own parents, which pass the checks, with the data GHOSTDAG computes for them.
theorem process_header_commit (hinv : M.Inv) (hreach : M.ReachabilityCorrect)
    (hstep : process_header M max_block_parents header reach = some (.ok M')) :
    ValidParents M header.direct_parents ∧ ∃ data, M.ghostdag header.direct_parents = some data ∧
      M.GhostdagOutput header.direct_parents data ∧
      M' = commit_header M header.hash header.direct_parents header.bits data reach := by
  obtain ⟨data, hvalid, hdata, rfl⟩ := process_header_ok hstep
  have hvp := validate_parents_ok hvalid
  obtain ⟨hknown, data', hdata', hout⟩ := ghostdag_known_parents hinv hreach hvp
  rw [hknown, hdata'] at hdata
  cases hdata
  exact ⟨hvp, data, hdata', hout, by rw [hknown]⟩

-- A header committed with a service that keeps its old answers, puts the new block above
-- exactly the past of its parents and below no old block keeps the service exact. The
-- conditions range over the keys of the relations, so that a concrete node decides them.
theorem reachability_correct_process_header (hinv : M.Inv) (hreach : M.ReachabilityCorrect)
    (hnew : header.hash ∉ M.relations_store)
    (hstep : process_header M max_block_parents header reach = some (.ok M'))
    (hold : ∀ a ∈ M.relations_store.keys, ∀ b ∈ M.relations_store.keys,
      reach a b = M.reachability_service a b)
    (hto : ∀ a ∈ M.relations_store.keys,
      reach a header.hash = header.direct_parents.any (M.reachability_service a))
    (hfrom : ∀ b ∈ M.relations_store.keys, reach header.hash b = false)
    (hself : reach header.hash header.hash = true) : M'.ReachabilityCorrect := by
  obtain ⟨data, hvalid, -, rfl⟩ := process_header_ok hstep
  have hvp := validate_parents_ok hvalid
  rw [(ghostdag_known_parents hinv hreach hvp).1]
  exact reachability_correct_commit hinv hnew hreach
    (fun p hp => mem_relations hinv (hvp.mem p hp))
    (fun a ha b hb => hold a (AList.mem_keys.mpr ha) b (AList.mem_keys.mpr hb))
    (fun a ha => hto a (AList.mem_keys.mpr ha)) (fun b hb => hfrom b (AList.mem_keys.mpr hb))
    hself

end Step

-- Every store a node builds keeps the invariant; the induction is on the run, with the
-- commit step carrying it over.
theorem Built.inv {max_block_parents : Nat} {M : GhostdagManager} (h : Built max_block_parents M) :
    M.Inv := by
  induction h with
  | genesis reach reach' horigin hwork => exact inv_process_genesis horigin hwork
  | @process_header M M' header reach _ hreach hnew hwork hstep ih =>
    obtain ⟨hvp, data, -, hout, rfl⟩ := process_header_commit ih hreach hstep
    exact inv_commit ih hnew hvp.mem hout hwork

-- The source keeps a blue work in a `Uint192` and the anticone sizes in `u16`s (`KType`): what a
-- built store holds in them stays within bounds it fixes.

-- Every block's blue work is at most its blue score times any bound on the work of the stored
-- headers; the induction is on the run, a new block adding at most that bound per blue.
theorem Built.blue_work_le {max_block_parents : Nat} {M : GhostdagManager}
    (h : Built max_block_parents M) {W : Nat} (hW : ∀ x ∈ M.ghostdag_store, M.work_of x ≤ W) :
    ∀ X d, M.ghostdag_store.lookup X = some d → d.blue_work ≤ d.blue_score * W := by
  induction h with
  | genesis reach reach' horigin hwork =>
    intro X d hX
    rw [eq_genesis_data_of_lookup hX]
    simp [genesis_ghostdag_data]
  | @process_header M M' header reach hM hreach hnew hwork hstep ih =>
    have hinv := hM.inv
    obtain ⟨hvp, data, hdata, hout, rfl⟩ := process_header_commit hinv hreach hstep
    -- an old block keeps its header, and so its work
    have hWold : ∀ x ∈ M.ghostdag_store, M.work_of x ≤ W := fun x hx => by
      have hold := hW x (mem_commit hx)
      rwa [work_of_commit (ne_new_of_mem hnew (mem_relations hinv hx))] at hold
    intro X d hX
    by_cases hXB : X = header.hash
    · subst hXB
      rw [commit_header_ghostdag_store, AList.lookup_insert, Option.some_inj] at hX
      subst hX
      obtain ⟨sp_data, hsp, hwork_eq, hscore⟩ :=
        ghostdag_blue_work hinv hreach hvp.ne_nil hvp.mem (hvp.not_past hinv hreach) hdata
      have hsp_le := ih hWold _ _ hsp
      have hsum := List.sum_le_card_nsmul (data.mergeset_blues.map M.work_of) W fun w hw => by
        obtain ⟨x, hx, rfl⟩ := List.mem_map.mp hw
        exact hWold x (hout.blues_mem x hx)
      rw [List.length_map, smul_eq_mul] at hsum
      rw [hwork_eq, hscore, Nat.add_mul]
      omega
    · rw [lookup_commit hXB] at hX
      exact ih hWold X d hX

-- Every block's mergeset holds at most `k + 1` blues; the induction is on the run, each new
-- block's being what `ghostdag` colours.
theorem Built.blues_length_le {max_block_parents : Nat} {M : GhostdagManager}
    (h : Built max_block_parents M) :
    ∀ X d, M.ghostdag_store.lookup X = some d → d.mergeset_blues.length ≤ M.k + 1 := by
  induction h with
  | genesis reach reach' horigin hwork =>
    intro X d hX
    rw [eq_genesis_data_of_lookup hX]
    simp [genesis_ghostdag_data]
  | @process_header M M' header reach hM hreach hnew hwork hstep ih =>
    obtain ⟨-, data, -, hout, rfl⟩ := process_header_commit hM.inv hreach hstep
    intro X d hX
    rw [commit_header_k]
    by_cases hXB : X = header.hash
    · subst hXB
      rw [commit_header_ghostdag_store, AList.lookup_insert, Option.some_inj] at hX
      exact hX ▸ hout.blues_length
    · rw [lookup_commit hXB] at hX
      exact ih X d hX

-- One more header on a built store whose service the new one extends as above: the store is
-- built and its service exact again.
theorem Built.process_header_reach {max_block_parents : Nat} {M M' : GhostdagManager}
    {header : Header} {reach : Hash → Hash → Bool} (hM : Built max_block_parents M)
    (hreach : M.ReachabilityCorrect) (hnew : header.hash ∉ M.relations_store)
    (hwork : ∃ w, calc_work header.bits = some w ∧ 0 < w)
    (hstep : HeaderProcessor.process_header M max_block_parents header reach = some (.ok M'))
    (hold : ∀ a ∈ M.relations_store.keys, ∀ b ∈ M.relations_store.keys,
      reach a b = M.reachability_service a b)
    (hto : ∀ a ∈ M.relations_store.keys,
      reach a header.hash = header.direct_parents.any (M.reachability_service a))
    (hfrom : ∀ b ∈ M.relations_store.keys, reach header.hash b = false)
    (hself : reach header.hash header.hash = true) :
    Built max_block_parents M' ∧ M'.ReachabilityCorrect :=
  ⟨.process_header hM hreach hnew hwork hstep,
    reachability_correct_process_header hM.inv hreach hnew hstep hold hto hfrom hself⟩

-- The reachability service of a node that holds genesis only: ORIGIN is below genesis.
def genesis_reachability : Hash → Hash → Bool := fun a b => a == ORIGIN || a == b

def genesis_node : GhostdagManager :=
  process_genesis (init [1] 18 genesis_reachability) 0x1d00ffff genesis_reachability

theorem genesis_node_inv : genesis_node.Inv :=
  inv_process_genesis (by decide) ⟨4295032833, by decide, by decide⟩

-- A node whose DAG forks: genesis [1] with the children [2], [3] and [4], the block [5]
-- merging all three and [6] on [5]. With k = 1 the merge at [5] has [4] as its selected
-- parent, colours [2] blue and [3] red. The service answers from the pasts of the whole DAG
-- at every stage.
def fork_past (b : Hash) : List Hash :=
  if b = [1] then [ORIGIN, [1]] else if b = [2] then [ORIGIN, [1], [2]]
  else if b = [3] then [ORIGIN, [1], [3]] else if b = [4] then [ORIGIN, [1], [4]]
  else if b = [5] then [ORIGIN, [1], [2], [3], [4], [5]]
  else if b = [6] then [ORIGIN, [1], [2], [3], [4], [5], [6]] else [b]

def fork_reachability (a b : Hash) : Bool := decide (a ∈ fork_past b)

-- The node after one more header, or as before where the header is rejected.
def fork_step (M : GhostdagManager) (header : Header) : GhostdagManager :=
  match process_header M 10 header fork_reachability with
  | some (.ok M') => M'
  | _ => M

def fork_node_1 : GhostdagManager :=
  process_genesis (init [1] 1 fork_reachability) 0x1d00ffff fork_reachability

def fork_node_2 : GhostdagManager := fork_step fork_node_1 ⟨[2], [[1]], 0x1d00ffff⟩

def fork_node_3 : GhostdagManager := fork_step fork_node_2 ⟨[3], [[1]], 0x1d00ffff⟩

def fork_node_4 : GhostdagManager := fork_step fork_node_3 ⟨[4], [[1]], 0x1d00ffff⟩

def fork_node_5 : GhostdagManager := fork_step fork_node_4 ⟨[5], [[2], [3], [4]], 0x1d00ffff⟩

def fork_node_6 : GhostdagManager := fork_step fork_node_5 ⟨[6], [[5]], 0x1d00ffff⟩

-- A header the node accepts takes it to the store fork_step gives.
theorem process_header_fork_step {M : GhostdagManager} {header : Header}
    (h : (process_header M 10 header fork_reachability).any Except.toBool = true) :
    process_header M 10 header fork_reachability = some (.ok (fork_step M header)) := by
  unfold fork_step
  cases hp : process_header M 10 header fork_reachability with
  | none =>
    rw [hp] at h
    cases h
  | some r =>
    cases r with
    | error e =>
      rw [hp] at h
      simp [Except.toBool] at h
    | ok M' => rfl

-- A stage of the fork built with an exact service, and a new header of positive work that
-- the node accepts and whose block the service places as above: the next stage is too.
theorem fork_step_built {M : GhostdagManager} {header : Header}
    (hM : Built 10 M ∧ M.ReachabilityCorrect) (hnew : header.hash ∉ M.relations_store)
    (hwork : ∃ w, calc_work header.bits = some w ∧ 0 < w)
    (hok : (process_header M 10 header fork_reachability).any Except.toBool = true)
    (hold : ∀ a ∈ M.relations_store.keys, ∀ b ∈ M.relations_store.keys,
      fork_reachability a b = M.reachability_service a b)
    (hto : ∀ a ∈ M.relations_store.keys,
      fork_reachability a header.hash = header.direct_parents.any (M.reachability_service a))
    (hfrom : ∀ b ∈ M.relations_store.keys, fork_reachability header.hash b = false)
    (hself : fork_reachability header.hash header.hash = true) :
    Built 10 (fork_step M header) ∧ (fork_step M header).ReachabilityCorrect :=
  hM.1.process_header_reach hM.2 hnew hwork (process_header_fork_step hok) hold hto hfrom hself

theorem fork_bits_work : ∃ w, calc_work 0x1d00ffff = some w ∧ 0 < w :=
  ⟨4295032833, by decide, by decide⟩

-- Every header of the fork is accepted, and each stage is built with an exact service.
theorem fork_node_1_built : Built 10 fork_node_1 ∧ fork_node_1.ReachabilityCorrect :=
  ⟨.genesis fork_reachability fork_reachability (by decide) fork_bits_work,
    reachability_correct_process_genesis (by decide) fork_bits_work (by decide)
      (by decide) (by decide) (by decide)⟩

theorem fork_node_2_built : Built 10 fork_node_2 ∧ fork_node_2.ReachabilityCorrect :=
  fork_step_built fork_node_1_built (by decide) fork_bits_work (by decide)
    (by decide) (by decide) (by decide) (by decide)

theorem fork_node_3_built : Built 10 fork_node_3 ∧ fork_node_3.ReachabilityCorrect :=
  fork_step_built fork_node_2_built (by decide) fork_bits_work (by decide)
    (by decide) (by decide) (by decide) (by decide)

theorem fork_node_4_built : Built 10 fork_node_4 ∧ fork_node_4.ReachabilityCorrect :=
  fork_step_built fork_node_3_built (by decide) fork_bits_work (by decide)
    (by decide) (by decide) (by decide) (by decide)

theorem fork_node_5_built : Built 10 fork_node_5 ∧ fork_node_5.ReachabilityCorrect :=
  fork_step_built fork_node_4_built (by decide) fork_bits_work (by decide)
    (by decide) (by decide) (by decide) (by decide)

theorem fork_node_6_built : Built 10 fork_node_6 ∧ fork_node_6.ReachabilityCorrect :=
  fork_step_built fork_node_5_built (by decide) fork_bits_work (by decide)
    (by decide) (by decide) (by decide) (by decide)

theorem fork_node_6_genesis_hash : fork_node_6.genesis_hash = [1] := by
  decide

-- In every DAG built by the pipeline, GHOSTDAG on the next header's parents colours each
-- candidate of the ordered mergeset blue exactly under the k-cluster rule over the blue set
-- built so far, with the anticone sizes that rule reads, and the result has at most k + 1
-- mergeset blues and the blue score of its selected parent plus their number.
theorem ghostdag_coloring_k_cluster {max_block_parents : Nat} {M : GhostdagManager}
    (hM : Built max_block_parents M) (hreach : M.ReachabilityCorrect) {header : Header}
    (hvalid : validate_parents M max_block_parents header = .ok ()) :
    ∃ sp ms, M.find_selected_parent header.direct_parents = some sp ∧
      M.ordered_mergeset_without_selected_parent sp header.direct_parents = some ms ∧
      (∀ pre c post D, ms = pre ++ c :: post →
        ghostdag.color M pre (GhostdagData.new_with_selected_parent sp M.k) = some D →
        ∃ out, M.check_blue_candidate D c = some out ∧ M.IsColoring D c out ∧
          ∀ size sizes, out = .Blue size sizes → M.ContextInv (D.add_blue c size sizes)) ∧
      ∃ data sp_data, M.ghostdag header.direct_parents = some data ∧
        data.selected_parent = sp ∧ M.ghostdag_store.lookup sp = some sp_data ∧
        data.mergeset_blues.length ≤ M.k + 1 ∧
        data.blue_score = sp_data.blue_score + data.mergeset_blues.length := by
  have hinv := hM.inv
  have hvp := validate_parents_ok hvalid
  have hanti := hvp.not_past hinv hreach
  obtain ⟨sp, hfind, hsp_mem, -⟩ := M.find_selected_parent_spec hvp.ne_nil hvp.mem
  obtain ⟨sp_data, hsp⟩ := exists_lookup (hvp.mem sp hsp_mem)
  obtain ⟨ms, hord, hms⟩ :=
    ordered_mergeset_spec (fun p hp => mem_relations hinv (hvp.mem p hp)) hanti hinv hreach hsp_mem
  obtain ⟨data, hdata, hout⟩ := ghostdag_spec hinv hreach hvp.ne_nil hvp.mem hanti
  have hdsp : data.selected_parent = sp := by
    have hfind' := hout.selected_parent_eq
    rw [hfind] at hfind'
    exact (Option.some.inj hfind').symm
  refine ⟨sp, ms, hfind, hord, fun pre c post D hsplit hcolor => ?_, data, sp_data, hdata, hdsp,
    hsp, hout.blues_length, ?_⟩
  -- the loop has coloured pre with its invariant kept, and c comes next
  · have hms' : M.OrderedMergeset sp header.direct_parents (pre ++ c :: post) := hsplit ▸ hms
    obtain ⟨D', hD', hcolored⟩ := color_spec hinv hsp hreach pre [] _
      (by simpa using hms'.sublist (List.sublist_append_left pre _)) (color_inv_new hinv hsp)
    rw [hcolor, Option.some.injEq] at hD'
    subst hD'
    rw [List.nil_append] at hcolored
    have hset := candidate_setting hinv hsp hms' hcolored
    obtain ⟨out, hcheck, hcoloring⟩ := check_blue_candidate_spec hinv hreach hset hcolored.length_le
    refine ⟨out, hcheck, hcoloring, fun size sizes hblue => ?_⟩
    subst hblue
    exact (hcolored.add_blue hinv hsp hms' hcoloring).context
  · obtain ⟨sp_data', hsp', hscore⟩ := hout.blue_score
    rw [hdsp, hsp, Option.some.injEq] at hsp'
    subst hsp'
    exact hscore

theorem ghostdag_coloring_k_cluster_fork :
    fork_node_4.ordered_mergeset_without_selected_parent [4] [[2], [3], [4]] = some [[2], [3]] ∧
    (fork_node_4.ghostdag [[2], [3], [4]]).map (fun d => (d.mergeset_blues, d.mergeset_reds)) =
      some ([[4], [2]], [[3]]) ∧
    ∃ sp ms, fork_node_4.find_selected_parent [[2], [3], [4]] = some sp ∧
      fork_node_4.ordered_mergeset_without_selected_parent sp [[2], [3], [4]] = some ms ∧
      (∀ pre c post D, ms = pre ++ c :: post →
        ghostdag.color fork_node_4 pre (GhostdagData.new_with_selected_parent sp fork_node_4.k) =
          some D →
        ∃ out, fork_node_4.check_blue_candidate D c = some out ∧
          fork_node_4.IsColoring D c out ∧
          ∀ size sizes, out = .Blue size sizes → fork_node_4.ContextInv (D.add_blue c size sizes)) ∧
      ∃ data sp_data, fork_node_4.ghostdag [[2], [3], [4]] = some data ∧
        data.selected_parent = sp ∧ fork_node_4.ghostdag_store.lookup sp = some sp_data ∧
        data.mergeset_blues.length ≤ fork_node_4.k + 1 ∧
        data.blue_score = sp_data.blue_score + data.mergeset_blues.length :=
  ⟨by decide, by decide,
    ghostdag_coloring_k_cluster fork_node_4_built.1 fork_node_4_built.2
      (show validate_parents fork_node_4 10 ⟨[5], [[2], [3], [4]], 0x1d00ffff⟩ = .ok () by
        decide)⟩

-- In every DAG built by the pipeline blue work rises from each block to its children. For
-- the next header, the mergeset search returns exactly the past of the parents off the
-- selected parent's past; sorting it puts it in a topological order behind the selected
-- parent; and the merges of the new data's blues and reds give that order back, ascending
-- and descending.
theorem ghostdag_mergeset_ordering {max_block_parents : Nat} {M : GhostdagManager}
    (hM : Built max_block_parents M) (hreach : M.ReachabilityCorrect) {header : Header}
    (hvalid : validate_parents M max_block_parents header = .ok ()) :
    (∀ a b, M.IsParent a b → a ∈ M.ghostdag_store → M.blue_work_of a < M.blue_work_of b) ∧
    ∃ sp found ms data, M.find_selected_parent header.direct_parents = some sp ∧
      unordered_mergeset_without_selected_parent M.relations_store M.reachability_service sp
        header.direct_parents = some found ∧ found.Nodup ∧
      (∀ x, x ∈ found ↔ (∃ p ∈ header.direct_parents, M.Past x p) ∧ ¬M.Past x sp) ∧
      M.sort_blocks found = some ms ∧ ms.Perm found ∧
      M.ordered_mergeset_without_selected_parent sp header.direct_parents = some ms ∧
      (sp :: ms).Pairwise (fun a b => ¬M.Past b a) ∧
      M.ghostdag header.direct_parents = some data ∧ data.selected_parent = sp ∧
      data.consensus_ordered_mergeset M.ghostdag_store = some (sp :: ms) ∧
      data.ascending_mergeset_without_selected_parent M.ghostdag_store =
        some (ms.map M.sortable) ∧
      data.descending_mergeset_without_selected_parent M.ghostdag_store =
        some (ms.map M.sortable).reverse := by
  have hinv := hM.inv
  have hvp := validate_parents_ok hvalid
  have hanti := hvp.not_past hinv hreach
  have hall : ∀ p ∈ header.direct_parents, p ∈ M.relations_store := fun p hp =>
    mem_relations hinv (hvp.mem p hp)
  refine ⟨fun a b hab ha => blue_work_of_lt hinv hab ha, ?_⟩
  obtain ⟨data, hdata, hout⟩ := ghostdag_spec hinv hreach hvp.ne_nil hvp.mem hanti
  obtain ⟨ms, hord, hms, hpart⟩ := ghostdag_partition hinv hreach hvp.ne_nil hvp.mem hanti hdata
  have hsp_mem := hout.selected_parent_mem
  obtain ⟨found, hfound, hsearch, hiff⟩ := unordered_mergeset_mem_iff hall hanti hinv hreach hsp_mem
  obtain ⟨sorted, hsorted, hperm, -⟩ := M.sort_blocks_spec (hsearch.stored hall hinv hsp_mem)
  -- the ordered mergeset is the sort of what the search found
  have hsorted_eq : sorted = ms := by
    simpa [ordered_mergeset_without_selected_parent, hfound, hsorted] using hord
  subst hsorted_eq
  have hstrict := pairwise_sortable_lt hms.sorted hms.nodup
  refine ⟨data.selected_parent, found, sorted, data, hout.selected_parent_eq, hfound, hsearch.nodup,
    hiff, hsorted, hperm, hord, hms.topological hinv, hdata, rfl, ?_, ?_, ?_⟩
  · exact consensus_ordered_mergeset_eq hout.mergeset_order hpart.symm hstrict
  · exact ascending_mergeset_eq hout.mergeset_order hpart.symm hstrict
  · exact descending_mergeset_eq hout.mergeset_order hpart.symm hstrict

theorem ghostdag_mergeset_ordering_fork :
    fork_node_4.ordered_mergeset_without_selected_parent [4] [[2], [3], [4]] = some [[2], [3]] ∧
    (∀ a b, fork_node_4.IsParent a b → a ∈ fork_node_4.ghostdag_store →
      fork_node_4.blue_work_of a < fork_node_4.blue_work_of b) ∧
    ∃ sp found ms data, fork_node_4.find_selected_parent [[2], [3], [4]] = some sp ∧
      unordered_mergeset_without_selected_parent fork_node_4.relations_store
        fork_node_4.reachability_service sp [[2], [3], [4]] = some found ∧ found.Nodup ∧
      (∀ x, x ∈ found ↔ (∃ p ∈ [[2], [3], [4]], fork_node_4.Past x p) ∧ ¬fork_node_4.Past x sp) ∧
      fork_node_4.sort_blocks found = some ms ∧ ms.Perm found ∧
      fork_node_4.ordered_mergeset_without_selected_parent sp [[2], [3], [4]] = some ms ∧
      (sp :: ms).Pairwise (fun a b => ¬fork_node_4.Past b a) ∧
      fork_node_4.ghostdag [[2], [3], [4]] = some data ∧ data.selected_parent = sp ∧
      data.consensus_ordered_mergeset fork_node_4.ghostdag_store = some (sp :: ms) ∧
      data.ascending_mergeset_without_selected_parent fork_node_4.ghostdag_store =
        some (ms.map fork_node_4.sortable) ∧
      data.descending_mergeset_without_selected_parent fork_node_4.ghostdag_store =
        some (ms.map fork_node_4.sortable).reverse :=
  ⟨by decide, ghostdag_mergeset_ordering fork_node_4_built.1 fork_node_4_built.2
    (show validate_parents fork_node_4 10 ⟨[5], [[2], [3], [4]], 0x1d00ffff⟩ = .ok () by
      decide)⟩

-- In every DAG the pipeline builds, each stored block's blue work is at most its blue score
-- times any bound on the work of the stored headers, its mergeset holds at most `k + 1` blues,
-- and the anticone size GHOSTDAG reads for each blue of its worldview is at most `k`: the
-- `Uint192` and `u16` fields of the source stay in range while these bounds do.
theorem built_ghostdag_in_range {max_block_parents : Nat} {M : GhostdagManager}
    (h : Built max_block_parents M) {W : Nat} (hW : ∀ x ∈ M.ghostdag_store, M.work_of x ≤ W) :
    ∀ X d, M.ghostdag_store.lookup X = some d →
      d.blue_work ≤ d.blue_score * W ∧ d.mergeset_blues.length ≤ M.k + 1 ∧
        ∀ b, M.InBlues d b → ∃ s, M.blue_anticone_size b d = some s ∧ s ≤ M.k := by
  intro X d hX
  have hcontext := h.inv.context X d hX
  exact ⟨h.blue_work_le hW X d hX, h.blues_length_le X d hX,
    fun b hb => ⟨_, hcontext.sizes b hb, hcontext.cluster b hb⟩⟩

-- On the forked DAG, block `[6]` has blue score 4 and exactly four times the work of one
-- header: the bound is reached.
theorem built_ghostdag_in_range_fork :
    calc_work 0x1d00ffff = some 4295032833 ∧
      (fork_node_6.ghostdag_store.lookup [6]).map (fun d => (d.blue_score, d.blue_work)) =
        some (4, 4 * 4295032833) ∧
      ∀ X d, fork_node_6.ghostdag_store.lookup X = some d →
        d.blue_work ≤ d.blue_score * 4295032833 ∧ d.mergeset_blues.length ≤ fork_node_6.k + 1 ∧
          ∀ b, fork_node_6.InBlues d b →
            ∃ s, fork_node_6.blue_anticone_size b d = some s ∧ s ≤ fork_node_6.k := by
  have hW : ∀ x ∈ fork_node_6.ghostdag_store, fork_node_6.work_of x ≤ 4295032833 := fun x hx =>
    (by decide : ∀ x ∈ fork_node_6.ghostdag_store.keys, fork_node_6.work_of x ≤ 4295032833)
      x (AList.mem_keys.mpr hx)
  exact ⟨by decide, by decide,
    built_ghostdag_in_range fork_node_6_built.1 hW⟩

end Waglayla.Consensus.HeaderProcessor
