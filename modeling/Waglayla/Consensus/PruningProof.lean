import Mathlib.Data.List.Basic

namespace Waglayla.Consensus.PruningProof

-- The 32 bytes of a block hash.
abbrev Hash := List UInt8

abbrev BlockLevel := UInt8

def ORIGIN : Hash := List.replicate 32 0xfe

-- The header fields the proof validation reads itself; the block level comes from the
-- proof of work, which `calc_block_level` stands for.
structure Header where
  hash : Hash
  parents_by_level : List (List Hash)
  deriving DecidableEq, Repr

structure GhostdagData where
  blue_score : UInt64
  blue_work : Nat
  selected_parent : Hash
  mergeset_blues : List Hash
  mergeset_reds : List Hash
  deriving DecidableEq, Repr

def GhostdagData.unordered_mergeset_without_selected_parent (self : GhostdagData) : List Hash :=
  self.mergeset_blues.drop 1 ++ self.mergeset_reds

inductive PruningImportError where
  | ProofValidationError
  | ProofNotEnoughLevels (levels : Nat)
  | PruningProofWrongBlockLevel (hash : Hash) (header_level level : BlockLevel)
  | PruningProofHeaderWithNoKnownParents (hash : Hash) (level : BlockLevel)
  | PruningProofMissingBlockAtDepthMFromNextLevel (level next_level : BlockLevel)
  | PruningProofMissesBlocksBelowPruningPoint (hash : Hash) (level : BlockLevel)
  | PruningProofSelectedTipIsNotThePruningPoint (hash : Hash) (level : BlockLevel)
  | PruningProofSelectedTipNotParentOfPruningPoint (hash : Hash) (level : BlockLevel)
  | PruningProofInsufficientBlueWork
  | PruningProofNotEnoughHeaders
  | PruningProofDuplicateHeaderAtLevel (hash : Hash) (level : BlockLevel)
  | PruningValidationInterrupted
  deriving DecidableEq, Repr

-- `ParentsManager::parents_at_level`
def parents_at_level (genesis_hash : Hash) (header : Header) (level : BlockLevel) : List Hash :=
  if header.parents_by_level.isEmpty then []
  else if header.parents_by_level.length > level.toNat then
    header.parents_by_level.getD level.toNat []
  else [genesis_hash]

-- The temporary per-level stores of the validation and the managers built over them,
-- seen through the operations the level loop calls. A `none` is an `.unwrap()` that
-- fails; database calls on the fresh temporary database do not.
structure TempStores (σ : Type) where
  headers_insert : σ → Header → BlockLevel → σ
  ghostdag_has : σ → BlockLevel → Hash → Bool
  ghostdag_insert : σ → BlockLevel → Hash → GhostdagData → σ
  relations_has : σ → BlockLevel → Hash → Bool
  relations_insert : σ → BlockLevel → Hash → List Hash → σ
  reachability_has : σ → BlockLevel → Hash → Bool
  -- `GhostdagManager::ghostdag` and `find_selected_parent` of the level
  ghostdag : σ → BlockLevel → List Hash → GhostdagData
  find_selected_parent : σ → BlockLevel → Hash → Hash → Hash
  -- `reachability::add_block(..).unwrap()` and `hint_virtual_selected_parent(..).unwrap()`
  add_block : σ → BlockLevel → Hash → Hash → List Hash → Option σ
  hint_virtual_selected_parent : σ → BlockLevel → Hash → Option σ
  -- `self.block_at_depth(&*ghostdag_stores[level], high, depth).unwrap()`
  block_at_depth : σ → BlockLevel → Hash → UInt64 → Option Hash

-- The manager's configuration the validation reads.
structure PruningProofManager where
  max_block_level : BlockLevel
  pruning_proof_m : UInt64
  genesis_hash : Hash
  is_consensus_exiting : Bool

section Validate

variable {σ : Type} (mgr : PruningProofManager) (S : TempStores σ)
  (calc_block_level : Header → BlockLevel → BlockLevel)

-- The new header joins the level's reachability tree under its selected parent, with the
-- part of its mergeset reachability knows, and is hinted as the virtual's selected parent
-- when it is the selected tip.
def add_to_reachability (level : BlockLevel) (st : σ) (header : Header)
    (ghostdag_data : GhostdagData) (selected_tip : Hash) : Option σ := do
  let reachability_mergeset :=
    ghostdag_data.unordered_mergeset_without_selected_parent.filter (S.reachability_has st level)
  let st ← S.add_block st level header.hash ghostdag_data.selected_parent reachability_mergeset
  if selected_tip = header.hash then S.hint_virtual_selected_parent st level header.hash
  else some st

-- One iteration of the loop over the headers of `level`: the stores and the selected
-- tip after the header at index `i`.
def process_header (level : BlockLevel) (st : σ) (selected_tip : Option Hash) (i : Nat)
    (header : Header) : Option (Except PruningImportError (σ × Option Hash)) := do
  let header_level := calc_block_level header mgr.max_block_level
  if header_level < level then
    return .error (.PruningProofWrongBlockLevel header.hash header_level level)
  let st := S.headers_insert st header header_level
  let parents := (parents_at_level mgr.genesis_hash header level).filter (S.ghostdag_has st level)
  -- only the first block at each level may have no known parents
  if parents.isEmpty ∧ i ≠ 0 then
    return .error (.PruningProofHeaderWithNoKnownParents header.hash level)
  let parents := if parents.isEmpty then [ORIGIN] else parents
  if S.relations_has st level header.hash then
    return .error (.PruningProofDuplicateHeaderAtLevel header.hash level)
  let st := S.relations_insert st level header.hash parents
  let ghostdag_data := S.ghostdag st level parents
  let st := S.ghostdag_insert st level header.hash ghostdag_data
  let selected_tip := match selected_tip with
    | some tip => S.find_selected_parent st level tip header.hash
    | none => header.hash
  let st ← add_to_reachability S level st header ghostdag_data selected_tip
  return .ok (st, some selected_tip)

-- `for (i, header) in proof[level].iter().enumerate()`
def process_level (level : BlockLevel) :
    σ → Option Hash → Nat → List Header → Option (Except PruningImportError (σ × Option Hash))
  | st, selected_tip, _, [] => some (.ok (st, selected_tip))
  | st, selected_tip, i, header :: headers =>
    match process_header mgr S calc_block_level level st selected_tip i header with
    | none => none
    | some (.error e) => some (.error e)
    | some (.ok (st, selected_tip)) => process_level level st selected_tip (i + 1) headers

-- The checks after a level's headers: the block at depth `m` of the level above is in
-- this level, and the selected tip is the pruning point or one of its parents.
def check_level (proof_pp_header : Header) (level : BlockLevel) (st : σ)
    (selected_tip_by_level : List (Option Hash)) (selected_tip : Option Hash) :
    Option (Except PruningImportError Hash) := do
  if level < mgr.max_block_level then
    let next_tip ← selected_tip_by_level[level.toNat + 1]?.join
    let block_at_depth_m_at_next_level ←
      S.block_at_depth st (level + 1) next_tip mgr.pruning_proof_m
    if !S.relations_has st level block_at_depth_m_at_next_level then
      return .error (.PruningProofMissingBlockAtDepthMFromNextLevel level (level + 1))
  -- `selected_tip.unwrap()`
  let tip ← selected_tip
  if tip ≠ proof_pp_header.hash ∧
      ¬(parents_at_level mgr.genesis_hash proof_pp_header level).contains tip then
    return .error (.PruningProofMissesBlocksBelowPruningPoint tip level)
  return .ok tip

-- `for level in (0..=self.max_block_level).rev()`, carrying `selected_tip_by_level`.
def validate_levels (proof : List (List Header)) (proof_pp_header : Header) :
    List BlockLevel → σ → List (Option Hash) →
      Option (Except PruningImportError (σ × List (Option Hash)))
  | [], st, selected_tip_by_level => some (.ok (st, selected_tip_by_level))
  | level :: levels, st, selected_tip_by_level =>
    if mgr.is_consensus_exiting then some (.error .PruningValidationInterrupted)
    else
      match proof[level.toNat]? with
      | none => none
      | some headers =>
        match process_level mgr S calc_block_level level st none 0 headers with
        | none => none
        | some (.error e) => some (.error e)
        | some (.ok (st, selected_tip)) =>
          match check_level mgr S proof_pp_header level st selected_tip_by_level selected_tip with
          | none => none
          | some (.error e) => some (.error e)
          | some (.ok tip) =>
            validate_levels proof proof_pp_header levels st
              (selected_tip_by_level.set level.toNat (some tip))

-- `validate_pruning_point_proof`. `st` is the temporary stores after their setup, with
-- `ORIGIN` at every level, and `compare_with_local` the comparison of the proof's
-- selected tips with the local consensus state that follows the level loop.
def validate_pruning_point_proof (st : σ)
    (compare_with_local : Header → σ → List (Option Hash) → Option (Except PruningImportError Unit))
    (proof : List (List Header)) : Option (Except PruningImportError Unit) :=
  if proof.length ≠ mgr.max_block_level.toNat + 1 then
    some (.error (.ProofNotEnoughLevels (mgr.max_block_level.toNat + 1)))
  else
    match proof[0]? with
    | none => none
    | some first_level =>
      match first_level.getLast? with
      | none => some (.error .PruningProofNotEnoughHeaders)
      | some proof_pp_header =>
        let levels := (List.range (mgr.max_block_level.toNat + 1)).reverse.map Nat.toUInt8
        match validate_levels mgr S calc_block_level proof proof_pp_header levels st
            (List.replicate (mgr.max_block_level.toNat + 1) none) with
        | none => none
        | some (.error e) => some (.error e)
        | some (.ok (st, selected_tip_by_level)) =>
          compare_with_local proof_pp_header st selected_tip_by_level

-- The top level is validated first, and an empty one leaves no selected tip to unwrap.
theorem validate_levels_empty_level_panics (proof : List (List Header)) (proof_pp_header : Header)
    (levels : List BlockLevel) (st : σ) (selected_tip_by_level : List (Option Hash))
    (hexit : mgr.is_consensus_exiting = false) (htop : proof[mgr.max_block_level.toNat]? = some []) :
    validate_levels mgr S calc_block_level proof proof_pp_header (mgr.max_block_level :: levels) st
      selected_tip_by_level = none := by
  simp only [validate_levels, hexit, Bool.false_eq_true, if_false, htop, process_level]
  simp [check_level]

-- The level loop starts at the top level.
theorem levels_eq (max_block_level : BlockLevel) :
    (List.range (max_block_level.toNat + 1)).reverse.map Nat.toUInt8 =
      max_block_level :: (List.range max_block_level.toNat).reverse.map Nat.toUInt8 := by
  rw [List.range_succ, List.reverse_append, List.map_append]
  simp

-- A proof with the right number of levels and a non-empty level 0 whose top level is
-- empty makes the validation panic on the unset selected tip, whatever the stores hold
-- and whatever the rest of the proof is.
theorem validate_pruning_point_proof_empty_top_level (st : σ)
    (compare_with_local : Header → σ → List (Option Hash) → Option (Except PruningImportError Unit))
    (proof : List (List Header)) (hlen : proof.length = mgr.max_block_level.toNat + 1)
    (hfirst : ∃ header headers, proof[0]? = some (header :: headers))
    (htop : proof[mgr.max_block_level.toNat]? = some [])
    (hexit : mgr.is_consensus_exiting = false) :
    validate_pruning_point_proof mgr S calc_block_level st compare_with_local proof = none := by
  obtain ⟨header, headers, h0⟩ := hfirst
  have hlast : (header :: headers).getLast? = some ((header :: headers).getLast (by simp)) :=
    List.getLast?_eq_some_getLast _
  unfold validate_pruning_point_proof
  rw [if_neg (by omega), h0]
  simp only [hlast, levels_eq, validate_levels_empty_level_panics mgr S calc_block_level _ _ _ _ _
    hexit htop]

end Validate

-- On a mainnet-sized proof (levels 0 to 225) with one header at level 0 and nothing
-- above it, with any store behaviour.
theorem validate_pruning_point_proof_mainnet_empty_top_level :
    let mgr : PruningProofManager := ⟨225, 1000, [], false⟩
    let S : TempStores Unit := ⟨fun _ _ _ => (), fun _ _ _ => false, fun _ _ _ _ => (),
      fun _ _ _ => false, fun _ _ _ _ => (), fun _ _ _ => false,
      fun _ _ _ => ⟨0, 0, ORIGIN, [ORIGIN], []⟩, fun _ _ a _ => a,
      fun _ _ _ _ _ => some (), fun _ _ _ => some (), fun _ _ _ _ => some ORIGIN⟩
    let proof : List (List Header) := [⟨[1], [[ORIGIN]]⟩] :: List.replicate 225 []
    validate_pruning_point_proof mgr S (fun _ _ => 0) () (fun _ _ _ => some (.ok ())) proof =
      none :=
  validate_pruning_point_proof_empty_top_level _ _ _ () _ _
    (by rw [List.length_cons, List.length_replicate]; rfl) ⟨_, _, rfl⟩
    (by rw [show (225 : UInt8).toNat = 224 + 1 from rfl, List.getElem?_cons_succ,
      List.getElem?_replicate, if_pos (by omega)]) rfl

end Waglayla.Consensus.PruningProof
