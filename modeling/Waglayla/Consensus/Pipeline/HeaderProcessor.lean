import Waglayla.Consensus.Ghostdag.Protocol

-- The part of the header processor GHOSTDAG depends on, at block level 0. The other checks
-- (version, timestamp, proof of work, difficulty, merge bounds) touch no store modelled here.

namespace Waglayla.Consensus

inductive RuleError where
  | NoParents
  | TooManyParents (count max : Nat)
  | OriginParent
  | InvalidParentsRelation (a b : Hash)
  | MissingParents (missing : List Hash)
  | InsufficientDaaWindowSize (len : Nat)
  deriving DecidableEq, Repr

-- The fields of a header the modelled steps read: its hash, its direct parents and its
-- difficulty bits.
structure Header where
  hash : Hash
  direct_parents : List Hash
  bits : UInt32
  deriving DecidableEq, Repr

namespace HeaderProcessor

def check_parents_limit (max_block_parents : Nat) (header : Header) : Except RuleError Unit :=
  if header.direct_parents.isEmpty then .error .NoParents
  else if header.direct_parents.length > max_block_parents then
    .error (.TooManyParents header.direct_parents.length max_block_parents)
  else .ok ()

def check_parents_not_origin (header : Header) : Except RuleError Unit :=
  if header.direct_parents.any is_origin then .error .OriginParent else .ok ()

-- A block has a status once its header is committed, which is when it gets GHOSTDAG data;
-- a parent with the invalid status is never committed, so it is reported missing here.
def check_parents_exist (manager : GhostdagManager) (header : Header) : Except RuleError Unit :=
  let missing_parents := header.direct_parents.filter fun parent =>
    (manager.ghostdag_store.lookup parent).isNone
  if missing_parents.isEmpty then .ok () else .error (.MissingParents missing_parents)

def check_parents_incest (manager : GhostdagManager) (header : Header) : Except RuleError Unit :=
  header.direct_parents.forM fun parent_a =>
    header.direct_parents.forM fun parent_b =>
      if parent_a = parent_b then .ok ()
      else if manager.reachability_service parent_a parent_b then
        .error (.InvalidParentsRelation parent_a parent_b)
      else .ok ()

def validate_parent_relations (manager : GhostdagManager) (header : Header) :
    Except RuleError Unit := do
  check_parents_exist manager header
  check_parents_incest manager header

-- The parent checks in the order `validate_header` runs them.
def validate_parents (manager : GhostdagManager) (max_block_parents : Nat) (header : Header) :
    Except RuleError Unit := do
  check_parents_limit max_block_parents header
  check_parents_not_origin header
  validate_parent_relations manager header

-- The level-0 parents with relations, or ORIGIN when there are none.
def collect_known_parents (manager : GhostdagManager) (header : Header) : List Hash :=
  let known := header.direct_parents.filter fun parent =>
    (manager.relations_store.lookup parent).isSome
  if known.isEmpty then [ORIGIN] else known

-- The stores `commit_header` writes at level 0, with the reachability service that has
-- taken the block in.
def commit_header (manager : GhostdagManager) (hash : Hash) (known_parents : List Hash)
    (bits : UInt32) (ghostdag_data : GhostdagData)
    (reachability_service : Hash → Hash → Bool) : GhostdagManager :=
  { manager with
    ghostdag_store := manager.ghostdag_store.insert hash ghostdag_data
    relations_store := manager.relations_store.insert hash known_parents
    headers_store := manager.headers_store.insert hash bits
    reachability_service }

-- A new node: the relations store holds ORIGIN with no parents.
def init (genesis_hash : Hash) (k : Nat) (reachability_service : Hash → Hash → Bool) :
    GhostdagManager :=
  { genesis_hash
    k
    ghostdag_store := ∅
    relations_store := (∅ : AList fun _ : Hash => List Hash).insert ORIGIN []
    headers_store := ∅
    reachability_service }

-- Genesis is committed with ORIGIN as its parent and the genesis GHOSTDAG data.
def process_genesis (manager : GhostdagManager) (genesis_bits : UInt32)
    (reachability_service : Hash → Hash → Bool) : GhostdagManager :=
  commit_header manager manager.genesis_hash [ORIGIN] genesis_bits genesis_ghostdag_data
    reachability_service

-- An ordinary header the node does not know yet: the parent checks, GHOSTDAG over the
-- known parents, and the commit. A panic of GHOSTDAG is `none`.
def process_header (manager : GhostdagManager) (max_block_parents : Nat) (header : Header)
    (reachability_service : Hash → Hash → Bool) : Option (Except RuleError GhostdagManager) :=
  match validate_parents manager max_block_parents header with
  | .error e => some (.error e)
  | .ok () =>
    let known_parents := collect_known_parents manager header
    (manager.ghostdag known_parents).map fun ghostdag_data =>
      .ok (commit_header manager header.hash known_parents header.bits ghostdag_data
        reachability_service)

section Checks

variable {manager : GhostdagManager} {max_block_parents : Nat} {header : Header}

theorem forM_eq_ok {α ε : Type} {f : α → Except ε Unit} :
    ∀ {l : List α}, l.forM f = .ok () ↔ ∀ x ∈ l, f x = .ok ()
  | [] => by simp only [List.not_mem_nil, IsEmpty.forall_iff, implies_true, iff_true]; rfl
  | x :: l => by
    show (f x >>= fun _ => l.forM f) = _ ↔ _
    cases hx : f x with
    | error e => simp [hx, bind, Except.bind]
    | ok u =>
      simp only [bind, Except.bind, List.mem_cons, forall_eq_or_imp, hx]
      rw [forM_eq_ok]
      simp

-- What a header whose parents pass the checks has: parents, none of them ORIGIN, all
-- stored, and none an ancestor of another by the reachability service.
structure ValidParents (manager : GhostdagManager) (parents : List Hash) : Prop where
  ne_nil : parents ≠ []
  not_origin : ∀ p ∈ parents, p ≠ ORIGIN
  mem : ∀ p ∈ parents, p ∈ manager.ghostdag_store
  antichain : ∀ p ∈ parents, ∀ q ∈ parents, p ≠ q → manager.reachability_service p q = false

theorem check_parents_limit_ok (h : check_parents_limit max_block_parents header = .ok ()) :
    header.direct_parents ≠ [] ∧ header.direct_parents.length ≤ max_block_parents := by
  unfold check_parents_limit at h
  split_ifs at h with hempty hlen
  exact ⟨List.isEmpty_eq_false_iff.mp (Bool.eq_false_iff.mpr hempty), Nat.le_of_not_gt hlen⟩

theorem check_parents_not_origin_ok (h : check_parents_not_origin header = .ok ()) :
    ∀ p ∈ header.direct_parents, p ≠ ORIGIN := by
  unfold check_parents_not_origin at h
  split_ifs at h with hany
  intro p hp hpo
  exact hany (List.any_eq_true.mpr ⟨p, hp, by simp [is_origin, hpo]⟩)

theorem check_parents_exist_ok (h : check_parents_exist manager header = .ok ()) :
    ∀ p ∈ header.direct_parents, p ∈ manager.ghostdag_store := by
  unfold check_parents_exist at h
  dsimp only at h
  split_ifs at h with hmissing
  intro p hp
  have hnot : p ∉ header.direct_parents.filter fun parent =>
      (manager.ghostdag_store.lookup parent).isNone := by
    simp [List.isEmpty_iff.mp hmissing]
  simp only [List.mem_filter, hp, true_and, Option.isNone_iff_eq_none] at hnot
  exact AList.lookup_isSome.mp (Option.isSome_iff_ne_none.mpr hnot)

theorem check_parents_incest_ok (h : check_parents_incest manager header = .ok ()) :
    ∀ p ∈ header.direct_parents, ∀ q ∈ header.direct_parents, p ≠ q →
      manager.reachability_service p q = false := by
  intro p hp q hq hpq
  have hq' := forM_eq_ok.mp (forM_eq_ok.mp h p hp) q hq
  simp only [hpq, if_false] at hq'
  split_ifs at hq' with hreach
  exact Bool.eq_false_iff.mpr hreach

theorem validate_parents_ok (h : validate_parents manager max_block_parents header = .ok ()) :
    ValidParents manager header.direct_parents := by
  simp only [validate_parents, validate_parent_relations, bind, Except.bind] at h
  split at h
  · cases h
  next hlimit =>
  split at h
  · cases h
  next horigin =>
  split at h
  · cases h
  next hexist =>
  have hlimit' := check_parents_limit_ok hlimit
  exact ⟨hlimit'.1, check_parents_not_origin_ok horigin, check_parents_exist_ok hexist,
    check_parents_incest_ok h⟩

-- Parents that are all stored are all known.
theorem collect_known_parents_eq (hvalid : ValidParents manager header.direct_parents)
    (hsame : ∀ p ∈ manager.ghostdag_store, p ∈ manager.relations_store) :
    collect_known_parents manager header = header.direct_parents := by
  have hall : header.direct_parents.filter (fun parent =>
      (manager.relations_store.lookup parent).isSome) = header.direct_parents :=
    List.filter_eq_self.mpr fun p hp =>
      AList.lookup_isSome.mpr (hsame p (hvalid.mem p hp))
  simp only [collect_known_parents, hall, List.isEmpty_eq_false_iff.mpr hvalid.ne_nil,
    Bool.false_eq_true, if_false]

end Checks

end HeaderProcessor

end Waglayla.Consensus
