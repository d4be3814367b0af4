import Waglayla.Consensus.Tx
import Waglayla.Bytes.LittleEndian

-- Signature hashes of transaction inputs, with the shared sub-hashes in `SigHashReusedValues`.
-- A hasher is the byte stream it was fed; the keyed digests are parameters.

namespace Waglayla.Consensus.Hashing

open Waglayla.TxScript (ScriptPublicKey Bytes)

-- `HasherBase` with the writes of `HasherExtensions`.
structure Hasher where
  stream : Bytes
  deriving DecidableEq, Repr

namespace Hasher

def new : Hasher := ⟨[]⟩

def update (self : Hasher) (bytes : Bytes) : Hasher := ⟨self.stream ++ bytes⟩

def write_u8 (self : Hasher) (element : UInt8) : Hasher := self.update [element]

def write_u16 (self : Hasher) (element : UInt16) : Hasher :=
  self.update (LittleEndian.encode 2 element.toNat)

def write_u32 (self : Hasher) (element : UInt32) : Hasher :=
  self.update (LittleEndian.encode 4 element.toNat)

def write_u64 (self : Hasher) (element : UInt64) : Hasher :=
  self.update (LittleEndian.encode 8 element.toNat)

-- `(len as u64).to_le_bytes()`
def write_len (self : Hasher) (len : Nat) : Hasher := self.update (LittleEndian.encode 8 len)

def write_var_bytes (self : Hasher) (bytes : Bytes) : Hasher :=
  (self.write_len bytes.length).update bytes

end Hasher

def ZERO_HASH : Bytes := List.replicate 32 0

structure SigHashType where
  value : UInt8
  deriving DecidableEq, Repr

def SIG_HASH_ALL : SigHashType := ⟨0b00000001⟩
def SIG_HASH_NONE : SigHashType := ⟨0b00000010⟩
def SIG_HASH_SINGLE : SigHashType := ⟨0b00000100⟩
def SIG_HASH_ANY_ONE_CAN_PAY : SigHashType := ⟨0b10000000⟩

def SIG_HASH_MASK : UInt8 := 0b00000111

def ALLOWED_SIG_HASH_TYPES_VALUES : List UInt8 :=
  [SIG_HASH_ALL.value, SIG_HASH_NONE.value, SIG_HASH_SINGLE.value,
    SIG_HASH_ALL.value ||| SIG_HASH_ANY_ONE_CAN_PAY.value,
    SIG_HASH_NONE.value ||| SIG_HASH_ANY_ONE_CAN_PAY.value,
    SIG_HASH_SINGLE.value ||| SIG_HASH_ANY_ONE_CAN_PAY.value]

namespace SigHashType

def is_sighash_all (self : SigHashType) : Bool := self.value &&& SIG_HASH_MASK == SIG_HASH_ALL.value

def is_sighash_none (self : SigHashType) : Bool :=
  self.value &&& SIG_HASH_MASK == SIG_HASH_NONE.value

def is_sighash_single (self : SigHashType) : Bool :=
  self.value &&& SIG_HASH_MASK == SIG_HASH_SINGLE.value

def is_sighash_anyone_can_pay (self : SigHashType) : Bool :=
  self.value &&& SIG_HASH_ANY_ONE_CAN_PAY.value == SIG_HASH_ANY_ONE_CAN_PAY.value

def to_u8 (self : SigHashType) : UInt8 := self.value

def from_u8 (val : UInt8) : Except String SigHashType :=
  if val ∉ ALLOWED_SIG_HASH_TYPES_VALUES then .error "invalid sighash type" else .ok ⟨val⟩

end SigHashType

structure SigHashReusedValues where
  previous_outputs_hash : Option Bytes
  sequences_hash : Option Bytes
  sig_op_counts_hash : Option Bytes
  outputs_hash : Option Bytes
  deriving DecidableEq, Repr

def SigHashReusedValues.new : SigHashReusedValues := ⟨none, none, none, none⟩

-- The step the four reused sub-hashes share: the cached value if there is one, else the
-- computed one, which is then cached.
def reuse_or_compute {α : Type} (cached : Option α) (computed : α) : α × Option α :=
  match cached with
  | some value => (value, cached)
  | none => (computed, some computed)

def hash_outpoint (hasher : Hasher) (outpoint : TransactionOutpoint) : Hasher :=
  (hasher.update outpoint.transaction_id).write_u32 outpoint.index

def hash_script_public_key (hasher : Hasher) (script_public_key : ScriptPublicKey) : Hasher :=
  (hasher.write_u16 script_public_key.version).write_var_bytes script_public_key.script

def hash_output (hasher : Hasher) (output : TransactionOutput) : Hasher :=
  hash_script_public_key (hasher.write_u64 output.value) output.script_public_key

section Sighash

-- `TransactionSigningHash::finalize` of a stream.
variable (signing_hash : Bytes → Bytes)

-- The sub-hashes over the whole transaction, as the loops of the source feed them.
def all_previous_outputs_hash (tx : Transaction) : Bytes :=
  signing_hash (tx.inputs.foldl (fun hasher input => hash_outpoint hasher input.previous_outpoint)
    Hasher.new).stream

def all_sequences_hash (tx : Transaction) : Bytes :=
  signing_hash (tx.inputs.foldl (fun hasher input => hasher.write_u64 input.sequence)
    Hasher.new).stream

def all_sig_op_counts_hash (tx : Transaction) : Bytes :=
  signing_hash (tx.inputs.foldl (fun hasher input => hasher.write_u8 input.sig_op_count)
    Hasher.new).stream

def all_outputs_hash (tx : Transaction) : Bytes :=
  signing_hash (tx.outputs.foldl hash_output Hasher.new).stream

def previous_outputs_hash (tx : Transaction) (hash_type : SigHashType)
    (reused_values : SigHashReusedValues) : Bytes × SigHashReusedValues :=
  if hash_type.is_sighash_anyone_can_pay then (ZERO_HASH, reused_values)
  else
    let (hash, cached) := reuse_or_compute reused_values.previous_outputs_hash
      (all_previous_outputs_hash signing_hash tx)
    (hash, { reused_values with previous_outputs_hash := cached })

def sequences_hash (tx : Transaction) (hash_type : SigHashType)
    (reused_values : SigHashReusedValues) : Bytes × SigHashReusedValues :=
  if hash_type.is_sighash_single || hash_type.is_sighash_anyone_can_pay ||
      hash_type.is_sighash_none then (ZERO_HASH, reused_values)
  else
    let (hash, cached) := reuse_or_compute reused_values.sequences_hash
      (all_sequences_hash signing_hash tx)
    (hash, { reused_values with sequences_hash := cached })

def sig_op_counts_hash (tx : Transaction) (hash_type : SigHashType)
    (reused_values : SigHashReusedValues) : Bytes × SigHashReusedValues :=
  if hash_type.is_sighash_anyone_can_pay then (ZERO_HASH, reused_values)
  else
    let (hash, cached) := reuse_or_compute reused_values.sig_op_counts_hash
      (all_sig_op_counts_hash signing_hash tx)
    (hash, { reused_values with sig_op_counts_hash := cached })

def payload_hash (tx : Transaction) : Bytes :=
  if tx.subnetwork_id = SUBNETWORK_ID_NATIVE then ZERO_HASH
  else signing_hash (Hasher.new.write_var_bytes tx.payload).stream

-- Under SIGHASH_SINGLE the output at the input's index is hashed alone and nothing is
-- cached; otherwise all outputs are, through the cache.
def outputs_hash (tx : Transaction) (hash_type : SigHashType)
    (reused_values : SigHashReusedValues) (input_index : Nat) : Bytes × SigHashReusedValues :=
  if hash_type.is_sighash_none then (ZERO_HASH, reused_values)
  else if hash_type.is_sighash_single then
    if h : input_index ≥ tx.outputs.length then (ZERO_HASH, reused_values)
    else (signing_hash (hash_output Hasher.new tx.outputs[input_index]).stream, reused_values)
  else
    let (hash, cached) := reuse_or_compute reused_values.outputs_hash
      (all_outputs_hash signing_hash tx)
    (hash, { reused_values with outputs_hash := cached })

-- `none` is the panic of `populated_input` on an index past the inputs or the entries.
def calc_schnorr_signature_hash (verifiable_tx : PopulatedTransaction) (input_index : Nat)
    (hash_type : SigHashType) (reused_values : SigHashReusedValues) :
    Option (Bytes × SigHashReusedValues) := do
  let (input, entry) ← verifiable_tx.populated_input input_index
  let tx := verifiable_tx.tx
  let (previous_outputs, reused_values) := previous_outputs_hash signing_hash tx hash_type reused_values
  let (sequences, reused_values) := sequences_hash signing_hash tx hash_type reused_values
  let (sig_op_counts, reused_values) := sig_op_counts_hash signing_hash tx hash_type reused_values
  let hasher := ((Hasher.new.write_u16 tx.version).update previous_outputs).update sequences
    |>.update sig_op_counts
  let hasher := hash_outpoint hasher input.previous_outpoint
  let hasher := hash_script_public_key hasher entry.script_public_key
  let (outputs, reused_values) := outputs_hash signing_hash tx hash_type reused_values input_index
  let hasher := (((hasher.write_u64 entry.amount).write_u64 input.sequence).write_u8
    input.sig_op_count).update outputs
  let hasher := ((((hasher.write_u64 tx.lock_time).update tx.subnetwork_id).write_u64 tx.gas).update
    (payload_hash signing_hash tx)).write_u8 hash_type.to_u8
  return (signing_hash hasher.stream, reused_values)

-- `TransactionSigningHashECDSA::finalize` of a stream.
variable (signing_hash_ecdsa : Bytes → Bytes)

def calc_ecdsa_signature_hash (verifiable_tx : PopulatedTransaction) (input_index : Nat)
    (hash_type : SigHashType) (reused_values : SigHashReusedValues) :
    Option (Bytes × SigHashReusedValues) := do
  let (hash, reused_values) ←
    calc_schnorr_signature_hash signing_hash verifiable_tx input_index hash_type reused_values
  return (signing_hash_ecdsa (Hasher.new.update hash).stream, reused_values)

section Reuse

-- A cache cell that holds nothing or the value it stands for.
def CachedAs {α : Type} (cached : Option α) (value : α) : Prop := ∀ v, cached = some v → v = value

theorem cached_as_none {α : Type} (value : α) : CachedAs none value := fun _ h => by cases h

theorem reuse_or_compute_spec {α : Type} {cached : Option α} {computed : α}
    (h : CachedAs cached computed) :
    (reuse_or_compute cached computed).1 = computed ∧
      CachedAs (reuse_or_compute cached computed).2 computed := by
  cases cached with
  | none => exact ⟨rfl, fun _ hv => (Option.some.inj hv).symm⟩
  | some value => exact ⟨h value rfl, h⟩

-- What reused values may hold for a transaction: each cached sub-hash is the one computed
-- from the whole transaction, whatever hash type and input index first filled it.
structure SigHashReusedValues.Sound (tx : Transaction) (r : SigHashReusedValues) : Prop where
  previous_outputs_hash : CachedAs r.previous_outputs_hash (all_previous_outputs_hash signing_hash tx)
  sequences_hash : CachedAs r.sequences_hash (all_sequences_hash signing_hash tx)
  sig_op_counts_hash : CachedAs r.sig_op_counts_hash (all_sig_op_counts_hash signing_hash tx)
  outputs_hash : CachedAs r.outputs_hash (all_outputs_hash signing_hash tx)

theorem SigHashReusedValues.sound_new (tx : Transaction) :
    SigHashReusedValues.new.Sound signing_hash tx :=
  ⟨cached_as_none _, cached_as_none _, cached_as_none _, cached_as_none _⟩

variable {signing_hash} {tx : Transaction} {r : SigHashReusedValues}

-- Each sub-hash answers from sound reused values what it answers from fresh ones, and leaves
-- them sound.
theorem previous_outputs_hash_reused (hash_type : SigHashType) (h : r.Sound signing_hash tx) :
    (previous_outputs_hash signing_hash tx hash_type r).1 =
        (previous_outputs_hash signing_hash tx hash_type .new).1 ∧
      (previous_outputs_hash signing_hash tx hash_type r).2.Sound signing_hash tx := by
  have hcell := reuse_or_compute_spec h.previous_outputs_hash
  unfold previous_outputs_hash
  split_ifs
  · exact ⟨rfl, h⟩
  · exact ⟨hcell.1, { h with previous_outputs_hash := hcell.2 }⟩

theorem sequences_hash_reused (hash_type : SigHashType) (h : r.Sound signing_hash tx) :
    (sequences_hash signing_hash tx hash_type r).1 =
        (sequences_hash signing_hash tx hash_type .new).1 ∧
      (sequences_hash signing_hash tx hash_type r).2.Sound signing_hash tx := by
  have hcell := reuse_or_compute_spec h.sequences_hash
  unfold sequences_hash
  split_ifs
  · exact ⟨rfl, h⟩
  · exact ⟨hcell.1, { h with sequences_hash := hcell.2 }⟩

theorem sig_op_counts_hash_reused (hash_type : SigHashType) (h : r.Sound signing_hash tx) :
    (sig_op_counts_hash signing_hash tx hash_type r).1 =
        (sig_op_counts_hash signing_hash tx hash_type .new).1 ∧
      (sig_op_counts_hash signing_hash tx hash_type r).2.Sound signing_hash tx := by
  have hcell := reuse_or_compute_spec h.sig_op_counts_hash
  unfold sig_op_counts_hash
  split_ifs
  · exact ⟨rfl, h⟩
  · exact ⟨hcell.1, { h with sig_op_counts_hash := hcell.2 }⟩

-- The SIGHASH_SINGLE branch hashes one output and leaves the cache alone, so the cached
-- value is only ever the hash of all outputs.
theorem outputs_hash_reused (hash_type : SigHashType) (h : r.Sound signing_hash tx) (input_index : Nat) :
    (outputs_hash signing_hash tx hash_type r input_index).1 =
        (outputs_hash signing_hash tx hash_type .new input_index).1 ∧
      (outputs_hash signing_hash tx hash_type r input_index).2.Sound signing_hash tx := by
  have hcell := reuse_or_compute_spec h.outputs_hash
  unfold outputs_hash
  split_ifs
  · exact ⟨rfl, h⟩
  · exact ⟨rfl, h⟩
  · exact ⟨rfl, h⟩
  · exact ⟨hcell.1, { h with outputs_hash := hcell.2 }⟩

-- The signature hash with the sub-hashes read off the threaded reused values.
theorem calc_schnorr_signature_hash_eq (verifiable_tx : PopulatedTransaction) (input_index : Nat)
    (hash_type : SigHashType) (r : SigHashReusedValues) :
    calc_schnorr_signature_hash signing_hash verifiable_tx input_index hash_type r =
      (verifiable_tx.populated_input input_index).map fun (input, entry) =>
        let tx := verifiable_tx.tx
        let p1 := previous_outputs_hash signing_hash tx hash_type r
        let p2 := sequences_hash signing_hash tx hash_type p1.2
        let p3 := sig_op_counts_hash signing_hash tx hash_type p2.2
        let p4 := outputs_hash signing_hash tx hash_type p3.2 input_index
        let hasher := ((Hasher.new.write_u16 tx.version).update p1.1).update p2.1 |>.update p3.1
        let hasher := hash_outpoint hasher input.previous_outpoint
        let hasher := hash_script_public_key hasher entry.script_public_key
        let hasher := (((hasher.write_u64 entry.amount).write_u64 input.sequence).write_u8
          input.sig_op_count).update p4.1
        let hasher := ((((hasher.write_u64 tx.lock_time).update tx.subnetwork_id).write_u64
          tx.gas).update (payload_hash signing_hash tx)).write_u8 hash_type.to_u8
        (signing_hash hasher.stream, p4.2) := by
  unfold calc_schnorr_signature_hash
  cases verifiable_tx.populated_input input_index <;> rfl

-- From sound reused values a signature hash is the one a fresh `SigHashReusedValues` gives,
-- and the reused values stay sound.
theorem calc_schnorr_signature_hash_reused (verifiable_tx : PopulatedTransaction)
    (input_index : Nat) (hash_type : SigHashType) (h : r.Sound signing_hash verifiable_tx.tx) :
    (calc_schnorr_signature_hash signing_hash verifiable_tx input_index hash_type r).map
        Prod.fst =
      (calc_schnorr_signature_hash signing_hash verifiable_tx input_index hash_type .new).map
        Prod.fst ∧
    ∀ p ∈ calc_schnorr_signature_hash signing_hash verifiable_tx input_index hash_type r,
      p.2.Sound signing_hash verifiable_tx.tx := by
  -- the four sub-hashes along the shared run and along a fresh one
  obtain ⟨a1, a2⟩ := previous_outputs_hash_reused hash_type h
  obtain ⟨b1, b2⟩ := sequences_hash_reused hash_type a2
  obtain ⟨c1, c2⟩ := sig_op_counts_hash_reused hash_type b2
  obtain ⟨d1, d2⟩ := outputs_hash_reused hash_type c2 input_index
  have hnew := SigHashReusedValues.sound_new signing_hash verifiable_tx.tx
  obtain ⟨-, a2'⟩ := previous_outputs_hash_reused hash_type hnew
  obtain ⟨b1', b2'⟩ := sequences_hash_reused hash_type a2'
  obtain ⟨c1', c2'⟩ := sig_op_counts_hash_reused hash_type b2'
  obtain ⟨d1', -⟩ := outputs_hash_reused hash_type c2' input_index
  rw [calc_schnorr_signature_hash_eq, calc_schnorr_signature_hash_eq]
  cases verifiable_tx.populated_input input_index with
  | none => simp
  | some ie =>
    refine ⟨?_, ?_⟩
    · simp only [Option.map_some]
      rw [a1, b1, c1, d1, b1', c1', d1']
    · simp only [Option.map_some, Option.mem_def, Option.some.injEq, forall_eq']
      exact d2

theorem calc_ecdsa_signature_hash_eq (signing_hash_ecdsa : Bytes → Bytes)
    (verifiable_tx : PopulatedTransaction) (input_index : Nat) (hash_type : SigHashType)
    (r : SigHashReusedValues) :
    calc_ecdsa_signature_hash signing_hash signing_hash_ecdsa verifiable_tx input_index hash_type r =
      (calc_schnorr_signature_hash signing_hash verifiable_tx input_index hash_type r).map
        fun p => (signing_hash_ecdsa (Hasher.new.update p.1).stream, p.2) := by
  unfold calc_ecdsa_signature_hash
  cases calc_schnorr_signature_hash signing_hash verifiable_tx input_index hash_type r <;> rfl

end Reuse

end Sighash

-- One signature-hash request of a script engine: the Schnorr or the ECDSA hash of an input
-- under a hash type.
inductive SigHashCall where
  | schnorr (input_index : Nat) (hash_type : SigHashType)
  | ecdsa (input_index : Nat) (hash_type : SigHashType)
  deriving DecidableEq, Repr

section Calls

variable (signing_hash signing_hash_ecdsa : Bytes → Bytes) (verifiable_tx : PopulatedTransaction)

def SigHashCall.calc : SigHashCall → SigHashReusedValues → Option (Bytes × SigHashReusedValues)
  | .schnorr input_index hash_type, reused_values =>
    calc_schnorr_signature_hash signing_hash verifiable_tx input_index hash_type reused_values
  | .ecdsa input_index hash_type, reused_values =>
    calc_ecdsa_signature_hash signing_hash signing_hash_ecdsa verifiable_tx input_index hash_type
      reused_values

-- The requests of a validation run made in order with one shared `SigHashReusedValues`, as
-- `check_scripts` shares it across the inputs of a transaction; a panic ends the run.
def calc_all : List SigHashCall → SigHashReusedValues →
    Option (List Bytes × SigHashReusedValues)
  | [], reused_values => some ([], reused_values)
  | call :: calls, reused_values => do
    let (hash, reused_values) ← call.calc signing_hash signing_hash_ecdsa verifiable_tx reused_values
    let (hashes, reused_values) ← calc_all calls reused_values
    return (hash :: hashes, reused_values)

variable {signing_hash verifiable_tx}

theorem SigHashCall.calc_reused (call : SigHashCall) {r : SigHashReusedValues}
    (h : r.Sound signing_hash verifiable_tx.tx) :
    (call.calc signing_hash signing_hash_ecdsa verifiable_tx r).map Prod.fst =
        (call.calc signing_hash signing_hash_ecdsa verifiable_tx .new).map Prod.fst ∧
      ∀ p ∈ call.calc signing_hash signing_hash_ecdsa verifiable_tx r,
        p.2.Sound signing_hash verifiable_tx.tx := by
  cases call with
  | schnorr input_index hash_type =>
    exact calc_schnorr_signature_hash_reused verifiable_tx input_index hash_type h
  | ecdsa input_index hash_type =>
    obtain ⟨hfst, hsound⟩ := calc_schnorr_signature_hash_reused verifiable_tx input_index hash_type h
    simp only [SigHashCall.calc, calc_ecdsa_signature_hash_eq, Option.map_map]
    refine ⟨?_, ?_⟩
    · have hcomp : (Prod.fst ∘ fun p : Bytes × SigHashReusedValues =>
          (signing_hash_ecdsa (Hasher.new.update p.1).stream, p.2)) =
          (fun hash => signing_hash_ecdsa (Hasher.new.update hash).stream) ∘ Prod.fst := rfl
      rw [hcomp, ← Option.map_map, ← Option.map_map, hfst]
    · intro p hp
      cases hq : calc_schnorr_signature_hash signing_hash verifiable_tx input_index hash_type r with
      | none =>
        rw [hq] at hp
        cases hp
      | some q =>
        simp only [hq, Option.map_some, Option.mem_def, Option.some.injEq] at hp
        subst hp
        exact hsound q hq

-- From sound reused values, every request of a run answers what a fresh
-- `SigHashReusedValues` would.
theorem calc_all_reused :
    ∀ (calls : List SigHashCall) {r : SigHashReusedValues},
      r.Sound signing_hash verifiable_tx.tx →
      (calc_all signing_hash signing_hash_ecdsa verifiable_tx calls r).map Prod.fst =
        calls.mapM fun call =>
          (call.calc signing_hash signing_hash_ecdsa verifiable_tx .new).map Prod.fst
  | [], _, _ => rfl
  | call :: calls, r, h => by
    obtain ⟨hfst, hsound⟩ := call.calc_reused signing_hash_ecdsa h
    rw [List.mapM_cons, ← hfst]
    simp only [calc_all]
    cases hc : call.calc signing_hash signing_hash_ecdsa verifiable_tx r with
    | none => rfl
    | some p =>
      have ih := calc_all_reused calls (hsound p hc)
      simp only [Option.map_some, Option.bind_eq_bind, Option.bind_some]
      rw [← ih]
      cases calc_all signing_hash signing_hash_ecdsa verifiable_tx calls p.2 <;> rfl

end Calls

-- Sharing one `SigHashReusedValues` across any sequence of Schnorr and ECDSA signature-hash
-- requests of a transaction, at any input indices and hash types, changes no answer.
theorem sighash_reused_values_transparent (signing_hash signing_hash_ecdsa : Bytes → Bytes)
    (verifiable_tx : PopulatedTransaction) (calls : List SigHashCall) :
    (calc_all signing_hash signing_hash_ecdsa verifiable_tx calls .new).map Prod.fst =
      calls.mapM fun call =>
        (call.calc signing_hash signing_hash_ecdsa verifiable_tx .new).map Prod.fst :=
  calc_all_reused signing_hash_ecdsa calls (SigHashReusedValues.sound_new signing_hash verifiable_tx.tx)

end Waglayla.Consensus.Hashing
