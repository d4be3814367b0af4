import Waglayla.Consensus.Tx
import Waglayla.Numbers.Word
import Mathlib.Algebra.Order.Group.Nat

-- Compute and storage (KIP-0009) masses in consensus, and `check_mass_commitment`. All `u64`
-- arithmetic is checked (`Word`): a panic is `none`, a returned `None` an inner `none`.

namespace Waglayla.Consensus

open Word

def SUBNETWORK_ID_SIZE : UInt64 := 20

def HASH_SIZE : UInt64 := 32

-- `len() as u64`.
def len_u64 {α : Type*} (l : List α) : UInt64 := UInt64.ofNat l.length

-- A `const fn`: the previous transaction id and the index.
def outpoint_estimated_serialized_size : UInt64 := HASH_SIZE + 4

-- The outpoint, the length of the signature script, the script, the sequence.
def transaction_input_estimated_serialized_size (input : TransactionInput) : Option UInt64 :=
  [outpoint_estimated_serialized_size, 8, len_u64 input.signature_script, 8].foldlM checked_add 0

-- The value, the script public key version, the length of the script, the script.
def transaction_output_estimated_serialized_size (output : TransactionOutput) : Option UInt64 :=
  [8, 2, 8, len_u64 output.script_public_key.script].foldlM checked_add 0

-- The version, the input count, the inputs, the output count, the outputs, the lock time, the
-- subnetwork id, the gas, the payload hash, the payload length and the payload. The sums over
-- the inputs and the outputs are taken first: every step that overflows panics, so the order
-- of the steps does not change the result.
def transaction_estimated_serialized_size (tx : Transaction) : Option UInt64 := do
  let inputs_size ← sum_map transaction_input_estimated_serialized_size tx.inputs
  let outputs_size ← sum_map transaction_output_estimated_serialized_size tx.outputs
  [2, 8, inputs_size, 8, outputs_size, 8, SUBNETWORK_ID_SIZE, 8, HASH_SIZE, 8,
    len_u64 tx.payload].foldlM checked_add 0

-- The fields of the consensus `Params` that the mass calculators read.
structure Params where
  mass_per_tx_byte : UInt64
  mass_per_script_pub_key_byte : UInt64
  mass_per_sig_op : UInt64
  storage_mass_parameter : UInt64
  deriving DecidableEq, Repr

structure MassCalculator where
  mass_per_tx_byte : UInt64
  mass_per_script_pub_key_byte : UInt64
  mass_per_sig_op : UInt64
  storage_mass_parameter : UInt64
  deriving DecidableEq, Repr

-- `MassCalculator::new`, which the consensus services call with the fields of `Params`.
def MassCalculator.new (mass_per_tx_byte mass_per_script_pub_key_byte mass_per_sig_op
    storage_mass_parameter : UInt64) : MassCalculator :=
  ⟨mass_per_tx_byte, mass_per_script_pub_key_byte, mass_per_sig_op, storage_mass_parameter⟩

inductive Kip9Version
  | Alpha
  | Beta
  deriving DecidableEq, Repr

-- The errors of `check_mass_commitment`; the other transaction rules are not modelled.
inductive TxRuleError
  | MassIncomputable
  | WrongMass (calculated committed : UInt64)
  deriving DecidableEq, Repr

-- `C·|O|/H(O)`: `map(|out| C / out.value).try_fold(0, checked_add)`. A zero value panics; an
-- overflowing sum stops the fold with `None` before the later outputs are divided.
def harmonic_outs (storage_mass_parameter : UInt64) :
    List TransactionOutput → UInt64 → Option (Option UInt64)
  | [], total => some (some total)
  | out :: outs, total => do
    let current ← checked_div storage_mass_parameter out.value
    match checked_add total current with
    | none => pure none
    | some total => harmonic_outs storage_mass_parameter outs total

-- The calculator the consensus services build from the parameters (`services.rs`).
def Params.mass_calculator (params : Params) : MassCalculator :=
  MassCalculator.new params.mass_per_tx_byte params.mass_per_script_pub_key_byte
    params.mass_per_sig_op params.storage_mass_parameter

@[simp] theorem Params.mass_calculator_mass_per_tx_byte (params : Params) :
    params.mass_calculator.mass_per_tx_byte = params.mass_per_tx_byte := rfl

@[simp] theorem Params.mass_calculator_mass_per_script_pub_key_byte (params : Params) :
    params.mass_calculator.mass_per_script_pub_key_byte = params.mass_per_script_pub_key_byte :=
  rfl

@[simp] theorem Params.mass_calculator_mass_per_sig_op (params : Params) :
    params.mass_calculator.mass_per_sig_op = params.mass_per_sig_op := rfl

@[simp] theorem Params.mass_calculator_storage_mass_parameter (params : Params) :
    params.mass_calculator.storage_mass_parameter = params.storage_mass_parameter := rfl

namespace MassCalculator

def calc_tx_compute_mass (self : MassCalculator) (tx : Transaction) : Option UInt64 :=
  if tx.is_coinbase then some 0
  else do
    let size ← transaction_estimated_serialized_size tx
    let mass_for_size ← checked_mul size self.mass_per_tx_byte
    -- the script public key version (`u16`) and the script
    let total_script_public_key_size ← sum_map
      (fun output => checked_add 2 (len_u64 output.script_public_key.script)) tx.outputs
    let total_script_public_key_mass ←
      checked_mul total_script_public_key_size self.mass_per_script_pub_key_byte
    let total_sigops ← sum_map (fun input => some input.sig_op_count.toUInt64) tx.inputs
    let total_sigops_mass ← checked_mul total_sigops self.mass_per_sig_op
    let mass ← checked_add mass_for_size total_script_public_key_mass
    checked_add mass total_sigops_mass

def calc_tx_storage_mass (self : MassCalculator) (tx : PopulatedTransaction)
    (version : Kip9Version) : Option (Option UInt64) :=
  if tx.tx.is_coinbase then some (some 0)
  else do
    match ← harmonic_outs self.storage_mass_parameter tx.tx.outputs 0 with
    | none => pure none
    | some harmonic_outs =>
      let outs_len := len_u64 tx.tx.outputs
      let ins_len := len_u64 tx.tx.inputs
      -- the relaxed formula of KIP-0009, `C·(|O|/H(O) - |I|/H(I))`
      if version = .Beta ∧ (outs_len = 1 ∨ ins_len = 1 ∨ (outs_len = 2 ∧ ins_len = 2)) then do
        let fractions ← tx.populated_inputs.mapM fun (_, entry) =>
          checked_div self.storage_mass_parameter entry.amount
        let harmonic_ins := fractions.foldl saturating_add 0
        pure (some (saturating_sub harmonic_outs harmonic_ins))
      else do
        let sum_ins ← sum_map (fun (_, entry) => some entry.amount) tx.populated_inputs
        let mean_ins ← checked_div sum_ins ins_len
        let arithmetic_ins :=
          saturating_mul ins_len (← checked_div self.storage_mass_parameter mean_ins)
        pure (some (saturating_sub harmonic_outs arithmetic_ins))

-- The compute mass is computed only when no cached value is given.
def calc_tx_overall_mass (self : MassCalculator) (tx : PopulatedTransaction)
    (cached_compute_mass : Option UInt64) (version : Kip9Version) : Option (Option UInt64) := do
  match ← self.calc_tx_storage_mass tx version with
  | none => pure none
  | some mass =>
    let compute_mass ← match cached_compute_mass with
      | some compute_mass => some compute_mass
      | none => self.calc_tx_compute_mass tx.tx
    match version with
    | .Alpha => pure (checked_add mass compute_mass)
    | .Beta => pure (some (max mass compute_mass))

end MassCalculator

-- `TransactionValidator::check_mass_commitment`, with the validator's mass calculator.
def check_mass_commitment (mass_calculator : MassCalculator) (tx : PopulatedTransaction) :
    Option (Except TxRuleError Unit) := do
  match ← mass_calculator.calc_tx_overall_mass tx none .Alpha with
  | none => pure (.error .MassIncomputable)
  | some calculated_contextual_mass =>
    let committed_contextual_mass := tx.tx.mass
    if committed_contextual_mass ≠ calculated_contextual_mass then
      pure (.error (.WrongMass calculated_contextual_mass committed_contextual_mass))
    else pure (.ok ())

end Waglayla.Consensus

namespace Waglayla.Consensus

open Word

section Exact

-- The sizes and the compute mass as natural numbers.
def input_size (input : TransactionInput) : Nat := 52 + (len_u64 input.signature_script).toNat

def output_size (output : TransactionOutput) : Nat :=
  18 + (len_u64 output.script_public_key.script).toNat

def estimated_serialized_size (tx : Transaction) : Nat :=
  94 + (tx.inputs.map input_size).sum + (tx.outputs.map output_size).sum +
    (len_u64 tx.payload).toNat

def script_public_key_size (tx : Transaction) : Nat :=
  (tx.outputs.map fun output => 2 + (len_u64 output.script_public_key.script).toNat).sum

def sig_op_count (tx : Transaction) : Nat :=
  (tx.inputs.map fun input => input.sig_op_count.toNat).sum

def compute_mass (self : MassCalculator) (tx : Transaction) : Nat :=
  estimated_serialized_size tx * self.mass_per_tx_byte.toNat +
    script_public_key_size tx * self.mass_per_script_pub_key_byte.toNat +
    sig_op_count tx * self.mass_per_sig_op.toNat

theorem transaction_input_estimated_serialized_size_exact (input : TransactionInput) :
    Exact (transaction_input_estimated_serialized_size input) True (input_size input) :=
  (exact_foldlM_checked_add _ 0).value_congr (by
    simp [input_size, outpoint_estimated_serialized_size, HASH_SIZE]
    omega)

theorem transaction_output_estimated_serialized_size_exact (output : TransactionOutput) :
    Exact (transaction_output_estimated_serialized_size output) True (output_size output) :=
  (exact_foldlM_checked_add _ 0).value_congr (by
    simp [output_size]
    omega)

-- The size of the inputs and of the outputs are each at most the whole size, so only the
-- whole size has to fit.
theorem transaction_estimated_serialized_size_exact (tx : Transaction) :
    Exact (transaction_estimated_serialized_size tx) True (estimated_serialized_size tx) := by
  have hin := Exact.sum_map (l := tx.inputs) fun input _ =>
    transaction_input_estimated_serialized_size_exact input
  have hout := Exact.sum_map (l := tx.outputs) fun output _ =>
    transaction_output_estimated_serialized_size_exact output
  refine (hin.bind fun inputs_size hi => hout.bind fun outputs_size ho =>
    (exact_foldlM_checked_add _ 0).value_congr ?_).congr fun hfit => ?_
  · simp [hi, ho, estimated_serialized_size, SUBNETWORK_ID_SIZE, HASH_SIZE]
    omega
  · unfold estimated_serialized_size at hfit
    simp only [implies_true, true_and, and_true, iff_true]
    exact ⟨by omega, by omega⟩

theorem input_size_le {tx : Transaction} {input : TransactionInput} (h : input ∈ tx.inputs) :
    input_size input ≤ estimated_serialized_size tx := by
  have := List.le_sum_of_mem (List.mem_map_of_mem (f := input_size) h)
  unfold estimated_serialized_size
  omega

theorem output_size_le {tx : Transaction} {output : TransactionOutput} (h : output ∈ tx.outputs) :
    output_size output ≤ estimated_serialized_size tx := by
  have := List.le_sum_of_mem (List.mem_map_of_mem (f := output_size) h)
  unfold estimated_serialized_size
  omega

theorem script_public_key_size_le (tx : Transaction) :
    script_public_key_size tx ≤ estimated_serialized_size tx := by
  have h : script_public_key_size tx ≤ (tx.outputs.map output_size).sum :=
    List.sum_le_sum fun output _ => by simp only [output_size]; omega
  unfold estimated_serialized_size
  omega

-- The compute mass of a transaction that is not a coinbase: it returns exactly when its size
-- and its signature operation count fit in a word and the mass does.
theorem calc_tx_compute_mass_exact (self : MassCalculator) {tx : Transaction}
    (hcoinbase : tx.is_coinbase = false) :
    Exact (self.calc_tx_compute_mass tx)
      (estimated_serialized_size tx < 2 ^ 64 ∧ sig_op_count tx < 2 ^ 64) (compute_mass self tx) := by
  have hspk : Exact (sum_map (fun output => checked_add 2 (len_u64 output.script_public_key.script))
      tx.outputs) True (script_public_key_size tx) :=
    (Exact.sum_map fun output _ => exact_checked_add_of rfl rfl).congr fun _ => by simp
  have hsig : Exact (sum_map (fun input => some input.sig_op_count.toUInt64) tx.inputs) True
      (sig_op_count tx) :=
    (Exact.sum_map fun input _ => (exact_some _).value_congr (by simp)).congr fun _ => by simp
  have hP := script_public_key_size_le tx
  rw [MassCalculator.calc_tx_compute_mass, if_neg (by simp [hcoinbase])]
  refine ((transaction_estimated_serialized_size_exact tx).bind fun size hsize =>
    (exact_checked_mul_of hsize rfl).bind fun mass_for_size hmfs =>
    hspk.bind fun spk_size hspk_size =>
    (exact_checked_mul_of hspk_size rfl).bind fun spk_mass hspk_mass =>
    hsig.bind fun sigops hsigops =>
    (exact_checked_mul_of hsigops rfl).bind fun sigops_mass hsigops_mass =>
    (exact_checked_add_of hmfs hspk_mass).bind fun mass hmass =>
    exact_checked_add_of hmass hsigops_mass).congr fun hfit => ?_
  -- every intermediate product and sum is at most the mass
  simp only [true_and, and_true]
  constructor
  · rintro ⟨hS, -, -, -, hG, -⟩
    exact ⟨hS, hG⟩
  · rintro ⟨hS, hG⟩
    refine ⟨hS, ?_, ?_, ?_, hG, ?_, ?_⟩ <;> omega

-- With no zero output value the harmonic part returns, and it returns `None` exactly when the
-- sum of the fractions leaves the word.
theorem harmonic_outs_exact (storage_mass_parameter : UInt64) :
    ∀ (outs : List TransactionOutput) (total : UInt64), (∀ out ∈ outs, out.value ≠ 0) →
      ∃ r, harmonic_outs storage_mass_parameter outs total = some r ∧
        Exact r True (total.toNat +
          (outs.map fun out => (storage_mass_parameter / out.value).toNat).sum)
  | [], total, _ => ⟨some total, rfl, (exact_some total).value_congr (by simp)⟩
  | out :: outs, total, hv => by
    have hdiv : checked_div storage_mass_parameter out.value =
        some (storage_mass_parameter / out.value) := if_neg (hv out List.mem_cons_self)
    have hrest : ∀ o ∈ outs, o.value ≠ 0 := fun o ho => hv o (List.mem_cons_of_mem out ho)
    rw [List.map_cons, List.sum_cons]
    cases hadd : checked_add total (storage_mass_parameter / out.value) with
    -- the fold stops at the first sum that overflows
    | none =>
      have hover := (exact_checked_add total _).of_eq_none hadd
      refine ⟨none, ?_, exact_none fun ⟨_, hn⟩ => hover ⟨trivial, by omega⟩⟩
      simp only [harmonic_outs, hdiv, hadd, Option.bind_eq_bind, Option.bind_some]
      rfl
    | some next =>
      have hnext := (((exact_checked_add total _) next).mp hadd).2
      obtain ⟨r, hr, hexact⟩ := harmonic_outs_exact storage_mass_parameter outs next hrest
      refine ⟨r, ?_, hexact.value_congr (by rw [hnext, Nat.add_assoc])⟩
      simp only [harmonic_outs, hdiv, hadd, Option.bind_eq_bind, Option.bind_some]
      exact hr

-- With no zero output value, the storage mass of the first KIP-0009 version is `None` exactly
-- when the harmonic part overflows: past it, every path returns a mass or panics.
theorem calc_tx_storage_mass_eq_some_none (self : MassCalculator) {tx : PopulatedTransaction}
    (hcoinbase : tx.tx.is_coinbase = false) (hvalues : ∀ out ∈ tx.tx.outputs, out.value ≠ 0) :
    self.calc_tx_storage_mass tx .Alpha = some none ↔
      2 ^ 64 ≤ (tx.tx.outputs.map fun out => (self.storage_mass_parameter / out.value).toNat).sum := by
  obtain ⟨r, hr, hexact⟩ := harmonic_outs_exact self.storage_mass_parameter tx.tx.outputs 0 hvalues
  rw [MassCalculator.calc_tx_storage_mass, if_neg (by simp [hcoinbase]), hr]
  cases r with
  | none =>
    have hover := hexact.of_eq_none rfl
    refine ⟨fun _ => ?_, fun _ => rfl⟩
    simp only [UInt64.toNat_zero, Nat.zero_add, true_and] at hover
    omega
  | some harmonic =>
    have hfit := ((hexact harmonic).mp rfl).2
    have hlt := harmonic.toNat_lt
    constructor
    · intro h
      simp [Option.bind_eq_some_iff] at h
    · intro h
      simp only [UInt64.toNat_zero, Nat.zero_add] at hfit
      omega

end Exact

end Waglayla.Consensus
