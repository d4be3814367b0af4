import Waglayla.Consensus.Mass
import Mathlib.Tactic.Ring
import Mathlib.Algebra.BigOperators.Ring.List

-- The wallet's mass calculator, part by part against consensus's one formula.

namespace Waglayla.Wallet

open Waglayla.Consensus Word

inductive MassCombinationStrategy
  | Add
  | Max
  deriving DecidableEq, Repr

-- The field of the wallet's `NetworkParams` the mass calculator reads.
structure NetworkParams where
  mass_combination_strategy : MassCombinationStrategy
  deriving DecidableEq, Repr

structure MassCalculator where
  mass_per_tx_byte : UInt64
  mass_per_script_pub_key_byte : UInt64
  mass_per_sig_op : UInt64
  storage_mass_parameter : UInt64
  mass_combination_strategy : MassCombinationStrategy
  deriving DecidableEq, Repr

-- A `const fn`: the transaction without inputs, outputs and payload.
def blank_transaction_serialized_byte_size : UInt64 :=
  2 + 8 + 8 + 8 + SUBNETWORK_ID_SIZE + 8 + HASH_SIZE + 8

-- The wallet's copies of the consensus size estimates of an input and an output.
def transaction_input_serialized_byte_size (input : TransactionInput) : Option UInt64 :=
  transaction_input_estimated_serialized_size input

def transaction_output_serialized_byte_size (output : TransactionOutput) : Option UInt64 :=
  transaction_output_estimated_serialized_size output

namespace MassCalculator

def new (consensus_params : Params) (network_params : NetworkParams) : MassCalculator :=
  ⟨consensus_params.mass_per_tx_byte, consensus_params.mass_per_script_pub_key_byte,
    consensus_params.mass_per_sig_op, consensus_params.storage_mass_parameter,
    network_params.mass_combination_strategy⟩

def blank_transaction_mass (self : MassCalculator) : Option UInt64 :=
  checked_mul blank_transaction_serialized_byte_size self.mass_per_tx_byte

def calc_mass_for_payload (self : MassCalculator) (payload_byte_size : Nat) : Option UInt64 :=
  checked_mul (UInt64.ofNat payload_byte_size) self.mass_per_tx_byte

def calc_mass_for_output (self : MassCalculator) (output : TransactionOutput) : Option UInt64 := do
  let script_public_key_mass ← checked_mul self.mass_per_script_pub_key_byte
    (← checked_add 2 (len_u64 output.script_public_key.script))
  let size_mass ← checked_mul (← transaction_output_serialized_byte_size output) self.mass_per_tx_byte
  checked_add script_public_key_mass size_mass

def calc_mass_for_input (self : MassCalculator) (input : TransactionInput) : Option UInt64 := do
  let sig_op_mass ← checked_mul input.sig_op_count.toUInt64 self.mass_per_sig_op
  let size_mass ← checked_mul (← transaction_input_serialized_byte_size input) self.mass_per_tx_byte
  checked_add sig_op_mass size_mass

def calc_mass_for_outputs (self : MassCalculator) (outputs : List TransactionOutput) :
    Option UInt64 :=
  sum_map self.calc_mass_for_output outputs

def calc_mass_for_inputs (self : MassCalculator) (inputs : List TransactionInput) :
    Option UInt64 :=
  sum_map self.calc_mass_for_input inputs

def calc_mass_for_transaction (self : MassCalculator) (tx : Transaction) : Option UInt64 := do
  let mass ← checked_add (← self.blank_transaction_mass)
    (← self.calc_mass_for_payload tx.payload.length)
  let mass ← checked_add mass (← self.calc_mass_for_outputs tx.outputs)
  checked_add mass (← self.calc_mass_for_inputs tx.inputs)

def combine_mass (self : MassCalculator) (compute_mass storage_mass : UInt64) : Option UInt64 :=
  match self.mass_combination_strategy with
  | .Add => checked_add compute_mass storage_mass
  | .Max => some (max compute_mass storage_mass)

-- The consensus formula without the relaxed one: `inputs` are the entries the transaction
-- spends.
def calc_storage_mass_for_transaction (self : MassCalculator) (is_coinbase : Bool)
    (inputs : List UtxoEntry) (outputs : List TransactionOutput) : Option (Option UInt64) :=
  if is_coinbase then some (some 0)
  else do
    match ← harmonic_outs self.storage_mass_parameter outputs 0 with
    | none => pure none
    | some harmonic_outs =>
      let sum_ins ← sum_map (fun entry => some entry.amount) inputs
      let ins_len := len_u64 inputs
      let mean_ins ← checked_div sum_ins ins_len
      let arithmetic_ins :=
        saturating_mul ins_len (← checked_div self.storage_mass_parameter mean_ins)
      pure (some (saturating_sub harmonic_outs arithmetic_ins))

end MassCalculator

end Waglayla.Wallet

namespace Waglayla.Wallet

open Waglayla.Consensus Word

namespace MassCalculator

section Exact

variable (self : MassCalculator)

-- The wallet's parts as natural numbers.
def output_mass (output : TransactionOutput) : Nat :=
  self.mass_per_script_pub_key_byte.toNat * (2 + (len_u64 output.script_public_key.script).toNat) +
    output_size output * self.mass_per_tx_byte.toNat

def input_mass (input : TransactionInput) : Nat :=
  input.sig_op_count.toNat * self.mass_per_sig_op.toNat +
    input_size input * self.mass_per_tx_byte.toNat

def transaction_mass (tx : Transaction) : Nat :=
  94 * self.mass_per_tx_byte.toNat + (len_u64 tx.payload).toNat * self.mass_per_tx_byte.toNat +
    (tx.outputs.map self.output_mass).sum + (tx.inputs.map self.input_mass).sum

theorem calc_mass_for_output_exact (output : TransactionOutput) :
    Exact (self.calc_mass_for_output output) (output_size output < 2 ^ 64)
      (self.output_mass output) := by
  unfold MassCalculator.calc_mass_for_output transaction_output_serialized_byte_size
  refine ((exact_checked_add 2 _).bind fun spk_size hspk_size =>
    (exact_checked_mul_of rfl hspk_size).bind fun spk_mass hspk_mass =>
    (transaction_output_estimated_serialized_size_exact output).bind fun size hsize =>
    (exact_checked_mul_of hsize rfl).bind fun size_mass hsize_mass =>
    exact_checked_add_of hspk_mass hsize_mass).congr fun hfit => ?_
  -- the script public key size is below the output's size
  simp only [output_size, true_and, and_true, UInt64.reduceToNat] at hfit ⊢
  constructor
  · rintro ⟨-, -, hsize, -⟩
    exact hsize
  · intro hsize
    exact ⟨by omega, by omega, hsize, by omega⟩

theorem calc_mass_for_input_exact (input : TransactionInput) :
    Exact (self.calc_mass_for_input input) (input_size input < 2 ^ 64) (self.input_mass input) := by
  unfold MassCalculator.calc_mass_for_input transaction_input_serialized_byte_size
  refine ((exact_checked_mul_of (UInt8.toNat_toUInt64 _) rfl).bind fun sig_op_mass hsig_op_mass =>
    (transaction_input_estimated_serialized_size_exact input).bind fun size hsize =>
    (exact_checked_mul_of hsize rfl).bind fun size_mass hsize_mass =>
    exact_checked_add_of hsig_op_mass hsize_mass).congr fun hfit => ?_
  simp only [true_and, and_true] at hfit ⊢
  constructor
  · rintro ⟨-, hsize, -⟩
    exact hsize
  · intro hsize
    exact ⟨by omega, hsize, by omega⟩

-- The wallet's mass returns exactly when the size of every output and input fits in a word
-- and the mass does.
theorem calc_mass_for_transaction_exact (tx : Transaction) :
    Exact (self.calc_mass_for_transaction tx)
      ((∀ output ∈ tx.outputs, output_size output < 2 ^ 64) ∧
        ∀ input ∈ tx.inputs, input_size input < 2 ^ 64)
      (self.transaction_mass tx) := by
  have houtputs := Exact.sum_map (l := tx.outputs) fun output _ =>
    self.calc_mass_for_output_exact output
  have hinputs := Exact.sum_map (l := tx.inputs) fun input _ => self.calc_mass_for_input_exact input
  unfold MassCalculator.calc_mass_for_transaction MassCalculator.blank_transaction_mass
    MassCalculator.calc_mass_for_payload MassCalculator.calc_mass_for_outputs
    MassCalculator.calc_mass_for_inputs
  refine ((exact_checked_mul_of rfl rfl).bind fun blank hblank =>
    (exact_checked_mul_of rfl rfl).bind fun payload hpayload =>
    (exact_checked_add_of hblank hpayload).bind fun mass hmass =>
    houtputs.bind fun outputs houtputs_mass =>
    (exact_checked_add_of hmass houtputs_mass).bind fun mass' hmass' =>
    hinputs.bind fun inputs hinputs_mass =>
    exact_checked_add_of hmass' hinputs_mass).congr fun hfit => ?_
  -- every partial sum is at most the mass
  simp only [true_and, and_true] at hfit ⊢
  constructor
  · rintro ⟨-, -, -, houts, -, -, hins, -⟩
    exact ⟨houts, hins⟩
  · rintro ⟨houts, hins⟩
    refine ⟨?_, ?_, ?_, houts, ?_, ?_, hins, ?_⟩ <;> omega

end Exact

end MassCalculator

end Waglayla.Wallet

namespace Waglayla.Wallet

open Waglayla.Consensus Word

section Agreement

variable (params : Params) (network_params : NetworkParams)

-- The wallet's parts add up to the consensus compute mass.
theorem transaction_mass_new (tx : Transaction) :
    (MassCalculator.new params network_params).transaction_mass tx =
      compute_mass params.mass_calculator tx := by
  unfold MassCalculator.transaction_mass MassCalculator.output_mass MassCalculator.input_mass
  simp only [compute_mass, estimated_serialized_size, script_public_key_size, sig_op_count,
    MassCalculator.new, Params.mass_calculator, Consensus.MassCalculator.new, List.sum_map_add,
    List.sum_map_mul_left, List.sum_map_mul_right]
  ring

variable {params network_params} {tx : Transaction}

-- Whatever compute mass consensus computes, the wallet computes too: consensus needs the whole
-- size to fit, and every size the wallet needs is part of it.
theorem calc_mass_for_transaction_of_compute_mass (hcoinbase : tx.is_coinbase = false)
    {mass : UInt64} (h : params.mass_calculator.calc_tx_compute_mass tx = some mass) :
    (MassCalculator.new params network_params).calc_mass_for_transaction tx = some mass := by
  obtain ⟨⟨hsize, -⟩, hmass⟩ := (calc_tx_compute_mass_exact _ hcoinbase mass).mp h
  refine ((MassCalculator.new params network_params).calc_mass_for_transaction_exact tx mass).mpr
    ⟨⟨fun output houtput => ?_, fun input hinput => ?_⟩, ?_⟩
  · exact lt_of_le_of_lt (output_size_le houtput) hsize
  · exact lt_of_le_of_lt (input_size_le hinput) hsize
  · rw [transaction_mass_new]
    exact hmass

-- With a positive price per byte and per signature operation, the size and the signature
-- operation count are at most the mass, so both calculators return at the same transactions.
theorem calc_mass_for_transaction_eq (hcoinbase : tx.is_coinbase = false)
    (htx_byte : 0 < params.mass_per_tx_byte.toNat) (hsig_op : 0 < params.mass_per_sig_op.toNat) :
    (MassCalculator.new params network_params).calc_mass_for_transaction tx =
      params.mass_calculator.calc_tx_compute_mass tx := by
  refine Exact.eq ((MassCalculator.new params network_params).calc_mass_for_transaction_exact tx)
    ((calc_tx_compute_mass_exact _ hcoinbase).value_congr
      (transaction_mass_new params network_params tx).symm) fun hfit => ?_
  rw [transaction_mass_new] at hfit
  have hsize : estimated_serialized_size tx ≤ compute_mass params.mass_calculator tx :=
    le_trans (Nat.le_mul_of_pos_right _ htx_byte) (by
      simp only [compute_mass, Params.mass_calculator_mass_per_tx_byte]
      omega)
  have hsig : sig_op_count tx ≤ compute_mass params.mass_calculator tx :=
    le_trans (Nat.le_mul_of_pos_right _ hsig_op) (by
      simp only [compute_mass, Params.mass_calculator_mass_per_sig_op]
      omega)
  constructor
  · rintro -
    exact ⟨by omega, by omega⟩
  · rintro ⟨hsize', -⟩
    exact ⟨fun output houtput => lt_of_le_of_lt (output_size_le houtput) hsize',
      fun input hinput => lt_of_le_of_lt (input_size_le hinput) hsize'⟩

-- The wallet's storage mass over the entries a transaction spends is the consensus one of
-- the first KIP-0009 version: the same formula, with the entries in the order of the inputs.
theorem calc_storage_mass_for_transaction_eq (tx : PopulatedTransaction)
    (hcoinbase : tx.tx.is_coinbase = false) :
    (MassCalculator.new params network_params).calc_storage_mass_for_transaction false tx.entries
      tx.tx.outputs = params.mass_calculator.calc_tx_storage_mass tx .Alpha := by
  have hentries : tx.populated_inputs.map Prod.snd = tx.entries :=
    List.map_snd_zip (by rw [tx.entries_length])
  have hsum : sum_map (fun (p : TransactionInput × UtxoEntry) => some p.2.amount)
      tx.populated_inputs = sum_map (fun entry => some entry.amount) tx.entries := by
    rw [← hentries, sum_map_map]
  have hlen : len_u64 tx.tx.inputs = len_u64 tx.entries := by
    rw [len_u64, len_u64, tx.entries_length]
  -- both read the harmonic part of the outputs first, then the same arithmetic part of the inputs
  rcases hharmonic : harmonic_outs params.storage_mass_parameter tx.tx.outputs 0 with
    _ | _ | harmonic <;>
  simp only [MassCalculator.calc_storage_mass_for_transaction,
    Consensus.MassCalculator.calc_tx_storage_mass, hcoinbase, Bool.false_eq_true, if_false,
    reduceCtorEq, false_and, hsum, hlen, MassCalculator.new, Params.mass_calculator,
    Consensus.MassCalculator.new, hharmonic, Option.bind_eq_bind, Option.bind_none,
    Option.bind_some]

-- With the `Add` strategy and positive prices, a mass the wallet commits is the one consensus
-- computes for the populated transaction, so the commitment check passes exactly when the
-- transaction carries it.
theorem check_mass_commitment_of_combine_mass
    (hstrategy : network_params.mass_combination_strategy = .Add)
    (htx_byte : 0 < params.mass_per_tx_byte.toNat) (hsig_op : 0 < params.mass_per_sig_op.toNat)
    (tx : PopulatedTransaction) (hcoinbase : tx.tx.is_coinbase = false)
    {compute_mass storage_mass mass : UInt64}
    (hcompute : (MassCalculator.new params network_params).calc_mass_for_transaction tx.tx =
      some compute_mass)
    (hstorage : (MassCalculator.new params network_params).calc_storage_mass_for_transaction
      false tx.entries tx.tx.outputs = some (some storage_mass))
    (hmass : (MassCalculator.new params network_params).combine_mass compute_mass storage_mass =
      some mass) :
    params.mass_calculator.calc_tx_overall_mass tx none .Alpha = some (some mass) ∧
      (check_mass_commitment params.mass_calculator tx = some (.ok ()) ↔ tx.tx.mass = mass) := by
  rw [calc_storage_mass_for_transaction_eq tx hcoinbase] at hstorage
  rw [calc_mass_for_transaction_eq hcoinbase htx_byte hsig_op] at hcompute
  -- consensus adds the compute mass to the storage mass, the wallet the other way round
  have hadd : checked_add storage_mass compute_mass = some mass := by
    rw [checked_add_comm]
    simpa only [MassCalculator.combine_mass, MassCalculator.new, hstrategy] using hmass
  have hoverall : params.mass_calculator.calc_tx_overall_mass tx none .Alpha = some (some mass) := by
    simp only [Consensus.MassCalculator.calc_tx_overall_mass, hstorage, hcompute, hadd,
      Option.bind_eq_bind, Option.bind_some]
    rfl
  refine ⟨hoverall, ?_⟩
  simp only [check_mass_commitment, hoverall, Option.bind_eq_bind, Option.bind_some]
  by_cases h : tx.tx.mass = mass <;> simp [h]

end Agreement

end Waglayla.Wallet

namespace Waglayla.Wallet

open Waglayla.Consensus Word

-- For the same parameters: whatever compute mass consensus computes the wallet computes too,
-- and with positive prices per byte and per signature operation (those of every network) the
-- two agree, panics included; the wallet's storage mass over the spent entries is the
-- consensus one of the first KIP-0009 version, `None` exactly when the harmonic part overflows;
-- and a mass the wallet combines with the `Add` strategy is the one the commitment check
-- computes.
theorem wallet_mass_agrees_with_consensus (params : Params) (network_params : NetworkParams) :
    (∀ tx : Transaction, tx.is_coinbase = false → ∀ mass : UInt64,
      params.mass_calculator.calc_tx_compute_mass tx = some mass →
      (MassCalculator.new params network_params).calc_mass_for_transaction tx = some mass) ∧
    (0 < params.mass_per_tx_byte.toNat → 0 < params.mass_per_sig_op.toNat →
      ∀ tx : Transaction, tx.is_coinbase = false →
      (MassCalculator.new params network_params).calc_mass_for_transaction tx =
        params.mass_calculator.calc_tx_compute_mass tx) ∧
    (∀ tx : PopulatedTransaction, tx.tx.is_coinbase = false →
      (MassCalculator.new params network_params).calc_storage_mass_for_transaction false
          tx.entries tx.tx.outputs = params.mass_calculator.calc_tx_storage_mass tx .Alpha ∧
        ((∀ out ∈ tx.tx.outputs, out.value ≠ 0) →
          (params.mass_calculator.calc_tx_storage_mass tx .Alpha = some none ↔
            2 ^ 64 ≤ (tx.tx.outputs.map fun out =>
              (params.storage_mass_parameter / out.value).toNat).sum))) ∧
    (network_params.mass_combination_strategy = .Add → 0 < params.mass_per_tx_byte.toNat →
      0 < params.mass_per_sig_op.toNat → ∀ tx : PopulatedTransaction, tx.tx.is_coinbase = false →
      ∀ compute_mass storage_mass mass : UInt64,
      (MassCalculator.new params network_params).calc_mass_for_transaction tx.tx =
        some compute_mass →
      (MassCalculator.new params network_params).calc_storage_mass_for_transaction false
        tx.entries tx.tx.outputs = some (some storage_mass) →
      (MassCalculator.new params network_params).combine_mass compute_mass storage_mass =
        some mass →
      params.mass_calculator.calc_tx_overall_mass tx none .Alpha = some (some mass) ∧
        (check_mass_commitment params.mass_calculator tx = some (.ok ()) ↔ tx.tx.mass = mass)) := by
  refine ⟨?_, ?_, ?_, ?_⟩
  · intro tx hcoinbase mass h
    exact calc_mass_for_transaction_of_compute_mass hcoinbase h
  · intro htx_byte hsig_op tx hcoinbase
    exact calc_mass_for_transaction_eq hcoinbase htx_byte hsig_op
  · intro tx hcoinbase
    refine ⟨calc_storage_mass_for_transaction_eq tx hcoinbase, fun hvalues => ?_⟩
    exact calc_tx_storage_mass_eq_some_none _ hcoinbase hvalues
  · intro hstrategy htx_byte hsig_op tx hcoinbase compute_mass storage_mass mass hcompute
      hstorage hmass
    exact check_mass_commitment_of_combine_mass hstrategy htx_byte hsig_op tx hcoinbase hcompute
      hstorage hmass

-- The prices of every network.
def network_params_prices : Params := ⟨1, 10, 1000, 1000000000000⟩

-- A transaction spending one pay-to-public-key output into another.
def pay_to_pubkey_transaction : Transaction :=
  ⟨0, [⟨⟨List.replicate 32 0, 0⟩, List.replicate 66 0, 0, 1⟩],
    [⟨1000, ⟨0, List.replicate 34 0⟩⟩], 0, SUBNETWORK_ID_NATIVE, 0, [], 0, List.replicate 32 0⟩

theorem wallet_mass_agrees_with_consensus_pay_to_pubkey :
    (MassCalculator.new network_params_prices ⟨.Add⟩).calc_mass_for_transaction
        pay_to_pubkey_transaction =
      network_params_prices.mass_calculator.calc_tx_compute_mass pay_to_pubkey_transaction :=
  (wallet_mass_agrees_with_consensus network_params_prices ⟨.Add⟩).2.1 (by decide) (by decide)
    pay_to_pubkey_transaction rfl

-- A network whose signature operations cost nothing.
def zero_sig_op_price_params : Params := ⟨1, 10, 0, 1000000000000⟩

-- A transaction of count empty inputs of 255 signature operations each and no output.
def sig_op_heavy_transaction (count : Nat) : Transaction :=
  ⟨0, List.replicate count ⟨⟨[], 0⟩, [], 0, 255⟩, [], 0, SUBNETWORK_ID_NATIVE, 0, [], 0, []⟩

theorem calc_tx_compute_mass_sig_op_overflow :
    zero_sig_op_price_params.mass_calculator.calc_tx_compute_mass
        (sig_op_heavy_transaction 72340172838076674) = none ∧
      (MassCalculator.new zero_sig_op_price_params ⟨.Add⟩).calc_mass_for_transaction
        (sig_op_heavy_transaction 72340172838076674) =
        some (UInt64.ofNat (94 + 52 * 72340172838076674)) := by
  have hcoinbase : ∀ count, (sig_op_heavy_transaction count).is_coinbase = false := fun _ => rfl
  have hsig : ∀ count, sig_op_count (sig_op_heavy_transaction count) = count * 255 := by
    intro count
    simp only [sig_op_count, sig_op_heavy_transaction, List.map_replicate, List.sum_replicate,
      nsmul_eq_mul, Nat.cast_id, UInt8.reduceToNat]
  have hmass : ∀ count, (MassCalculator.new zero_sig_op_price_params ⟨.Add⟩).transaction_mass
      (sig_op_heavy_transaction count) = 94 + 52 * count := by
    intro count
    simp only [MassCalculator.transaction_mass, MassCalculator.input_mass, input_size,
      sig_op_heavy_transaction, zero_sig_op_price_params, MassCalculator.new, List.map_replicate,
      List.sum_replicate, List.map_nil, List.sum_nil, nsmul_eq_mul, Nat.cast_id,
      UInt64.reduceToNat, UInt8.reduceToNat]
    have hempty : (len_u64 ([] : List UInt8)).toNat = 0 := rfl
    rw [hempty]
    omega
  -- Consensus sums the signature operations before it multiplies by their price, so the sum
  -- overflows; the wallet multiplies each input's by zero first.
  constructor
  · apply (calc_tx_compute_mass_exact _ (hcoinbase _)).eq_none
    rintro ⟨⟨-, hcount⟩, -⟩
    rw [hsig] at hcount
    omega
  · rw [← hmass]
    apply (MassCalculator.calc_mass_for_transaction_exact _ _).eq_some
    · refine ⟨(fun output houtput => by cases houtput), fun input hinput => ?_⟩
      rw [List.eq_of_mem_replicate hinput]
      decide
    · rw [hmass]
      omega

end Waglayla.Wallet
