import Waglayla.Consensus.Utxo.Collection

-- Transactions. The id is the cached field `finalize` sets; the models read it, never recompute it.

namespace Waglayla.Consensus

open Waglayla.TxScript (ScriptPublicKey Bytes)

-- The 20 bytes of a `SubnetworkId`.
abbrev SubnetworkId := List UInt8

-- `SubnetworkId::from_byte`: the byte followed by zeros.
def SubnetworkId.from_byte (b : UInt8) : SubnetworkId := b :: List.replicate 19 0

def SUBNETWORK_ID_NATIVE : SubnetworkId := SubnetworkId.from_byte 0
def SUBNETWORK_ID_COINBASE : SubnetworkId := SubnetworkId.from_byte 1
def SUBNETWORK_ID_REGISTRY : SubnetworkId := SubnetworkId.from_byte 2

structure TransactionInput where
  previous_outpoint : TransactionOutpoint
  signature_script : Bytes
  sequence : UInt64
  sig_op_count : UInt8
  deriving DecidableEq, Repr

structure TransactionOutput where
  value : UInt64
  script_public_key : ScriptPublicKey
  deriving DecidableEq, Repr

-- `mass` is the storage mass commitment (`TransactionMass`), zero unless set.
structure Transaction where
  version : UInt16
  inputs : List TransactionInput
  outputs : List TransactionOutput
  lock_time : UInt64
  subnetwork_id : SubnetworkId
  gas : UInt64
  payload : Bytes
  mass : UInt64
  id : TransactionId
  deriving DecidableEq, Repr

def Transaction.is_coinbase (tx : Transaction) : Bool := tx.subnetwork_id == SUBNETWORK_ID_COINBASE

-- A transaction with the UTXO entries its inputs spend, one per input, as
-- `PopulatedTransaction::new` asserts.
structure PopulatedTransaction where
  tx : Transaction
  entries : List UtxoEntry
  entries_length : entries.length = tx.inputs.length
  deriving DecidableEq, Repr

namespace PopulatedTransaction

-- `VerifiableTransaction::populated_input`: indexing past either vector panics.
def populated_input (self : PopulatedTransaction) (index : Nat) :
    Option (TransactionInput × UtxoEntry) := do
  let input ← self.tx.inputs[index]?
  let entry ← self.entries[index]?
  return (input, entry)

-- `populated_inputs` visits the indices of the inputs, where both vectors have an element.
def populated_inputs (self : PopulatedTransaction) : List (TransactionInput × UtxoEntry) :=
  self.tx.inputs.zip self.entries

end PopulatedTransaction

end Waglayla.Consensus
