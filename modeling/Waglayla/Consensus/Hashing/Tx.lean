import Waglayla.Bytes.PrefixCode
import Waglayla.Consensus.Hashing.Sighash

-- The preimages of transaction hashes and ids (`write_transaction`); the digests are parameters.
-- The stream is read back field by field, so it fixes every field its flags keep.

namespace Waglayla.Consensus

open Waglayla.TxScript (Bytes)

-- What the Rust types hold of every input and transaction: a `Hash` has 32 bytes, a
-- `SubnetworkId` 20, and no vector has `2 ^ 64` elements (`usize` is at most `u64`, as
-- `hashing/mod.rs` asserts at compile time).
structure TransactionInput.Sized (input : TransactionInput) : Prop where
  transaction_id : input.previous_outpoint.transaction_id.length = 32
  signature_script : input.signature_script.length < 2 ^ 64

structure Transaction.Sized (tx : Transaction) : Prop where
  inputs : tx.inputs.length < 2 ^ 64 ∧ ∀ input ∈ tx.inputs, input.Sized
  outputs : tx.outputs.length < 2 ^ 64 ∧
    ∀ output ∈ tx.outputs, output.script_public_key.script.length < 2 ^ 64
  subnetwork_id : tx.subnetwork_id.length = 20
  payload : tx.payload.length < 2 ^ 64

namespace Hashing

namespace Hasher

@[simp] theorem stream_new : new.stream = [] := rfl

@[simp] theorem stream_update (self : Hasher) (bytes : Bytes) :
    (self.update bytes).stream = self.stream ++ bytes := rfl

@[simp] theorem stream_write_u16 (self : Hasher) (element : UInt16) :
    (self.write_u16 element).stream = self.stream ++ LittleEndian.encode 2 element.toNat := rfl

@[simp] theorem stream_write_u32 (self : Hasher) (element : UInt32) :
    (self.write_u32 element).stream = self.stream ++ LittleEndian.encode 4 element.toNat := rfl

@[simp] theorem stream_write_u64 (self : Hasher) (element : UInt64) :
    (self.write_u64 element).stream = self.stream ++ LittleEndian.encode 8 element.toNat := rfl

@[simp] theorem stream_write_len (self : Hasher) (len : Nat) :
    (self.write_len len).stream = self.stream ++ LittleEndian.encode 8 len := rfl

@[simp] theorem stream_write_var_bytes (self : Hasher) (bytes : Bytes) :
    (self.write_var_bytes bytes).stream =
      self.stream ++ (LittleEndian.encode 8 bytes.length ++ bytes) := by
  simp [write_var_bytes]

-- A loop of a writer that only appends feeds the words of the elements in order.
theorem stream_foldl {γ : Type} {write : Hasher → γ → Hasher}
    (hwrite : ∀ hasher x, (write hasher x).stream = hasher.stream ++ (write new x).stream) :
    ∀ (l : List γ) (hasher : Hasher),
      (l.foldl write hasher).stream = hasher.stream ++ l.flatMap fun x => (write new x).stream
  | [], hasher => by simp
  | x :: l, hasher => by
    rw [List.foldl_cons, stream_foldl hwrite l, hwrite, List.flatMap_cons, List.append_assoc]

end Hasher

section Words

open PrefixCode

-- The fixed-width words and the counts the writers use.
theorem decodes_len : Decodes (· < 2 ^ 64) id (LittleEndian.encode 8) := by
  have h := LittleEndian.decodes_encode 8
  rwa [show (256 : Nat) ^ 8 = 2 ^ 64 from rfl] at h

theorem decodes_u16 : Decodes (fun _ : UInt16 => True) id fun x => LittleEndian.encode 2 x.toNat :=
  (LittleEndian.decodes_encode 2).comap (fun (x : UInt16) _ => x.toNat_lt.trans_eq rfl)
    fun _ _ h => UInt16.toNat_inj.mp h

theorem decodes_u32 : Decodes (fun _ : UInt32 => True) id fun x => LittleEndian.encode 4 x.toNat :=
  (LittleEndian.decodes_encode 4).comap (fun (x : UInt32) _ => x.toNat_lt.trans_eq rfl)
    fun _ _ h => UInt32.toNat_inj.mp h

theorem decodes_u64 : Decodes (fun _ : UInt64 => True) id fun x => LittleEndian.encode 8 x.toNat :=
  (LittleEndian.decodes_encode 8).comap (fun (x : UInt64) _ => x.toNat_lt.trans_eq rfl)
    fun _ _ h => UInt64.toNat_inj.mp h

end Words

section Writers

-- The bitmask of fields to leave out.
abbrev TxEncodingFlags := UInt8

def TX_ENCODING_FULL : TxEncodingFlags := 0

def TX_ENCODING_EXCLUDE_SIGNATURE_SCRIPT : TxEncodingFlags := 1

-- Whether the flags keep the signature scripts.
def includes_signature_script (encoding_flags : TxEncodingFlags) : Bool :=
  encoding_flags &&& TX_ENCODING_EXCLUDE_SIGNATURE_SCRIPT != TX_ENCODING_EXCLUDE_SIGNATURE_SCRIPT

-- `update(x.to_le_bytes())` is the `write_u*` of `HasherExtensions`.
def write_outpoint (hasher : Hasher) (outpoint : TransactionOutpoint) : Hasher :=
  (hasher.update outpoint.transaction_id).write_u32 outpoint.index

def write_input (hasher : Hasher) (input : TransactionInput) (encoding_flags : TxEncodingFlags) :
    Hasher :=
  let hasher := write_outpoint hasher input.previous_outpoint
  let hasher :=
    if includes_signature_script encoding_flags then
      (hasher.write_var_bytes input.signature_script).update [input.sig_op_count]
    else hasher.write_var_bytes []
  hasher.write_u64 input.sequence

def write_output (hasher : Hasher) (output : TransactionOutput) : Hasher :=
  ((hasher.write_u64 output.value).write_u16 output.script_public_key.version).write_var_bytes
    output.script_public_key.script

def write_transaction (hasher : Hasher) (tx : Transaction) (encoding_flags : TxEncodingFlags)
    (include_mass_field : Bool) : Hasher :=
  let hasher := (hasher.write_u16 tx.version).write_len tx.inputs.length
  let hasher := tx.inputs.foldl (fun hasher input => write_input hasher input encoding_flags) hasher
  let hasher := hasher.write_len tx.outputs.length
  let hasher := tx.outputs.foldl write_output hasher
  let hasher :=
    (((hasher.write_u64 tx.lock_time).update tx.subnetwork_id).write_u64 tx.gas).write_var_bytes
      tx.payload
  if include_mass_field then
    let mass := tx.mass
    if mass > 0 then hasher.write_u64 mass else hasher
  else hasher

namespace tx

-- `hash` and `id`, with the digests of `TransactionHash` and `TransactionID` as parameters. The
-- id leaves out the signature scripts of every transaction but a coinbase.
def hash (transaction_hash : Bytes → Bytes) (tx : Transaction) (include_mass_field : Bool) :
    Bytes :=
  transaction_hash (write_transaction Hasher.new tx TX_ENCODING_FULL include_mass_field).stream

def id (transaction_id : Bytes → Bytes) (tx : Transaction) : Bytes :=
  let encoding_flags :=
    if tx.is_coinbase then TX_ENCODING_FULL else TX_ENCODING_EXCLUDE_SIGNATURE_SCRIPT
  transaction_id (write_transaction Hasher.new tx encoding_flags false).stream

end tx

end Writers

section Preimage

open PrefixCode

-- The mass written at the end, if any.
def mass_word (tx : Transaction) (include_mass_field : Bool) : Bytes :=
  if include_mass_field && decide (tx.mass > 0) then LittleEndian.encode 8 tx.mass.toNat else []

-- What the encoding of an input shows: its outpoint and sequence, and its signature script and
-- sig-op count when the flags keep them.
def input_key (encoding_flags : TxEncodingFlags) (input : TransactionInput) :
    TransactionOutpoint × UInt64 × Option (Bytes × UInt8) :=
  (input.previous_outpoint, input.sequence,
    if includes_signature_script encoding_flags then
      some (input.signature_script, input.sig_op_count)
    else none)

theorem stream_write_input (hasher : Hasher) (input : TransactionInput)
    (encoding_flags : TxEncodingFlags) :
    (write_input hasher input encoding_flags).stream =
      hasher.stream ++ (write_input Hasher.new input encoding_flags).stream := by
  unfold write_input
  split <;> simp [write_outpoint]

theorem stream_write_output (hasher : Hasher) (output : TransactionOutput) :
    (write_output hasher output).stream = hasher.stream ++ (write_output Hasher.new output).stream := by
  simp [write_output]

theorem stream_write_mass (hasher : Hasher) (tx : Transaction) (include_mass_field : Bool) :
    (if include_mass_field then (if tx.mass > 0 then hasher.write_u64 tx.mass else hasher)
      else hasher).stream = hasher.stream ++ mass_word tx include_mass_field := by
  cases include_mass_field <;> by_cases hmass : tx.mass > 0 <;> simp [mass_word, hmass]

-- The stream of a transaction, word by word.
theorem stream_write_transaction (hasher : Hasher) (tx : Transaction)
    (encoding_flags : TxEncodingFlags) (include_mass_field : Bool) :
    (write_transaction hasher tx encoding_flags include_mass_field).stream = hasher.stream ++
      (LittleEndian.encode 2 tx.version.toNat ++
        ((LittleEndian.encode 8 tx.inputs.length ++
            tx.inputs.flatMap fun input => (write_input Hasher.new input encoding_flags).stream) ++
          ((LittleEndian.encode 8 tx.outputs.length ++
              tx.outputs.flatMap fun output => (write_output Hasher.new output).stream) ++
            (LittleEndian.encode 8 tx.lock_time.toNat ++ (tx.subnetwork_id ++
              (LittleEndian.encode 8 tx.gas.toNat ++
                ((LittleEndian.encode 8 tx.payload.length ++ tx.payload) ++
                  mass_word tx include_mass_field))))))) := by
  have hinputs := Hasher.stream_foldl (fun hasher input => stream_write_input hasher input encoding_flags)
  have houtputs := Hasher.stream_foldl stream_write_output
  unfold write_transaction
  simp only [stream_write_mass, Hasher.stream_write_var_bytes, Hasher.stream_update,
    Hasher.stream_write_u64, houtputs, Hasher.stream_write_len, hinputs, Hasher.stream_write_u16,
    List.append_assoc]

-- The words of one input fix what the flags keep of it.
theorem decodes_input (encoding_flags : TxEncodingFlags) :
    Decodes TransactionInput.Sized (input_key encoding_flags)
      fun input => (write_input Hasher.new input encoding_flags).stream := by
  rintro ⟨⟨tid, index⟩, script, sequence, count⟩ ⟨⟨tid', index'⟩, script', sequence', count'⟩
    r s ha hb heq
  cases hinclude : includes_signature_script encoding_flags
  -- left out, the script is eight zero bytes
  · simp only [write_input, write_outpoint, hinclude, Bool.false_eq_true, if_false,
      Hasher.stream_write_u64, Hasher.stream_write_var_bytes, Hasher.stream_update,
      Hasher.stream_write_u32, Hasher.stream_new, List.length_nil, List.nil_append, List.append_nil,
      List.append_assoc] at heq
    obtain ⟨hid, heq⟩ := Decodes.fixed 32 ha.transaction_id hb.transaction_id heq
    obtain ⟨hindex, heq⟩ := decodes_u32 trivial trivial heq
    obtain ⟨hsequence, hrest⟩ := decodes_u64 trivial trivial (List.append_cancel_left heq)
    simp only [id_eq] at hid hindex hsequence
    subst hid hindex hsequence
    exact ⟨by simp only [input_key, hinclude, Bool.false_eq_true, if_false], hrest⟩
  · simp only [write_input, write_outpoint, hinclude, if_true, Hasher.stream_write_u64,
      Hasher.stream_write_var_bytes, Hasher.stream_update, Hasher.stream_write_u32,
      Hasher.stream_new, List.nil_append, List.append_assoc] at heq
    obtain ⟨hid, heq⟩ := Decodes.fixed 32 ha.transaction_id hb.transaction_id heq
    obtain ⟨hindex, heq⟩ := decodes_u32 trivial trivial heq
    obtain ⟨hscript, heq⟩ := Decodes.var_bytes_cancel decodes_len ha.signature_script
      hb.signature_script heq
    obtain ⟨hcount, heq⟩ := Decodes.single trivial trivial heq
    obtain ⟨hsequence, hrest⟩ := decodes_u64 trivial trivial heq
    simp only [id_eq] at hid hindex hcount hsequence
    subst hid hindex hscript hcount hsequence
    exact ⟨rfl, hrest⟩

-- The words of one output fix it.
theorem decodes_output :
    Decodes (fun output : TransactionOutput => output.script_public_key.script.length < 2 ^ 64) id
      fun output => (write_output Hasher.new output).stream := by
  rintro ⟨value, version, script⟩ ⟨value', version', script'⟩ r s ha hb heq
  simp only [write_output, Hasher.stream_write_var_bytes, Hasher.stream_write_u16,
    Hasher.stream_write_u64, Hasher.stream_new, List.nil_append, List.append_assoc] at heq
  obtain ⟨hvalue, heq⟩ := decodes_u64 trivial trivial heq
  obtain ⟨hversion, heq⟩ := decodes_u16 trivial trivial heq
  obtain ⟨hscript, hrest⟩ := Decodes.var_bytes_cancel decodes_len ha hb heq
  simp only [id_eq] at hvalue hversion
  subst hvalue hversion hscript
  exact ⟨rfl, hrest⟩

-- Two transactions written to the same stream under the same flags agree on every field the
-- flags keep, and write the same mass word.
theorem write_transaction_injective {hasher : Hasher} {t1 t2 : Transaction}
    {encoding_flags : TxEncodingFlags} {include_mass_field : Bool} (h1 : t1.Sized) (h2 : t2.Sized)
    (heq : (write_transaction hasher t1 encoding_flags include_mass_field).stream =
      (write_transaction hasher t2 encoding_flags include_mass_field).stream) :
    t1.version = t2.version ∧
      t1.inputs.map (input_key encoding_flags) = t2.inputs.map (input_key encoding_flags) ∧
      t1.outputs = t2.outputs ∧ t1.lock_time = t2.lock_time ∧
      t1.subnetwork_id = t2.subnetwork_id ∧ t1.gas = t2.gas ∧ t1.payload = t2.payload ∧
      mass_word t1 include_mass_field = mass_word t2 include_mass_field := by
  rw [stream_write_transaction, stream_write_transaction] at heq
  have heq := List.append_cancel_left heq
  simp only [List.append_assoc] at heq
  -- the fields are read back in the order they were written
  obtain ⟨hversion, heq⟩ := decodes_u16 trivial trivial heq
  obtain ⟨hinputs, heq⟩ :=
    Decodes.counted_cancel decodes_len (decodes_input encoding_flags) h1.inputs h2.inputs heq
  obtain ⟨houtputs, heq⟩ := Decodes.counted_cancel decodes_len decodes_output h1.outputs h2.outputs heq
  obtain ⟨hlock_time, heq⟩ := decodes_u64 trivial trivial heq
  obtain ⟨hsubnetwork_id, heq⟩ := Decodes.fixed 20 h1.subnetwork_id h2.subnetwork_id heq
  obtain ⟨hgas, heq⟩ := decodes_u64 trivial trivial heq
  obtain ⟨hpayload, hmass⟩ := Decodes.var_bytes_cancel decodes_len h1.payload h2.payload heq
  rw [List.map_id, List.map_id] at houtputs
  exact ⟨hversion, hinputs, houtputs, hlock_time, hsubnetwork_id, hgas, hpayload, hmass⟩

-- Every key shows the outpoint and the sequence.
theorem map_input_key_outpoints {encoding_flags : TxEncodingFlags} {l1 l2 : List TransactionInput}
    (h : l1.map (input_key encoding_flags) = l2.map (input_key encoding_flags)) :
    l1.map (fun input => (input.previous_outpoint, input.sequence)) =
      l2.map (fun input => (input.previous_outpoint, input.sequence)) := by
  have hpair := congrArg (List.map fun k => (k.1, k.2.1)) h
  simpa only [List.map_map, Function.comp_def, input_key] using hpair

-- When the flags keep the scripts, the keys show whole inputs.
theorem eq_of_map_input_key {encoding_flags : TxEncodingFlags} {l1 l2 : List TransactionInput}
    (hinclude : includes_signature_script encoding_flags = true)
    (h : l1.map (input_key encoding_flags) = l2.map (input_key encoding_flags)) : l1 = l2 := by
  refine List.map_injective_iff.mpr ?_ h
  rintro ⟨outpoint, script, sequence, count⟩ ⟨outpoint', script', sequence', count'⟩ hkey
  simp only [input_key, hinclude, if_true, Prod.mk.injEq, Option.some.injEq] at hkey
  obtain ⟨rfl, rfl, rfl, rfl⟩ := hkey
  rfl

-- The mass word fixes a mass that is set.
theorem mass_eq_of_mass_word_eq {t1 t2 : Transaction} (h : mass_word t1 true = mass_word t2 true)
    (hset : t1.mass ≠ 0 ∨ t2.mass ≠ 0) : t1.mass = t2.mass := by
  by_cases h1 : t1.mass > 0 <;> by_cases h2 : t2.mass > 0 <;>
    simp only [mass_word, Bool.true_and, h1, h2, decide_true, decide_false, if_true,
      Bool.false_eq_true, if_false] at h
  · exact (decodes_u64 trivial trivial (r := []) (s := [])
      (by rw [List.append_nil, List.append_nil]; exact h)).1
  · exact absurd (congrArg List.length h) (by simp)
  · exact absurd (congrArg List.length h) (by simp)
  -- neither mass is written, so neither is set
  · rcases hset with hne | hne
    · exact absurd (UInt64.pos_iff_ne_zero.mpr hne) h1
    · exact absurd (UInt64.pos_iff_ne_zero.mpr hne) h2

end Preimage

end Hashing

end Waglayla.Consensus
