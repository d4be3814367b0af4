import Mathlib.Data.List.Basic
import Waglayla.Bytes.LittleEndian

namespace Waglayla.TxScript

abbrev Bytes := List UInt8

-- An opcode as the engine sees it: its byte value (the const generic `CODE` of
-- `OpCode<CODE>`) and the data it carries.
structure OpCode where
  value : UInt8
  data : Bytes
  deriving DecidableEq, Repr

-- Errors of the script engine. Variants whose text is the `Debug` rendering of an
-- opcode carry the opcode itself, and `InvalidSignature` drops the secp256k1 error.
inductive TxScriptError where
  | MalformedPushSize (taken : Bytes)
  | MalformedPush (required remaining : Nat)
  | InvalidIndex (index count : Nat)
  | StackSizeExceeded (size max : Nat)
  | InvalidOpcode (opcode : OpCode)
  | OpcodeReserved (opcode : OpCode)
  | OpcodeDisabled (opcode : OpCode)
  | EmptyStack
  | CleanStack (count : Nat)
  | EvalFalse
  | EarlyReturn
  | VerifyError
  | InvalidState (message : String)
  | InvalidSignature
  | SigcacheSignatureInvalid
  | TooManyOperations (max : Int)
  | NotATransactionInput
  | ElementTooBig (size max : Nat)
  | NotMinimalData (message : String)
  | InvalidSource (message : String)
  | UnsatisfiedLockTime (message : String)
  | NumberTooBig (message : String)
  | NullFail
  | InvalidSignatureCount (message : String)
  | InvalidPubKeyCount (message : String)
  | InvalidSigHashType (hash_type : UInt8)
  | PubKeyFormat
  | SigLength (length : Nat)
  | NoScripts
  | SignatureScriptNotPushOnly
  | ErrUnbalancedConditional
  | InvalidStackOperation (required available : Nat)
  | ScriptSize (size max : Nat)
  deriving DecidableEq, Repr

namespace codes

def OpFalse : UInt8 := 0x00
def OpData1 : UInt8 := 0x01
def OpData32 : UInt8 := 0x20
def OpData33 : UInt8 := 0x21
def OpData75 : UInt8 := 0x4b
def OpPushData1 : UInt8 := 0x4c
def OpPushData2 : UInt8 := 0x4d
def OpPushData4 : UInt8 := 0x4e
def Op1Negate : UInt8 := 0x4f
def OpTrue : UInt8 := 0x51
def Op16 : UInt8 := 0x60
def OpEqual : UInt8 := 0x87
def OpCheckMultiSigECDSA : UInt8 := 0xa9
def OpBlake3 : UInt8 := 0xaa
def OpCheckSigECDSA : UInt8 := 0xab
def OpCheckSig : UInt8 := 0xac
def OpCheckSigVerify : UInt8 := 0xad
def OpCheckMultiSig : UInt8 := 0xae
def OpCheckMultiSigVerify : UInt8 := 0xaf

end codes

open codes

-- The last opcode that does not count toward operations (`NO_COST_OPCODE`).
def NO_COST_OPCODE : UInt8 := 0x60

-- The length specification of `opcode_list!`: a fixed length that includes the
-- opcode byte, or a little-endian length prefix of `width` bytes.
inductive OpLength where
  | fixed (length : Nat)
  | var (width : Nat)
  deriving DecidableEq, Repr

def op_length (value : UInt8) : OpLength :=
  if value.toNat ≥ 0x01 ∧ value.toNat ≤ 0x4b then .fixed (value.toNat + 1)
  else if value = OpPushData1 then .var 1
  else if value = OpPushData2 then .var 2
  else if value = OpPushData4 then .var 4
  else .fixed 1

-- `u8`/`u16`/`u32::from_le_bytes` on the length prefix.
def from_le_bytes (bytes : Bytes) : Nat :=
  bytes.foldr (fun b acc => b.toNat + 256 * acc) 0

namespace OpCode

def is_push_opcode (op : OpCode) : Bool := op.value ≤ NO_COST_OPCODE

def get_data (op : OpCode) : Bytes := op.data

-- `OpcodeSerialization::deserialize` of the opcode `value`, reading from the bytes
-- that follow it; returns the opcode and the bytes the iterator has left. `take`
-- consumes what it finds, so a short read leaves nothing behind.
def deserialize (value : UInt8) (it : Bytes) : Except TxScriptError OpCode × Bytes :=
  match op_length value with
  | .fixed length =>
      let data := it.take (length - 1)
      if data.length ≠ length - 1 then (.error (.MalformedPush (length - 1) data.length), it.drop (length - 1))
      else (.ok ⟨value, data⟩, it.drop (length - 1))
  | .var width =>
      let bytes := it.take width
      if bytes.length ≠ width then (.error (.MalformedPushSize bytes), it.drop width)
      else
        let length := from_le_bytes bytes
        let data := (it.drop width).take length
        if data.length ≠ length then (.error (.MalformedPush length data.length), (it.drop width).drop length)
        else (.ok ⟨value, data⟩, (it.drop width).drop length)

end OpCode

def deserialize_next_opcode : Bytes → Option (Except TxScriptError OpCode × Bytes)
  | [] => none
  | value :: rest => some (OpCode.deserialize value rest)

theorem deserialize_rest_length_le (value : UInt8) (it : Bytes) :
    (OpCode.deserialize value it).2.length ≤ it.length := by
  unfold OpCode.deserialize
  split
  · dsimp only
    split <;> simp
  · dsimp only
    split
    · simp
    · split <;> simp

theorem deserialize_next_opcode_length_lt {script rest : Bytes}
    {op : Except TxScriptError OpCode} (h : deserialize_next_opcode script = some (op, rest)) :
    rest.length < script.length := by
  cases script with
  | nil => simp [deserialize_next_opcode] at h
  | cons value it =>
      simp only [deserialize_next_opcode, Option.some.injEq] at h
      have hle := deserialize_rest_length_le value it
      rw [h] at hle
      exact Nat.lt_succ_of_le hle

-- `script.iter().batching(|it| deserialize_next_opcode(it))`
def parse_script (script : Bytes) : List (Except TxScriptError OpCode) :=
  match hnext : deserialize_next_opcode script with
  | none => []
  | some (op, rest) =>
    have : rest.length < script.length := deserialize_next_opcode_length_lt hnext
    op :: parse_script rest
termination_by script.length

@[simp] theorem parse_script_nil : parse_script [] = [] := by
  rw [parse_script]; rfl

theorem parse_script_cons (value : UInt8) (it : Bytes) :
    parse_script (value :: it) =
      (OpCode.deserialize value it).1 :: parse_script (OpCode.deserialize value it).2 := by
  rw [parse_script]; rfl

-- Opcodes without data consume nothing behind their byte.
theorem deserialize_of_length_one {value : UInt8} (hlen : op_length value = .fixed 1)
    (it : Bytes) : OpCode.deserialize value it = (.ok ⟨value, []⟩, it) := by
  simp [OpCode.deserialize, hlen]

-- A fixed-length push with too few bytes behind it fails to parse.
theorem deserialize_fixed_short {value : UInt8} {n : Nat} (hlen : op_length value = .fixed (n + 1))
    {it : Bytes} (hshort : it.length < n) :
    (OpCode.deserialize value it).1 = .error (.MalformedPush n it.length) := by
  have htake : (it.take n).length = it.length := by simp only [List.length_take]; omega
  simp only [OpCode.deserialize, hlen, Nat.add_sub_cancel, htake]
  rw [if_pos (by omega)]

-- A deserialization that succeeds only read bytes it found, so bytes appended
-- behind the input are left over untouched.
theorem deserialize_append_of_ok {value : UInt8} {it : Bytes} {op : OpCode}
    (hok : (OpCode.deserialize value it).1 = .ok op) (post : Bytes) :
    OpCode.deserialize value (it ++ post) = (.ok op, (OpCode.deserialize value it).2 ++ post) := by
  unfold OpCode.deserialize at hok ⊢
  split at hok
  · rename_i length _
    dsimp only at hok ⊢
    split at hok
    · simp at hok
    · rename_i hlen
      have hle : length - 1 ≤ it.length := by
        by_contra hgt
        exact hlen (by simp only [List.length_take]; omega)
      simp only [List.take_append_of_le_length hle, List.drop_append_of_le_length hle, hlen,
        if_false] at hok ⊢
      rw [hok]
  · rename_i width _
    dsimp only at hok ⊢
    split at hok
    · simp at hok
    · rename_i hwidth
      have hle : width ≤ it.length := by
        by_contra hgt
        exact hwidth (by simp only [List.length_take]; omega)
      simp only [List.take_append_of_le_length hle, List.drop_append_of_le_length hle, hwidth,
        if_false] at hok ⊢
      split at hok
      · simp at hok
      · rename_i hdata
        have hle' : from_le_bytes (it.take width) ≤ (it.drop width).length := by
          by_contra hgt
          exact hdata (by simp only [List.length_take]; omega)
        simp only [List.take_append_of_le_length hle', List.drop_append_of_le_length hle', hdata,
          if_false] at hok ⊢
        rw [hok]

-- The length prefix is read as a little-endian number.
theorem from_le_bytes_eq_decode (bytes : Bytes) : from_le_bytes bytes = LittleEndian.decode bytes := rfl

-- Every opcode above `OpPushData4` is a single byte.
theorem op_length_of_gt {value : UInt8} (h : 0x4e < value.toNat) : op_length value = .fixed 1 := by
  have hne : ∀ code : UInt8, code.toNat ≤ 0x4e → value ≠ code := by
    rintro code hcode rfl
    omega
  unfold op_length
  rw [if_neg (by omega), if_neg (hne _ (by decide)), if_neg (hne _ (by decide)),
    if_neg (hne _ (by decide))]

theorem op_length_of_le {value : UInt8} (hlo : 1 ≤ value.toNat) (hhi : value.toNat ≤ 0x4b) :
    op_length value = .fixed (value.toNat + 1) := by
  rw [op_length, if_pos ⟨hlo, hhi⟩]

-- A fixed-length opcode followed by exactly its data reads all of it.
theorem deserialize_fixed_exact {value : UInt8} {data : Bytes}
    (hlen : op_length value = .fixed (data.length + 1)) :
    OpCode.deserialize value data = (.ok ⟨value, data⟩, []) := by
  simp [OpCode.deserialize, hlen]

-- A length prefix of `width` bytes followed by the data it announces reads all of it.
theorem deserialize_var_exact {value : UInt8} {width : Nat} {data : Bytes}
    (hlen : op_length value = .var width) (hfit : data.length < 256 ^ width) :
    OpCode.deserialize value (LittleEndian.encode width data.length ++ data) =
      (.ok ⟨value, data⟩, []) := by
  have hprefix : (LittleEndian.encode width data.length).length = width :=
    LittleEndian.length_encode width data.length
  have htake : (LittleEndian.encode width data.length ++ data).take width =
      LittleEndian.encode width data.length := List.take_left' hprefix
  have hdrop : (LittleEndian.encode width data.length ++ data).drop width = data :=
    List.drop_left' hprefix
  simp only [OpCode.deserialize, hlen, htake, hdrop, hprefix, from_le_bytes_eq_decode,
    LittleEndian.decode_encode_of_lt hfit, List.take_length, List.drop_length, ne_eq,
    not_true_eq_false, if_false]

-- Splitting a script behind a prefix that parses without error splits its opcodes.
theorem parse_script_append (pre post : Bytes) (hok : ∀ x ∈ parse_script pre, x.isOk) :
    parse_script (pre ++ post) = parse_script pre ++ parse_script post := by
  match pre with
  | [] => simp
  | value :: it =>
      rw [parse_script_cons] at hok
      have hhead := hok _ List.mem_cons_self
      obtain ⟨op, hop⟩ : ∃ op, (OpCode.deserialize value it).1 = .ok op := by
        cases h : (OpCode.deserialize value it).1 with
        | error e => rw [h] at hhead; simp [Except.isOk, Except.toBool] at hhead
        | ok op => exact ⟨op, rfl⟩
      have htail : ∀ x ∈ parse_script (OpCode.deserialize value it).2, x.isOk :=
        fun x hx => hok x (List.mem_cons_of_mem _ hx)
      have ih := parse_script_append (OpCode.deserialize value it).2 post htail
      rw [List.cons_append, parse_script_cons, parse_script_cons,
        deserialize_append_of_ok hop post, ih, hop]
      rfl
termination_by pre.length
decreasing_by
  have := deserialize_rest_length_le value it
  simp only [List.length_cons]
  omega

-- converts an opcode from the list of Op0 to Op16 to its associated value; the
-- `assert!` is the `none` branch
def to_small_int (opcode : OpCode) : Option UInt8 :=
  let value := opcode.value
  if value = OpFalse then some 0
  else if OpTrue ≤ value ∧ value < Op16 then some (value - (OpTrue - 1))
  else none

end Waglayla.TxScript
