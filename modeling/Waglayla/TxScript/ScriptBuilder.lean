import Waglayla.TxScript.Engine

-- The script builder, each data push with the shortest opcode for it.

namespace Waglayla.TxScript

namespace codes

def Op0 : UInt8 := OpFalse
def Op1 : UInt8 := OpTrue

end codes

open codes LittleEndian TxScriptEngine

def MAX_SCRIPTS_SIZE : Nat := 10000
def OP_DATA_MIN_VAL : UInt8 := OpData1

inductive ScriptBuilderError where
  | OpCodeRejected (opcode : UInt8)
  | OpCodesRejected (count : Nat)
  | DataRejected (size : Nat)
  | ElementExceedsMaxSize (size : Nat)
  | IntegerRejected (value : Int64)
  deriving DecidableEq, Repr

structure ScriptBuilder where
  script : Bytes
  deriving DecidableEq, Repr

namespace ScriptBuilder

def new : ScriptBuilder := ⟨[]⟩

-- The script is taken and an empty one left behind.
def drain (self : ScriptBuilder) : ScriptBuilder × Bytes := (⟨[]⟩, self.script)

def add_op (self : ScriptBuilder) (opcode : UInt8) : ScriptBuilder × Except ScriptBuilderError Unit :=
  if self.script.length ≥ MAX_SCRIPTS_SIZE then (self, .error (.OpCodeRejected opcode))
  else (⟨self.script ++ [opcode]⟩, .ok ())

def add_ops (self : ScriptBuilder) (opcodes : Bytes) :
    ScriptBuilder × Except ScriptBuilderError Unit :=
  if self.script.length + opcodes.length > MAX_SCRIPTS_SIZE then
    (self, .error (.OpCodesRejected opcodes.length))
  else (⟨self.script ++ opcodes⟩, .ok ())

def canonical_data_size (data : Bytes) : Nat :=
  let data_len := data.length
  if data_len = 0 ∨ (data_len = 1 ∧ (data[0]! ≤ OP_SMALL_INT_MAX_VAL ∨ data[0]! = OP_1_NEGATE_VAL))
  then 1
  else
    data_len +
      if data_len ≤ OP_DATA_MAX_VAL.toNat then 1
      else if data_len ≤ 255 then 2
      else if data_len ≤ 65535 then 3
      else 5

-- The length goes after `OpPushData1/2/4` as a `u8`, `u16` or `u32`, little endian.
def add_raw_data (self : ScriptBuilder) (data : Bytes) : ScriptBuilder :=
  let data_len := data.length
  if data_len = 0 ∨ (data_len = 1 ∧ data[0]! = 0) then ⟨self.script ++ [Op0]⟩
  else if data_len = 1 ∧ data[0]! ≤ OP_SMALL_INT_MAX_VAL then
    ⟨self.script ++ [(Op1 - 1 : UInt8) + data[0]!]⟩
  else if data_len = 1 ∧ data[0]! = OP_1_NEGATE_VAL then ⟨self.script ++ [Op1Negate]⟩
  else
    let script :=
      if data_len ≤ OP_DATA_MAX_VAL.toNat then
        self.script ++ [(OP_DATA_MIN_VAL - 1) + data_len.toUInt8]
      else if data_len ≤ 255 then self.script ++ [OpPushData1, data_len.toUInt8]
      else if data_len ≤ 65535 then self.script ++ OpPushData2 :: encode 2 data_len
      else self.script ++ OpPushData4 :: encode 4 data_len
    ⟨script ++ data⟩

def add_data (self : ScriptBuilder) (data : Bytes) : ScriptBuilder × Except ScriptBuilderError Unit :=
  let data_size := canonical_data_size data
  if self.script.length + data_size > MAX_SCRIPTS_SIZE then (self, .error (.DataRejected data_size))
  else
    let data_len := data.length
    if data_len > MAX_SCRIPT_ELEMENT_SIZE then (self, .error (.ElementExceedsMaxSize data_len))
    else (self.add_raw_data data, .ok ())

-- `((Op1 as i64 - 1) + val) as u8` for -1 and 1 to 16; `OpcodeData::serialize` panics at
-- `i64::MIN`.
def add_i64 (self : ScriptBuilder) (val : Int64) :
    Option (ScriptBuilder × Except ScriptBuilderError Unit) :=
  if self.script.length + 1 > MAX_SCRIPTS_SIZE then some (self, .error (.IntegerRejected val))
  else if val = 0 then some (⟨self.script ++ [Op0]⟩, .ok ())
  else if val = -1 ∨ (1 ≤ val ∧ val ≤ 16) then
    some (⟨self.script ++ [(Int64.ofNat Op1.toNat - 1 + val).toUInt64.toUInt8]⟩, .ok ())
  else do
    let bytes ← serialize val
    return self.add_data bytes

-- The eight little-endian bytes without their trailing zeros.
def add_u64 (self : ScriptBuilder) (val : UInt64) : ScriptBuilder × Except ScriptBuilderError Unit :=
  let buffer := encode 8 val.toNat
  let trimmed_size := 8 - (buffer.reverse.findIdx? (· != 0)).getD 8
  self.add_data (buffer.take trimmed_size)

def add_lock_time (self : ScriptBuilder) (lock_time : UInt64) :
    ScriptBuilder × Except ScriptBuilderError Unit :=
  self.add_u64 lock_time

def add_sequence (self : ScriptBuilder) (sequence : UInt64) :
    ScriptBuilder × Except ScriptBuilderError Unit :=
  self.add_u64 sequence

end ScriptBuilder

section Pushes

-- A push as the parser and the engine see it.

-- `pushed` holds one push opcode, `op`, and nothing behind it; the engine's minimality check
-- accepts it where it applies, and an executing engine runs it as a push of `item`.
structure PushesItem (pushed : Bytes) (op : OpCode) (item : Bytes) : Prop where
  parse : deserialize_next_opcode pushed = some (.ok op, [])
  push_opcode : op.is_push_opcode = true
  minimal : 0 < op.value ∧ op.value ≤ 0x4e → op.check_minimal_data_push = .ok ()
  execute : ∀ (execute_other : OpCode → TxScriptEngine →
      (List Bytes × List Bytes × Nat) × Except TxScriptError Unit) (vm : TxScriptEngine),
    vm.is_executing = true → execute_opcode execute_other op vm = (push_data item vm, .ok ())

-- One opcode byte without data, which the engine runs without a minimality check.
theorem pushes_item_small {value : UInt8} {item : Bytes}
    (hvalue : value = OpFalse ∨ (OpPushData4 < value ∧ value ≤ Op16))
    (hexec : ∀ (execute_other : OpCode → TxScriptEngine →
        (List Bytes × List Bytes × Nat) × Except TxScriptError Unit) (vm : TxScriptEngine),
      execute execute_other ⟨value, []⟩ vm = (push_data item vm, .ok ())) :
    PushesItem [value] ⟨value, []⟩ item := by
  have hlen : op_length value = .fixed 1 := by
    rcases hvalue with rfl | ⟨hlo, -⟩
    · decide
    · exact op_length_of_gt (UInt8.lt_iff_toNat_lt.mp hlo)
  have hunchecked : ¬(0 < value ∧ value ≤ 0x4e) := by
    rintro ⟨hpos, hle⟩
    rcases hvalue with rfl | ⟨hlo, -⟩
    · exact absurd hpos (by decide)
    · have := UInt8.lt_iff_toNat_lt.mp hlo
      have := UInt8.le_iff_toNat_le.mp hle
      simp only [OpPushData4, UInt8.reduceToNat] at *
      omega
  have hpush : (⟨value, []⟩ : OpCode).is_push_opcode = true := by
    rcases hvalue with rfl | ⟨-, hhi⟩
    · decide
    · exact decide_eq_true hhi
  refine ⟨?_, hpush, fun h => absurd h hunchecked, fun execute_other vm hexec' => ?_⟩
  · simp [deserialize_next_opcode, deserialize_of_length_one hlen]
  · rw [execute_opcode_push execute_other hpush (by simp) (fun h => absurd h hunchecked) hexec',
      hexec]

-- An opcode from `OpData1` to `OpPushData4`, its length bytes and exactly its data.
theorem pushes_item_data {value : UInt8} {length_bytes data : Bytes}
    (hparse : OpCode.deserialize value (length_bytes ++ data) = (.ok ⟨value, data⟩, []))
    (hvalue : 0 < value ∧ value ≤ OpPushData4)
    (hmin : OpCode.check_minimal_data_push ⟨value, data⟩ = .ok ())
    (hsize : data.length ≤ MAX_SCRIPT_ELEMENT_SIZE) :
    PushesItem (value :: (length_bytes ++ data)) ⟨value, data⟩ data := by
  have hpush : (⟨value, data⟩ : OpCode).is_push_opcode = true := by
    have := UInt8.le_iff_toNat_le.mp hvalue.2
    simp only [OpCode.is_push_opcode, NO_COST_OPCODE, decide_eq_true_eq, UInt8.le_iff_toNat_le]
    simp only [OpPushData4, UInt8.reduceToNat] at this ⊢
    omega
  have hne : value ≠ OpFalse := fun h => by rw [h] at hvalue; exact absurd hvalue.1 (by decide)
  refine ⟨by simp [deserialize_next_opcode, hparse], hpush, fun _ => hmin,
    fun execute_other vm hexec => ?_⟩
  rw [execute_opcode_push execute_other hpush hsize (fun _ => hmin) hexec,
    execute_push_data execute_other hne hvalue.2]

-- A single byte that no small-integer opcode stands for goes with `OpData1`.
theorem check_minimal_data_push_singleton {b : UInt8}
    (hsmall : ¬(OP_SMALL_INT_MIN_VAL ≤ b ∧ b ≤ OP_SMALL_INT_MAX_VAL)) (hneg : b ≠ OP_1_NEGATE_VAL) :
    OpCode.check_minimal_data_push ⟨OpData1, [b]⟩ = .ok () := by
  unfold OpCode.check_minimal_data_push
  dsimp only
  rw [if_neg hsmall, if_neg hneg, if_neg (show ¬OpData1.toNat ≠ [b].length from not_not.mpr rfl)]

-- Two bytes or more go with the opcode their length calls for.
theorem check_minimal_data_push_long {value : UInt8} {data : Bytes} (hlong : 2 ≤ data.length)
    (hdata : data.length ≤ 75 → value.toNat = data.length)
    (hpush1 : 75 < data.length → data.length ≤ 255 → value = OpPushData1)
    (hpush2 : 255 < data.length → data.length < 65535 → value = OpPushData2) :
    OpCode.check_minimal_data_push ⟨value, data⟩ = .ok () := by
  obtain ⟨b, b', rest, rfl⟩ : ∃ b b' rest, data = b :: b' :: rest := by
    match data, hlong with
    | b :: b' :: rest, _ => exact ⟨b, b', rest, rfl⟩
  unfold OpCode.check_minimal_data_push
  simp only [OP_DATA_MAX_VAL, OpData75, UInt8.reduceToNat]
  split_ifs with h75 hdata' h255 hpush1' h65535
  · exact absurd (hdata h75) hdata'
  · rfl
  · exact absurd (hpush1 (by omega) h255) hpush1'
  · rfl
  · exact absurd (hpush2 (by omega) h65535.1) h65535.2
  · rfl

end Pushes

namespace ScriptBuilder

section Spec

-- A single byte: `Op0`, a small-integer opcode, `Op1Negate`, or `OpData1` and the byte.
theorem add_raw_data_singleton (self : ScriptBuilder) (b : UInt8) :
    ∃ pushed op, (self.add_raw_data [b]).script = self.script ++ pushed ∧
      pushed.length = canonical_data_size [b] ∧ PushesItem pushed op (if b = 0 then [] else [b]) := by
  by_cases h0 : b = 0
  · subst h0
    refine ⟨[Op0], ⟨Op0, []⟩, rfl, rfl, ?_⟩
    rw [if_pos rfl]
    exact pushes_item_small (.inl rfl) fun execute_other vm => execute_op_false execute_other rfl vm
  rw [if_neg h0]
  have hb0 : b.toNat ≠ 0 := fun h => h0 (UInt8.toNat_inj.mp h)
  by_cases h16 : b ≤ OP_SMALL_INT_MAX_VAL
  · -- `Op1` to `Op16`
    have hb : b.toNat ≤ 16 := UInt8.le_iff_toNat_le.mp h16
    have hval : ((Op1 - 1 : UInt8) + b).toNat = 0x50 + b.toNat := by
      rw [UInt8.toNat_add]
      simp only [Op1, OpTrue, UInt8.reduceSub, UInt8.reduceToNat]
      omega
    have hlo : OpPushData4 < (Op1 - 1 : UInt8) + b := by
      rw [UInt8.lt_iff_toNat_lt, hval]
      simp only [OpPushData4, UInt8.reduceToNat]
      omega
    have hhi : (Op1 - 1 : UInt8) + b ≤ Op16 := by
      rw [UInt8.le_iff_toNat_le, hval]
      simp only [Op16, UInt8.reduceToNat]
      omega
    have hres : OpReserved < (Op1 - 1 : UInt8) + b := by
      rw [UInt8.lt_iff_toNat_lt, hval]
      simp only [OpReserved, UInt8.reduceToNat]
      omega
    refine ⟨[(Op1 - 1 : UInt8) + b], ⟨(Op1 - 1 : UInt8) + b, []⟩, ?_, ?_, ?_⟩
    · simp [add_raw_data, h0, h16]
    · simp [canonical_data_size, h16]
    refine pushes_item_small (.inr ⟨hlo, hhi⟩) fun execute_other vm => ?_
    rw [execute_small_int execute_other hres hhi vm, hval, Nat.add_sub_cancel_left, push_number,
      serialize_of_deserialize_i64 (deserialize_i64_singleton (by omega) h0)]
    rfl
  by_cases hneg : b = OP_1_NEGATE_VAL
  · subst hneg
    refine ⟨[Op1Negate], ⟨Op1Negate, []⟩, rfl, rfl, ?_⟩
    refine pushes_item_small (.inr ⟨by decide, by decide⟩) fun execute_other vm => ?_
    rw [execute_op_1negate execute_other rfl vm, push_number,
      serialize_of_deserialize_i64 (show deserialize_i64 [0x81] = .ok (-1) from rfl)]
    rfl
  · -- `OpData1` and the byte
    refine ⟨OpData1 :: ([] ++ [b]), ⟨OpData1, [b]⟩, ?_, ?_, ?_⟩
    · simp [add_raw_data, h0, h16, hneg, OP_DATA_MAX_VAL, OpData75]
      rfl
    · simp [canonical_data_size, h16, hneg, OP_DATA_MAX_VAL, OpData75]
    exact pushes_item_data (deserialize_fixed_exact (by rfl)) ⟨by decide, by decide⟩
      (check_minimal_data_push_singleton (fun h => h16 h.2) hneg) (by simp [MAX_SCRIPT_ELEMENT_SIZE])

-- Two bytes or more: `OpData2` to `OpData75`, or `OpPushData1/2` and the length, then the data.
theorem add_raw_data_long (self : ScriptBuilder) {data : Bytes} (hlong : 2 ≤ data.length)
    (hsize : data.length ≤ MAX_SCRIPT_ELEMENT_SIZE) :
    ∃ pushed op, (self.add_raw_data data).script = self.script ++ pushed ∧
      pushed.length = canonical_data_size data ∧ PushesItem pushed op data := by
  have hsize' : data.length ≤ 520 := hsize
  have hne0 : data.length ≠ 0 := by omega
  have hne1 : data.length ≠ 1 := by omega
  by_cases h75 : data.length ≤ 75
  · -- `OpData2` to `OpData75`
    have hval : data.length.toUInt8.toNat = data.length := toNat_toUInt8_of_lt (by omega)
    refine ⟨data.length.toUInt8 :: ([] ++ data), ⟨data.length.toUInt8, data⟩, ?_, ?_, ?_⟩
    · simp [add_raw_data, hne0, hne1, h75, OP_DATA_MAX_VAL, OpData75, OP_DATA_MIN_VAL, OpData1]
    · simp [canonical_data_size, hne0, hne1, h75, OP_DATA_MAX_VAL, OpData75]
    refine pushes_item_data (deserialize_fixed_exact ?_) ⟨?_, ?_⟩
      (check_minimal_data_push_long hlong (fun _ => hval) (fun h => absurd h (by omega))
        (fun h => absurd h (by omega))) hsize
    · rw [op_length_of_le (by omega) (by omega), hval, List.nil_append]
    · rw [UInt8.lt_iff_toNat_lt, hval]
      simp only [UInt8.reduceToNat]
      omega
    · rw [UInt8.le_iff_toNat_le, hval]
      simp only [OpPushData4, UInt8.reduceToNat]
      omega
  by_cases h255 : data.length ≤ 255
  · -- `OpPushData1` and a one-byte length
    refine ⟨OpPushData1 :: (encode 1 data.length ++ data), ⟨OpPushData1, data⟩, ?_, ?_, ?_⟩
    · simp [add_raw_data, hne0, hne1, h75, h255, OP_DATA_MAX_VAL, OpData75]
    · simp [canonical_data_size, hne0, hne1, h75, h255, OP_DATA_MAX_VAL, OpData75]
    exact pushes_item_data (deserialize_var_exact (by rfl) (by simp; omega)) ⟨by decide, by decide⟩
      (check_minimal_data_push_long hlong (fun h => absurd h h75) (fun _ _ => rfl)
        (fun h => absurd h (by omega))) hsize
  · -- `OpPushData2` and a two-byte length
    have h65535 : data.length ≤ 65535 := by omega
    refine ⟨OpPushData2 :: (encode 2 data.length ++ data), ⟨OpPushData2, data⟩, ?_, ?_, ?_⟩
    · simp [add_raw_data, hne0, hne1, h75, h255, h65535, OP_DATA_MAX_VAL, OpData75]
    · simp [canonical_data_size, hne0, hne1, h75, h255, h65535, OP_DATA_MAX_VAL, OpData75]
    exact pushes_item_data (deserialize_var_exact (by rfl) (by simp; omega)) ⟨by decide, by decide⟩
      (check_minimal_data_push_long hlong (fun h => absurd h h75) (fun _ h => absurd h h255)
        (fun _ _ => rfl)) hsize

-- What `add_raw_data` appends for data of at most `MAX_SCRIPT_ELEMENT_SIZE` bytes: one push of
-- the data, in `canonical_data_size` bytes; `[0]` is pushed as the empty vector.
theorem add_raw_data_spec (self : ScriptBuilder) {data : Bytes}
    (hsize : data.length ≤ MAX_SCRIPT_ELEMENT_SIZE) :
    ∃ pushed op, (self.add_raw_data data).script = self.script ++ pushed ∧
      pushed.length = canonical_data_size data ∧
      PushesItem pushed op (if data = [0] then [] else data) := by
  match data, hsize with
  | [], _ =>
    refine ⟨[Op0], ⟨Op0, []⟩, rfl, rfl, ?_⟩
    exact pushes_item_small (.inl rfl) fun execute_other vm => execute_op_false execute_other rfl vm
  | [b], _ =>
    have hitem : (if [b] = [(0 : UInt8)] then [] else [b]) = if b = 0 then [] else [b] := by
      simp only [List.cons.injEq, and_true]
    rw [hitem]
    exact add_raw_data_singleton self b
  | b :: b' :: rest, hsize =>
    have hitem : (if b :: b' :: rest = [(0 : UInt8)] then [] else b :: b' :: rest) =
        b :: b' :: rest := by simp
    rw [hitem]
    exact add_raw_data_long self (by simp) hsize

theorem add_data_of_room (self : ScriptBuilder) {data : Bytes}
    (hroom : self.script.length + canonical_data_size data ≤ MAX_SCRIPTS_SIZE)
    (hsize : data.length ≤ MAX_SCRIPT_ELEMENT_SIZE) :
    self.add_data data = (self.add_raw_data data, .ok ()) := by
  unfold add_data
  dsimp only
  rw [if_neg (Nat.not_lt_of_le hroom), if_neg (Nat.not_lt_of_le hsize)]

theorem one_le_canonical_data_size (data : Bytes) : 1 ≤ canonical_data_size data := by
  unfold canonical_data_size
  dsimp only
  split_ifs <;> omega

-- The integers `add_i64` writes as one opcode byte: -1 is `Op1Negate`, 1 to 16 are `Op1` to
-- `Op16`, each standing for its own value.
theorem small_int_byte {val : Int64} (hsmall : val = -1 ∨ (1 ≤ val ∧ val ≤ 16)) :
    (val = -1 ∧ (Int64.ofNat Op1.toNat - 1 + val).toUInt64.toUInt8 = Op1Negate) ∨
      (OpReserved < (Int64.ofNat Op1.toNat - 1 + val).toUInt64.toUInt8 ∧
        (Int64.ofNat Op1.toNat - 1 + val).toUInt64.toUInt8 ≤ Op16 ∧
        Int64.ofNat ((Int64.ofNat Op1.toNat - 1 + val).toUInt64.toUInt8.toNat - 0x50) = val) := by
  rcases hsmall with rfl | ⟨h1, h16⟩
  · exact .inl ⟨rfl, by decide⟩
  -- `val` is one of sixteen values, each checked by evaluation
  have h1' := Int64.le_iff_toInt_le.mp h1
  have h16' := Int64.le_iff_toInt_le.mp h16
  simp only [Int64.reduceToInt] at h1' h16'
  have hval : val = Int64.ofNat ((val.toInt - 1).toNat + 1) := by
    calc val = Int64.ofInt val.toInt := (Int64.ofInt_toInt val).symm
      _ = Int64.ofInt (((val.toInt - 1).toNat + 1 : Nat) : Int) := by congr 1; omega
      _ = Int64.ofNat ((val.toInt - 1).toNat + 1) := Int64.ofInt_eq_ofNat
  have hall : ∀ k : Fin 16,
      OpReserved < (Int64.ofNat Op1.toNat - 1 + Int64.ofNat (k.val + 1)).toUInt64.toUInt8 ∧
      (Int64.ofNat Op1.toNat - 1 + Int64.ofNat (k.val + 1)).toUInt64.toUInt8 ≤ Op16 ∧
      Int64.ofNat ((Int64.ofNat Op1.toNat - 1 + Int64.ofNat (k.val + 1)).toUInt64.toUInt8.toNat -
        0x50) = Int64.ofNat (k.val + 1) := by decide
  rw [hval]
  exact .inr (hall ⟨(val.toInt - 1).toNat, by omega⟩)

-- What `add_i64` appends for any value but `i64::MIN`, given room for it: one push of the
-- value's serialization.
theorem add_i64_spec (self : ScriptBuilder) {val : Int64} (hval : val ≠ Int64.minValue)
    (hroom : self.script.length + canonical_data_size ((serialize val).getD []) ≤ MAX_SCRIPTS_SIZE) :
    ∃ pushed op bytes, serialize val = some bytes ∧
      self.add_i64 val = some (⟨self.script ++ pushed⟩, .ok ()) ∧ PushesItem pushed op bytes := by
  obtain ⟨bytes, hser, hlen, hmin, -⟩ := serialize_spec hval
  rw [hser, Option.getD_some] at hroom
  have hone := one_le_canonical_data_size bytes
  unfold add_i64
  rw [if_neg (by omega)]
  -- the number the one-byte opcodes push is the value's serialization
  have hnumber : ∀ vm, push_number val vm = push_data bytes vm := fun vm => by
    rw [push_number, hser, Option.getD_some]
  by_cases h0 : val = 0
  · subst h0
    have hnil : bytes = [] := (Option.some.inj (serialize_zero.symm.trans hser)).symm
    rw [if_pos rfl]
    refine ⟨[Op0], ⟨Op0, []⟩, bytes, hser, rfl, ?_⟩
    rw [hnil]
    exact pushes_item_small (.inl rfl) fun execute_other vm => execute_op_false execute_other rfl vm
  rw [if_neg h0]
  by_cases hsmall : val = -1 ∨ (1 ≤ val ∧ val ≤ 16)
  · rw [if_pos hsmall]
    refine ⟨_, ⟨(Int64.ofNat Op1.toNat - 1 + val).toUInt64.toUInt8, []⟩, bytes, hser, rfl, ?_⟩
    rcases small_int_byte hsmall with ⟨rfl, hbyte⟩ | ⟨hlo, hhi, hbyte⟩
    · rw [hbyte]
      refine pushes_item_small (.inr ⟨by decide, by decide⟩) fun execute_other vm => ?_
      rw [execute_op_1negate execute_other rfl vm, hnumber]
    · have hlo' : OpPushData4 < (Int64.ofNat Op1.toNat - 1 + val).toUInt64.toUInt8 := by
        have := UInt8.lt_iff_toNat_lt.mp hlo
        rw [UInt8.lt_iff_toNat_lt]
        simp only [OpReserved, OpPushData4, UInt8.reduceToNat] at this ⊢
        omega
      refine pushes_item_small (.inr ⟨hlo', hhi⟩) fun execute_other vm => ?_
      rw [execute_small_int execute_other hlo hhi vm, hbyte, hnumber]
  · rw [if_neg hsmall, hser]
    have hsize : bytes.length ≤ MAX_SCRIPT_ELEMENT_SIZE := by
      simp only [MAX_SCRIPT_ELEMENT_SIZE]
      omega
    have hne : bytes ≠ [0] := fun h => by
      rw [h] at hmin
      exact absurd hmin (by decide)
    obtain ⟨pushed, op, hscript, -, hpush⟩ := add_raw_data_spec self hsize
    rw [if_neg hne] at hpush
    refine ⟨pushed, op, bytes, rfl, ?_, hpush⟩
    rw [← hscript]
    exact congrArg some (add_data_of_room self hroom hsize)

end Spec

section Errors

-- A call that fails leaves the builder as it was; one that succeeds stays within
-- `MAX_SCRIPTS_SIZE`.

variable {self builder : ScriptBuilder} {e : ScriptBuilderError}

theorem add_op_error {opcode : UInt8} (h : self.add_op opcode = (builder, .error e)) :
    builder = self := by
  unfold add_op at h
  split_ifs at h
  · exact (Prod.mk.inj h).1.symm
  · simp at h

theorem add_ops_error {opcodes : Bytes} (h : self.add_ops opcodes = (builder, .error e)) :
    builder = self := by
  unfold add_ops at h
  split_ifs at h
  · exact (Prod.mk.inj h).1.symm
  · simp at h

theorem add_data_error {data : Bytes} (h : self.add_data data = (builder, .error e)) :
    builder = self := by
  unfold add_data at h
  dsimp only at h
  split_ifs at h
  · exact (Prod.mk.inj h).1.symm
  · exact (Prod.mk.inj h).1.symm
  · simp at h

theorem add_i64_error {val : Int64} (h : self.add_i64 val = some (builder, .error e)) :
    builder = self := by
  unfold add_i64 at h
  split_ifs at h
  · exact (Prod.mk.inj (Option.some.inj h)).1.symm
  · simp at h
  · simp at h
  · cases hser : serialize val with
    | none => simp [hser] at h
    | some bytes =>
      simp only [hser, Option.bind_eq_bind, Option.bind_some, Option.pure_def, Option.some.injEq]
        at h
      exact add_data_error h

variable (hle : self.script.length ≤ MAX_SCRIPTS_SIZE)
include hle

theorem length_add_op_le (opcode : UInt8) :
    (self.add_op opcode).1.script.length ≤ MAX_SCRIPTS_SIZE := by
  unfold add_op
  split_ifs with h
  · exact hle
  · simp only [List.length_append, List.length_singleton]
    omega

theorem length_add_ops_le (opcodes : Bytes) :
    (self.add_ops opcodes).1.script.length ≤ MAX_SCRIPTS_SIZE := by
  unfold add_ops
  split_ifs with h
  · exact hle
  · simp only [List.length_append]
    omega

theorem length_add_data_le (data : Bytes) :
    (self.add_data data).1.script.length ≤ MAX_SCRIPTS_SIZE := by
  unfold add_data
  dsimp only
  split_ifs with hroom hsize
  · exact hle
  · exact hle
  · obtain ⟨pushed, -, hscript, hlen, -⟩ := add_raw_data_spec self (Nat.le_of_not_lt hsize)
    rw [hscript, List.length_append, hlen]
    omega

theorem length_add_i64_le {val : Int64} {result : Except ScriptBuilderError Unit}
    (h : self.add_i64 val = some (builder, result)) : builder.script.length ≤ MAX_SCRIPTS_SIZE := by
  unfold add_i64 at h
  split_ifs at h with hroom h0 hsmall
  · obtain ⟨rfl, -⟩ := Prod.mk.inj (Option.some.inj h)
    exact hle
  -- `Op0`, or one of the small-integer opcodes: one byte, within the room checked
  · obtain ⟨rfl, -⟩ := Prod.mk.inj (Option.some.inj h)
    simp only [List.length_append, List.length_singleton]
    omega
  · obtain ⟨rfl, -⟩ := Prod.mk.inj (Option.some.inj h)
    simp only [List.length_append, List.length_singleton]
    omega
  cases hser : serialize val with
  | none => simp [hser] at h
  | some bytes =>
    simp only [hser, Option.bind_eq_bind, Option.bind_some, Option.pure_def, Option.some.injEq] at h
    rw [← (Prod.mk.inj h).1]
    exact length_add_data_le hle bytes

end Errors

-- The builders a program reaches through the public methods, whatever each call returned.
-- `add_lock_time` and `add_sequence` are `add_data` calls.
inductive Built : ScriptBuilder → Prop
  | new : Built new
  | add_op {self : ScriptBuilder} (opcode : UInt8) : Built self → Built (self.add_op opcode).1
  | add_ops {self : ScriptBuilder} (opcodes : Bytes) : Built self → Built (self.add_ops opcodes).1
  | add_data {self : ScriptBuilder} (data : Bytes) : Built self → Built (self.add_data data).1
  | add_i64 {self builder : ScriptBuilder} {result : Except ScriptBuilderError Unit} (val : Int64) :
      Built self → self.add_i64 val = some (builder, result) → Built builder
  | drain {self : ScriptBuilder} : Built self → Built self.drain.1

theorem Built.length_le {self : ScriptBuilder} (h : Built self) :
    self.script.length ≤ MAX_SCRIPTS_SIZE := by
  induction h with
  | new => exact Nat.zero_le _
  | add_op opcode _ ih => exact length_add_op_le ih opcode
  | add_ops opcodes _ ih => exact length_add_ops_le ih opcodes
  | add_data data _ ih => exact length_add_data_le ih data
  | add_i64 val _ hcall ih => exact length_add_i64_le ih hcall
  | drain _ _ => exact Nat.zero_le _

theorem add_data_canonical_push :
    (∀ (self : ScriptBuilder) (data : Bytes), data.length ≤ MAX_SCRIPT_ELEMENT_SIZE →
      self.script.length + canonical_data_size data ≤ MAX_SCRIPTS_SIZE →
      ∃ pushed op, self.add_data data = (⟨self.script ++ pushed⟩, .ok ()) ∧
        pushed.length = canonical_data_size data ∧
        PushesItem pushed op (if data = [0] then [] else data)) ∧
    (∀ (self : ScriptBuilder) (val : Int64), val ≠ Int64.minValue →
      self.script.length + canonical_data_size ((serialize val).getD []) ≤ MAX_SCRIPTS_SIZE →
      ∃ pushed op bytes, serialize val = some bytes ∧
        self.add_i64 val = some (⟨self.script ++ pushed⟩, .ok ()) ∧ PushesItem pushed op bytes) ∧
    (∀ (self builder : ScriptBuilder) (opcode : UInt8) (e : ScriptBuilderError),
      self.add_op opcode = (builder, .error e) → builder = self) ∧
    (∀ (self builder : ScriptBuilder) (opcodes : Bytes) (e : ScriptBuilderError),
      self.add_ops opcodes = (builder, .error e) → builder = self) ∧
    (∀ (self builder : ScriptBuilder) (data : Bytes) (e : ScriptBuilderError),
      self.add_data data = (builder, .error e) → builder = self) ∧
    (∀ (self builder : ScriptBuilder) (val : Int64) (e : ScriptBuilderError),
      self.add_i64 val = some (builder, .error e) → builder = self) ∧
    (∀ self : ScriptBuilder, Built self → self.script.length ≤ MAX_SCRIPTS_SIZE) := by
  refine ⟨fun self data hsize hroom => ?_, fun self val hval hroom => add_i64_spec self hval hroom,
    fun _ _ _ _ => add_op_error, fun _ _ _ _ => add_ops_error, fun _ _ _ _ => add_data_error,
    fun _ _ _ _ => add_i64_error, fun _ h => h.length_le⟩
  obtain ⟨pushed, op, hscript, hlen, hpush⟩ := add_raw_data_spec self hsize
  refine ⟨pushed, op, ?_, hlen, hpush⟩
  rw [← hscript]
  exact add_data_of_room self hroom hsize

-- Eighty bytes go in with OP_PUSHDATA1 and their length, and -300 as its two bytes.
theorem add_data_canonical_push_pushdata1 :
    (ScriptBuilder.mk []).add_data (List.replicate 80 1) =
      (⟨0x4c :: 80 :: List.replicate 80 1⟩, .ok ()) ∧
    (∃ pushed op, (ScriptBuilder.mk []).add_data (List.replicate 80 1) =
        (⟨[] ++ pushed⟩, .ok ()) ∧
      pushed.length = canonical_data_size (List.replicate 80 1) ∧
      PushesItem pushed op (if List.replicate 80 (1 : UInt8) = [0] then [] else List.replicate 80 1)) ∧
    ∃ pushed op bytes, serialize (-300) = some bytes ∧
      (ScriptBuilder.mk []).add_i64 (-300) = some (⟨[] ++ pushed⟩, .ok ()) ∧
      PushesItem pushed op bytes := by
  have hser : serialize (-300) = some [0x2c, 0x81] := serialize_of_deserialize_i64 (by decide)
  exact ⟨by decide, add_data_canonical_push.1 _ _ (by decide) (by decide),
    add_data_canonical_push.2.1 _ _ (by decide) (by rw [hser]; decide)⟩

-- `[1]` is written as `Op1`, an opcode without data, which `check_minimal_data_push` rejects:
-- the engine never runs that check on it.
theorem add_data_small_int_not_minimal :
    ScriptBuilder.new.add_data [1] = (⟨[Op1]⟩, .ok ()) ∧
      deserialize_next_opcode [Op1] = some (.ok ⟨Op1, []⟩, []) ∧
      (OpCode.check_minimal_data_push ⟨Op1, []⟩).isOk = false :=
  ⟨rfl, rfl, rfl⟩

end ScriptBuilder

end Waglayla.TxScript
