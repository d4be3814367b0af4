import Waglayla.TxScript.DataStack

-- The script engine's loop. The pushes and the conditionals are modelled; every other opcode is
-- the parameter `execute_other`, which leaves the condition stack alone.

namespace Waglayla.TxScript

namespace codes

def OpReserved : UInt8 := 0x50
def OpNop : UInt8 := 0x61
def OpVer : UInt8 := 0x62
def OpIf : UInt8 := 0x63
def OpNotIf : UInt8 := 0x64
def OpVerIf : UInt8 := 0x65
def OpVerNotIf : UInt8 := 0x66
def OpElse : UInt8 := 0x67
def OpEndIf : UInt8 := 0x68
def OpCat : UInt8 := 0x7e
def OpSubStr : UInt8 := 0x7f
def OpLeft : UInt8 := 0x80
def OpRight : UInt8 := 0x81
def OpInvert : UInt8 := 0x83
def OpAnd : UInt8 := 0x84
def OpOr : UInt8 := 0x85
def OpXor : UInt8 := 0x86
def Op2Mul : UInt8 := 0x8d
def Op2Div : UInt8 := 0x8e
def OpMul : UInt8 := 0x95
def OpDiv : UInt8 := 0x96
def OpMod : UInt8 := 0x97
def OpLShift : UInt8 := 0x98
def OpRShift : UInt8 := 0x99

end codes

open codes

def MAX_STACK_SIZE : Nat := 244
def MAX_SCRIPT_ELEMENT_SIZE : Nat := 520
def MAX_OPS_PER_SCRIPT : Nat := 201
def OP_SMALL_INT_MIN_VAL : UInt8 := 1
def OP_SMALL_INT_MAX_VAL : UInt8 := 16
def OP_DATA_MAX_VAL : UInt8 := OpData75
def OP_1_NEGATE_VAL : UInt8 := 0x81

inductive OpCond
  | False
  | True
  | Skip
  deriving DecidableEq, Repr

def OpCond.negate : OpCond → OpCond
  | .True => .False
  | .False => .True
  | .Skip => .Skip

namespace OpCode

-- `{self:?}`: `Opcode<{:#2x}>{ data:{:?} }`.
def debug (op : OpCode) : String :=
  "Opcode<0x" ++ String.ofList (Nat.toDigits 16 op.value.toNat) ++ ">\x7b data:[" ++
    ", ".intercalate (op.data.map fun b => toString b.toNat) ++ "] \x7d"

def is_disabled (op : OpCode) : Bool :=
  op.value ∈ [OpCat, OpSubStr, OpLeft, OpRight, OpInvert, OpAnd, OpOr, OpXor, Op2Mul, Op2Div,
    OpMul, OpDiv, OpMod, OpLShift, OpRShift]

def always_illegal (op : OpCode) : Bool := op.value = OpVerIf || op.value = OpVerNotIf

def is_conditional (op : OpCode) : Bool := op.value ≥ 0x63 && op.value ≤ 0x68

-- A push must use the shortest opcode for its data.
def check_minimal_data_push (op : OpCode) : Except TxScriptError Unit :=
  let data_len := op.data.length
  let opcode := op.value
  match op.data with
  | [] =>
    if opcode ≠ OpFalse then
      .error (.NotMinimalData ("zero length data push is encoded with opcode " ++ op.debug ++
        " instead of OpFalse"))
    else .ok ()
  | [b] =>
    if OP_SMALL_INT_MIN_VAL ≤ b ∧ b ≤ OP_SMALL_INT_MAX_VAL then
      if opcode ≠ OpTrue + b - 1 then
        .error (.NotMinimalData ("zero length data push is encoded with opcode " ++ op.debug ++
          " instead of Op_" ++ toString b.toNat))
      else .ok ()
    else if b = OP_1_NEGATE_VAL then
      if opcode ≠ Op1Negate then
        .error (.NotMinimalData ("data push of the value -1 encoded with opcode " ++ op.debug ++
          " instead of OP_1NEGATE"))
      else .ok ()
    else if opcode.toNat ≠ data_len then
      .error (.NotMinimalData ("data push of " ++ toString data_len ++
        " bytes encoded with opcode " ++ op.debug ++ " instead of OP_DATA_" ++ toString data_len))
    else .ok ()
  | _ :: _ :: _ =>
    if data_len ≤ OP_DATA_MAX_VAL.toNat then
      if opcode.toNat ≠ data_len then
        .error (.NotMinimalData ("data push of " ++ toString data_len ++
          " bytes encoded with opcode " ++ op.debug ++ " instead of OP_DATA_" ++
          toString data_len))
      else .ok ()
    else if data_len ≤ 255 then
      if opcode ≠ OpPushData1 then
        .error (.NotMinimalData ("data push of " ++ toString data_len ++
          " bytes encoded with opcode " ++ op.debug ++ " instead of OP_PUSHDATA1"))
      else .ok ()
    else if data_len < 65535 ∧ opcode ≠ OpPushData2 then
      .error (.NotMinimalData ("data push of " ++ toString data_len ++
        " bytes encoded with opcode " ++ op.debug ++ " instead of OP_PUSHDATA2"))
    else .ok ()

end OpCode

-- The engine state the modelled code reads and writes; `Vec`s are lists with their last
-- element on top.
structure TxScriptEngine where
  dstack : List Bytes
  astack : List Bytes
  cond_stack : List OpCond
  num_ops : Nat
  deriving DecidableEq, Repr

namespace TxScriptEngine

-- `TxScriptEngine::new`: empty stacks and no operation counted yet.
def new : TxScriptEngine := ⟨[], [], [], 0⟩

def is_executing (self : TxScriptEngine) : Bool :=
  self.cond_stack.isEmpty || self.cond_stack.getLast? == some .True

def push_data (data : Bytes) (vm : TxScriptEngine) : TxScriptEngine :=
  { vm with dstack := vm.dstack ++ [data] }

-- `push_item` of a number: the opcodes push -1 and 1 to 16, whose serialization exists (it
-- panics at `i64::MIN` only).
def push_number (number : Int64) (vm : TxScriptEngine) : TxScriptEngine :=
  push_data ((serialize number).getD []) vm

-- `OpIf` (`on_one = True`) and `OpNotIf` (`on_one = False`): when executing, the popped
-- element must be `[1]`, which pushes `on_one`, or empty, which pushes its negation; the pop
-- happens before the element is checked. When not executing, `Skip` is pushed.
def op_if_with (on_one : OpCond) (vm : TxScriptEngine) : TxScriptEngine × Except TxScriptError Unit :=
  if vm.is_executing then
    match vm.dstack.getLast? with
    | none => (vm, .error .EmptyStack)
    | some cond_buf =>
      let vm := { vm with dstack := vm.dstack.dropLast }
      if cond_buf.length > 1 then (vm, .error (.InvalidState "expected boolean"))
      else
        match cond_buf.getLast? with
        | some stack_cond =>
          if stack_cond = 1 then ({ vm with cond_stack := vm.cond_stack ++ [on_one] }, .ok ())
          else (vm, .error (.InvalidState "expected boolean"))
        | none => ({ vm with cond_stack := vm.cond_stack ++ [on_one.negate] }, .ok ())
  else ({ vm with cond_stack := vm.cond_stack ++ [.Skip] }, .ok ())

def op_if (vm : TxScriptEngine) : TxScriptEngine × Except TxScriptError Unit :=
  op_if_with .True vm

def op_not_if (vm : TxScriptEngine) : TxScriptEngine × Except TxScriptError Unit :=
  op_if_with .False vm

def op_else (vm : TxScriptEngine) : TxScriptEngine × Except TxScriptError Unit :=
  match vm.cond_stack.getLast? with
  | some cond => ({ vm with cond_stack := vm.cond_stack.dropLast ++ [cond.negate] }, .ok ())
  | none => (vm, .error (.InvalidState "condition stack empty"))

def op_end_if (vm : TxScriptEngine) : TxScriptEngine × Except TxScriptError Unit :=
  match vm.cond_stack.getLast? with
  | none => (vm, .error (.InvalidState "condition stack empty"))
  | some _ => ({ vm with cond_stack := vm.cond_stack.dropLast }, .ok ())

variable (execute_other :
  OpCode → TxScriptEngine → (List Bytes × List Bytes × Nat) × Except TxScriptError Unit)

-- `opcode.execute(vm)`: the push opcodes, the control opcodes up to `OpEndIf`, and the rest
-- through `execute_other`, which sets the data stack, the alt stack and the operation count.
def execute (op : OpCode) (vm : TxScriptEngine) : TxScriptEngine × Except TxScriptError Unit :=
  let value := op.value
  if value = OpFalse then (push_data [] vm, .ok ())
  else if value ≤ OpPushData4 then (push_data op.data vm, .ok ())
  else if value = Op1Negate then (push_number (-1) vm, .ok ())
  else if value = OpReserved then (vm, .error (.OpcodeReserved op))
  else if value ≤ Op16 then (push_number (Int64.ofNat (value.toNat - 0x50)) vm, .ok ())
  else if value = OpNop then (vm, .ok ())
  else if value = OpVer then (vm, .error (.OpcodeReserved op))
  else if value = OpIf then op_if vm
  else if value = OpNotIf then op_not_if vm
  else if value = OpVerIf ∨ value = OpVerNotIf then (vm, .error (.OpcodeReserved op))
  else if value = OpElse then op_else vm
  else if value = OpEndIf then op_end_if vm
  else
    let ((dstack, astack, num_ops), result) := execute_other op vm
    ({ vm with dstack, astack, num_ops }, result)

-- A non-executed opcode only counts; pushes are size checked, and a push executed or a
-- conditional must be minimal.
def execute_opcode (opcode : OpCode) (vm : TxScriptEngine) :
    TxScriptEngine × Except TxScriptError Unit :=
  let run (vm : TxScriptEngine) : TxScriptEngine × Except TxScriptError Unit :=
    if vm.is_executing || opcode.is_conditional then
      if opcode.value > 0 && opcode.value ≤ 0x4e then
        match opcode.check_minimal_data_push with
        | .error e => (vm, .error e)
        | .ok () => execute execute_other opcode vm
      else execute execute_other opcode vm
    else (vm, .ok ())
  if !opcode.is_push_opcode then
    let vm := { vm with num_ops := vm.num_ops + 1 }
    if vm.num_ops > MAX_OPS_PER_SCRIPT then (vm, .error (.TooManyOperations MAX_OPS_PER_SCRIPT))
    else run vm
  else if opcode.data.length > MAX_SCRIPT_ELEMENT_SIZE then
    (vm, .error (.ElementTooBig opcode.data.length MAX_SCRIPT_ELEMENT_SIZE))
  else run vm

-- The closure `execute_script` runs on every parsed opcode.
def execute_step (verify_only_push : Bool) (vm : TxScriptEngine)
    (opcode : Except TxScriptError OpCode) : TxScriptEngine × Except TxScriptError Unit :=
  match opcode with
  | .error e => (vm, .error e)
  | .ok opcode =>
    if opcode.is_disabled then (vm, .error (.OpcodeDisabled opcode))
    else if opcode.always_illegal then (vm, .error (.OpcodeReserved opcode))
    else if verify_only_push && !opcode.is_push_opcode then
      (vm, .error .SignatureScriptNotPushOnly)
    else
      match execute_opcode execute_other opcode vm with
      | (vm, .error e) => (vm, .error e)
      | (vm, .ok ()) =>
        let combined_size := vm.astack.length + vm.dstack.length
        if combined_size > MAX_STACK_SIZE then
          (vm, .error (.StackSizeExceeded combined_size MAX_STACK_SIZE))
        else (vm, .ok ())

-- `try_for_each` over the parsed opcodes: the first error stops the run.
def run_opcodes (verify_only_push : Bool) :
    TxScriptEngine → List (Except TxScriptError OpCode) → TxScriptEngine × Except TxScriptError Unit
  | vm, [] => (vm, .ok ())
  | vm, opcode :: opcodes =>
    match execute_step execute_other verify_only_push vm opcode with
    | (vm, .ok ()) => run_opcodes verify_only_push vm opcodes
    | (vm, .error e) => (vm, .error e)

-- A script that ends inside a conditional fails before the alt stack and the operation count
-- are reset.
def execute_script (vm : TxScriptEngine) (script : Bytes) (verify_only_push : Bool) :
    TxScriptEngine × Except TxScriptError Unit :=
  let (vm, script_result) := run_opcodes execute_other verify_only_push vm (parse_script script)
  if script_result.isOk && !vm.cond_stack.isEmpty then (vm, .error .ErrUnbalancedConditional)
  else ({ vm with astack := [], num_ops := 0 }, script_result)

section CondShape

-- The shape of the condition stack, read from the bottom.

-- `some true` while every entry is `True`, `some false` after the one `False`, above which
-- only `Skip` may stand, and `none` once the shape is broken.
def cond_scan : Option Bool → OpCond → Option Bool
  | some true, .True => some true
  | some true, .False => some false
  | some false, .Skip => some false
  | _, _ => none

-- `True*`, then at most one `False` with only `Skip`s above it.
def CondShape (cond_stack : List OpCond) : Prop :=
  cond_stack.foldl cond_scan (some true) ≠ none

instance (cond_stack : List OpCond) : Decidable (CondShape cond_stack) :=
  inferInstanceAs (Decidable (_ ≠ none))

theorem foldl_cond_scan_none (s : List OpCond) : s.foldl cond_scan none = none := by
  induction s with
  | nil => rfl
  | cons c s ih => exact ih

theorem foldl_cond_scan_snoc (s : List OpCond) (c : OpCond) (state : Option Bool) :
    (s ++ [c]).foldl cond_scan state = cond_scan (s.foldl cond_scan state) c := by
  rw [List.foldl_append, List.foldl_cons, List.foldl_nil]

-- After the `False`, the scan never comes back to `some true`.
theorem foldl_cond_scan_false_ne_true (s : List OpCond) :
    s.foldl cond_scan (some false) ≠ some true := by
  induction s with
  | nil => simp
  | cons c s ih =>
    cases c
    · rw [List.foldl_cons, show cond_scan (some false) .False = none from rfl,
        foldl_cond_scan_none]
      simp
    · rw [List.foldl_cons, show cond_scan (some false) .True = none from rfl,
        foldl_cond_scan_none]
      simp
    · exact ih

-- The scan stays at `some true` exactly along stacks of `True`s.
theorem foldl_cond_scan_eq_true_iff (s : List OpCond) :
    s.foldl cond_scan (some true) = some true ↔ ∀ c ∈ s, c = .True := by
  induction s with
  | nil => simp
  | cons c s ih =>
    rw [List.foldl_cons, List.forall_mem_cons]
    cases c
    · rw [show cond_scan (some true) .False = some false from rfl]
      simp only [reduceCtorEq, false_and, iff_false]
      exact foldl_cond_scan_false_ne_true s
    · rw [show cond_scan (some true) .True = some true from rfl, ih]
      simp
    · rw [show cond_scan (some true) .Skip = none from rfl, foldl_cond_scan_none]
      simp

theorem CondShape.nil : CondShape [] := by decide

theorem CondShape.of_snoc {s : List OpCond} {c : OpCond} (h : CondShape (s ++ [c])) :
    CondShape s := by
  intro hs
  apply h
  rw [foldl_cond_scan_snoc, hs]
  rfl

-- On a stack of this shape the top entry tells whether every entry is `True`.
theorem CondShape.is_executing_iff {vm : TxScriptEngine} (h : CondShape vm.cond_stack) :
    vm.is_executing = true ↔ ∀ c ∈ vm.cond_stack, c = .True := by
  rw [is_executing]
  rcases List.eq_nil_or_concat' vm.cond_stack with hs | ⟨s, c, hs⟩
  · simp [hs]
  rw [hs] at h ⊢
  have hne : (s ++ [c]).isEmpty = false := by simp
  rw [hne, List.getLast?_concat, Bool.false_or, beq_iff_eq, Option.some_inj]
  simp only [List.mem_append, List.mem_singleton]
  constructor
  -- a `True` on top: the scan below it was still at `some true`
  · rintro rfl
    have hscan : s.foldl cond_scan (some true) = some true := by
      unfold CondShape at h
      rw [foldl_cond_scan_snoc] at h
      cases hs' : s.foldl cond_scan (some true) with
      | none => rw [hs'] at h; exact absurd rfl h
      | some b =>
        rw [hs'] at h
        cases b
        · exact absurd rfl h
        · rfl
    intro x hx
    rcases hx with hx | rfl
    · exact (foldl_cond_scan_eq_true_iff s).mp hscan x hx
    · rfl
  · intro hall
    exact hall c (.inr rfl)

-- An executed `OpIf` or `OpNotIf` pushes `True` or `False` on a stack of `True`s.
theorem CondShape.push_executing {vm : TxScriptEngine} (h : CondShape vm.cond_stack)
    (hexec : vm.is_executing = true) {c : OpCond} (hc : c ≠ .Skip) :
    CondShape (vm.cond_stack ++ [c]) := by
  have hall := (foldl_cond_scan_eq_true_iff _).mpr (h.is_executing_iff.mp hexec)
  unfold CondShape
  rw [foldl_cond_scan_snoc, hall]
  cases c <;> simp_all [cond_scan]

-- A skipped one pushes `Skip` above a `False`.
theorem CondShape.push_skip {vm : TxScriptEngine} (h : CondShape vm.cond_stack)
    (hexec : vm.is_executing = false) : CondShape (vm.cond_stack ++ [.Skip]) := by
  have hnot : ¬∀ c ∈ vm.cond_stack, c = .True := fun hall => by
    rw [h.is_executing_iff.mpr hall] at hexec
    cases hexec
  unfold CondShape at h ⊢
  rw [foldl_cond_scan_snoc]
  cases hs : vm.cond_stack.foldl cond_scan (some true) with
  | none => exact absurd hs h
  | some b =>
    cases b
    · simp [cond_scan]
    · exact absurd ((foldl_cond_scan_eq_true_iff _).mp hs) hnot

theorem CondShape.negate_last {s : List OpCond} {c : OpCond} (h : CondShape (s ++ [c])) :
    CondShape (s ++ [c.negate]) := by
  unfold CondShape at h ⊢
  rw [foldl_cond_scan_snoc] at h ⊢
  cases hs : s.foldl cond_scan (some true) with
  | none => rw [hs] at h; exact absurd rfl h
  | some b =>
    rw [hs] at h
    cases b <;> cases c <;> simp_all [cond_scan, OpCond.negate]

end CondShape

section Steps

-- Each opcode keeps the shape, and so does every run.

theorem cond_shape_op_if_with {on_one : OpCond} (hon : on_one ≠ .Skip) {vm : TxScriptEngine}
    (h : CondShape vm.cond_stack) : CondShape (op_if_with on_one vm).1.cond_stack := by
  have hneg : on_one.negate ≠ .Skip := by
    cases on_one <;> simp_all [OpCond.negate]
  unfold op_if_with
  split
  · rename_i hexec
    split
    · exact h
    · dsimp only
      split
      · exact h
      · split
        · split
          · exact h.push_executing hexec hon
          · exact h
        · exact h.push_executing hexec hneg
  · rename_i hexec
    exact h.push_skip (by simpa using hexec)

theorem cond_shape_op_else {vm : TxScriptEngine} (h : CondShape vm.cond_stack) :
    CondShape (op_else vm).1.cond_stack := by
  unfold op_else
  split
  · rename_i c hc
    rw [← List.dropLast_append_getLast? c hc] at h
    exact h.negate_last
  · exact h

theorem cond_shape_op_end_if {vm : TxScriptEngine} (h : CondShape vm.cond_stack) :
    CondShape (op_end_if vm).1.cond_stack := by
  unfold op_end_if
  split
  · exact h
  · rename_i c hc
    rw [← List.dropLast_append_getLast? c hc] at h
    exact h.of_snoc

-- What `execute` can do to the condition stack: one of the four conditionals, or nothing.
theorem execute_cases (op : OpCode) (vm : TxScriptEngine) :
    (execute execute_other op vm).1.cond_stack = vm.cond_stack ∨
      execute execute_other op vm = op_if vm ∨ execute execute_other op vm = op_not_if vm ∨
      execute execute_other op vm = op_else vm ∨ execute execute_other op vm = op_end_if vm := by
  unfold execute
  dsimp only
  by_cases h₀ : op.value = OpFalse
  · rw [if_pos h₀]; exact .inl rfl
  rw [if_neg h₀]
  by_cases h₁ : op.value ≤ OpPushData4
  · rw [if_pos h₁]; exact .inl rfl
  rw [if_neg h₁]
  by_cases h₂ : op.value = Op1Negate
  · rw [if_pos h₂]; exact .inl rfl
  rw [if_neg h₂]
  by_cases h₃ : op.value = OpReserved
  · rw [if_pos h₃]; exact .inl rfl
  rw [if_neg h₃]
  by_cases h₄ : op.value ≤ Op16
  · rw [if_pos h₄]; exact .inl rfl
  rw [if_neg h₄]
  by_cases h₅ : op.value = OpNop
  · rw [if_pos h₅]; exact .inl rfl
  rw [if_neg h₅]
  by_cases h₆ : op.value = OpVer
  · rw [if_pos h₆]; exact .inl rfl
  rw [if_neg h₆]
  by_cases h₇ : op.value = OpIf
  · rw [if_pos h₇]; exact .inr (.inl rfl)
  rw [if_neg h₇]
  by_cases h₈ : op.value = OpNotIf
  · rw [if_pos h₈]; exact .inr (.inr (.inl rfl))
  rw [if_neg h₈]
  by_cases h₉ : op.value = OpVerIf ∨ op.value = OpVerNotIf
  · rw [if_pos h₉]; exact .inl rfl
  rw [if_neg h₉]
  by_cases h₁₀ : op.value = OpElse
  · rw [if_pos h₁₀]; exact .inr (.inr (.inr (.inl rfl)))
  rw [if_neg h₁₀]
  by_cases h₁₁ : op.value = OpEndIf
  · rw [if_pos h₁₁]; exact .inr (.inr (.inr (.inr rfl)))
  rw [if_neg h₁₁]
  exact .inl rfl
theorem cond_shape_execute (op : OpCode) {vm : TxScriptEngine} (h : CondShape vm.cond_stack) :
    CondShape (execute execute_other op vm).1.cond_stack := by
  rcases execute_cases execute_other op vm with heq | heq | heq | heq | heq
  · rw [heq]
    exact h
  · rw [heq]
    exact cond_shape_op_if_with (by decide) h
  · rw [heq]
    exact cond_shape_op_if_with (by decide) h
  · rw [heq]
    exact cond_shape_op_else h
  · rw [heq]
    exact cond_shape_op_end_if h

theorem cond_shape_execute_opcode (opcode : OpCode) {vm : TxScriptEngine}
    (h : CondShape vm.cond_stack) : CondShape (execute_opcode execute_other opcode vm).1.cond_stack := by
  unfold execute_opcode
  dsimp only
  split_ifs
  all_goals first
    | exact h
    | exact cond_shape_execute execute_other opcode h
    | split
      · exact h
      · exact cond_shape_execute execute_other opcode h

theorem cond_shape_execute_step (verify_only_push : Bool) (opcode : Except TxScriptError OpCode)
    {vm : TxScriptEngine} (h : CondShape vm.cond_stack) :
    CondShape (execute_step execute_other verify_only_push vm opcode).1.cond_stack := by
  unfold execute_step
  split
  · exact h
  · rename_i opcode
    have hop := cond_shape_execute_opcode execute_other opcode h
    split_ifs
    · exact h
    · exact h
    · exact h
    · generalize execute_opcode execute_other opcode vm = r at hop ⊢
      obtain ⟨vm', result⟩ := r
      cases result
      · exact hop
      · dsimp only
        split_ifs
        · exact hop
        · exact hop

-- A run over any list of opcodes keeps the shape, so every prefix of an execution does.
theorem cond_shape_run_opcodes (verify_only_push : Bool) (opcodes : List (Except TxScriptError OpCode))
    {vm : TxScriptEngine} (h : CondShape vm.cond_stack) :
    CondShape (run_opcodes execute_other verify_only_push vm opcodes).1.cond_stack := by
  induction opcodes generalizing vm with
  | nil => exact h
  | cons opcode opcodes ih =>
    have hstep := cond_shape_execute_step execute_other verify_only_push opcode h
    rw [run_opcodes]
    generalize execute_step execute_other verify_only_push vm opcode = r at hstep ⊢
    obtain ⟨vm', result⟩ := r
    cases result
    · exact hstep
    · exact ih hstep

theorem cond_shape_execute_script (script : Bytes) (verify_only_push : Bool) {vm : TxScriptEngine}
    (h : CondShape vm.cond_stack) :
    CondShape (execute_script execute_other vm script verify_only_push).1.cond_stack := by
  have hrun := cond_shape_run_opcodes execute_other verify_only_push (parse_script script) h
  unfold execute_script
  generalize run_opcodes execute_other verify_only_push vm (parse_script script) = r at hrun ⊢
  obtain ⟨vm', result⟩ := r
  dsimp only
  split_ifs
  · exact hrun
  · exact hrun

end Steps

theorem cond_stack_shape (self : TxScriptEngine) (hself : CondShape self.cond_stack)
    (script : Bytes) (verify_only_push : Bool) :
    (∀ k, let vm :=
        (run_opcodes execute_other verify_only_push self ((parse_script script).take k)).1;
      CondShape vm.cond_stack ∧ (vm.is_executing = true ↔ ∀ c ∈ vm.cond_stack, c = .True)) ∧
    (let vm := (execute_script execute_other self script verify_only_push).1;
      CondShape vm.cond_stack ∧ (vm.is_executing = true ↔ ∀ c ∈ vm.cond_stack, c = .True)) := by
  refine ⟨fun k => ?_, ?_⟩
  · have h := cond_shape_run_opcodes execute_other verify_only_push
      ((parse_script script).take k) hself
    exact ⟨h, h.is_executing_iff⟩
  · have h := cond_shape_execute_script execute_other script verify_only_push hself
    exact ⟨h, h.is_executing_iff⟩

-- `OpTrue OpIf OpFalse OpIf OpElse OpEndIf OpEndIf`, from a new engine, with every other
-- opcode doing nothing.
theorem cond_stack_shape_nested_if :
    (∀ k, let vm := (run_opcodes (fun _ vm => ((vm.dstack, vm.astack, vm.num_ops), .ok ())) false
        new ((parse_script [0x51, 0x63, 0x00, 0x63, 0x67, 0x68, 0x68]).take k)).1;
      CondShape vm.cond_stack ∧ (vm.is_executing = true ↔ ∀ c ∈ vm.cond_stack, c = .True)) ∧
    (let vm := (execute_script (fun _ vm => ((vm.dstack, vm.astack, vm.num_ops), .ok ())) new
        [0x51, 0x63, 0x00, 0x63, 0x67, 0x68, 0x68] false).1;
      CondShape vm.cond_stack ∧ (vm.is_executing = true ↔ ∀ c ∈ vm.cond_stack, c = .True)) :=
  cond_stack_shape _ new CondShape.nil _ _

section Pushes

-- What the push opcodes do when the engine executes them.

theorem execute_op_false {op : OpCode} (h : op.value = OpFalse) (vm : TxScriptEngine) :
    execute execute_other op vm = (push_data [] vm, .ok ()) := by
  unfold execute
  dsimp only
  rw [if_pos h]

theorem execute_push_data {op : OpCode} (h₀ : op.value ≠ OpFalse) (h : op.value ≤ OpPushData4)
    (vm : TxScriptEngine) : execute execute_other op vm = (push_data op.data vm, .ok ()) := by
  unfold execute
  dsimp only
  rw [if_neg h₀, if_pos h]

theorem execute_op_1negate {op : OpCode} (h : op.value = Op1Negate) (vm : TxScriptEngine) :
    execute execute_other op vm = (push_number (-1) vm, .ok ()) := by
  have h₀ : op.value ≠ OpFalse := by rw [h]; decide
  have h₁ : ¬op.value ≤ OpPushData4 := by rw [h]; decide
  unfold execute
  dsimp only
  rw [if_neg h₀, if_neg h₁, if_pos h]

-- `Op1` to `Op16` push the number they stand for.
theorem execute_small_int {op : OpCode} (hlo : OpReserved < op.value) (hhi : op.value ≤ Op16)
    (vm : TxScriptEngine) :
    execute execute_other op vm = (push_number (Int64.ofNat (op.value.toNat - 0x50)) vm, .ok ()) := by
  have hlo' : 0x50 < op.value.toNat := UInt8.lt_iff_toNat_lt.mp hlo
  have hne : ∀ code : UInt8, code.toNat ≤ 0x50 → op.value ≠ code := by
    rintro code hcode heq
    rw [heq] at hlo'
    omega
  have h₁ : ¬op.value ≤ OpPushData4 := fun hle => by
    have := UInt8.le_iff_toNat_le.mp hle
    simp only [OpPushData4, UInt8.reduceToNat] at this
    omega
  unfold execute
  dsimp only
  rw [if_neg (hne _ (by decide)), if_neg h₁, if_neg (hne _ (by decide)), if_neg (hne _ (by decide)),
    if_pos hhi]

-- A push the engine executes, of at most `MAX_SCRIPT_ELEMENT_SIZE` bytes and accepted by the
-- minimality check wherever that applies, is just executed.
theorem execute_opcode_push {op : OpCode} (hpush : op.is_push_opcode = true)
    (hsize : op.data.length ≤ MAX_SCRIPT_ELEMENT_SIZE)
    (hmin : 0 < op.value ∧ op.value ≤ 0x4e → op.check_minimal_data_push = .ok ())
    {vm : TxScriptEngine} (hexec : vm.is_executing = true) :
    execute_opcode execute_other op vm = execute execute_other op vm := by
  unfold execute_opcode
  rw [hpush, Bool.not_true, if_neg Bool.false_ne_true, if_neg (Nat.not_lt_of_le hsize)]
  dsimp only
  rw [hexec, Bool.true_or, if_pos rfl]
  split_ifs with hcheck
  · rw [hmin (by simpa using hcheck)]
  · rfl

end Pushes

end TxScriptEngine

end Waglayla.TxScript
