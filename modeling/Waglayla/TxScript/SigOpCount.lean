import Waglayla.TxScript.Opcodes

namespace Waglayla.TxScript

open codes

def MAX_PUB_KEYS_PER_MUTLTISIG : Nat := 20

structure ScriptPublicKey where
  version : UInt16
  script : Bytes
  deriving DecidableEq, Repr

namespace ScriptClass

-- Returns true if the script is in the standard pay-to-script-hash (P2SH) format.
def is_pay_to_script_hash (script_public_key : Bytes) : Bool :=
  script_public_key.length == 35 &&
    script_public_key[0]? == some OpBlake3 &&
    script_public_key[1]? == some OpData32 &&
    script_public_key[34]? == some OpEqual

end ScriptClass

def is_sig_op (value : UInt8) : Prop :=
  value = OpCheckSig ∨ value = OpCheckSigVerify ∨ value = OpCheckSigECDSA

def is_multisig_op (value : UInt8) : Prop :=
  value = OpCheckMultiSig ∨ value = OpCheckMultiSigVerify ∨ value = OpCheckMultiSigECDSA

instance (value : UInt8) : Decidable (is_sig_op value) := by
  unfold is_sig_op; infer_instance

instance (value : UInt8) : Decidable (is_multisig_op value) := by
  unfold is_multisig_op; infer_instance

-- The loop of `get_sig_op_count_by_opcodes` over `opcodes.iter().enumerate()`:
-- `prev` is `opcodes[i - 1]` (absent when `i = 0`) and `none` is a panic of
-- `to_small_int`. The count is a `u64` no script can overflow, kept as `Nat`.
def get_sig_op_count_by_opcodes (opcodes : List (Except TxScriptError OpCode)) : Option Nat :=
  go none 0 opcodes
where
  go (prev : Option OpCode) (num_sigs : Nat) : List (Except TxScriptError OpCode) → Option Nat
    | [] => some num_sigs
    | .error _ :: _ => some num_sigs
    | .ok op :: rest =>
        if is_sig_op op.value then go (some op) (num_sigs + 1) rest
        else if is_multisig_op op.value then
          match prev with
          | none => go (some op) (num_sigs + MAX_PUB_KEYS_PER_MUTLTISIG) rest
          | some prev_opcode =>
              if prev_opcode.value ≥ OpTrue ∧ prev_opcode.value ≤ Op16 then
                (to_small_int prev_opcode).bind fun n => go (some op) (num_sigs + n.toNat) rest
              else go (some op) (num_sigs + MAX_PUB_KEYS_PER_MUTLTISIG) rest
        else go (some op) num_sigs rest

-- The `expect`s on the signature script's last opcode cannot fail after the checks
-- before them; they are the `none` branch.
def get_sig_op_count (signature_script : Bytes) (prev_script_public_key : ScriptPublicKey) :
    Option Nat :=
  let is_p2sh := ScriptClass.is_pay_to_script_hash prev_script_public_key.script
  let script_pub_key_ops := parse_script prev_script_public_key.script
  if !is_p2sh then get_sig_op_count_by_opcodes script_pub_key_ops
  else
    let signature_script_ops := parse_script signature_script
    if signature_script_ops.isEmpty ||
        signature_script_ops.any (fun op => match op with
          | .error _ => true
          | .ok op => !op.is_push_opcode) then some 0
    else
      match signature_script_ops.getLast? with
      | some (.ok last) => get_sig_op_count_by_opcodes (parse_script last.get_data)
      | _ => none

section Panics

-- `to_small_int` refuses exactly one opcode of the caller's range: `Op16`.
theorem to_small_int_eq_none_iff {opcode : OpCode}
    (hrange : opcode.value ≥ OpTrue ∧ opcode.value ≤ Op16) :
    to_small_int opcode = none ↔ opcode.value = Op16 := by
  obtain ⟨hlo, hhi⟩ := hrange
  have hfalse : opcode.value ≠ OpFalse := by
    intro h
    rw [h] at hlo
    exact absurd hlo (by decide)
  simp only [to_small_int, hfalse, if_false, ite_eq_right_iff, reduceCtorEq, imp_false]
  simp only [OpTrue, Op16] at *
  constructor
  · intro h
    apply UInt8.toNat_inj.mp
    simp only [UInt8.le_iff_toNat_le, UInt8.lt_iff_toNat_lt, not_and] at *
    have := h hlo
    omega
  · intro h
    rw [h]
    decide

-- One step of the loop either panics or continues behind the opcode it read.
theorem go_cons_ok (prev : Option OpCode) (num_sigs : Nat) (op : OpCode)
    (rest : List (Except TxScriptError OpCode)) :
    get_sig_op_count_by_opcodes.go prev num_sigs (.ok op :: rest) = none ∨
      ∃ n, get_sig_op_count_by_opcodes.go prev num_sigs (.ok op :: rest) =
        get_sig_op_count_by_opcodes.go (some op) n rest := by
  cases prev with
  | none =>
      rw [get_sig_op_count_by_opcodes.go.eq_3]
      split_ifs <;> exact .inr ⟨_, rfl⟩
  | some prev_opcode =>
      rw [get_sig_op_count_by_opcodes.go.eq_4]
      split_ifs
      · exact .inr ⟨_, rfl⟩
      · cases to_small_int prev_opcode with
        | none => exact .inl rfl
        | some n => exact .inr ⟨_, rfl⟩
      · exact .inr ⟨_, rfl⟩
      · exact .inr ⟨_, rfl⟩

theorem go_op16_multisig (num_sigs : Nat) (prev op : OpCode) (hprev : prev.value = Op16)
    (hop : is_multisig_op op.value) (rest : List (Except TxScriptError OpCode)) :
    get_sig_op_count_by_opcodes.go (some prev) num_sigs (.ok op :: rest) = none := by
  have hsig : ¬is_sig_op op.value := by
    rcases hop with h | h | h <;> rw [h] <;> decide
  have hrange : prev.value ≥ OpTrue ∧ prev.value ≤ Op16 := by
    rw [hprev]; decide
  have hnone := (to_small_int_eq_none_iff hrange).mpr hprev
  rw [get_sig_op_count_by_opcodes.go.eq_4, if_neg hsig, if_pos hop, if_pos hrange, hnone]
  rfl

-- A panic of the loop is an `Op16` directly followed by a multisig opcode, with no
-- parse error before them; `prev` is put back in front of the opcodes it came from.
theorem go_eq_none_decompose (prev : Option OpCode) (num_sigs : Nat)
    (opcodes : List (Except TxScriptError OpCode))
    (hnone : get_sig_op_count_by_opcodes.go prev num_sigs opcodes = none) :
    ∃ pre p op post, prev.toList.map .ok ++ opcodes = pre ++ .ok p :: .ok op :: post ∧
      (∀ x ∈ pre, x.isOk) ∧ p.value = Op16 ∧ is_multisig_op op.value := by
  induction opcodes generalizing prev num_sigs with
  | nil => simp [get_sig_op_count_by_opcodes.go] at hnone
  | cons x rest ih =>
      cases x with
      | error e => simp [get_sig_op_count_by_opcodes.go] at hnone
      | ok op =>
          -- either this opcode panics against `prev`, or the panic is further on
          have hcont : ∀ n, get_sig_op_count_by_opcodes.go (some op) n rest = none →
              ∃ pre p op' post, prev.toList.map .ok ++ .ok op :: rest =
                pre ++ .ok p :: .ok op' :: post ∧
                (∀ x ∈ pre, x.isOk) ∧ p.value = Op16 ∧ is_multisig_op op'.value := by
            intro n hn
            obtain ⟨pre, p, op', post, heq, hok, hp, hop'⟩ := ih (some op) n hn
            refine ⟨prev.toList.map .ok ++ pre, p, op', post, ?_, ?_, hp, hop'⟩
            · simp only [Option.toList_some, List.map_cons, List.map_nil, List.cons_append,
                List.nil_append] at heq
              rw [heq, List.append_assoc]
            · intro x hx
              rcases List.mem_append.mp hx with hx | hx
              · cases prev <;> simp_all [Except.isOk, Except.toBool]
              · exact hok x hx
          cases prev with
          | none =>
              rw [get_sig_op_count_by_opcodes.go.eq_3] at hnone
              split_ifs at hnone <;> exact hcont _ hnone
          | some prev_opcode =>
              rw [get_sig_op_count_by_opcodes.go.eq_4] at hnone
              split_ifs at hnone with hsig hmulti hrange
              · exact hcont _ hnone
              · cases hsmall : to_small_int prev_opcode with
                | none =>
                    exact ⟨[], prev_opcode, op, rest, rfl, by simp,
                      (to_small_int_eq_none_iff hrange).mp hsmall, hmulti⟩
                | some n =>
                    rw [hsmall] at hnone
                    exact hcont _ hnone
              · exact hcont _ hnone
              · exact hcont _ hnone

theorem go_append_op16_multisig (prev : Option OpCode) (num_sigs : Nat)
    (pre : List (Except TxScriptError OpCode)) (hpre : ∀ x ∈ pre, x.isOk) (p op : OpCode)
    (hp : p.value = Op16) (hop : is_multisig_op op.value)
    (post : List (Except TxScriptError OpCode)) :
    get_sig_op_count_by_opcodes.go prev num_sigs (pre ++ .ok p :: .ok op :: post) = none := by
  induction pre generalizing prev num_sigs with
  | nil =>
      rcases go_cons_ok prev num_sigs p (.ok op :: post) with h | ⟨n, h⟩
      · exact h
      · rw [List.nil_append, h]
        exact go_op16_multisig n p op hp hop post
  | cons x pre ih =>
      have hx := hpre x List.mem_cons_self
      have hrest : ∀ y ∈ pre, y.isOk := fun y hy => hpre y (List.mem_cons_of_mem _ hy)
      cases x with
      | error e => simp [Except.isOk, Except.toBool] at hx
      | ok o =>
          rcases go_cons_ok prev num_sigs o (pre ++ .ok p :: .ok op :: post) with h | ⟨n, h⟩
          · exact h
          · rw [List.cons_append, h]
            exact ih (some o) n hrest

-- `get_sig_op_count_by_opcodes` panics exactly when, before the first parse error,
-- a multisig opcode directly follows `Op16`.
theorem get_sig_op_count_by_opcodes_eq_none_iff (opcodes : List (Except TxScriptError OpCode)) :
    get_sig_op_count_by_opcodes opcodes = none ↔
      ∃ pre p op post, opcodes = pre ++ .ok p :: .ok op :: post ∧
        (∀ x ∈ pre, x.isOk) ∧ p.value = Op16 ∧ is_multisig_op op.value := by
  constructor
  · intro h
    simpa using go_eq_none_decompose none 0 opcodes h
  · rintro ⟨pre, p, op, post, rfl, hpre, hp, hop⟩
    exact go_append_op16_multisig none 0 pre hpre p op hp hop post

theorem op_length_of_multisig {m : UInt8} (hm : is_multisig_op m) : op_length m = .fixed 1 := by
  rcases hm with rfl | rfl | rfl <;> decide

-- A script that parses cleanly up to an `Op16` opcode is not in P2SH form: that form
-- has `OpData32` at byte 1, and its 32 bytes of data would run over the `Op16`.
theorem is_pay_to_script_hash_op16_eq_false (pre post : Bytes)
    (hpre : ∀ x ∈ parse_script pre, x.isOk) (m : UInt8) :
    ScriptClass.is_pay_to_script_hash (pre ++ Op16 :: m :: post) = false := by
  match pre, hpre with
  | [], _ => simp [ScriptClass.is_pay_to_script_hash, Op16, OpBlake3]
  | [a], _ => simp [ScriptClass.is_pay_to_script_hash, Op16, OpData32]
  | a :: b :: r, hpre =>
      apply Bool.eq_false_iff.mpr
      intro hp2sh
      simp only [ScriptClass.is_pay_to_script_hash, Bool.and_eq_true, beq_iff_eq,
        List.cons_append, List.length_cons, List.length_append, List.getElem?_cons_zero,
        List.getElem?_cons_succ, Option.some.injEq] at hp2sh
      obtain ⟨⟨⟨hlen, rfl⟩, rfl⟩, -⟩ := hp2sh
      -- the data of `OpData32` must be complete in `r`, which makes the script too long
      have hdata : 32 ≤ r.length := by
        by_contra hshort
        have hparse : parse_script (OpBlake3 :: OpData32 :: r) =
            .ok ⟨OpBlake3, []⟩ :: (OpCode.deserialize OpData32 r).1 ::
              parse_script (OpCode.deserialize OpData32 r).2 := by
          rw [parse_script_cons, deserialize_of_length_one (by decide), parse_script_cons]
        have hsecond := hpre (OpCode.deserialize OpData32 r).1 (by rw [hparse]; simp)
        rw [deserialize_fixed_short (n := 32) (by decide) (by omega)] at hsecond
        simp [Except.isOk, Except.toBool] at hsecond
      omega

-- The bytes of such a script, parsed, panic the count.
theorem get_sig_op_count_by_opcodes_op16_multisig (pre post : Bytes)
    (hpre : ∀ x ∈ parse_script pre, x.isOk) {m : UInt8} (hm : is_multisig_op m) :
    get_sig_op_count_by_opcodes (parse_script (pre ++ Op16 :: m :: post)) = none := by
  have hsplit : parse_script (pre ++ Op16 :: m :: post) =
      parse_script pre ++ .ok ⟨Op16, []⟩ :: .ok ⟨m, []⟩ :: parse_script post := by
    rw [parse_script_append pre _ hpre, parse_script_cons, deserialize_of_length_one (by decide),
      parse_script_cons, deserialize_of_length_one (op_length_of_multisig hm)]
  rw [hsplit]
  exact (get_sig_op_count_by_opcodes_eq_none_iff _).mpr
    ⟨parse_script pre, ⟨Op16, []⟩, ⟨m, []⟩, parse_script post, rfl, hpre, rfl, hm⟩

-- An `Op16` directly followed by a multisig opcode, behind any prefix that parses,
-- makes `get_sig_op_count` panic in `to_small_int`, whatever the signature script.
theorem get_sig_op_count_op16_multisig_panics (signature_script : Bytes) (version : UInt16)
    (pre post : Bytes) (hpre : ∀ x ∈ parse_script pre, x.isOk) (m : UInt8)
    (hm : is_multisig_op m) :
    get_sig_op_count signature_script ⟨version, pre ++ Op16 :: m :: post⟩ = none := by
  have hclass := is_pay_to_script_hash_op16_eq_false pre post hpre m
  simp only [get_sig_op_count, hclass, Bool.not_false, if_true]
  exact get_sig_op_count_by_opcodes_op16_multisig pre post hpre hm

theorem get_sig_op_count_op16_multisig_panics_bare :
    (∀ x ∈ parse_script [], x.isOk) ∧ is_multisig_op OpCheckMultiSig ∧
      get_sig_op_count [] ⟨0, [Op16, OpCheckMultiSig]⟩ = none :=
  ⟨by simp, Or.inl rfl,
    get_sig_op_count_op16_multisig_panics [] 0 [] [] (by simp) OpCheckMultiSig (Or.inl rfl)⟩

theorem is_pay_to_script_hash_template (hash : Bytes) (hhash : hash.length = 32) :
    ScriptClass.is_pay_to_script_hash (OpBlake3 :: OpData32 :: hash ++ [OpEqual]) = true := by
  simp [ScriptClass.is_pay_to_script_hash, hhash]

-- In P2SH form the count is taken on the last push of the signature script: a redeem
-- script there with an `Op16` before its multisig opcode (the redeem script of a
-- multisig over 16 keys) panics the count as well.
theorem get_sig_op_count_p2sh_op16_multisig_panics (signature_script hash : Bytes)
    (version : UInt16) (hhash : hash.length = 32) (last : OpCode)
    (hpush : ∀ x ∈ parse_script signature_script, ∃ op, x = .ok op ∧ op.is_push_opcode)
    (hlast : (parse_script signature_script).getLast? = some (.ok last))
    (pre post : Bytes) (hpre : ∀ x ∈ parse_script pre, x.isOk) (m : UInt8)
    (hm : is_multisig_op m) (hredeem : last.get_data = pre ++ Op16 :: m :: post) :
    get_sig_op_count signature_script
      ⟨version, OpBlake3 :: OpData32 :: hash ++ [OpEqual]⟩ = none := by
  have hne : (parse_script signature_script).isEmpty = false := by
    cases h : parse_script signature_script with
    | nil => rw [h] at hlast; cases hlast
    | cons _ _ => rfl
  have hall : (parse_script signature_script).any (fun op => match op with
      | .error _ => true
      | .ok op => !op.is_push_opcode) = false := by
    apply List.any_eq_false.mpr
    intro x hx
    obtain ⟨op, rfl, hop⟩ := hpush x hx
    simp [hop]
  simp only [get_sig_op_count, is_pay_to_script_hash_template hash hhash, Bool.not_true,
    Bool.false_eq_true, if_false, hne, hall, Bool.or_false, hlast, hredeem]
  exact get_sig_op_count_by_opcodes_op16_multisig pre post hpre hm

-- The signature script pushes the two-byte redeem script `Op16 OpCheckMultiSig`.
theorem get_sig_op_count_p2sh_op16_multisig_panics_push :
    (List.replicate 32 (0 : UInt8)).length = 32 ∧
      (∀ x ∈ parse_script [0x02, Op16, OpCheckMultiSig],
        ∃ op, x = .ok op ∧ op.is_push_opcode) ∧
      (parse_script [0x02, Op16, OpCheckMultiSig]).getLast? =
        some (.ok ⟨0x02, [Op16, OpCheckMultiSig]⟩) ∧
      get_sig_op_count [0x02, Op16, OpCheckMultiSig]
        ⟨0, OpBlake3 :: OpData32 :: List.replicate 32 0 ++ [OpEqual]⟩ = none := by
  have hparse : parse_script [0x02, Op16, OpCheckMultiSig] =
      [.ok ⟨0x02, [Op16, OpCheckMultiSig]⟩] := by
    have hdata : OpCode.deserialize 0x02 [Op16, OpCheckMultiSig] =
        (.ok ⟨0x02, [Op16, OpCheckMultiSig]⟩, []) := by decide
    rw [parse_script_cons, hdata, parse_script_nil]
  have hpush : ∀ x ∈ parse_script [0x02, Op16, OpCheckMultiSig],
      ∃ op, x = .ok op ∧ op.is_push_opcode := by
    rw [hparse]
    intro x hx
    exact ⟨_, List.mem_singleton.mp hx, by decide⟩
  have hlast : (parse_script [0x02, Op16, OpCheckMultiSig]).getLast? =
      some (.ok ⟨0x02, [Op16, OpCheckMultiSig]⟩) := by
    rw [hparse]
    rfl
  exact ⟨List.length_replicate, hpush, hlast,
    get_sig_op_count_p2sh_op16_multisig_panics _ _ 0 List.length_replicate _ hpush hlast [] []
      (by simp) OpCheckMultiSig (Or.inl rfl) rfl⟩

end Panics

end Waglayla.TxScript
