import Waglayla.TxScript.Engine
import Waglayla.TxScript.SigOpCount
import Waglayla.Consensus.Hashing.Sighash
import Waglayla.Lists.GreedyMatch

-- `OpCheckMultiSig` and `OpCheckMultiSigECDSA`. The Schnorr and ECDSA checks are parameters:
-- what the opcode decides depends only on which pairs they accept.

namespace Waglayla.TxScript

open Waglayla.Consensus.Hashing (SigHashType)
open GreedyMatch

namespace TxScriptEngine

variable (check_ecdsa_signature check_schnorr_signature :
  SigHashType → Bytes → Bytes → Except TxScriptError Bool)

-- The key loop for one signature: keys are consumed until one validates it; with fewer keys
-- left than signatures still to check it gives up, `none`. With no key left that test has
-- already failed, as this signature itself remains.
def check_pub_keys (ecdsa : Bool) (hash_type : SigHashType) (signature : Bytes)
    (remaining : Nat) : List Bytes → Except TxScriptError (Option (List Bytes))
  | [] => .ok none
  | pub_key :: pub_keys =>
    if (pub_key :: pub_keys).length < remaining then .ok none
    else
      let check_signature_result := if ecdsa then check_ecdsa_signature hash_type pub_key signature
        else check_schnorr_signature hash_type pub_key signature
      match check_signature_result with
      | .ok valid =>
        if valid then .ok (some pub_keys)
        else check_pub_keys ecdsa hash_type signature remaining pub_keys
      | .error e => .error e

-- The signature loop from `sig_idx` on, returning `failed`: an empty signature fails at once,
-- and the last byte of the others is their hash type.
def check_signatures (ecdsa : Bool) (num_sigs : Nat) :
    Nat → List Bytes → List Bytes → Except TxScriptError Bool
  | _, [], _ => .ok false
  | sig_idx, signature :: signatures, pub_keys =>
    match signature.getLast? with
    | none => .ok true
    | some typ =>
      match SigHashType.from_u8 typ with
      | .error _ => .error (.InvalidSigHashType typ)
      | .ok hash_type => do
        match ← check_pub_keys check_ecdsa_signature check_schnorr_signature ecdsa hash_type
            signature.dropLast (num_sigs - sig_idx) pub_keys with
        | none => return true
        | some pub_keys => check_signatures ecdsa num_sigs (sig_idx + 1) signatures pub_keys

-- Each step changes the engine in place, so an error returns the engine as it stands; the
-- counts are `[i32; 1]` items of `pop_items`.
def op_check_multisig_schnorr_or_ecdsa (ecdsa : Bool) (vm : TxScriptEngine) :
    TxScriptEngine × Except TxScriptError Unit :=
  match pop_items OpcodeData.deserialize_i32 1 vm.dstack with
  | (dstack, .error e) => ({ vm with dstack }, .error e)
  | (dstack, .ok items) =>
    let vm := { vm with dstack }
    let num_keys := (items.headD 0).toInt
    if num_keys < 0 then
      (vm, .error (.InvalidPubKeyCount ("number of pubkeys " ++ toString num_keys ++
        " is negative")))
    else if num_keys > (MAX_PUB_KEYS_PER_MUTLTISIG : Int) then
      (vm, .error (.InvalidPubKeyCount ("too many pubkeys " ++ toString num_keys ++ " > " ++
        toString MAX_PUB_KEYS_PER_MUTLTISIG)))
    else
      let num_keys_usize := num_keys.toNat
      let vm := { vm with num_ops := vm.num_ops + num_keys_usize }
      if vm.num_ops > MAX_OPS_PER_SCRIPT then (vm, .error (.TooManyOperations MAX_OPS_PER_SCRIPT))
      else if vm.dstack.length < num_keys_usize then
        (vm, .error (.InvalidStackOperation num_keys_usize vm.dstack.length))
      else
        let pub_keys := vm.dstack.drop (vm.dstack.length - num_keys_usize)
        let vm := { vm with dstack := vm.dstack.take (vm.dstack.length - num_keys_usize) }
        match pop_items OpcodeData.deserialize_i32 1 vm.dstack with
        | (dstack, .error e) => ({ vm with dstack }, .error e)
        | (dstack, .ok items) =>
          let vm := { vm with dstack }
          let num_sigs := (items.headD 0).toInt
          if num_sigs < 0 then
            (vm, .error (.InvalidSignatureCount ("number of signatures " ++ toString num_sigs ++
              " is negative")))
          else if num_sigs > num_keys then
            (vm, .error (.InvalidSignatureCount ("more signatures than pubkeys " ++
              toString num_sigs ++ " > " ++ toString num_keys)))
          else
            let num_sigs := num_sigs.toNat
            if vm.dstack.length < num_sigs then
              (vm, .error (.InvalidStackOperation num_sigs vm.dstack.length))
            else
              let signatures := vm.dstack.drop (vm.dstack.length - num_sigs)
              let vm := { vm with dstack := vm.dstack.take (vm.dstack.length - num_sigs) }
              match check_signatures check_ecdsa_signature check_schnorr_signature ecdsa num_sigs 0
                  signatures pub_keys with
              | .error e => (vm, .error e)
              | .ok failed =>
                if failed && signatures.any (fun sig => !sig.isEmpty) then (vm, .error .NullFail)
                else ({ vm with dstack := vm.dstack ++ [OpcodeData.serialize_bool (!failed)] }, .ok ())

-- `split_off` of the last `back.length` items.
theorem split_off_append (front back : List Bytes) :
    (front ++ back).take ((front ++ back).length - back.length) = front ∧
      (front ++ back).drop ((front ++ back).length - back.length) = back := by
  have hlen : (front ++ back).length - back.length = front.length := by simp
  rw [hlen]
  exact ⟨List.take_left' rfl, List.drop_left' rfl⟩

-- What the loop decides: every signature non-empty and a strictly increasing choice of keys,
-- each validating its signature.
theorem all_greedy_match_iff (valid : Bytes → Bytes → Bool) (signatures pub_keys : List Bytes) :
    (signatures.all (fun signature => !signature.isEmpty) &&
        greedy_match (fun s k => valid s k = true) signatures pub_keys) = true ↔
      (∀ signature ∈ signatures, signature ≠ []) ∧
        OrderedMatch (fun s k => valid s k = true) signatures pub_keys := by
  rw [Bool.and_eq_true, List.all_eq_true, greedy_match_iff]
  simp only [Bool.not_eq_true', List.isEmpty_eq_false_iff, ne_eq]

section Matching

variable (valid : Bytes → Bytes → Bool)
  (hecdsa : ∀ hash_type key signature, check_ecdsa_signature hash_type key signature =
    .ok (valid (signature ++ [hash_type.value]) key))
  (hschnorr : ∀ hash_type key signature, check_schnorr_signature hash_type key signature =
    .ok (valid (signature ++ [hash_type.value]) key))
include hecdsa hschnorr

-- Against checks that never fail, the key loop for one signature is one step of the greedy
-- scan over the whole signatures, its hash type byte put back.
theorem check_pub_keys_greedy (ecdsa : Bool) (hash_type : SigHashType) (signature : Bytes)
    (signatures pub_keys : List Bytes) :
    (∃ rest, check_pub_keys check_ecdsa_signature check_schnorr_signature ecdsa hash_type signature
        (signatures.length + 1) pub_keys = .ok (some rest) ∧
      greedy_match (fun s k => valid s k = true) ((signature ++ [hash_type.value]) :: signatures)
        pub_keys = greedy_match (fun s k => valid s k = true) signatures rest) ∨
    (check_pub_keys check_ecdsa_signature check_schnorr_signature ecdsa hash_type signature
        (signatures.length + 1) pub_keys = .ok none ∧
      greedy_match (fun s k => valid s k = true) ((signature ++ [hash_type.value]) :: signatures)
        pub_keys = false) := by
  induction pub_keys with
  | nil => exact .inr ⟨rfl, rfl⟩
  | cons pub_key pub_keys ih =>
    by_cases hlen : (pub_key :: pub_keys).length < signatures.length + 1
    · -- too few keys left: the loop gives up, and no matching exists
      refine .inr ⟨by rw [check_pub_keys, if_pos hlen], greedy_match_of_length_lt _ ?_⟩
      simpa using hlen
    have hcheck : (if ecdsa then check_ecdsa_signature hash_type pub_key signature
        else check_schnorr_signature hash_type pub_key signature) =
        .ok (valid (signature ++ [hash_type.value]) pub_key) := by
      cases ecdsa
      · exact hschnorr _ _ _
      · exact hecdsa _ _ _
    by_cases hvalid : valid (signature ++ [hash_type.value]) pub_key = true
    · refine .inl ⟨pub_keys, ?_, ?_⟩
      · rw [check_pub_keys, if_neg hlen]
        dsimp only
        rw [hcheck]
        dsimp only
        rw [if_pos hvalid]
      · rw [greedy_match, if_pos hvalid]
    · have hstep : check_pub_keys check_ecdsa_signature check_schnorr_signature ecdsa hash_type
          signature (signatures.length + 1) (pub_key :: pub_keys) =
          check_pub_keys check_ecdsa_signature check_schnorr_signature ecdsa hash_type signature
            (signatures.length + 1) pub_keys := by
        rw [check_pub_keys, if_neg hlen]
        dsimp only
        rw [hcheck]
        dsimp only
        rw [if_neg hvalid]
      have hgreedy : greedy_match (fun s k => valid s k = true)
          ((signature ++ [hash_type.value]) :: signatures) (pub_key :: pub_keys) =
          greedy_match (fun s k => valid s k = true) ((signature ++ [hash_type.value]) :: signatures)
            pub_keys := by
        rw [greedy_match, if_neg hvalid]
      rw [hstep, hgreedy]
      exact ih

-- The signature loop is the greedy scan over the whole signatures, failing at an empty one.
theorem check_signatures_greedy (ecdsa : Bool) (num_sigs : Nat) (signatures : List Bytes) :
    ∀ (sig_idx : Nat) (pub_keys : List Bytes), num_sigs - sig_idx = signatures.length →
      (∀ signature ∈ signatures, ∀ typ ∈ signature.getLast?, (SigHashType.from_u8 typ).isOk) →
      check_signatures check_ecdsa_signature check_schnorr_signature ecdsa num_sigs sig_idx
          signatures pub_keys =
        .ok !(signatures.all (fun signature => !signature.isEmpty) &&
          greedy_match (fun s k => valid s k = true) signatures pub_keys) := by
  induction signatures with
  | nil =>
    intro _ _ _ _
    simp [check_signatures, greedy_match]
  | cons signature signatures ih =>
    intro sig_idx pub_keys hidx htypes
    rcases List.eq_nil_or_concat' signature with rfl | ⟨body, typ, rfl⟩
    · -- an empty signature: failed
      rfl
    obtain ⟨hash_type, hhash⟩ : ∃ hash_type, SigHashType.from_u8 typ = .ok hash_type := by
      have := htypes _ List.mem_cons_self typ (by simp)
      cases h : SigHashType.from_u8 typ with
      | error e => rw [h] at this; simp [Except.isOk, Except.toBool] at this
      | ok hash_type => exact ⟨hash_type, rfl⟩
    have htyp : hash_type.value = typ := by
      unfold SigHashType.from_u8 at hhash
      split_ifs at hhash
      exact (Except.ok.inj hhash) ▸ rfl
    have hrest := fun pub_keys => ih (sig_idx + 1) pub_keys (by simp at hidx; omega)
      (fun s hs => htypes s (List.mem_cons_of_mem _ hs))
    have hloop := check_pub_keys_greedy check_ecdsa_signature check_schnorr_signature valid hecdsa
      hschnorr ecdsa hash_type body signatures pub_keys
    rw [htyp] at hloop
    have hremaining : num_sigs - sig_idx = signatures.length + 1 := by simpa using hidx
    have hnonempty : (body ++ [typ]).isEmpty = false := by simp
    simp only [check_signatures, List.getLast?_concat, hhash, List.dropLast_concat, hremaining]
    rcases hloop with ⟨rest, hkeys, hgreedy⟩ | ⟨hkeys, hgreedy⟩
    · simp [hkeys, hrest, hgreedy, hnonempty, bind, Except.bind]
    · simp [hkeys, hgreedy, bind, Except.bind, pure, Except.pure]

-- The opcode on a stack of signatures, their count, keys and their count, with room left in
-- the operation count and a hash type on every signature: the signature loop decides
-- `failed`, and the opcode fails with `NullFail` or pushes `!failed`.
theorem op_check_multisig_eq (ecdsa : Bool) {vm : TxScriptEngine}
    {rest signatures pub_keys : List Bytes} {num_sigs_item num_keys_item : Bytes}
    (hnum_keys : OpcodeData.deserialize_i32 num_keys_item = .ok (Int32.ofNat pub_keys.length))
    (hkeys : pub_keys.length ≤ 20)
    (hnum_sigs : OpcodeData.deserialize_i32 num_sigs_item = .ok (Int32.ofNat signatures.length))
    (hsigs : signatures.length ≤ pub_keys.length)
    (hstack : vm.dstack = rest ++ signatures ++ [num_sigs_item] ++ pub_keys ++ [num_keys_item])
    (hops : vm.num_ops + pub_keys.length ≤ MAX_OPS_PER_SCRIPT)
    (htypes : ∀ signature ∈ signatures, ∀ typ ∈ signature.getLast?,
      (SigHashType.from_u8 typ).isOk) :
    let failed := !(signatures.all (fun signature => !signature.isEmpty) &&
      greedy_match (fun s k => valid s k = true) signatures pub_keys);
    op_check_multisig_schnorr_or_ecdsa check_ecdsa_signature check_schnorr_signature ecdsa vm =
      if failed && signatures.any (fun sig => !sig.isEmpty) then
        ({ vm with dstack := rest, num_ops := vm.num_ops + pub_keys.length }, .error .NullFail)
      else
        ({ vm with
            dstack := rest ++ [OpcodeData.serialize_bool (!failed)]
            num_ops := vm.num_ops + pub_keys.length }, .ok ()) := by
  intro failed
  have hK : (Int32.ofNat pub_keys.length).toInt = pub_keys.length :=
    Int32.toInt_ofNat_of_lt (by omega)
  have hS : (Int32.ofNat signatures.length).toInt = signatures.length :=
    Int32.toInt_ofNat_of_lt (by omega)
  have hpop_keys := pop_items_one OpcodeData.deserialize_i32
    (rest ++ signatures ++ [num_sigs_item] ++ pub_keys) num_keys_item hnum_keys
  have hpop_sigs := pop_items_one OpcodeData.deserialize_i32 (rest ++ signatures) num_sigs_item
    hnum_sigs
  obtain ⟨htake_keys, hdrop_keys⟩ := split_off_append (rest ++ signatures ++ [num_sigs_item]) pub_keys
  obtain ⟨htake_sigs, hdrop_sigs⟩ := split_off_append rest signatures
  have hloop := check_signatures_greedy check_ecdsa_signature check_schnorr_signature valid hecdsa
    hschnorr ecdsa signatures.length signatures 0 pub_keys rfl htypes
  unfold op_check_multisig_schnorr_or_ecdsa
  rw [hstack, hpop_keys]
  simp only [List.headD_cons, hK, Int.toNat_natCast]
  rw [if_neg (by omega), if_neg (by simp only [MAX_PUB_KEYS_PER_MUTLTISIG]; omega),
    if_neg (by omega), if_neg (by simp only [List.length_append, List.length_singleton]; omega)]
  simp only [htake_keys, hdrop_keys, hpop_sigs, List.headD_cons, hS, Int.toNat_natCast]
  rw [if_neg (by omega), if_neg (by omega),
    if_neg (by simp only [List.length_append]; omega)]
  simp only [htake_sigs, hdrop_sigs, hloop]
  rfl

theorem op_check_multisig_ordered_match (ecdsa : Bool) {vm : TxScriptEngine}
    {rest signatures pub_keys : List Bytes} {num_sigs_item num_keys_item : Bytes}
    (hnum_keys : OpcodeData.deserialize_i32 num_keys_item = .ok (Int32.ofNat pub_keys.length))
    (hkeys : pub_keys.length ≤ 20)
    (hnum_sigs : OpcodeData.deserialize_i32 num_sigs_item = .ok (Int32.ofNat signatures.length))
    (hsigs : signatures.length ≤ pub_keys.length)
    (hstack : vm.dstack = rest ++ signatures ++ [num_sigs_item] ++ pub_keys ++ [num_keys_item])
    (hops : vm.num_ops + pub_keys.length ≤ MAX_OPS_PER_SCRIPT)
    (htypes : ∀ signature ∈ signatures, ∀ typ ∈ signature.getLast?,
      (SigHashType.from_u8 typ).isOk) :
    let result :=
      op_check_multisig_schnorr_or_ecdsa check_ecdsa_signature check_schnorr_signature ecdsa vm;
    let matched := (∀ signature ∈ signatures, signature ≠ []) ∧
      OrderedMatch (fun s k => valid s k = true) signatures pub_keys;
    ((result.2 = .ok () ∧ result.1.dstack = rest ++ [[1]]) ↔ matched) ∧
      (¬matched → (∃ signature ∈ signatures, signature ≠ []) → result.2 = .error .NullFail) ∧
      (¬matched → (∀ signature ∈ signatures, signature = []) →
        result.2 = .ok () ∧ result.1.dstack = rest ++ [[]]) := by
  intro result matched
  have heq : result = _ := op_check_multisig_eq check_ecdsa_signature check_schnorr_signature valid
    hecdsa hschnorr ecdsa hnum_keys hkeys hnum_sigs hsigs hstack hops htypes
  have hmatched := all_greedy_match_iff valid signatures pub_keys
  have hany : signatures.any (fun sig => !sig.isEmpty) = true ↔
      ∃ signature ∈ signatures, signature ≠ [] := by
    simp only [List.any_eq_true, Bool.not_eq_true', List.isEmpty_eq_false_iff, ne_eq]
  -- the loop's verdict decides every case
  cases hflag : (signatures.all (fun signature => !signature.isEmpty) &&
      greedy_match (fun s k => valid s k = true) signatures pub_keys)
  · have hnot : ¬matched := fun h => by
      have := hmatched.mpr h
      rw [hflag] at this
      exact Bool.false_ne_true this
    rw [hflag] at heq
    simp only [Bool.not_false, Bool.true_and] at heq
    refine ⟨⟨fun ⟨hok, hpush⟩ => ?_, fun h => absurd h hnot⟩, fun _ hne => ?_, fun _ hempty => ?_⟩
    · -- nothing pushes true: either `NullFail`, or false is pushed
      split_ifs at heq
      · rw [heq] at hok
        exact absurd hok (by simp)
      · rw [heq] at hpush
        simp [OpcodeData.serialize_bool] at hpush
    · rw [heq, if_pos (hany.mpr hne)]
    · have hnone : signatures.any (fun sig => !sig.isEmpty) = false := by
        rw [← Bool.not_eq_true, hany]
        exact fun ⟨sig, hsig, hne⟩ => hne (hempty sig hsig)
      rw [heq, hnone, if_neg Bool.false_ne_true]
      exact ⟨rfl, rfl⟩
  · have hyes : matched := hmatched.mp hflag
    rw [hflag] at heq
    simp only [Bool.not_true, Bool.false_and, Bool.false_eq_true, if_false] at heq
    rw [heq]
    exact ⟨⟨fun _ => hyes, fun _ => ⟨rfl, rfl⟩⟩, fun h => absurd hyes h, fun h => absurd hyes h⟩

end Matching

-- A 2-of-3 spend whose signatures validate against the first and the third key.
theorem op_check_multisig_ordered_match_two_of_three :
    let valid : Bytes → Bytes → Bool := fun s k =>
      (k == [0xa] && s == [0x5, 1]) || (k == [0xc] && s == [0x6, 1]);
    let check : SigHashType → Bytes → Bytes → Except TxScriptError Bool :=
      fun hash_type key signature => .ok (valid (signature ++ [hash_type.value]) key);
    let vm : TxScriptEngine := ⟨[[7], [0x5, 1], [0x6, 1], [2], [0xa], [0xb], [0xc], [3]], [], [], 1⟩;
    let result := op_check_multisig_schnorr_or_ecdsa check check false vm;
    let matched := (∀ signature ∈ [[0x5, 1], [0x6, 1]], signature ≠ ([] : Bytes)) ∧
      OrderedMatch (fun s k => valid s k = true) [[0x5, 1], [0x6, 1]] [[0xa], [0xb], [0xc]];
    ((result.2 = .ok () ∧ result.1.dstack = [[7]] ++ [[1]]) ↔ matched) ∧
      (¬matched → (∃ signature ∈ [[0x5, 1], [0x6, 1]], signature ≠ ([] : Bytes)) →
        result.2 = .error .NullFail) ∧
      (¬matched → (∀ signature ∈ [[0x5, 1], [0x6, 1]], signature = ([] : Bytes)) →
        result.2 = .ok () ∧ result.1.dstack = [[7]] ++ [[]]) := by
  intro valid check vm
  -- both signatures end in `SIG_HASH_ALL`
  have htypes : ∀ signature ∈ ([[0x5, 1], [0x6, 1]] : List Bytes), ∀ typ ∈ signature.getLast?,
      (SigHashType.from_u8 typ).isOk := by
    intro signature hsig typ htyp
    simp only [List.mem_cons, List.not_mem_nil, or_false] at hsig
    rcases hsig with rfl | rfl
    all_goals
      simp only [List.getLast?_cons_cons, List.getLast?_singleton, Option.mem_def,
        Option.some.injEq] at htyp
      subst htyp
      rfl
  exact @op_check_multisig_ordered_match check check valid (fun _ _ _ => rfl) (fun _ _ _ => rfl)
    false vm [[7]] [[0x5, 1], [0x6, 1]] [[0xa], [0xb], [0xc]] [2] [3] rfl (by decide) rfl
    (by decide) rfl (by decide) htypes

-- A signature whose last byte is no hash type stops the opcode although a matching exists.
theorem op_check_multisig_invalid_sighash_type :
    let valid : Bytes → Bytes → Bool := fun _ _ => true;
    let check : SigHashType → Bytes → Bytes → Except TxScriptError Bool :=
      fun hash_type key signature => .ok (valid (signature ++ [hash_type.value]) key);
    ((∀ signature ∈ [[0x00]], signature ≠ ([] : Bytes)) ∧
        OrderedMatch (fun s k => valid s k = true) [[0x00]] [[0x21]]) ∧
      op_check_multisig_schnorr_or_ecdsa check check false ⟨[[0x00], [1], [0x21], [1]], [], [], 1⟩ =
        (⟨[], [], [], 2⟩, .error (.InvalidSigHashType 0)) :=
  ⟨⟨by decide, (greedy_match_iff _ _ _).mp (by decide)⟩, by decide⟩

end TxScriptEngine

end Waglayla.TxScript
