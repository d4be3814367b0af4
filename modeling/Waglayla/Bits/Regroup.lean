import Mathlib.Data.Nat.Bitwise

-- Regrouping `inw`-bit digits into `outw`-bit digits through a bit buffer, the loop of
-- bech32's 8-to-5 and 5-to-8 packing: it only moves bits from the input to the output, in order.

namespace Regroup

-- The `w` lowest bits of `v`, most significant first.
def bitsOf : Nat → Nat → List Bool
  | 0, _ => []
  | w + 1, v => v.testBit w :: bitsOf w v

@[simp] theorem length_bitsOf (w v : Nat) : (bitsOf w v).length = w := by
  induction w with
  | zero => rfl
  | succ w ih => simp [bitsOf, ih]

theorem bitsOf_congr {w x y : Nat} (h : ∀ i < w, x.testBit i = y.testBit i) :
    bitsOf w x = bitsOf w y := by
  induction w with
  | zero => rfl
  | succ w ih =>
      simp only [bitsOf, h w (Nat.lt_succ_self w), List.cons.injEq, true_and]
      exact ih fun i hi => h i (by omega)

theorem getElem?_bitsOf {w v i : Nat} (hi : i < w) :
    (bitsOf w v)[i]? = some (v.testBit (w - 1 - i)) := by
  induction w generalizing i with
  | zero => omega
  | succ w ih =>
      cases i with
      | zero => simp [bitsOf]
      | succ i =>
          simp only [bitsOf, List.getElem?_cons_succ]
          rw [ih (by omega)]
          congr 2
          omega

-- Two values below `2 ^ w` with the same `w` bits are equal.
theorem bitsOf_inj {w x y : Nat} (hx : x < 2 ^ w) (hy : y < 2 ^ w)
    (h : bitsOf w x = bitsOf w y) : x = y := by
  apply Nat.eq_of_testBit_eq
  intro i
  by_cases hi : i < w
  · have hget := congrArg (fun l => l[w - 1 - i]?) h
    simp only [getElem?_bitsOf (by omega : w - 1 - i < w), Option.some.injEq] at hget
    rwa [show w - 1 - (w - 1 - i) = i by omega] at hget
  · rw [Nat.testBit_lt_two_pow (Nat.lt_of_lt_of_le hx (Nat.pow_le_pow_right (by omega)
      (by omega))), Nat.testBit_lt_two_pow (Nat.lt_of_lt_of_le hy (Nat.pow_le_pow_right
      (by omega) (by omega)))]

-- Splitting `a + b` bits at the midpoint, high bits first.
theorem bitsOf_add (a b v : Nat) : bitsOf (a + b) v = bitsOf a (v >>> b) ++ bitsOf b v := by
  induction a with
  | zero => simp [bitsOf]
  | succ a ih =>
      rw [show a + 1 + b = (a + b) + 1 by omega]
      simp only [bitsOf, ih, Nat.testBit_shiftRight, List.cons_append]
      rw [Nat.add_comm b a]

theorem bitsOf_mod (w v : Nat) : bitsOf w (v % 2 ^ w) = bitsOf w v :=
  bitsOf_congr fun i hi => by simp [Nat.testBit_mod_two_pow, hi]

-- A digit shifted in below a buffer appends its bits to the buffer's.
theorem bitsOf_shiftLeft_or {bits inw buff c : Nat} (hc : c < 2 ^ inw) :
    bitsOf (bits + inw) ((buff <<< inw) ||| c) = bitsOf bits buff ++ bitsOf inw c := by
  rw [← Nat.shiftLeft_add_eq_or_of_lt hc, bitsOf_add, Nat.shiftLeft_eq]
  have hdiv : (buff * 2 ^ inw + c) >>> inw = buff := by
    rw [Nat.shiftRight_eq_div_pow, Nat.add_comm, Nat.add_mul_div_right _ _ (Nat.two_pow_pos inw),
      Nat.div_eq_of_lt hc, Nat.zero_add]
  rw [hdiv, ← bitsOf_mod inw (buff * 2 ^ inw + c), Nat.mul_add_mod_of_lt hc]

-- Shifting a short buffer up to a full digit pads it with zero bits.
theorem bitsOf_shiftLeft_pad {bits outw : Nat} (buff : Nat) (hbits : bits ≤ outw) :
    bitsOf outw (buff <<< (outw - bits)) = bitsOf bits buff ++ List.replicate (outw - bits) false := by
  obtain ⟨k, rfl⟩ : ∃ k, outw = bits + k := ⟨outw - bits, by omega⟩
  rw [Nat.add_sub_cancel_left, bitsOf_add, Nat.shiftLeft_shiftRight]
  congr 1
  rw [← bitsOf_mod, Nat.shiftLeft_eq, Nat.mul_mod_left]
  clear hbits
  induction k with
  | zero => rfl
  | succ n ih => simp [bitsOf, List.replicate_succ, ih]

theorem shiftLeft_or_lt {bits inw buff c : Nat} (hbuff : buff < 2 ^ bits) (hc : c < 2 ^ inw) :
    (buff <<< inw) ||| c < 2 ^ (bits + inw) := by
  rw [← Nat.shiftLeft_add_eq_or_of_lt hc, Nat.shiftLeft_eq, Nat.pow_add]
  calc buff * 2 ^ inw + c < buff * 2 ^ inw + 2 ^ inw := by omega
    _ = (buff + 1) * 2 ^ inw := by rw [Nat.succ_mul]
    _ ≤ 2 ^ bits * 2 ^ inw := Nat.mul_le_mul_right _ hbuff

section Loop

variable (inw outw : Nat)

-- `while bits >= outw { bits -= outw; out.push(buff >> bits); buff &= (1 << bits) - 1; }`
-- The loop body runs `count` times, `bits / outw` of them in `drain`.
def drainN : Nat → Nat → Nat → List Nat × Nat × Nat
  | 0, buff, bits => ([], buff, bits)
  | count + 1, buff, bits =>
      let bits' := bits - outw
      let rest := drainN count (buff &&& ((1 <<< bits') - 1)) bits'
      (buff >>> bits' :: rest.1, rest.2)

def drain (buff bits : Nat) : List Nat × Nat × Nat :=
  drainN outw (bits / outw) buff bits

-- `for c in input { buff = (buff << inw) | c; bits += inw; <drain> }`
def feed : Nat → Nat → List Nat → List Nat × Nat × Nat
  | buff, bits, [] => ([], buff, bits)
  | buff, bits, c :: cs =>
      let drained := drain outw ((buff <<< inw) ||| c) (bits + inw)
      let rest := feed drained.2.1 drained.2.2 cs
      (drained.1 ++ rest.1, rest.2)

-- What a run of the inner loop does: it moves `count` digits' worth of bits from the
-- top of the buffer to the output.
theorem drainN_spec (count buff bits : Nat) (hcount : count * outw ≤ bits)
    (hbuff : buff < 2 ^ bits) :
    let r := drainN outw count buff bits
    r.2.2 = bits - count * outw ∧ r.2.1 < 2 ^ r.2.2 ∧ r.1.length = count ∧
      (∀ o ∈ r.1, o < 2 ^ outw) ∧ r.1.flatMap (bitsOf outw) ++ bitsOf r.2.2 r.2.1 = bitsOf bits buff := by
  induction count generalizing buff bits with
  | zero => simp [drainN, hbuff]
  | succ count ih =>
      have hle : outw ≤ bits := by
        have : outw ≤ (count + 1) * outw := Nat.le_mul_of_pos_left _ (Nat.succ_pos _)
        omega
      have hsplit : bits = outw + (bits - outw) := by omega
      have hmask : buff &&& ((1 <<< (bits - outw)) - 1) = buff % 2 ^ (bits - outw) := by
        rw [Nat.one_shiftLeft, Nat.and_two_pow_sub_one_eq_mod]
      have hmod : buff % 2 ^ (bits - outw) < 2 ^ (bits - outw) := Nat.mod_lt _ (Nat.two_pow_pos _)
      have hcount' : count * outw ≤ bits - outw := by rw [Nat.succ_mul] at hcount; omega
      obtain ⟨h1, h2, h3, h4, h5⟩ := ih (buff % 2 ^ (bits - outw)) (bits - outw) hcount' hmod
      -- the digit emitted is the top `outw` bits of the buffer
      have htop : buff >>> (bits - outw) < 2 ^ outw := by
        rw [Nat.shiftRight_eq_div_pow, Nat.div_lt_iff_lt_mul (Nat.two_pow_pos _), ← Nat.pow_add]
        rwa [← hsplit]
      simp only [drainN, hmask]
      refine ⟨?_, h2, ?_, ?_, ?_⟩
      · rw [h1, Nat.succ_mul]; omega
      · simp [h3]
      · intro o ho
        rcases List.mem_cons.mp ho with rfl | ho
        · exact htop
        · exact h4 o ho
      · rw [List.flatMap_cons, List.append_assoc, h5, bitsOf_mod]
        conv_rhs => rw [hsplit, bitsOf_add]

theorem drain_spec {buff bits : Nat} (hbuff : buff < 2 ^ bits) :
    let r := drain outw buff bits
    r.2.2 = bits % outw ∧ r.2.1 < 2 ^ r.2.2 ∧ r.1.length = bits / outw ∧
      (∀ o ∈ r.1, o < 2 ^ outw) ∧ r.1.flatMap (bitsOf outw) ++ bitsOf r.2.2 r.2.1 = bitsOf bits buff := by
  obtain ⟨h1, h2, h3, h4, h5⟩ := drainN_spec outw (bits / outw) buff bits (Nat.div_mul_le_self _ _) hbuff
  unfold drain
  refine ⟨?_, h2, h3, h4, h5⟩
  rw [h1, Nat.mod_eq_sub_div_mul]

-- The outer loop moves every input bit, in order, through the buffer to the output;
-- the buffer keeps fewer than `outw` bits, so as `u16` it never overflows for digit
-- widths up to 8.
theorem feed_spec (houtw : 0 < outw) (buff bits : Nat) (cs : List Nat)
    (hbuff : buff < 2 ^ bits) (hbits : bits < outw) (hcs : ∀ c ∈ cs, c < 2 ^ inw) :
    let r := feed inw outw buff bits cs
    r.2.1 < 2 ^ r.2.2 ∧ r.2.2 < outw ∧ (∀ o ∈ r.1, o < 2 ^ outw) ∧
      outw * r.1.length + r.2.2 = bits + inw * cs.length ∧
      r.1.flatMap (bitsOf outw) ++ bitsOf r.2.2 r.2.1 =
        bitsOf bits buff ++ cs.flatMap (bitsOf inw) := by
  induction cs generalizing buff bits with
  | nil => simp [feed, hbuff, hbits]
  | cons c cs ih =>
      have hc := hcs c List.mem_cons_self
      have hin := shiftLeft_or_lt hbuff hc
      obtain ⟨d1, d2, d3, d4, d5⟩ := drain_spec outw hin
      obtain ⟨r1, r2, r3, r4, r5⟩ := ih _ _ d2 (by rw [d1]; exact Nat.mod_lt _ houtw)
        (fun c hc' => hcs c (List.mem_cons_of_mem _ hc'))
      simp only [feed]
      refine ⟨r1, r2, ?_, ?_, ?_⟩
      · intro o ho
        rcases List.mem_append.mp ho with ho | ho
        · exact d4 o ho
        · exact r3 o ho
      · rw [List.length_append, Nat.mul_add, List.length_cons, Nat.mul_add, Nat.mul_one,
          Nat.add_assoc, r4, d1, d3]
        have := Nat.div_add_mod (bits + inw) outw
        omega
      · rw [List.flatMap_append, List.append_assoc, r5, ← List.append_assoc, d5,
          bitsOf_shiftLeft_or hc, List.flatMap_cons, List.append_assoc]

end Loop

-- Digits below `2 ^ w` are determined by their concatenated bits.
theorem flatMap_bitsOf_inj {w : Nat} {xs ys : List Nat} (hx : ∀ x ∈ xs, x < 2 ^ w)
    (hy : ∀ y ∈ ys, y < 2 ^ w) (hlen : xs.length = ys.length)
    (h : xs.flatMap (bitsOf w) = ys.flatMap (bitsOf w)) : xs = ys := by
  induction xs generalizing ys with
  | nil => exact (List.length_eq_zero_iff.mp hlen.symm).symm
  | cons x xs ih =>
      cases ys with
      | nil => simp at hlen
      | cons y ys =>
          simp only [List.flatMap_cons] at h
          obtain ⟨hxy, hrest⟩ := List.append_inj h (by simp)
          rw [bitsOf_inj (hx x List.mem_cons_self) (hy y List.mem_cons_self) hxy,
            ih (fun x hx' => hx x (List.mem_cons_of_mem _ hx'))
              (fun y hy' => hy y (List.mem_cons_of_mem _ hy')) (by simpa using hlen) hrest]

-- From the empty buffer, a regrouping emits every whole output digit of the input
-- bits and keeps the remainder.
theorem feed_counts {inw outw : Nat} (houtw : 0 < outw) (cs : List Nat)
    (hcs : ∀ c ∈ cs, c < 2 ^ inw) :
    (feed inw outw 0 0 cs).1.length = inw * cs.length / outw ∧
      (feed inw outw 0 0 cs).2.2 = inw * cs.length % outw := by
  obtain ⟨-, h2, -, h4, -⟩ := feed_spec inw outw houtw 0 0 cs (by simp) houtw hcs
  rw [Nat.zero_add] at h4
  constructor
  · rw [← h4, Nat.mul_add_div houtw, Nat.div_eq_of_lt h2, Nat.add_zero]
  · rw [← h4, Nat.mul_add_mod, Nat.mod_eq_of_lt h2]

@[simp] theorem length_flatMap_bitsOf (w : Nat) (xs : List Nat) :
    (xs.flatMap (bitsOf w)).length = w * xs.length := by
  induction xs with
  | nil => simp
  | cons x xs ih => simp [ih, Nat.mul_add, Nat.add_comm]

-- The digits a regrouping from the empty buffer emits, with the last partial digit
-- shifted up and kept: every input bit, then fewer than `outw` zero bits.
theorem feed_padded_bits {inw outw : Nat} (houtw : 0 < outw) (cs : List Nat)
    (hcs : ∀ c ∈ cs, c < 2 ^ inw) :
    let r := feed inw outw 0 0 cs
    let padded := r.1 ++ if r.2.2 > 0 then [r.2.1 <<< (outw - r.2.2)] else []
    (∀ o ∈ padded, o < 2 ^ outw) ∧ ∃ p < outw,
      padded.flatMap (bitsOf outw) = cs.flatMap (bitsOf inw) ++ List.replicate p false := by
  obtain ⟨h1, h2, h3, -, h5⟩ := feed_spec inw outw houtw 0 0 cs (by simp) houtw hcs
  simp only [bitsOf, List.nil_append] at h5
  dsimp only
  split_ifs with hpos
  · -- the partial digit keeps the buffer's bits and adds `outw - bits` zeros
    have hlast : (feed inw outw 0 0 cs).2.1 <<< (outw - (feed inw outw 0 0 cs).2.2) < 2 ^ outw := by
      rw [Nat.shiftLeft_eq]
      calc _ < 2 ^ (feed inw outw 0 0 cs).2.2 * 2 ^ (outw - (feed inw outw 0 0 cs).2.2) :=
            Nat.mul_lt_mul_of_pos_right h1 (Nat.two_pow_pos _)
        _ = 2 ^ outw := by rw [← Nat.pow_add]; congr 1; omega
    refine ⟨?_, outw - (feed inw outw 0 0 cs).2.2, by omega, ?_⟩
    · intro o ho
      rcases List.mem_append.mp ho with ho | ho
      · exact h3 o ho
      · rw [List.mem_singleton.mp ho]; exact hlast
    · rw [List.flatMap_append, List.flatMap_singleton, bitsOf_shiftLeft_pad _ (by omega),
        ← List.append_assoc, h5]
  · have hzero : (feed inw outw 0 0 cs).2.2 = 0 := by omega
    refine ⟨by simpa using h3, 0, houtw, ?_⟩
    rw [List.append_nil, List.replicate_zero, List.append_nil, ← h5, hzero]
    simp only [bitsOf, List.append_nil]

-- Regrouping back drops fewer than a digit of padding and returns the original digits.
theorem feed_of_padded {inw outw : Nat} (hinw : 0 < inw) (cs ds : List Nat) (p : Nat)
    (hp : p < inw) (hcs : ∀ c ∈ cs, c < 2 ^ inw) (hds : ∀ d ∈ ds, d < 2 ^ outw)
    (hbits : ds.flatMap (bitsOf outw) = cs.flatMap (bitsOf inw) ++ List.replicate p false) :
    (feed outw inw 0 0 ds).1 = cs := by
  obtain ⟨-, h2, h3, h4, h5⟩ := feed_spec outw inw hinw 0 0 ds (by simp) hinw hds
  simp only [bitsOf, List.nil_append, hbits] at h5 h4
  have hlen := congrArg List.length hbits
  simp only [length_flatMap_bitsOf, List.length_append, List.length_replicate] at hlen
  -- both sides hold `inw`-bit digits followed by fewer than `inw` bits
  have hcount : (feed outw inw 0 0 ds).1.length = cs.length := by
    have key : inw * (feed outw inw 0 0 ds).1.length + (feed outw inw 0 0 ds).2.2 =
        inw * cs.length + p := by rw [h4, hlen, Nat.zero_add]
    have hdiv := congrArg (· / inw) key
    simpa only [Nat.mul_add_div hinw, Nat.div_eq_of_lt h2, Nat.div_eq_of_lt hp,
      Nat.add_zero] using hdiv
  have hsplit := List.append_inj h5 (by rw [length_flatMap_bitsOf, length_flatMap_bitsOf, hcount])
  exact flatMap_bitsOf_inj h3 hcs hcount hsplit.1

section Registers

-- A fixed-width register that keeps its `o` pending bits at the top, as bit readers and writers do:
-- a word put under them extends them, and the top `k` of them come out by a right shift.

variable {width o : Nat}

theorem bitsOf_mul_add {n P c : Nat} (hc : c < 2 ^ n) :
    bitsOf (o + n) (P * 2 ^ n + c) = bitsOf o P ++ bitsOf n c := by
  rw [← Nat.shiftLeft_eq, Nat.shiftLeft_add_eq_or_of_lt hc, bitsOf_shiftLeft_or hc]

-- The top `k` of `o` bits and the rest.
theorem bitsOf_div_mod {k : Nat} (hk : k ≤ o) (P : Nat) :
    bitsOf o P = bitsOf k (P / 2 ^ (o - k)) ++ bitsOf (o - k) (P % 2 ^ (o - k)) := by
  obtain ⟨m, rfl⟩ : ∃ m, o = k + m := ⟨o - k, by omega⟩
  rw [Nat.add_sub_cancel_left, bitsOf_add, Nat.shiftRight_eq_div_pow, bitsOf_mod]

-- Putting `n` bits under the pending ones.
theorem put_under_or {n P c : Nat} (h : o + n ≤ width) (hc : c < 2 ^ n) :
    P * 2 ^ (width - o) ||| c * 2 ^ (width - (o + n)) =
      (P * 2 ^ n + c) * 2 ^ (width - (o + n)) := by
  have hlt : c * 2 ^ (width - (o + n)) < 2 ^ (width - o) := by
    calc c * 2 ^ (width - (o + n)) < 2 ^ n * 2 ^ (width - (o + n)) :=
          Nat.mul_lt_mul_of_pos_right hc (Nat.two_pow_pos _)
      _ = 2 ^ (width - o) := by rw [← Nat.pow_add]; congr 1; omega
  have hsplit : 2 ^ (width - o) = 2 ^ n * 2 ^ (width - (o + n)) := by
    rw [← Nat.pow_add]; congr 1; omega
  rw [← Nat.shiftLeft_eq, ← Nat.shiftLeft_add_eq_or_of_lt hlt, Nat.shiftLeft_eq, hsplit,
    Nat.add_mul, Nat.mul_assoc]

-- The top `k` pending bits, shifted down to the bottom of the register.
theorem take_top_div {k P : Nat} (hk : k ≤ o) (ho : o ≤ width) :
    P * 2 ^ (width - o) / 2 ^ (width - k) = P / 2 ^ (o - k) := by
  have hsplit : 2 ^ (width - k) = 2 ^ (width - o) * 2 ^ (o - k) := by
    rw [← Nat.pow_add]; congr 1; omega
  rw [hsplit, Nat.mul_comm P, Nat.mul_div_mul_left _ _ (Nat.two_pow_pos _)]

-- Fewer than `k` pending bits come out of the top `k` padded with zeros.
theorem take_top_pad {k P : Nat} (hok : o ≤ k) (hk : k ≤ width) :
    P * 2 ^ (width - o) / 2 ^ (width - k) = P <<< (k - o) := by
  have hsplit : 2 ^ (width - o) = 2 ^ (k - o) * 2 ^ (width - k) := by
    rw [← Nat.pow_add]; congr 1; omega
  rw [hsplit, ← Nat.mul_assoc, Nat.mul_div_cancel _ (Nat.two_pow_pos _), Nat.shiftLeft_eq]

-- The register shifted left by `k`: the other `o - k` bits move to the top.
theorem take_top_mod {k P : Nat} (hk : k ≤ o) (ho : o ≤ width) :
    P * 2 ^ (width - o) * 2 ^ k % 2 ^ width = P % 2 ^ (o - k) * 2 ^ (width - (o - k)) := by
  have hshift : P * 2 ^ (width - o) * 2 ^ k = P * 2 ^ (width - (o - k)) := by
    rw [Nat.mul_assoc, ← Nat.pow_add]; congr 2; omega
  have hsplit : P * 2 ^ (width - (o - k)) =
      P % 2 ^ (o - k) * 2 ^ (width - (o - k)) + P / 2 ^ (o - k) * 2 ^ width := by
    conv_lhs => rw [← Nat.mod_add_div P (2 ^ (o - k))]
    rw [Nat.add_mul, Nat.mul_comm (2 ^ (o - k)), Nat.mul_assoc, ← Nat.pow_add,
      show o - k + (width - (o - k)) = width by omega]
  have hlow : P % 2 ^ (o - k) * 2 ^ (width - (o - k)) < 2 ^ width := by
    calc P % 2 ^ (o - k) * 2 ^ (width - (o - k)) < 2 ^ (o - k) * 2 ^ (width - (o - k)) :=
          Nat.mul_lt_mul_of_pos_right (Nat.mod_lt _ (Nat.two_pow_pos _)) (Nat.two_pow_pos _)
      _ = 2 ^ width := by rw [← Nat.pow_add]; congr 1; omega
  rw [hshift, hsplit, Nat.add_mul_mod_self_right, Nat.mod_eq_of_lt hlow]

end Registers

end Regroup
