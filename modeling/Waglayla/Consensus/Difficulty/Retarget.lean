import Waglayla.Consensus.Difficulty.Compact
import Waglayla.Consensus.Window.Heap
import Waglayla.Lists.MinMax
import Waglayla.Numbers.Word
import Mathlib.Algebra.Order.BigOperators.Group.List
import Mathlib.Data.UInt

-- The difficulty retarget of `processes/difficulty.rs`, with the source's arithmetic: `u64`
-- operations panic on overflow (`Word`), `Uint320` sums and products wrap.

namespace Waglayla.Consensus

open Word

def MIN_DIFFICULTY_WINDOW_LEN : Nat := 10

-- `CompactHeaderData` with the two fields the retarget reads; the DAA and blue scores are
-- read by other processes.
structure CompactHeaderData where
  timestamp : UInt64
  bits : UInt32
  deriving DecidableEq, Repr

structure DifficultyBlock where
  timestamp : UInt64
  bits : UInt32
  sortable_block : SortableBlock
  deriving DecidableEq, Repr

namespace DifficultyBlock

-- `Ord for DifficultyBlock`: by timestamp, ties broken by the sortable block.
def key (block : DifficultyBlock) : Nat ×ₗ SortableBlock :=
  toLex (block.timestamp.toNat, block.sortable_block)

theorem timestamp_le_of_key_le {a b : DifficultyBlock} (h : a.key ≤ b.key) :
    a.timestamp ≤ b.timestamp := by
  apply UInt64.le_iff_toNat_le.mpr
  rcases Prod.Lex.toLex_le_toLex.mp h with hlt | ⟨heq, -⟩
  · exact le_of_lt hlt
  · exact le_of_eq heq

end DifficultyBlock

section Arithmetic

-- `Sum for Uint320`: the first element, then additions that wrap in a release build.
def uint320_sum : List Nat → Nat
  | [] => 0
  | first :: rest => rest.foldl (fun a b => (a + b) % 2 ^ 320) first

-- `Div<u64> for Uint320`: long division by `u128` words, which panics on a zero divisor.
def div_u64 (self : Nat) (other : UInt64) : Option Nat :=
  if other.toNat = 0 then none else some (self / other.toNat)

variable {b : UInt64}

-- Wrapping additions give the sum while it stays below the modulus.
theorem foldl_add_mod {M : Nat} :
    ∀ (rest : List Nat) (acc : Nat), acc + rest.sum < M →
      rest.foldl (fun a b => (a + b) % M) acc = acc + rest.sum
  | [], acc, _ => by simp
  | x :: rest, acc, h => by
    rw [List.sum_cons] at h
    rw [List.foldl_cons, Nat.mod_eq_of_lt (by omega), foldl_add_mod rest (acc + x) (by omega),
      List.sum_cons, Nat.add_assoc]

theorem uint320_sum_eq {l : List Nat} (h : l.sum < 2 ^ 320) : uint320_sum l = l.sum := by
  cases l with
  | nil => rfl
  | cons first rest =>
    rw [List.sum_cons] at h
    rw [uint320_sum, foldl_add_mod rest first h, List.sum_cons]

theorem div_u64_of_pos (self : Nat) (h : 0 < b.toNat) : div_u64 self b = some (self / b.toNat) :=
  if_neg (Nat.pos_iff_ne_zero.mp h)

-- A sum of `n > 0` values below `B` is below `n * B`.
theorem sum_lt_length_mul {B : Nat} :
    ∀ {l : List Nat}, (∀ x ∈ l, x < B) → 0 < l.length → l.sum < l.length * B
  | [], _, hl => absurd hl (Nat.lt_irrefl 0)
  | x :: rest, h, _ => by
    have hx : x < B := h x List.mem_cons_self
    have hrest : rest.sum ≤ rest.length * B := by
      simpa using List.sum_le_card_nsmul rest B fun y hy => le_of_lt (h y (List.mem_cons_of_mem x hy))
    rw [List.sum_cons, List.length_cons, Nat.succ_mul]
    omega

end Arithmetic

-- Targets decode below `2 ^ 256`, so a sum of fewer than `2 ^ 64` of them fits in a `Uint320`,
-- and so does their average times a `u64`.
theorem targets_sum_lt {blocks : List DifficultyBlock} (h : 0 < blocks.length) :
    (blocks.map fun block => from_compact_target_bits block.bits).sum < blocks.length * 2 ^ 256 := by
  have hbound : ∀ x ∈ blocks.map (fun block => from_compact_target_bits block.bits),
      x < 2 ^ 256 := by
    intro x hx
    obtain ⟨block, -, rfl⟩ := List.mem_map.mp hx
    exact from_compact_target_bits_lt block.bits
  have hlt := sum_lt_length_mul hbound (by rwa [List.length_map])
  rwa [List.length_map] at hlt

-- `get_difficulty_blocks`: the header data of every block of the window, in the window's
-- order; a block with no header panics on the `unwrap`.
def get_difficulty_blocks (headers_store : AList fun _ : Hash => CompactHeaderData)
    (window : BlockWindowHeap) : Option (List DifficultyBlock) :=
  window.blocks.mapM fun item =>
    (headers_store.lookup item.hash).map fun data => ⟨data.timestamp, data.bits, item⟩

theorem mapM_difficulty_blocks (headers_store : AList fun _ : Hash => CompactHeaderData) :
    ∀ items : List SortableBlock, (∀ item ∈ items, item.hash ∈ headers_store) →
      ∃ blocks, (items.mapM fun item => (headers_store.lookup item.hash).map fun data =>
          (⟨data.timestamp, data.bits, item⟩ : DifficultyBlock)) = some blocks ∧
        blocks.map DifficultyBlock.sortable_block = items
  | [], _ => ⟨[], rfl, rfl⟩
  | item :: items, h => by
    obtain ⟨data, hdata⟩ :=
      Option.isSome_iff_exists.mp (AList.lookup_isSome.mpr (h item List.mem_cons_self))
    obtain ⟨blocks, hblocks, hmap⟩ :=
      mapM_difficulty_blocks headers_store items fun i hi => h i (List.mem_cons_of_mem item hi)
    refine ⟨⟨data.timestamp, data.bits, item⟩ :: blocks, ?_, by simp [hmap]⟩
    simp only [List.mapM_cons, hdata, hblocks, Option.map_some, Option.bind_eq_bind,
      Option.bind_some, Option.pure_def]

theorem get_difficulty_blocks_spec {headers_store : AList fun _ : Hash => CompactHeaderData}
    {window : BlockWindowHeap} (h : ∀ item ∈ window.blocks, item.hash ∈ headers_store) :
    ∃ blocks, get_difficulty_blocks headers_store window = some blocks ∧
      blocks.map DifficultyBlock.sortable_block = window.blocks :=
  mapM_difficulty_blocks headers_store window.blocks h

-- The body both managers' `calculate_difficulty_bits` share once they have read the window's
-- blocks; they differ in the expected duration of a window of the given length.
def difficulty_bits (genesis_bits : UInt32) (max_difficulty_target : Nat)
    (min_difficulty_window_len : Nat) (expected_duration : UInt64 → Option UInt64)
    (difficulty_blocks : List DifficultyBlock) : Option UInt32 :=
  -- until there are enough blocks the difficulty stays constant
  if difficulty_blocks.length < min_difficulty_window_len then some genesis_bits
  else do
    let (min_ts_index, max_ts_index) ←
      MinMax.position_minmax DifficultyBlock.key difficulty_blocks
    let min_ts ← difficulty_blocks[min_ts_index]?.map DifficultyBlock.timestamp
    let max_ts ← difficulty_blocks[max_ts_index]?.map DifficultyBlock.timestamp
    -- the earliest block is left out of the average
    let difficulty_blocks ← MinMax.swap_remove difficulty_blocks min_ts_index
    let difficulty_blocks_len := UInt64.ofNat difficulty_blocks.length
    let targets_sum := uint320_sum
      (difficulty_blocks.map fun diff_block => from_compact_target_bits diff_block.bits)
    let average_target ← div_u64 targets_sum difficulty_blocks_len
    let measured_duration := max (← checked_sub max_ts min_ts) 1
    let expected_duration ← expected_duration difficulty_blocks_len
    let new_target ←
      div_u64 (average_target * measured_duration.toNat % 2 ^ 320) expected_duration
    let new_target := min new_target max_difficulty_target
    -- `Uint256::try_from(..).expect(..)`
    if new_target < 2 ^ 256 then some (compact_target_bits new_target) else none

-- The retarget's formula: the average of `count` targets summing to `targets_sum`, scaled by
-- the measured duration (at least one) over the expected one, capped by the maximal target.
def retarget (targets_sum count measured expected max_target : Nat) : Nat :=
  min (targets_sum / count * max measured 1 / expected) max_target

-- `target` is what a retarget over `difficulty_blocks` decodes to when a window of their
-- length is expected to last `expected`: the formula over the blocks without a least one
-- (`first`), measured up to a greatest one (`last`), rounded to a 23-bit mantissa.
def Retargets (difficulty_blocks : List DifficultyBlock) (expected max_target target : Nat) :
    Prop :=
  ∃ index first last_index last,
    MinMax.LeastAt DifficultyBlock.key difficulty_blocks (index, first) ∧
    MinMax.GreatestAt DifficultyBlock.key difficulty_blocks (last_index, last) ∧
    target = Mantissa.trunc 23 (retarget
      ((difficulty_blocks.eraseIdx index).map fun block => from_compact_target_bits block.bits).sum
      (difficulty_blocks.length - 1) (last.timestamp.toNat - first.timestamp.toNat) expected
      max_target)

theorem trunc_retarget_le (targets_sum count measured expected max_target : Nat) :
    Mantissa.trunc 23 (retarget targets_sum count measured expected max_target) ≤ max_target :=
  le_trans (Mantissa.trunc_le 23 _) (min_le_right _ _)

theorem Retargets.le_max {difficulty_blocks : List DifficultyBlock} {expected max_target target : Nat}
    (h : Retargets difficulty_blocks expected max_target target) : target ≤ max_target := by
  obtain ⟨_, _, _, _, -, -, rfl⟩ := h
  exact trunc_retarget_le _ _ _ _ _

-- Every rounding step is monotone: the floor divisions, the cap, and the mantissa rounding.
theorem trunc_retarget_mono {targets_sum count measured measured' expected max_target : Nat}
    (h : measured ≤ measured') :
    Mantissa.trunc 23 (retarget targets_sum count measured expected max_target) ≤
      Mantissa.trunc 23 (retarget targets_sum count measured' expected max_target) := by
  apply Mantissa.trunc_mono (by norm_num)
  apply min_le_min _ (le_refl max_target)
  apply Nat.div_le_div_right
  exact Nat.mul_le_mul_left _ (max_le_max h (le_refl 1))

section Spec

variable {genesis_bits : UInt32} {max_difficulty_target min_difficulty_window_len : Nat}
  {expected_duration : UInt64 → Option UInt64} {difficulty_blocks : List DifficultyBlock}

-- With at least two blocks, fewer than `2 ^ 64` of them, and a positive expected duration
-- that fits in a `u64`, the retarget returns, and what it returns decodes to its formula.
theorem difficulty_bits_spec (hmax : max_difficulty_target < 2 ^ 256)
    (hmin : 2 ≤ min_difficulty_window_len)
    (hlen : min_difficulty_window_len ≤ difficulty_blocks.length)
    (hsmall : difficulty_blocks.length - 1 < 2 ^ 64) {expected : UInt64}
    (hexpected : expected_duration (UInt64.ofNat (difficulty_blocks.length - 1)) = some expected)
    (hpos : 0 < expected.toNat) :
    ∃ bits, difficulty_bits genesis_bits max_difficulty_target min_difficulty_window_len
        expected_duration difficulty_blocks = some bits ∧
      Retargets difficulty_blocks expected.toNat max_difficulty_target
        (from_compact_target_bits bits) := by
  have hne : difficulty_blocks ≠ [] := by
    rintro rfl
    simp only [List.length_nil] at hlen
    omega
  obtain ⟨index, last_index, first, last, hminmax, hfirst, hlast⟩ :=
    MinMax.position_minmax_spec DifficultyBlock.key hne
  have hindex : index < difficulty_blocks.length := (List.getElem?_eq_some_iff.mp hfirst.1).1
  obtain ⟨rest, hswap, hperm⟩ := MinMax.swap_remove_perm hindex
  have hrest : rest.length = difficulty_blocks.length - 1 := by
    rw [hperm.length_eq, List.length_eraseIdx_of_lt hindex]
  have hcount : 0 < rest.length := by omega
  have hcount64 : (UInt64.ofNat rest.length).toNat = rest.length :=
    UInt64.toNat_ofNat_of_lt' (by simp only [UInt64.size]; omega)
  have hcount_pos : 0 < (UInt64.ofNat rest.length).toNat := by rw [hcount64]; exact hcount
  -- the sum fits in a `Uint320`, and the average in a `Uint256`
  set targets := rest.map fun block => from_compact_target_bits block.bits with htargets
  have hsum_lt : targets.sum < rest.length * 2 ^ 256 := targets_sum_lt hcount
  have hsum : targets.sum < 2 ^ 320 :=
    calc targets.sum < rest.length * 2 ^ 256 := hsum_lt
      _ ≤ 2 ^ 64 * 2 ^ 256 := Nat.mul_le_mul_right _ (by omega)
      _ = 2 ^ 320 := by rw [← pow_add]
  have havg : targets.sum / rest.length < 2 ^ 256 :=
    (Nat.div_lt_iff_lt_mul hcount).mpr (by rwa [Nat.mul_comm] at hsum_lt)
  -- the earliest block is not later than the latest one
  have hts : first.timestamp ≤ last.timestamp :=
    DifficultyBlock.timestamp_le_of_key_le (hlast.2 first (List.mem_of_getElem? hfirst.1))
  obtain ⟨span, hspan, hspan_val⟩ := checked_sub_of_le hts
  have hmeasured : (max span 1).toNat = max span.toNat 1 := UInt64.toNat_max span 1
  have hprod : targets.sum / rest.length * (max span 1).toNat < 2 ^ 320 :=
    calc targets.sum / rest.length * (max span 1).toNat < 2 ^ 256 * 2 ^ 64 :=
          Nat.mul_lt_mul'' havg (UInt64.toNat_lt _)
      _ = 2 ^ 320 := by rw [← pow_add]
  have hnew : min (targets.sum / rest.length * (max span 1).toNat / expected.toNat)
      max_difficulty_target < 2 ^ 256 := lt_of_le_of_lt (min_le_right _ _) hmax
  refine ⟨compact_target_bits (min (targets.sum / rest.length * (max span 1).toNat /
    expected.toNat) max_difficulty_target), ?_, ?_⟩
  · rw [← hrest] at hexpected
    simp only [difficulty_bits, if_neg (not_lt.mpr hlen), hminmax, hfirst.1, hlast.1,
      Option.map_some, hswap, hspan, hexpected, ← htargets, uint320_sum_eq hsum,
      div_u64_of_pos _ hcount_pos, hcount64,
      Nat.mod_eq_of_lt hprod, div_u64_of_pos _ hpos, if_pos hnew, Option.bind_eq_bind,
      Option.bind_some]
  · rw [from_compact_target_bits_compact_target_bits hnew]
    refine ⟨index, first, last_index, last, hfirst, hlast, ?_⟩
    rw [retarget, ← hrest, hmeasured, hspan_val, htargets, (hperm.map _).sum_eq]

end Spec

-- The assertion `new` makes on the window lengths.
def check_min_difficulty_window_len (difficulty_window_size min_difficulty_window_len : Nat) :
    Prop :=
  MIN_DIFFICULTY_WINDOW_LEN ≤ min_difficulty_window_len ∧
    min_difficulty_window_len ≤ difficulty_window_size

instance (difficulty_window_size min_difficulty_window_len : Nat) :
    Decidable (check_min_difficulty_window_len difficulty_window_size min_difficulty_window_len) :=
  inferInstanceAs (Decidable (_ ∧ _))

-- A manager whose window lengths passed the assertion of `new`; the maximal target is a
-- `Uint256`.
structure FullDifficultyManager where
  headers_store : AList fun _ : Hash => CompactHeaderData
  genesis_bits : UInt32
  max_difficulty_target : Fin (2 ^ 256)
  difficulty_window_size : Nat
  min_difficulty_window_len : Nat
  target_time_per_block : UInt64
  window_len_checked :
    check_min_difficulty_window_len difficulty_window_size min_difficulty_window_len

structure SampledDifficultyManager where
  headers_store : AList fun _ : Hash => CompactHeaderData
  genesis_bits : UInt32
  max_difficulty_target : Fin (2 ^ 256)
  difficulty_window_size : Nat
  min_difficulty_window_len : Nat
  difficulty_sample_rate : UInt64
  target_time_per_block : UInt64
  window_len_checked :
    check_min_difficulty_window_len difficulty_window_size min_difficulty_window_len

namespace FullDifficultyManager

-- `new`: the assertion on the window lengths panics.
def new (headers_store : AList fun _ : Hash => CompactHeaderData) (genesis_bits : UInt32)
    (max_difficulty_target : Fin (2 ^ 256)) (difficulty_window_size min_difficulty_window_len : Nat)
    (target_time_per_block : UInt64) : Option FullDifficultyManager :=
  if h : check_min_difficulty_window_len difficulty_window_size min_difficulty_window_len then
    some ⟨headers_store, genesis_bits, max_difficulty_target, difficulty_window_size,
      min_difficulty_window_len, target_time_per_block, h⟩
  else none

def calculate_difficulty_bits (self : FullDifficultyManager) (window : BlockWindowHeap) :
    Option UInt32 := do
  let difficulty_blocks ← get_difficulty_blocks self.headers_store window
  difficulty_bits self.genesis_bits self.max_difficulty_target.val self.min_difficulty_window_len
    (fun difficulty_blocks_len => checked_mul self.target_time_per_block difficulty_blocks_len)
    difficulty_blocks

-- A window of at least the minimal length, all of whose blocks have headers, with an
-- expected duration that fits in a `u64`: the retarget returns, and decodes to its formula.
theorem calculate_difficulty_bits_spec (self : FullDifficultyManager) {window : BlockWindowHeap}
    (hheaders : ∀ item ∈ window.blocks, item.hash ∈ self.headers_store)
    (hlen : self.min_difficulty_window_len ≤ window.blocks.length)
    (htime : 0 < self.target_time_per_block.toNat)
    (hexpected : self.target_time_per_block.toNat * (window.blocks.length - 1) < 2 ^ 64) :
    ∃ difficulty_blocks bits, get_difficulty_blocks self.headers_store window = some difficulty_blocks ∧
      difficulty_blocks.map DifficultyBlock.sortable_block = window.blocks ∧
      self.calculate_difficulty_bits window = some bits ∧
      Retargets difficulty_blocks (self.target_time_per_block.toNat * (window.blocks.length - 1))
        self.max_difficulty_target.val (from_compact_target_bits bits) := by
  obtain ⟨difficulty_blocks, hblocks, hmap⟩ := get_difficulty_blocks_spec hheaders
  have hlength : difficulty_blocks.length = window.blocks.length := by
    rw [← hmap, List.length_map]
  have hmin : MIN_DIFFICULTY_WINDOW_LEN ≤ self.min_difficulty_window_len :=
    self.window_len_checked.1
  unfold MIN_DIFFICULTY_WINDOW_LEN at hmin
  have hcount : window.blocks.length - 1 < 2 ^ 64 :=
    lt_of_le_of_lt (Nat.le_mul_of_pos_left _ htime) hexpected
  have hcount64 : (UInt64.ofNat (window.blocks.length - 1)).toNat = window.blocks.length - 1 :=
    UInt64.toNat_ofNat_of_lt' (by simp only [UInt64.size]; omega)
  obtain ⟨expected, hmul, hexpected_val⟩ :=
    checked_mul_of_lt (a := self.target_time_per_block) (b := UInt64.ofNat (window.blocks.length - 1))
      (by rw [hcount64]; exact hexpected)
  have hpos : 0 < expected.toNat := by
    rw [hexpected_val, hcount64]
    exact Nat.mul_pos htime (by omega)
  obtain ⟨bits, hbits, hretargets⟩ : ∃ bits, difficulty_bits self.genesis_bits
      self.max_difficulty_target.val self.min_difficulty_window_len
      (fun difficulty_blocks_len => checked_mul self.target_time_per_block difficulty_blocks_len)
      difficulty_blocks = some bits ∧
      Retargets difficulty_blocks expected.toNat self.max_difficulty_target.val
        (from_compact_target_bits bits) :=
    difficulty_bits_spec self.max_difficulty_target.isLt (by omega) (by omega) (by omega)
      (by rw [hlength]; exact hmul) hpos
  refine ⟨difficulty_blocks, bits, hblocks, hmap, ?_, ?_⟩
  · rw [calculate_difficulty_bits, hblocks]
    exact hbits
  · rwa [hexpected_val, hcount64] at hretargets

end FullDifficultyManager

namespace SampledDifficultyManager

def new (headers_store : AList fun _ : Hash => CompactHeaderData) (genesis_bits : UInt32)
    (max_difficulty_target : Fin (2 ^ 256)) (difficulty_window_size min_difficulty_window_len : Nat)
    (difficulty_sample_rate target_time_per_block : UInt64) : Option SampledDifficultyManager :=
  if h : check_min_difficulty_window_len difficulty_window_size min_difficulty_window_len then
    some ⟨headers_store, genesis_bits, max_difficulty_target, difficulty_window_size,
      min_difficulty_window_len, difficulty_sample_rate, target_time_per_block, h⟩
  else none

-- The expected duration has the sample rate as one more factor, multiplied in first.
def calculate_difficulty_bits (self : SampledDifficultyManager) (window : BlockWindowHeap) :
    Option UInt32 := do
  let difficulty_blocks ← get_difficulty_blocks self.headers_store window
  difficulty_bits self.genesis_bits self.max_difficulty_target.val self.min_difficulty_window_len
    (fun difficulty_blocks_len => do
      let time_per_sample ← checked_mul self.target_time_per_block self.difficulty_sample_rate
      checked_mul time_per_sample difficulty_blocks_len)
    difficulty_blocks

theorem calculate_difficulty_bits_spec (self : SampledDifficultyManager) {window : BlockWindowHeap}
    (hheaders : ∀ item ∈ window.blocks, item.hash ∈ self.headers_store)
    (hlen : self.min_difficulty_window_len ≤ window.blocks.length)
    (htime : 0 < self.target_time_per_block.toNat) (hrate : 0 < self.difficulty_sample_rate.toNat)
    (hexpected : self.target_time_per_block.toNat * self.difficulty_sample_rate.toNat *
      (window.blocks.length - 1) < 2 ^ 64) :
    ∃ difficulty_blocks bits, get_difficulty_blocks self.headers_store window = some difficulty_blocks ∧
      difficulty_blocks.map DifficultyBlock.sortable_block = window.blocks ∧
      self.calculate_difficulty_bits window = some bits ∧
      Retargets difficulty_blocks (self.target_time_per_block.toNat *
          self.difficulty_sample_rate.toNat * (window.blocks.length - 1))
        self.max_difficulty_target.val (from_compact_target_bits bits) := by
  obtain ⟨difficulty_blocks, hblocks, hmap⟩ := get_difficulty_blocks_spec hheaders
  have hlength : difficulty_blocks.length = window.blocks.length := by
    rw [← hmap, List.length_map]
  have hmin : MIN_DIFFICULTY_WINDOW_LEN ≤ self.min_difficulty_window_len :=
    self.window_len_checked.1
  unfold MIN_DIFFICULTY_WINDOW_LEN at hmin
  have hsample : 0 < self.target_time_per_block.toNat * self.difficulty_sample_rate.toNat :=
    Nat.mul_pos htime hrate
  -- both factors are at most the whole product, so neither multiplication overflows
  have hsample_lt : self.target_time_per_block.toNat * self.difficulty_sample_rate.toNat < 2 ^ 64 :=
    lt_of_le_of_lt (Nat.le_mul_of_pos_right _ (by omega)) hexpected
  have hcount : window.blocks.length - 1 < 2 ^ 64 :=
    lt_of_le_of_lt (Nat.le_mul_of_pos_left _ hsample) hexpected
  have hcount64 : (UInt64.ofNat (window.blocks.length - 1)).toNat = window.blocks.length - 1 :=
    UInt64.toNat_ofNat_of_lt' (by simp only [UInt64.size]; omega)
  obtain ⟨time_per_sample, hmul, hsample_val⟩ := checked_mul_of_lt hsample_lt
  obtain ⟨expected, hmul', hexpected_val⟩ :=
    checked_mul_of_lt (a := time_per_sample) (b := UInt64.ofNat (window.blocks.length - 1))
      (by rw [hsample_val, hcount64]; exact hexpected)
  have hpos : 0 < expected.toNat := by
    rw [hexpected_val, hsample_val, hcount64]
    exact Nat.mul_pos hsample (by omega)
  obtain ⟨bits, hbits, hretargets⟩ : ∃ bits, difficulty_bits self.genesis_bits
      self.max_difficulty_target.val self.min_difficulty_window_len
      (fun difficulty_blocks_len => do
        let time_per_sample ← checked_mul self.target_time_per_block self.difficulty_sample_rate
        checked_mul time_per_sample difficulty_blocks_len)
      difficulty_blocks = some bits ∧
      Retargets difficulty_blocks expected.toNat self.max_difficulty_target.val
        (from_compact_target_bits bits) :=
    difficulty_bits_spec self.max_difficulty_target.isLt (by omega) (by omega) (by omega)
      (by simp only [hlength, hmul, hmul', Option.bind_eq_bind, Option.bind_some]) hpos
  refine ⟨difficulty_blocks, bits, hblocks, hmap, ?_, ?_⟩
  · rw [calculate_difficulty_bits, hblocks]
    exact hbits
  · rwa [hexpected_val, hsample_val, hcount64] at hretargets

end SampledDifficultyManager


-- Both managers, on every window of at least their minimal length whose blocks all have
-- headers and whose expected duration fits in a `u64`, return bits that decode to at most
-- the maximal target and to the rounding of the retarget formula over the window without its
-- earliest block; and with the averaged targets and the window length fixed, a longer
-- measured duration never decodes lower.
theorem calculate_difficulty_bits_retarget :
    (∀ (manager : FullDifficultyManager) (window : BlockWindowHeap),
      (∀ item ∈ window.blocks, item.hash ∈ manager.headers_store) →
      manager.min_difficulty_window_len ≤ window.blocks.length →
      0 < manager.target_time_per_block.toNat →
      manager.target_time_per_block.toNat * (window.blocks.length - 1) < 2 ^ 64 →
      ∃ difficulty_blocks bits,
        get_difficulty_blocks manager.headers_store window = some difficulty_blocks ∧
        manager.calculate_difficulty_bits window = some bits ∧
        from_compact_target_bits bits ≤ manager.max_difficulty_target.val ∧
        Retargets difficulty_blocks
          (manager.target_time_per_block.toNat * (window.blocks.length - 1))
          manager.max_difficulty_target.val (from_compact_target_bits bits)) ∧
    (∀ (manager : SampledDifficultyManager) (window : BlockWindowHeap),
      (∀ item ∈ window.blocks, item.hash ∈ manager.headers_store) →
      manager.min_difficulty_window_len ≤ window.blocks.length →
      0 < manager.target_time_per_block.toNat → 0 < manager.difficulty_sample_rate.toNat →
      manager.target_time_per_block.toNat * manager.difficulty_sample_rate.toNat *
        (window.blocks.length - 1) < 2 ^ 64 →
      ∃ difficulty_blocks bits,
        get_difficulty_blocks manager.headers_store window = some difficulty_blocks ∧
        manager.calculate_difficulty_bits window = some bits ∧
        from_compact_target_bits bits ≤ manager.max_difficulty_target.val ∧
        Retargets difficulty_blocks (manager.target_time_per_block.toNat *
            manager.difficulty_sample_rate.toNat * (window.blocks.length - 1))
          manager.max_difficulty_target.val (from_compact_target_bits bits)) ∧
    (∀ targets_sum count measured measured' expected max_target : Nat, measured ≤ measured' →
      Mantissa.trunc 23 (retarget targets_sum count measured expected max_target) ≤
        Mantissa.trunc 23 (retarget targets_sum count measured' expected max_target)) := by
  refine ⟨?_, ?_, ?_⟩
  · intro manager window hheaders hlen htime hexpected
    obtain ⟨difficulty_blocks, bits, hblocks, -, hbits, hretargets⟩ :=
      manager.calculate_difficulty_bits_spec hheaders hlen htime hexpected
    exact ⟨difficulty_blocks, bits, hblocks, hbits, hretargets.le_max, hretargets⟩
  · intro manager window hheaders hlen htime hrate hexpected
    obtain ⟨difficulty_blocks, bits, hblocks, -, hbits, hretargets⟩ :=
      manager.calculate_difficulty_bits_spec hheaders hlen htime hrate hexpected
    exact ⟨difficulty_blocks, bits, hblocks, hbits, hretargets.le_max, hretargets⟩
  · intro targets_sum count measured measured' expected max_target h
    exact trunc_retarget_mono h

-- Ten blocks, the block `[k]` with blue work `k`.
def retarget_window : BlockWindowHeap :=
  ⟨[⟨[1], 1⟩, ⟨[2], 2⟩, ⟨[3], 3⟩, ⟨[4], 4⟩, ⟨[5], 5⟩, ⟨[6], 6⟩, ⟨[7], 7⟩, ⟨[8], 8⟩, ⟨[9], 9⟩,
    ⟨[10], 10⟩], .Full, by decide⟩

-- Block `[1]` has the target `2 ^ 20` and every other block the target 1. In the first store
-- block `[1]` is the earliest and the window spans ten seconds; in the second block `[2]` is,
-- and the window spans nine.
def early_big_headers : AList fun _ : Hash => CompactHeaderData :=
  List.toAList [⟨[1], ⟨0, 0x03100000⟩⟩, ⟨[2], ⟨1000, 0x03000001⟩⟩, ⟨[3], ⟨2000, 0x03000001⟩⟩,
    ⟨[4], ⟨3000, 0x03000001⟩⟩, ⟨[5], ⟨4000, 0x03000001⟩⟩, ⟨[6], ⟨5000, 0x03000001⟩⟩,
    ⟨[7], ⟨6000, 0x03000001⟩⟩, ⟨[8], ⟨7000, 0x03000001⟩⟩, ⟨[9], ⟨8000, 0x03000001⟩⟩,
    ⟨[10], ⟨10000, 0x03000001⟩⟩]

def late_big_headers : AList fun _ : Hash => CompactHeaderData :=
  List.toAList [⟨[1], ⟨1000, 0x03100000⟩⟩, ⟨[2], ⟨0, 0x03000001⟩⟩, ⟨[3], ⟨2000, 0x03000001⟩⟩,
    ⟨[4], ⟨3000, 0x03000001⟩⟩, ⟨[5], ⟨4000, 0x03000001⟩⟩, ⟨[6], ⟨5000, 0x03000001⟩⟩,
    ⟨[7], ⟨6000, 0x03000001⟩⟩, ⟨[8], ⟨7000, 0x03000001⟩⟩, ⟨[9], ⟨8000, 0x03000001⟩⟩,
    ⟨[10], ⟨9000, 0x03000001⟩⟩]

-- Managers with the genesis bits and the maximal target of the networks, the legacy window
-- size and the least minimal window length.
def retarget_full_manager (headers_store : AList fun _ : Hash => CompactHeaderData)
    (target_time_per_block : UInt64) : FullDifficultyManager :=
  ⟨headers_store, 0x1e7fffff, ⟨2 ^ 255 - 1, by norm_num⟩, 2641, 10, target_time_per_block,
    by decide⟩

def retarget_sampled_manager (headers_store : AList fun _ : Hash => CompactHeaderData)
    (difficulty_sample_rate target_time_per_block : UInt64) : SampledDifficultyManager :=
  ⟨headers_store, 0x1e7fffff, ⟨2 ^ 255 - 1, by norm_num⟩, 661, 10, difficulty_sample_rate,
    target_time_per_block, by decide⟩

theorem calculate_difficulty_bits_retarget_late_big :
    (∃ difficulty_blocks bits,
      get_difficulty_blocks late_big_headers retarget_window = some difficulty_blocks ∧
      (retarget_full_manager late_big_headers 1000).calculate_difficulty_bits retarget_window =
        some bits ∧
      from_compact_target_bits bits ≤ 2 ^ 255 - 1 ∧
      Retargets difficulty_blocks (1000 * 9) (2 ^ 255 - 1) (from_compact_target_bits bits)) ∧
    (∃ difficulty_blocks bits,
      get_difficulty_blocks late_big_headers retarget_window = some difficulty_blocks ∧
      (retarget_sampled_manager late_big_headers 4 1000).calculate_difficulty_bits
        retarget_window = some bits ∧
      from_compact_target_bits bits ≤ 2 ^ 255 - 1 ∧
      Retargets difficulty_blocks (1000 * 4 * 9) (2 ^ 255 - 1) (from_compact_target_bits bits)) :=
  ⟨calculate_difficulty_bits_retarget.1 (retarget_full_manager late_big_headers 1000)
      retarget_window (by decide +kernel) (by decide) (by decide) (by decide),
    calculate_difficulty_bits_retarget.2.1 (retarget_sampled_manager late_big_headers 4 1000)
      retarget_window (by decide +kernel) (by decide) (by decide) (by decide) (by decide)⟩

-- The retarget is not total: a target time whose product with the window length overflows a
-- `u64` panics. Nor is it monotone in the timestamps alone: with the same window and the same
-- bits, the window that spans ten seconds retargets to 1 and the one that spans nine to
-- 116509, because a different block is the earliest and is left out of the average.
theorem calculate_difficulty_bits_overflow_or_lower :
    (retarget_full_manager early_big_headers (2 ^ 63)).calculate_difficulty_bits
        retarget_window = none ∧
      (retarget_full_manager early_big_headers 1000).calculate_difficulty_bits retarget_window =
        some (compact_target_bits 1) ∧
      (retarget_full_manager late_big_headers 1000).calculate_difficulty_bits retarget_window =
        some (compact_target_bits 116509) ∧
      from_compact_target_bits (compact_target_bits 1) = 1 ∧
      from_compact_target_bits (compact_target_bits 116509) = 116509 :=
  ⟨by decide +kernel, by decide +kernel, by decide +kernel, by decide +kernel, by decide +kernel⟩

end Waglayla.Consensus
