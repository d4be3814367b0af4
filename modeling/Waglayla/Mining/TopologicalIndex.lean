import Mathlib.Data.List.AList
import Mathlib.Algebra.Order.BigOperators.Group.List
import Mathlib.Algebra.Order.Group.Nat
import Waglayla.Graph.Acyclic
import Waglayla.Maps.AListFold
import Mathlib.Algebra.GroupWithZero.Nat

-- `TopologicalIndex`: Kahn's algorithm with a `u32` in-degree map, whose counters panic on
-- overflow and underflow, as does a lookup of a missing key.

namespace Waglayla.Mining

inductive TopologicalIndexError
  | HasCycle
  | IndexHasNonUniqueKey
  | IndexHasWrongKeySet
  | IndexIsNotTopological
  deriving DecidableEq, Repr

-- `HashMap<TKey, u32>`: a counter per key.
abbrev InDegree (K : Type) := AList fun _ : K => Nat

section Kahn

variable {K : Type} [DecidableEq K] (edges : K → Option (List K))

-- `*in_degree.get_mut(node).unwrap() += 1` on a `u32` counter.
def increment (in_degree : InDegree K) (node : K) : Option (InDegree K) := do
  let degree ← in_degree.lookup node
  if degree + 1 < 2 ^ 32 then some (in_degree.insert node (degree + 1)) else none

-- A zero counter for every key, then one more for every edge that ends at it.
def count_in_degrees (nodes : List K) : Option (InDegree K) :=
  nodes.foldlM (fun in_degree key => ((edges key).getD []).foldlM increment in_degree)
    (nodes.foldl (fun in_degree key => in_degree.insert key 0) ∅)

-- One edge out of the dequeued key: `*degree -= 1` panics at zero, and a key whose count
-- reaches zero joins the back of the queue.
def relax (state : InDegree K × List K) (node : K) : Option (InDegree K × List K) := do
  let degree ← state.1.lookup node
  if degree = 0 then none
  else some (state.1.insert node (degree - 1),
    if degree - 1 = 0 then state.2 ++ [node] else state.2)

-- The `while` loop over the queue. A key enters the queue at most once, so the loop runs at
-- most once per key; `fuel` is that count.
def drain : Nat → InDegree K → List K → List K → Option (List K)
  | _, _, [], sorted => some sorted
  | 0, _, _ :: _, _ => none
  | fuel + 1, in_degree, current :: queue, sorted => do
    let (in_degree, queue) ← ((edges current).getD []).foldlM relax (in_degree, queue)
    drain fuel in_degree queue (sorted ++ [current])

def topological_index (nodes : List K) : Option (Except TopologicalIndexError (List K)) := do
  let in_degree ← count_in_degrees edges nodes
  let queue := (in_degree.entries.filter fun entry => entry.2 = 0).map Sigma.fst
  let sorted ← drain edges nodes.length in_degree queue []
  if sorted.length ≠ nodes.length then some (.error .HasCycle) else some (.ok sorted)

-- How many times `y` stands in the edge lists of the keys `xs`.
def in_degree_of (xs : List K) (y : K) : Nat := (xs.map fun x => ((edges x).getD []).count y).sum

theorem in_degree_of_cons (x : K) (xs : List K) (y : K) :
    in_degree_of edges (x :: xs) y = ((edges x).getD []).count y + in_degree_of edges xs y := by
  simp [in_degree_of]

theorem in_degree_of_perm {xs ys : List K} (h : xs.Perm ys) (y : K) :
    in_degree_of edges xs y = in_degree_of edges ys y :=
  (h.map _).sum_eq

theorem in_degree_of_eq_zero {xs : List K} {y : K} :
    in_degree_of edges xs y = 0 ↔ ∀ x ∈ xs, y ∉ (edges x).getD [] := by
  simp [in_degree_of, List.sum_eq_zero_iff, List.count_eq_zero]

-- With edge lists listed once, a key has at most one edge from each key.
theorem in_degree_of_le_length {xs : List K} (h : ∀ x ∈ xs, ((edges x).getD []).Nodup) (y : K) :
    in_degree_of edges xs y ≤ xs.length := by
  have hle := List.sum_le_card_nsmul (xs.map fun x => ((edges x).getD []).count y) 1 (by
    simp only [List.mem_map]
    rintro _ ⟨x, hx, rfl⟩
    exact List.nodup_iff_count_le_one.mp (h x hx) y)
  simpa [in_degree_of] using hle

-- With edge lists listed once, the in-degree counts the keys with an edge to `y`.
theorem in_degree_of_eq_length_filter {xs : List K} (h : ∀ x ∈ xs, ((edges x).getD []).Nodup)
    (y : K) : in_degree_of edges xs y = (xs.filter fun x => y ∈ (edges x).getD []).length := by
  induction xs with
  | nil => rfl
  | cons x xs ih =>
    rw [in_degree_of_cons, ih fun x' hx' => h x' (List.mem_cons_of_mem x hx'), List.filter_cons]
    by_cases hy : y ∈ (edges x).getD []
    · rw [List.count_eq_one_of_mem (h x List.mem_cons_self) hy, if_pos (by simpa using hy),
        List.length_cons]
      omega
    · rw [List.count_eq_zero_of_not_mem hy, if_neg (by simpa using hy)]
      omega

section Count

theorem increment_eq {d : InDegree K} {x : K} {c : Nat} (hc : d.lookup x = some c)
    (hbound : c + 1 < 2 ^ 32) : increment d x = some (d.insert x (c + 1)) := by
  simp only [increment, hc, Option.bind_eq_bind, Option.bind_some]
  rw [if_pos hbound]

-- The increments along one edge list add its count to every counter it names.
theorem foldlM_increment (es : List K) (d : InDegree K)
    (hmem : ∀ y ∈ es, ∃ c, d.lookup y = some c ∧ c + es.count y < 2 ^ 32) :
    ∃ d', es.foldlM increment d = some d' ∧
      ∀ y, d'.lookup y = (d.lookup y).map (· + es.count y) := by
  induction es generalizing d with
  | nil => exact ⟨d, rfl, fun y => by cases d.lookup y <;> rfl⟩
  | cons x es ih =>
    obtain ⟨c, hc, hbound⟩ := hmem x List.mem_cons_self
    rw [List.count_cons_self] at hbound
    have hrest : ∀ y ∈ es, ∃ c', (d.insert x (c + 1)).lookup y = some c' ∧
        c' + es.count y < 2 ^ 32 := by
      intro y hy
      by_cases hxy : y = x
      · subst hxy
        exact ⟨c + 1, AList.lookup_insert d, by omega⟩
      · obtain ⟨c', hc', hbound'⟩ := hmem y (List.mem_cons_of_mem x hy)
        rw [List.count_cons_of_ne (Ne.symm hxy)] at hbound'
        exact ⟨c', by rw [AList.lookup_insert_ne hxy, hc'], hbound'⟩
    obtain ⟨d', hd', hlookup⟩ := ih (d.insert x (c + 1)) hrest
    refine ⟨d', by rw [List.foldlM_cons, increment_eq hc (by omega)]; exact hd', fun y => ?_⟩
    rw [hlookup]
    by_cases hxy : y = x
    · subst hxy
      simp only [AList.lookup_insert, hc, Option.map_some, List.count_cons_self]
      congr 1
      omega
    · rw [AList.lookup_insert_ne hxy, List.count_cons_of_ne (Ne.symm hxy)]

-- The increments along the edge lists of `xs` add the in-degree from `xs` to every counter.
theorem foldlM_count (xs : List K) (d : InDegree K)
    (hedges : ∀ x ∈ xs, ∀ y ∈ (edges x).getD [], (d.lookup y).isSome)
    (hbound : ∀ y c, d.lookup y = some c → c + in_degree_of edges xs y < 2 ^ 32) :
    ∃ d', xs.foldlM (fun in_degree key => ((edges key).getD []).foldlM increment in_degree) d =
        some d' ∧ ∀ y, d'.lookup y = (d.lookup y).map (· + in_degree_of edges xs y) := by
  induction xs generalizing d with
  | nil => exact ⟨d, rfl, fun y => by cases d.lookup y <;> rfl⟩
  | cons x xs ih =>
    obtain ⟨d₁, hd₁, hlookup₁⟩ := foldlM_increment ((edges x).getD []) d (by
      intro y hy
      obtain ⟨c, hc⟩ := Option.isSome_iff_exists.mp (hedges x List.mem_cons_self y hy)
      have := hbound y c hc
      rw [in_degree_of_cons] at this
      exact ⟨c, hc, by omega⟩)
    have hedges₁ : ∀ x' ∈ xs, ∀ y ∈ (edges x').getD [], (d₁.lookup y).isSome := by
      intro x' hx' y hy
      rw [hlookup₁, Option.isSome_map]
      exact hedges x' (List.mem_cons_of_mem x hx') y hy
    have hbound₁ : ∀ y c, d₁.lookup y = some c → c + in_degree_of edges xs y < 2 ^ 32 := by
      intro y c hc
      rw [hlookup₁] at hc
      obtain ⟨c₀, hc₀, rfl⟩ := Option.map_eq_some_iff.mp hc
      have := hbound y c₀ hc₀
      rw [in_degree_of_cons] at this
      omega
    obtain ⟨d', hd', hlookup'⟩ := ih d₁ hedges₁ hbound₁
    refine ⟨d', by rw [List.foldlM_cons, hd₁]; exact hd', fun y => ?_⟩
    rw [hlookup', hlookup₁, Option.map_map, in_degree_of_cons]
    congr 1
    funext c
    simp only [Function.comp_apply]
    omega

-- The counting phase: every listed key gets its in-degree.
theorem count_in_degrees_spec (nodes : List K)
    (hclosed : ∀ x ∈ nodes, ∀ y ∈ (edges x).getD [], y ∈ nodes)
    (hbound : ∀ y ∈ nodes, in_degree_of edges nodes y < 2 ^ 32) :
    ∃ d, count_in_degrees edges nodes = some d ∧
      ∀ y, d.lookup y = if y ∈ nodes then some (in_degree_of edges nodes y) else none := by
  have hzero := AListFold.lookup_foldl_insert_const 0 nodes ∅
  obtain ⟨d, hd, hlookup⟩ := foldlM_count edges nodes
    (nodes.foldl (fun in_degree key => in_degree.insert key 0) ∅)
    (fun x hx y hy => by simp [hzero, hclosed x hx y hy])
    (fun y c hc => by
      rw [hzero] at hc
      split_ifs at hc with hy
      · cases hc
        simpa using hbound y hy
      · simp at hc)
  refine ⟨d, hd, fun y => ?_⟩
  rw [hlookup, hzero]
  split_ifs <;> simp

-- A successful increment raises the counter it names by one, to below 2^32.
theorem increment_eq_some {d d' : InDegree K} {x : K} (h : increment d x = some d') :
    ∃ c, d.lookup x = some c ∧ c + 1 < 2 ^ 32 ∧ d' = d.insert x (c + 1) := by
  simp only [increment, Option.bind_eq_bind] at h
  cases hc : d.lookup x with
  | none => simp [hc] at h
  | some c =>
    simp only [hc, Option.bind_some] at h
    split_ifs at h with hb
    exact ⟨c, rfl, hb, (Option.some_inj.mp h).symm⟩

-- After a run of increments that did not panic, every counter is its start plus its count,
-- and a counter the run raised is below 2^32.
theorem foldlM_increment_of_eq_some {es : List K} {d d' : InDegree K}
    (h : es.foldlM increment d = some d') (y : K) :
    d'.lookup y = (d.lookup y).map (· + es.count y) ∧
      (0 < es.count y → ∀ c, d'.lookup y = some c → c < 2 ^ 32) := by
  induction es generalizing d with
  | nil =>
    cases h
    simp
  | cons x es ih =>
    rw [List.foldlM_cons, Option.bind_eq_bind, Option.bind_eq_some_iff] at h
    obtain ⟨d₁, hd₁, hrest⟩ := h
    obtain ⟨c₀, hc₀, hb₀, rfl⟩ := increment_eq_some hd₁
    obtain ⟨hlookup, hbound⟩ := ih hrest
    by_cases hxy : y = x
    · subst hxy
      rw [AList.lookup_insert, Option.map_some] at hlookup
      rw [List.count_cons_self, hc₀, Option.map_some]
      refine ⟨by rw [hlookup]; congr 1; omega, fun _ c hc => ?_⟩
      -- the counter ends at the last increment of the run that named it
      by_cases hes : 0 < es.count y
      · exact hbound hes c hc
      · rw [hlookup, Option.some_inj] at hc
        omega
    · rw [AList.lookup_insert_ne hxy] at hlookup
      rw [List.count_cons_of_ne (Ne.symm hxy)]
      exact ⟨hlookup, hbound⟩

-- The same for the increments along the edge lists of `xs`, with the in-degree from `xs`.
theorem foldlM_count_of_eq_some {xs : List K} {d d' : InDegree K}
    (h : xs.foldlM (fun in_degree key => ((edges key).getD []).foldlM increment in_degree) d =
      some d') (y : K) :
    d'.lookup y = (d.lookup y).map (· + in_degree_of edges xs y) ∧
      (0 < in_degree_of edges xs y → ∀ c, d'.lookup y = some c → c < 2 ^ 32) := by
  induction xs generalizing d with
  | nil =>
    cases h
    simp [in_degree_of]
  | cons x xs ih =>
    rw [List.foldlM_cons, Option.bind_eq_bind, Option.bind_eq_some_iff] at h
    obtain ⟨d₁, hd₁, hrest⟩ := h
    obtain ⟨hlookup₁, hbound₁⟩ := foldlM_increment_of_eq_some hd₁ y
    obtain ⟨hlookup, hbound⟩ := ih hrest
    rw [in_degree_of_cons]
    refine ⟨?_, fun hpos c hc => ?_⟩
    · rw [hlookup, hlookup₁, Option.map_map]
      congr 1
      funext c
      simp only [Function.comp_apply]
      omega
    -- the last pass that raised the counter checked its bound
    by_cases hxs : 0 < in_degree_of edges xs y
    · exact hbound hxs c hc
    · have hzero : in_degree_of edges xs y = 0 := by omega
      rw [hlookup, hzero] at hc
      simp only [Nat.add_zero, Option.map_id'] at hc
      exact hbound₁ (by omega) c hc

-- A run of the counting phase that does not panic leaves every listed key below 2^32
-- incoming edges.
theorem in_degree_of_lt_of_count_in_degrees {nodes : List K} {d : InDegree K}
    (h : count_in_degrees edges nodes = some d) {y : K} (hy : y ∈ nodes) :
    in_degree_of edges nodes y < 2 ^ 32 := by
  obtain ⟨hlookup, hbound⟩ := foldlM_count_of_eq_some edges h y
  rw [AListFold.lookup_foldl_insert_const, if_pos hy, Option.map_some, Nat.zero_add] at hlookup
  by_cases hpos : 0 < in_degree_of edges nodes y
  · exact hbound hpos _ hlookup
  · omega

-- A listed key with 2^32 incoming edges makes the counting phase panic.
theorem topological_index_eq_none {nodes : List K} {y : K} (hy : y ∈ nodes)
    (hdeg : 2 ^ 32 ≤ in_degree_of edges nodes y) : topological_index edges nodes = none := by
  cases h : count_in_degrees edges nodes with
  | none => simp [topological_index, h]
  | some d => exact absurd (in_degree_of_lt_of_count_in_degrees edges h hy) (by omega)

end Count

section Drain

variable (nodes : List K)

-- The in-degree a key has left: its edges from the keys not yet sorted.
def remaining (sorted : List K) (y : K) : Nat :=
  in_degree_of edges (nodes.filter fun x => x ∉ sorted) y

-- The state of the loop: every counter holds the edges left to its key; the sorted and the
-- queued keys are distinct listed keys; a queued key has no edge left, and a key with none
-- is queued or sorted; a sorted key comes after every key with an edge to it.
structure DrainInv (in_degree : InDegree K) (queue sorted : List K) : Prop where
  degree : ∀ y ∈ nodes, in_degree.lookup y = some (remaining edges nodes sorted y)
  nodup : (sorted ++ queue).Nodup
  mem : ∀ y ∈ sorted ++ queue, y ∈ nodes
  queued : ∀ y ∈ queue, remaining edges nodes sorted y = 0
  complete : ∀ y ∈ nodes, remaining edges nodes sorted y = 0 → y ∈ sorted ++ queue
  ordered : ∀ l₁ y l₂, sorted = l₁ ++ y :: l₂ → ∀ x ∈ nodes, y ∈ (edges x).getD [] → x ∈ l₁

variable {nodes}

-- Sorting one more key takes its edges off the in-degrees left.
theorem remaining_snoc (hnodup : nodes.Nodup) {sorted : List K} {current : K}
    (hcurrent : current ∈ nodes) (hnot : current ∉ sorted) (y : K) :
    remaining edges nodes (sorted ++ [current]) y + ((edges current).getD []).count y =
      remaining edges nodes sorted y := by
  unfold remaining
  have hmem : current ∈ nodes.filter fun x => x ∉ sorted :=
    List.mem_filter.mpr ⟨hcurrent, by simpa using hnot⟩
  have herase : (nodes.filter fun x => x ∉ sorted).erase current =
      nodes.filter fun x => x ∉ sorted ++ [current] := by
    rw [(hnodup.filter _).erase_eq_filter, List.filter_filter]
    congr 1
    funext x
    by_cases hx : x = current <;> simp [hx]
  rw [in_degree_of_perm edges (List.perm_cons_erase hmem) y, in_degree_of_cons, herase]
  omega

theorem DrainInv.remaining_of_sorted {d : InDegree K} {queue sorted : List K}
    (hinv : DrainInv edges nodes d queue sorted) {y : K} (hy : y ∈ sorted) :
    remaining edges nodes sorted y = 0 := by
  obtain ⟨l₁, l₂, hsplit⟩ := List.append_of_mem hy
  refine (in_degree_of_eq_zero edges).mpr fun x hx hxy => ?_
  rw [List.mem_filter] at hx
  have hx₁ := hinv.ordered l₁ y l₂ hsplit x hx.1 hxy
  simp only [decide_eq_true_eq] at hx
  exact hx.2 (hsplit ▸ List.mem_append_left _ hx₁)

theorem relax_eq {d : InDegree K} {x : K} {c : Nat} (hc : d.lookup x = some c) (hpos : 0 < c)
    (queue : List K) :
    relax (d, queue) x =
      some (d.insert x (c - 1), if c - 1 = 0 then queue ++ [x] else queue) := by
  simp only [relax, hc, Option.bind_eq_bind, Option.bind_some]
  rw [if_neg (Nat.pos_iff_ne_zero.mp hpos)]

-- Relaxing one edge list takes its count off every counter it names, and queues, once and in
-- order, the keys whose counter reaches zero.
theorem foldlM_relax (es : List K) (d : InDegree K) (queue : List K)
    (hmem : ∀ y ∈ es, ∃ c, d.lookup y = some c ∧ es.count y ≤ c) :
    ∃ d' new, es.foldlM relax (d, queue) = some (d', queue ++ new) ∧
      (∀ y, d'.lookup y = (d.lookup y).map (· - es.count y)) ∧ new.Nodup ∧
      ∀ y, y ∈ new ↔ y ∈ es ∧ d.lookup y = some (es.count y) := by
  induction es generalizing d queue with
  | nil =>
    refine ⟨d, [], by simp, fun y => ?_, List.nodup_nil, by simp⟩
    cases d.lookup y <;> rfl
  | cons x es ih =>
    obtain ⟨c, hc, hcount⟩ := hmem x List.mem_cons_self
    rw [List.count_cons_self] at hcount
    have hrest : ∀ y ∈ es, ∃ c', (d.insert x (c - 1)).lookup y = some c' ∧ es.count y ≤ c' := by
      intro y hy
      by_cases hxy : y = x
      · subst hxy
        exact ⟨c - 1, AList.lookup_insert d, by omega⟩
      · obtain ⟨c', hc', hcount'⟩ := hmem y (List.mem_cons_of_mem x hy)
        rw [List.count_cons_of_ne (Ne.symm hxy)] at hcount'
        exact ⟨c', by rw [AList.lookup_insert_ne hxy, hc'], hcount'⟩
    obtain ⟨d', new, hfold, hlookup, hnodup, hnew⟩ :=
      ih (d.insert x (c - 1)) (if c - 1 = 0 then queue ++ [x] else queue) hrest
    -- the key of this edge is queued here exactly when its counter reaches zero
    refine ⟨d', (if c - 1 = 0 then [x] else []) ++ new, ?_, fun y => ?_, ?_, fun y => ?_⟩
    · rw [List.foldlM_cons, relax_eq hc (by omega)]
      simp only [Option.bind_eq_bind, Option.bind_some]
      rw [hfold]
      split_ifs <;> simp
    · rw [hlookup]
      by_cases hxy : y = x
      · subst hxy
        simp only [AList.lookup_insert, hc, Option.map_some, List.count_cons_self]
        congr 1
        omega
      · rw [AList.lookup_insert_ne hxy, List.count_cons_of_ne (Ne.symm hxy)]
    · split_ifs with hzero
      · refine List.nodup_cons.mpr ⟨fun hx => ?_, hnodup⟩
        obtain ⟨hx, hlookup_x⟩ := (hnew x).mp hx
        rw [AList.lookup_insert, Option.some_inj] at hlookup_x
        have := List.count_pos_iff.mpr hx
        omega
      · exact hnodup
    · rw [List.mem_append, hnew, List.mem_cons]
      by_cases hxy : y = x
      · subst hxy
        rw [AList.lookup_insert, hc, Option.some_inj, Option.some_inj, List.count_cons_self]
        have hpos : 0 < es.count y ↔ y ∈ es := List.count_pos_iff
        by_cases hzero : c - 1 = 0
        · rw [if_pos hzero]
          simp only [List.mem_cons, true_or, true_and, true_iff]
          omega
        · rw [if_neg hzero]
          simp only [List.not_mem_nil, false_or, true_or, true_and]
          constructor
          · rintro ⟨-, h⟩
            omega
          · intro h
            exact ⟨hpos.mp (by omega), by omega⟩
      · rw [AList.lookup_insert_ne hxy, List.count_cons_of_ne (Ne.symm hxy)]
        split_ifs <;> simp [hxy]

omit [DecidableEq K] in
-- A sorted list stays ordered when a key all of whose predecessors are sorted joins it.
theorem ordered_snoc {sorted : List K} {current : K}
    (hordered : ∀ l₁ y l₂, sorted = l₁ ++ y :: l₂ → ∀ x ∈ nodes, y ∈ (edges x).getD [] → x ∈ l₁)
    (hcurrent : ∀ x ∈ nodes, current ∈ (edges x).getD [] → x ∈ sorted) :
    ∀ l₁ y l₂, sorted ++ [current] = l₁ ++ y :: l₂ →
      ∀ x ∈ nodes, y ∈ (edges x).getD [] → x ∈ l₁ := by
  intro l₁ y l₂ h x hx hxy
  rcases List.eq_nil_or_concat' l₂ with rfl | ⟨l₂', z, rfl⟩
  · obtain ⟨rfl, hlast⟩ := List.append_inj' h rfl
    rw [List.singleton_inj] at hlast
    exact hcurrent x hx (hlast ▸ hxy)
  · have h' : sorted ++ [current] = (l₁ ++ y :: l₂') ++ [z] := by simpa using h
    exact hordered l₁ y l₂' (List.append_inj' h' rfl).1 x hx hxy

variable (hnodup : nodes.Nodup) (hclosed : ∀ x ∈ nodes, ∀ y ∈ (edges x).getD [], y ∈ nodes)
include hnodup hclosed

-- One round of the loop keeps the invariant.
theorem DrainInv.step {d : InDegree K} {current : K} {queue sorted : List K}
    (hinv : DrainInv edges nodes d (current :: queue) sorted) :
    ∃ d' new, ((edges current).getD []).foldlM relax (d, queue) = some (d', queue ++ new) ∧
      DrainInv edges nodes d' (queue ++ new) (sorted ++ [current]) := by
  have hcurrent : current ∈ nodes := hinv.mem current (by simp)
  have hnot : current ∉ sorted := fun h =>
    (List.nodup_append.mp hinv.nodup).2.2 current h current (by simp) rfl
  have hsnoc := remaining_snoc edges hnodup hcurrent hnot
  have hcurrent_zero : remaining edges nodes sorted current = 0 := hinv.queued current (by simp)
  obtain ⟨d', new, hfold, hlookup, hnew_nodup, hnew⟩ :=
    foldlM_relax ((edges current).getD []) d queue (fun y hy =>
      ⟨_, hinv.degree y (hclosed current hcurrent y hy), by have := hsnoc y; omega⟩)
  -- a new key is one whose edges were all from the current key
  have hnew_iff : ∀ y ∈ nodes, y ∈ new ↔ y ∈ (edges current).getD [] ∧
      remaining edges nodes sorted y = ((edges current).getD []).count y := by
    intro y hy
    rw [hnew, hinv.degree y hy, Option.some_inj]
  have hnew_pos : ∀ y ∈ new, 0 < remaining edges nodes sorted y := by
    intro y hy
    have hy_nodes := hclosed current hcurrent y ((hnew y).mp hy).1
    obtain ⟨hyE, hrem⟩ := (hnew_iff y hy_nodes).mp hy
    rw [hrem]
    exact List.count_pos_iff.mpr hyE
  refine ⟨d', new, hfold, ⟨fun y hy => ?_, ?_, fun y hy => ?_, fun y hy => ?_, fun y hy hy0 => ?_,
    ordered_snoc edges hinv.ordered fun x hx hxc => ?_⟩⟩
  · rw [hlookup, hinv.degree y hy, Option.map_some]
    have := hsnoc y
    congr 1
    omega
  · have hregroup : sorted ++ [current] ++ (queue ++ new) = (sorted ++ current :: queue) ++ new := by
      simp
    rw [hregroup]
    refine List.nodup_append.mpr ⟨hinv.nodup, hnew_nodup, fun a ha b hb hab => ?_⟩
    subst hab
    have hpos := hnew_pos a hb
    rcases List.mem_append.mp ha with ha | ha
    · rw [hinv.remaining_of_sorted edges ha] at hpos
      omega
    · rw [hinv.queued a ha] at hpos
      omega
  · simp only [List.mem_append, List.mem_singleton] at hy
    rcases hy with (hy | rfl) | hy | hy
    · exact hinv.mem y (List.mem_append_left _ hy)
    · exact hcurrent
    · exact hinv.mem y (by simp [hy])
    · exact hclosed current hcurrent y ((hnew y).mp hy).1
  · have := hsnoc y
    rcases List.mem_append.mp hy with hy | hy
    · have := hinv.queued y (List.mem_cons_of_mem _ hy)
      omega
    · have hy_nodes := hclosed current hcurrent y ((hnew y).mp hy).1
      have := ((hnew_iff y hy_nodes).mp hy).2
      omega
  · have := hsnoc y
    by_cases hzero : remaining edges nodes sorted y = 0
    · have := hinv.complete y hy hzero
      simp only [List.mem_append, List.mem_cons] at this ⊢
      tauto
    · have hyE : y ∈ (edges current).getD [] := List.count_pos_iff.mp (by omega)
      have : y ∈ new := (hnew_iff y hy).mpr ⟨hyE, by omega⟩
      simp [this]
  · by_contra hx_not
    have hx_filter : x ∈ nodes.filter fun x => x ∉ sorted := by simp [hx, hx_not]
    exact (in_degree_of_eq_zero edges).mp hcurrent_zero x hx_filter hxc

-- The loop, given a round for every key not yet sorted, ends with the invariant and an
-- empty queue.
theorem drain_spec : ∀ (fuel : Nat) (d : InDegree K) (queue sorted : List K),
    DrainInv edges nodes d queue sorted → nodes.length ≤ fuel + sorted.length →
    ∃ d' sorted', drain edges fuel d queue sorted = some sorted' ∧
      DrainInv edges nodes d' [] sorted'
  | fuel, d, [], sorted, hinv, _ => ⟨d, sorted, by cases fuel <;> rfl, hinv⟩
  | 0, d, current :: queue, sorted, hinv, hfuel => by
    have hle := hinv.nodup.length_le_of_subset fun y hy => hinv.mem y hy
    simp at hle
    omega
  | fuel + 1, d, current :: queue, sorted, hinv, hfuel => by
    obtain ⟨d₁, new, hfold, hinv₁⟩ := hinv.step edges hnodup hclosed
    obtain ⟨d', sorted', hdrain, hinv'⟩ :=
      drain_spec fuel d₁ (queue ++ new) (sorted ++ [current]) hinv₁ (by simp; omega)
    refine ⟨d', sorted', ?_, hinv'⟩
    simp only [drain, hfold, Option.bind_eq_bind, Option.bind_some]
    exact hdrain

omit hnodup hclosed in
-- With a rank increasing along every edge, an empty queue leaves no key unsorted: a key with
-- an edge left has an unsorted predecessor of lower rank.
theorem DrainInv.all_sorted {d : InDegree K} {sorted : List K}
    (hinv : DrainInv edges nodes d [] sorted) (rank : K → Nat)
    (hrank : ∀ x ∈ nodes, ∀ y ∈ (edges x).getD [], rank x < rank y) : ∀ y ∈ nodes, y ∈ sorted := by
  suffices h : ∀ n, ∀ y ∈ nodes, rank y = n → y ∈ sorted from fun y hy => h _ y hy rfl
  intro n
  induction n using Nat.strong_induction_on with
  | _ n ih =>
    intro y hy hrank_y
    by_contra hnot
    have hzero : remaining edges nodes sorted y ≠ 0 := fun h => hnot (by
      simpa using hinv.complete y hy h)
    obtain ⟨x, hx, hxy⟩ : ∃ x ∈ nodes.filter (fun x => x ∉ sorted), y ∈ (edges x).getD [] := by
      by_contra hnone
      push Not at hnone
      exact hzero ((in_degree_of_eq_zero edges).mpr hnone)
    rw [List.mem_filter, decide_eq_true_eq] at hx
    exact hx.2 (ih (rank x) (hrank_y ▸ hrank x hx.1 y hxy) x hx.1 rfl)

end Drain

theorem mem_zero_keys {d : InDegree K} {y : K} :
    y ∈ (d.entries.filter fun entry => entry.2 = 0).map Sigma.fst ↔ d.lookup y = some 0 := by
  simp only [List.mem_map, List.mem_filter, decide_eq_true_eq]
  constructor
  · rintro ⟨⟨k, v⟩, ⟨hmem, rfl⟩, rfl⟩
    exact AList.mem_lookup_iff.mpr hmem
  · intro h
    exact ⟨⟨y, 0⟩, ⟨AList.mem_lookup_iff.mp h, rfl⟩, rfl⟩

-- A first queue listing once each listed key without incoming edges starts the loop with its
-- invariant, whatever its order.
theorem drain_inv_start (nodes : List K) {d : InDegree K}
    (hlookup : ∀ y, d.lookup y = if y ∈ nodes then some (in_degree_of edges nodes y) else none)
    {queue : List K} (hnodup : queue.Nodup)
    (hqueue : ∀ y, y ∈ queue ↔ y ∈ nodes ∧ in_degree_of edges nodes y = 0) :
    DrainInv edges nodes d queue [] := by
  have hremaining : ∀ y, remaining edges nodes [] y = in_degree_of edges nodes y := by
    intro y
    simp [remaining]
  refine ⟨fun y hy => ?_, by simpa using hnodup, fun y hy => ?_, fun y hy => ?_,
    fun y hy hzero => ?_, fun l₁ y l₂ h => ?_⟩
  · rw [hlookup, if_pos hy, hremaining]
  · exact ((hqueue y).mp (by simpa using hy)).1
  · rw [hremaining]
    exact ((hqueue y).mp hy).2
  · rw [hremaining] at hzero
    simpa using (hqueue y).mpr ⟨hy, hzero⟩
  · simp at h

-- The first queue of the index, the keys the in-degree map holds at zero.
theorem drain_inv_init (nodes : List K) {d : InDegree K}
    (hlookup : ∀ y, d.lookup y = if y ∈ nodes then some (in_degree_of edges nodes y) else none) :
    DrainInv edges nodes d ((d.entries.filter fun entry => entry.2 = 0).map Sigma.fst) [] := by
  refine drain_inv_start edges nodes hlookup
    ((List.filter_sublist.map Sigma.fst).nodup d.keys_nodup) fun y => ?_
  rw [mem_zero_keys, hlookup]
  split_ifs with hy <;> simp [hy]

-- Kahn's algorithm on a ranked graph: the index is `Ok`, lists every key once, and puts every
-- key after all the keys with an edge to it.
theorem topological_index_spec (nodes : List K) (hnodup : nodes.Nodup)
    (hclosed : ∀ x ∈ nodes, ∀ y ∈ (edges x).getD [], y ∈ nodes)
    (hbound : ∀ y ∈ nodes, in_degree_of edges nodes y < 2 ^ 32)
    (rank : K → Nat) (hrank : ∀ x ∈ nodes, ∀ y ∈ (edges x).getD [], rank x < rank y) :
    ∃ sorted, topological_index edges nodes = some (.ok sorted) ∧ sorted.Perm nodes ∧
      ∀ l₁ y l₂, sorted = l₁ ++ y :: l₂ → ∀ x ∈ nodes, y ∈ (edges x).getD [] → x ∈ l₁ := by
  obtain ⟨d, hd, hlookup⟩ := count_in_degrees_spec edges nodes hclosed hbound
  obtain ⟨d', sorted, hdrain, hinv'⟩ :=
    drain_spec edges hnodup hclosed nodes.length d _ [] (drain_inv_init edges nodes hlookup)
      (by simp)
  have hperm : sorted.Perm nodes :=
    (List.perm_ext_iff_of_nodup (by simpa using hinv'.nodup) hnodup).mpr fun y =>
      ⟨fun hy => hinv'.mem y (by simpa using hy), hinv'.all_sorted edges rank hrank y⟩
  refine ⟨sorted, ?_, hperm, hinv'.ordered⟩
  simp only [topological_index, hd, Option.bind_eq_bind, Option.bind_some, hdrain]
  rw [if_neg (by simp [hperm.length_eq])]

section Acyclicity

-- An edge of the graph the implementor describes: from a listed key to a key of its edges.
def topology_edge (nodes : List K) (x y : K) : Prop := x ∈ nodes ∧ y ∈ (edges x).getD []

-- Without a cycle, an empty queue leaves no key unsorted: an unsorted key has an edge left,
-- from an unsorted key, and that one is sorted by induction against the edges.
theorem DrainInv.all_sorted_of_acyclic {nodes : List K} {d : InDegree K} {sorted : List K}
    (hinv : DrainInv edges nodes d [] sorted)
    (hacyclic : GraphOrder.Acyclic (topology_edge edges nodes)) : ∀ y ∈ nodes, y ∈ sorted := by
  refine hacyclic.induction (fun x y (h : topology_edge edges nodes x y) => h.1) fun y ih hy => ?_
  by_contra hnot
  have hzero : remaining edges nodes sorted y ≠ 0 := fun h => hnot (by
    simpa using hinv.complete y hy h)
  obtain ⟨x, hx, hxy⟩ : ∃ x ∈ nodes.filter (fun x => x ∉ sorted), y ∈ (edges x).getD [] := by
    by_contra hnone
    push Not at hnone
    exact hzero ((in_degree_of_eq_zero edges).mpr hnone)
  rw [List.mem_filter, decide_eq_true_eq] at hx
  exact hx.2 (ih x ⟨hx.1, hxy⟩ hx.1)

-- Listing the keys once, with edges between listed keys and fewer than 2^32 edges into each,
-- the index never panics: it is `Ok` with every key once and every edge going forward, or it
-- is `HasCycle` and the graph has a cycle.
theorem topological_index_cases (nodes : List K) (hnodup : nodes.Nodup)
    (hclosed : ∀ x ∈ nodes, ∀ y ∈ (edges x).getD [], y ∈ nodes)
    (hbound : ∀ y ∈ nodes, in_degree_of edges nodes y < 2 ^ 32) :
    (topological_index edges nodes = some (.error .HasCycle) ∧
        ¬GraphOrder.Acyclic (topology_edge edges nodes)) ∨
      ∃ sorted, topological_index edges nodes = some (.ok sorted) ∧ sorted.Perm nodes ∧
        ∀ x ∈ nodes, ∀ y ∈ (edges x).getD [], sorted.idxOf x < sorted.idxOf y := by
  obtain ⟨d, hd, hlookup⟩ := count_in_degrees_spec edges nodes hclosed hbound
  obtain ⟨d', sorted, hdrain, hinv'⟩ :=
    drain_spec edges hnodup hclosed nodes.length d _ [] (drain_inv_init edges nodes hlookup)
      (by simp)
  have hsorted_nodup : sorted.Nodup := by simpa using hinv'.nodup
  have hresult : topological_index edges nodes =
      if sorted.length ≠ nodes.length then some (.error .HasCycle) else some (.ok sorted) := by
    simp only [topological_index, hd, Option.bind_eq_bind, Option.bind_some, hdrain]
  -- all keys are sorted exactly when the lengths agree
  have hperm_iff : sorted.Perm nodes ↔ sorted.length = nodes.length := by
    refine ⟨List.Perm.length_eq, fun hlen => ?_⟩
    have hsub : sorted.Subperm nodes :=
      hsorted_nodup.subperm fun y hy => hinv'.mem y (by simpa using hy)
    exact hsub.perm_of_length_le hlen.ge
  by_cases hlen : sorted.length = nodes.length
  · refine .inr ⟨sorted, by rw [hresult, if_neg (not_not.mpr hlen)], hperm_iff.mpr hlen,
      fun x hx y hy => ?_⟩
    have hy_sorted : y ∈ sorted := (hperm_iff.mpr hlen).mem_iff.mpr (hclosed x hx y hy)
    exact GraphOrder.idxOf_lt_of_ordered (r := topology_edge edges nodes)
      (fun l₁ y l₂ h x hxy => hinv'.ordered l₁ y l₂ h x hxy.1 hxy.2) hy_sorted ⟨hx, hy⟩
  · refine .inl ⟨by rw [hresult, if_pos hlen], fun hacyclic => hlen ?_⟩
    have hperm : sorted.Perm nodes :=
      (List.perm_ext_iff_of_nodup hsorted_nodup hnodup).mpr fun y =>
        ⟨fun hy => hinv'.mem y (by simpa using hy), hinv'.all_sorted_of_acyclic edges hacyclic y⟩
    exact hperm.length_eq

-- An index that reports a cycle only when there is one, and otherwise orders every key, is
-- `Ok` exactly on the acyclic graphs.
theorem ok_iff_acyclic_of_cases {nodes : List K}
    {result : Option (Except TopologicalIndexError (List K))}
    (h : (result = some (.error .HasCycle) ∧ ¬GraphOrder.Acyclic (topology_edge edges nodes)) ∨
      ∃ sorted, result = some (.ok sorted) ∧ sorted.Perm nodes ∧
        ∀ x ∈ nodes, ∀ y ∈ (edges x).getD [], sorted.idxOf x < sorted.idxOf y) :
    (∃ sorted, result = some (.ok sorted)) ↔ GraphOrder.Acyclic (topology_edge edges nodes) := by
  rcases h with ⟨hcycle, hnot⟩ | ⟨sorted, hok, -, hforward⟩
  · simp only [hcycle, Option.some.injEq, reduceCtorEq, exists_false, false_iff]
    exact hnot
  · exact ⟨fun _ => GraphOrder.acyclic_of_idxOf_lt sorted fun x y hxy => hforward x hxy.1 y hxy.2,
      fun _ => ⟨sorted, hok⟩⟩

-- The index is `Ok` exactly on the acyclic graphs.
theorem topological_index_ok_iff (nodes : List K) (hnodup : nodes.Nodup)
    (hclosed : ∀ x ∈ nodes, ∀ y ∈ (edges x).getD [], y ∈ nodes)
    (hbound : ∀ y ∈ nodes, in_degree_of edges nodes y < 2 ^ 32) :
    (∃ sorted, topological_index edges nodes = some (.ok sorted)) ↔
      GraphOrder.Acyclic (topology_edge edges nodes) :=
  ok_iff_acyclic_of_cases edges (topological_index_cases edges nodes hnodup hclosed hbound)

end Acyclicity

section Check

-- The `key_index` loop of `check_topological_order` over `sorted.iter().enumerate()`: a key
-- already indexed is `IndexHasNonUniqueKey`, a key that is not a node `IndexHasWrongKeySet`.
def index_keys (node_set : List K) :
    List (K × Nat) → AList (fun _ : K => Nat) → Except TopologicalIndexError (AList fun _ : K => Nat)
  | [], key_index => .ok key_index
  | (key, i) :: rest, key_index =>
    if key ∈ key_index then .error .IndexHasNonUniqueKey
    else if key ∉ node_set then .error .IndexHasWrongKeySet
    else index_keys node_set rest (key_index.insert key i)

-- `key_index[from_key] > key_index[to_key]` along the edges of one key; indexing the map
-- with a key it does not hold panics.
def check_edges_from (key_index : AList fun _ : K => Nat) (from_key : K) :
    List K → Option (Except TopologicalIndexError Unit)
  | [] => some (.ok ())
  | to_key :: rest => do
    let i ← key_index.lookup from_key
    let j ← key_index.lookup to_key
    if i > j then return .error .IndexIsNotTopological
    else check_edges_from key_index from_key rest

def check_edges (key_index : AList fun _ : K => Nat) :
    List K → Option (Except TopologicalIndexError Unit)
  | [] => some (.ok ())
  | from_key :: rest => do
    match ← check_edges_from key_index from_key ((edges from_key).getD []) with
    | .error e => return .error e
    | .ok () => check_edges key_index rest

-- `nodes` is the `HashSet` the listed keys are collected into.
def check_topological_order (nodes sorted : List K) :
    Option (Except TopologicalIndexError Unit) :=
  let node_set := nodes.dedup
  if sorted.length ≠ node_set.length then some (.error .IndexHasWrongKeySet)
  else match index_keys node_set sorted.zipIdx ∅ with
    | .error e => some (.error e)
    | .ok key_index => check_edges edges key_index nodes

-- The key loop succeeds exactly on keys listed once, all of them nodes and none indexed
-- before, and then indexes each key at its position.
theorem index_keys_eq_ok {node_set : List K} :
    ∀ (xs : List K) (n : Nat) (key_index : AList fun _ : K => Nat),
      (∃ key_index', index_keys node_set (xs.zipIdx n) key_index = .ok key_index') ↔
        xs.Nodup ∧ ∀ k ∈ xs, k ∉ key_index ∧ k ∈ node_set
  | [], _, key_index => by simp [index_keys]
  | x :: xs, n, key_index => by
    simp only [List.zipIdx_cons, index_keys]
    by_cases hx : x ∈ key_index
    · simp [hx]
    · by_cases hset : x ∈ node_set
      · rw [if_neg hx, if_neg (not_not.mpr hset), index_keys_eq_ok xs (n + 1)]
        simp only [AList.mem_insert, List.nodup_cons, List.mem_cons, forall_eq_or_imp]
        constructor
        · rintro ⟨hnodup, hrest⟩
          exact ⟨⟨fun hmem => (hrest x hmem).1 (.inl rfl), hnodup⟩, ⟨hx, hset⟩,
            fun k hk => ⟨fun h => (hrest k hk).1 (.inr h), (hrest k hk).2⟩⟩
        · rintro ⟨⟨hnotin, hnodup⟩, -, hrest⟩
          refine ⟨hnodup, fun k hk => ⟨?_, (hrest k hk).2⟩⟩
          rintro (rfl | h)
          · exact hnotin hk
          · exact (hrest k hk).1 h
      · simp [hx, hset]

theorem lookup_index_keys {node_set : List K} :
    ∀ (xs : List K) (n : Nat) (key_index key_index' : AList fun _ : K => Nat),
      xs.Nodup → index_keys node_set (xs.zipIdx n) key_index = .ok key_index' →
      ∀ k, key_index'.lookup k = if k ∈ xs then some (n + xs.idxOf k) else key_index.lookup k
  | [], _, key_index, key_index', _, h, k => by
    simp only [List.zipIdx_nil, index_keys, Except.ok.injEq] at h
    simp [h]
  | x :: xs, n, key_index, key_index', hnodup, h, k => by
    simp only [List.zipIdx_cons, index_keys] at h
    split_ifs at h
    rw [lookup_index_keys xs (n + 1) _ _ (List.nodup_cons.mp hnodup).2 h k]
    by_cases hk : k = x
    · subst hk
      simp [(List.nodup_cons.mp hnodup).1]
    · rw [AList.lookup_insert_ne hk, List.idxOf_cons_ne _ (Ne.symm hk)]
      simp only [List.mem_cons, hk, false_or]
      split_ifs
      · rw [Option.some.injEq]
        omega
      · rfl

theorem check_edges_from_eq {key_index : AList fun _ : K => Nat} {from_key : K} {i : Nat}
    (hi : key_index.lookup from_key = some i) :
    ∀ (ys : List K), (∀ y ∈ ys, ∃ j, key_index.lookup y = some j) →
      (check_edges_from key_index from_key ys = some (.ok ()) ↔
        ∀ y ∈ ys, ∀ j, key_index.lookup y = some j → i ≤ j) ∧
      check_edges_from key_index from_key ys ≠ none
  | [], _ => by simp [check_edges_from]
  | y :: ys, hys => by
    obtain ⟨j, hj⟩ := hys y List.mem_cons_self
    have ih := check_edges_from_eq hi ys fun y' hy' => hys y' (List.mem_cons_of_mem _ hy')
    simp only [check_edges_from, hi, hj, Option.bind_eq_bind, Option.bind_some]
    by_cases hij : i > j
    · simp only [if_pos hij, List.mem_cons, forall_eq_or_imp]
      refine ⟨⟨(fun h => by cases h), fun h => absurd (h.1 j hj) (by omega)⟩, by simp [pure]⟩
    · rw [if_neg hij]
      simp only [List.mem_cons, forall_eq_or_imp, hj, Option.some.injEq, forall_eq']
      exact ⟨ih.1.trans ⟨fun h => ⟨by omega, h⟩, fun h => h.2⟩, ih.2⟩

theorem check_edges_eq {key_index : AList fun _ : K => Nat}
    (hindexed : ∀ x ∈ nodes, (∃ i, key_index.lookup x = some i) ∧
      ∀ y ∈ (edges x).getD [], ∃ j, key_index.lookup y = some j) :
    (check_edges edges key_index nodes = some (.ok ()) ↔
      ∀ x ∈ nodes, ∀ y ∈ (edges x).getD [], ∀ i j, key_index.lookup x = some i →
        key_index.lookup y = some j → i ≤ j) ∧
    check_edges edges key_index nodes ≠ none := by
  induction nodes with
  | nil => simp [check_edges]
  | cons x xs ih =>
    obtain ⟨⟨i, hi⟩, hys⟩ := hindexed x List.mem_cons_self
    obtain ⟨hfrom_iff, hfrom_some⟩ := check_edges_from_eq hi _ hys
    obtain ⟨hrest_iff, hrest_some⟩ := ih fun x' hx' => hindexed x' (List.mem_cons_of_mem _ hx')
    -- the condition at the first key, with its index known
    have hfirst : (∀ y ∈ (edges x).getD [], ∀ i' j, key_index.lookup x = some i' →
        key_index.lookup y = some j → i' ≤ j) ↔
        ∀ y ∈ (edges x).getD [], ∀ j, key_index.lookup y = some j → i ≤ j := by
      constructor
      · intro h y hy j hj
        exact h y hy i j hi hj
      · intro h y hy i' j hi' hj
        rw [hi, Option.some.injEq] at hi'
        exact hi' ▸ h y hy j hj
    rw [List.forall_mem_cons, hfirst, ← hfrom_iff]
    simp only [check_edges, Option.bind_eq_bind]
    cases hfrom : check_edges_from key_index x ((edges x).getD []) with
    | none => exact absurd hfrom hfrom_some
    | some r =>
      cases r with
      | error e => exact ⟨⟨fun h => by simp [pure] at h, fun h => by cases h.1⟩, by simp [pure]⟩
      | ok u => exact ⟨hrest_iff.trans ⟨fun h => ⟨rfl, h⟩, fun h => h.2⟩, hrest_some⟩

-- With the keys listed once and edges between listed keys, `check_topological_order` never
-- panics, and accepts exactly the permutations of the keys in which no edge goes backward:
-- a self-loop `key_index[x] > key_index[x]` is not caught.
theorem check_topological_order_eq_ok_iff (nodes sorted : List K) (hnodup : nodes.Nodup)
    (hclosed : ∀ x ∈ nodes, ∀ y ∈ (edges x).getD [], y ∈ nodes) :
    (check_topological_order edges nodes sorted = some (.ok ()) ↔
      sorted.Perm nodes ∧ ∀ x ∈ nodes, ∀ y ∈ (edges x).getD [], sorted.idxOf x ≤ sorted.idxOf y) ∧
    check_topological_order edges nodes sorted ≠ none := by
  simp only [check_topological_order, hnodup.dedup]
  by_cases hlen : sorted.length = nodes.length
  · rw [if_neg (not_not.mpr hlen)]
    cases hindex : index_keys nodes sorted.zipIdx ∅ with
    | error e =>
      -- a repeated key or a key that is not a node: not a permutation
      have hnot : ¬(sorted.Nodup ∧ ∀ k ∈ sorted, k ∉ (∅ : AList fun _ : K => Nat) ∧ k ∈ nodes) := by
        rw [← index_keys_eq_ok sorted 0 ∅, hindex]
        simp
      refine ⟨⟨fun h => by simp at h, fun ⟨hperm, _⟩ => (hnot ⟨hperm.nodup_iff.mpr hnodup,
        fun k hk => ⟨by simp, hperm.mem_iff.mp hk⟩⟩).elim⟩, by simp⟩
    | ok key_index =>
      obtain ⟨hsorted_nodup, hmem⟩ := (index_keys_eq_ok sorted 0 ∅).mp ⟨key_index, hindex⟩
      have hperm : sorted.Perm nodes := hsorted_nodup.subperm (fun k hk => (hmem k hk).2)
        |>.perm_of_length_le hlen.ge
      have hlookup := lookup_index_keys sorted 0 ∅ key_index hsorted_nodup hindex
      have hlookup_node : ∀ x ∈ nodes, key_index.lookup x = some (sorted.idxOf x) := by
        intro x hx
        rw [hlookup, if_pos (hperm.mem_iff.mpr hx), Nat.zero_add]
      obtain ⟨hcheck_iff, hcheck_some⟩ := check_edges_eq edges fun x (hx : x ∈ nodes) =>
          ⟨⟨_, hlookup_node x hx⟩, fun y hy => ⟨_, hlookup_node y (hclosed x hx y hy)⟩⟩
      refine ⟨hcheck_iff.trans ⟨fun h => ⟨hperm, fun x hx y hy => h x hx y hy _ _
        (hlookup_node x hx) (hlookup_node y (hclosed x hx y hy))⟩, fun h x hx y hy i j hi hj => ?_⟩,
        hcheck_some⟩
      rw [hlookup_node x hx, Option.some.injEq] at hi
      rw [hlookup_node y (hclosed x hx y hy), Option.some.injEq] at hj
      rw [← hi, ← hj]
      exact h.2 x hx y hy
  · rw [if_pos hlen]
    exact ⟨⟨(fun h => by cases h), fun h => absurd h.1.length_eq hlen⟩, by simp⟩

end Check

example : topological_index (fun k : Nat => [[1, 2], [2], []][k]?) [0, 1, 2] =
    some (.ok [0, 1, 2]) := by
  decide

end Kahn

end Waglayla.Mining
