import Waglayla.Mining.TopologicalIndex

-- `topological_index_dfs`: an iterative depth-first search with three colours, where a key may
-- be pushed more than once and the edges of every popped key are scanned.

namespace Waglayla.Mining

inductive Color
  | White
  | Gray
  | Black
  deriving DecidableEq, Repr

-- The `color` map of the search.
abbrev Colors (K : Type) := AList fun _ : K => Color

section Dfs

variable {K : Type} [DecidableEq K] (edges : K → Option (List K))

-- The edge loop of a popped key: a white neighbour is pushed, a grey one is a cycle and a
-- black one is passed; `color.get(node).unwrap()` panics on a key without a colour.
def push_edges (color : Colors K) : List K → List K →
    Option (Except TopologicalIndexError (List K))
  | [], stack => some (.ok stack)
  | node :: nodes, stack =>
    match color.lookup node with
    | some .White => push_edges color nodes (node :: stack)
    | some .Gray => some (.error .HasCycle)
    | some .Black => push_edges color nodes stack
    | none => none

-- One round of `while let Some(current) = stack.pop()`: the popped key changes colour first,
-- and its edges are scanned with the new colours.
def dfs_step (color : Colors K) (current : K) (stack sorted : List K) :
    Option (Except TopologicalIndexError (Colors K × List K × List K)) := do
  let (color, stack, sorted) ← match color.lookup current with
    | some .White => some (color.insert current .Gray, current :: stack, sorted)
    | some .Gray => some (color.insert current .Black, stack, sorted ++ [current])
    | some .Black => some (color, stack, sorted)
    | none => none
  match ← push_edges color ((edges current).getD []) stack with
  | .error e => return .error e
  | .ok stack => return .ok (color, stack, sorted)

-- The search from one root. Every round pops an entry, and the keys and their edges bound how
-- many entries are ever pushed; `fuel` is that bound.
def dfs_loop : Nat → Colors K → List K → List K →
    Option (Except TopologicalIndexError (Colors K × List K))
  | _, color, [], sorted => some (.ok (color, sorted))
  | 0, _, _ :: _, _ => none
  | fuel + 1, color, current :: stack, sorted => do
    match ← dfs_step edges color current stack sorted with
    | .error e => return .error e
    | .ok (color, stack, sorted) => dfs_loop fuel color stack sorted

-- The `for key in self.topology_nodes()` loop: a search from every key still white.
def dfs_roots (fuel : Nat) : List K → Colors K → List K →
    Option (Except TopologicalIndexError (List K))
  | [], _, sorted => some (.ok sorted)
  | key :: keys, color, sorted => do
    if (← color.lookup key) ≠ .White then dfs_roots fuel keys color sorted
    else
      match ← dfs_loop edges fuel color [key] sorted with
      | .error e => return .error e
      | .ok (color, sorted) => dfs_roots fuel keys color sorted

def topological_index_dfs (nodes : List K) : Option (Except TopologicalIndexError (List K)) := do
  let color := nodes.foldl (fun color key => color.insert key Color.White) ∅
  let fuel := 2 * nodes.length + (nodes.map fun key => ((edges key).getD []).length).sum + 1
  match ← dfs_roots edges fuel nodes color [] with
  | .error e => return .error e
  | .ok sorted => return .ok sorted.reverse

section Push

variable {color : Colors K} {es : List K}

-- The edge loop pushes the white neighbours, the last one on top, unless a neighbour is grey.
theorem push_edges_spec (hcolored : ∀ y ∈ es, y ∈ color) :
    ∀ (stack : List K),
      (push_edges color es stack = some (.error .HasCycle) ∧
          ∃ y ∈ es, color.lookup y = some .Gray) ∨
        (push_edges color es stack =
            some (.ok ((es.filter fun y => color.lookup y = some .White).reverse ++ stack)) ∧
          ∀ y ∈ es, color.lookup y ≠ some .Gray) := by
  induction es with
  | nil => simp [push_edges]
  | cons node nodes ih =>
    intro stack
    have ih' := ih fun y hy => hcolored y (List.mem_cons_of_mem _ hy)
    obtain ⟨c, hc⟩ := AList.lookup_isSome.mpr (hcolored node List.mem_cons_self) |>
      Option.isSome_iff_exists.mp
    cases c with
    | White =>
      rcases ih' (node :: stack) with ⟨herr, y, hy, hgray⟩ | ⟨hok, hnot⟩
      · exact .inl ⟨by simp [push_edges, hc, herr], y, List.mem_cons_of_mem _ hy, hgray⟩
      · refine .inr ⟨by simp [push_edges, hc, hok], ?_⟩
        simp only [List.mem_cons, forall_eq_or_imp, hc]
        exact ⟨by simp, hnot⟩
    | Gray => exact .inl ⟨by simp [push_edges, hc], node, List.mem_cons_self, hc⟩
    | Black =>
      rcases ih' stack with ⟨herr, y, hy, hgray⟩ | ⟨hok, hnot⟩
      · exact .inl ⟨by simp [push_edges, hc, herr], y, List.mem_cons_of_mem _ hy, hgray⟩
      · refine .inr ⟨by simp [push_edges, hc, hok], ?_⟩
        simp only [List.mem_cons, forall_eq_or_imp, hc]
        exact ⟨by simp, hnot⟩

end Push

section Stack

-- The entries above the first occurrence of a key other than the top one are the top entry
-- and the entries above it in the rest.
theorem take_idxOf_cons_ne {g current : K} (stack : List K) (hne : g ≠ current) :
    (current :: stack).take ((current :: stack).idxOf g) =
      current :: stack.take (stack.idxOf g) := by
  rw [List.idxOf_cons_ne _ (Ne.symm hne), List.take_succ_cons]

theorem take_idxOf_append {g : K} {pushed : List K} (stack : List K) (hg : g ∉ pushed) :
    (pushed ++ stack).take ((pushed ++ stack).idxOf g) = pushed ++ stack.take (stack.idxOf g) := by
  rw [List.idxOf_append_of_notMem hg, List.take_length_add_append]

omit [DecidableEq K] in
-- Dropping the value of one element of a list lowers the sum by at least that value.
theorem sum_map_le_of_update {l : List K} {f g : K → Nat} {a : K} (ha : a ∈ l)
    (hg : ∀ x, x ≠ a → g x = f x) (hga : g a = 0) : (l.map g).sum + f a ≤ (l.map f).sum := by
  induction l with
  | nil => cases ha
  | cons x l ih =>
    simp only [List.map_cons, List.sum_cons]
    by_cases hx : x = a
    · subst hx
      have hle : (l.map g).sum ≤ (l.map f).sum :=
        List.sum_le_sum fun y _ => by by_cases hy : y = x <;> simp [hy, hga, hg]
      omega
    · have := ih ((List.mem_cons.mp ha).resolve_left (Ne.symm hx))
      rw [hg x hx]
      omega

end Stack

section Invariant

variable (nodes : List K)

-- The measure of the search: the entries on the stack, and for every white key its two
-- rounds, white and grey, and one push per edge.
def pending (color : Colors K) (stack : List K) : Nat :=
  stack.length + (nodes.map fun x =>
    if color.lookup x = some .White then 2 + ((edges x).getD []).length else 0).sum

-- The state of the search between rounds. Every listed key has a colour; the black keys are
-- the post-order so far, each after its neighbours; a grey key is on the stack, the entries
-- above its first occurrence are reachable from it and hold its white neighbours, and it has
-- no edge to itself.
structure SearchInv (color : Colors K) (stack sorted : List K) : Prop where
  colored : ∀ x, x ∈ color ↔ x ∈ nodes
  stack_mem : ∀ x ∈ stack, x ∈ nodes
  black_iff : ∀ x, color.lookup x = some .Black ↔ x ∈ sorted
  nodup : sorted.Nodup
  finished : ∀ l₁ x l₂, sorted = l₁ ++ x :: l₂ → ∀ y ∈ (edges x).getD [], y ∈ l₁
  gray_mem : ∀ g, color.lookup g = some .Gray → g ∈ stack
  gray_reach : ∀ g, color.lookup g = some .Gray → ∀ e ∈ stack.take (stack.idxOf g),
    Relation.TransGen (topology_edge edges nodes) g e
  gray_pending : ∀ g, color.lookup g = some .Gray → ∀ y ∈ (edges g).getD [],
    color.lookup y ≠ some .White ∨ y ∈ stack.take (stack.idxOf g)
  gray_loop : ∀ g, color.lookup g = some .Gray → g ∉ (edges g).getD []

-- Within the search from `root`, the root is on the stack or no longer white.
structure LoopInv (root : K) (color : Colors K) (stack sorted : List K) : Prop
    extends SearchInv edges nodes color stack sorted where
  root_done : root ∈ stack ∨ color.lookup root ≠ some .White

variable {nodes}

omit [DecidableEq K] in
-- A post-order stays one when a key whose neighbours are all in it joins it.
theorem finished_snoc {sorted : List K} {current : K}
    (hfinished : ∀ l₁ x l₂, sorted = l₁ ++ x :: l₂ → ∀ y ∈ (edges x).getD [], y ∈ l₁)
    (hcurrent : ∀ y ∈ (edges current).getD [], y ∈ sorted) :
    ∀ l₁ x l₂, sorted ++ [current] = l₁ ++ x :: l₂ → ∀ y ∈ (edges x).getD [], y ∈ l₁ := by
  intro l₁ x l₂ h y hy
  rcases List.eq_nil_or_concat' l₂ with rfl | ⟨l₂', z, rfl⟩
  · obtain ⟨rfl, hlast⟩ := List.append_inj' h rfl
    rw [List.singleton_inj] at hlast
    exact hcurrent y (hlast ▸ hy)
  · have h' : sorted ++ [current] = (l₁ ++ x :: l₂') ++ [z] := by simpa using h
    exact hfinished l₁ x l₂' (List.append_inj' h' rfl).1 y hy

-- Every key of the graph has one of the three colours.
theorem SearchInv.lookup_eq {color : Colors K} {stack sorted : List K}
    (hinv : SearchInv edges nodes color stack sorted) {x : K} (hx : x ∈ nodes) :
    ∃ c, color.lookup x = some c :=
  Option.isSome_iff_exists.mp (AList.lookup_isSome.mpr ((hinv.colored x).mpr hx))

-- A key that is neither white nor grey is black.
theorem SearchInv.black_of_ne {color : Colors K} {stack sorted : List K}
    (hinv : SearchInv edges nodes color stack sorted) {x : K} (hx : x ∈ nodes)
    (hwhite : color.lookup x ≠ some .White) (hgray : color.lookup x ≠ some .Gray) :
    color.lookup x = some .Black := by
  obtain ⟨c, hc⟩ := hinv.lookup_eq edges hx
  cases c <;> simp_all

-- Popping the top entry blackens its key, or leaves a black key black: the facts about grey
-- keys carry over to the rest of the stack.
theorem LoopInv.pop {root current : K} {color color' : Colors K} {stack sorted : List K}
    (hinv : LoopInv edges nodes root color (current :: stack) sorted)
    (hother : ∀ x, x ≠ current → color'.lookup x = color.lookup x)
    (hcurrent : color'.lookup current = some .Black) :
    (∀ g, color'.lookup g = some .Gray → g ∈ stack) ∧
    (∀ g, color'.lookup g = some .Gray → ∀ e ∈ stack.take (stack.idxOf g),
      Relation.TransGen (topology_edge edges nodes) g e) ∧
    (∀ g, color'.lookup g = some .Gray → ∀ y ∈ (edges g).getD [],
      color'.lookup y ≠ some .White ∨ y ∈ stack.take (stack.idxOf g)) ∧
    (∀ g, color'.lookup g = some .Gray → g ∉ (edges g).getD []) ∧
    (root ∈ stack ∨ color'.lookup root ≠ some .White) := by
  -- a grey key after the round is another key, grey before it
  have hgray : ∀ g, color'.lookup g = some .Gray → g ≠ current ∧ color.lookup g = some .Gray := by
    intro g hg
    have hne : g ≠ current := by
      rintro rfl
      rw [hcurrent] at hg
      cases hg
    exact ⟨hne, hother g hne ▸ hg⟩
  have hwhite : ∀ y, color.lookup y ≠ some .White → color'.lookup y ≠ some .White := by
    intro y hy
    by_cases hyc : y = current
    · rw [hyc, hcurrent]
      simp
    · rwa [hother y hyc]
  refine ⟨fun g hg => ?_, fun g hg e he => ?_, fun g hg y hy => ?_, fun g hg => ?_, ?_⟩
  · obtain ⟨hne, hg⟩ := hgray g hg
    exact (List.mem_cons.mp (hinv.gray_mem g hg)).resolve_left hne
  · obtain ⟨hne, hg⟩ := hgray g hg
    exact hinv.gray_reach g hg e (by rw [take_idxOf_cons_ne stack hne]; exact List.mem_cons_of_mem _ he)
  · obtain ⟨hne, hg⟩ := hgray g hg
    rcases hinv.gray_pending g hg y hy with hy' | hy'
    · exact .inl (hwhite y hy')
    · rw [take_idxOf_cons_ne stack hne] at hy'
      rcases List.mem_cons.mp hy' with rfl | hy'
      · exact .inl (by rw [hcurrent]; simp)
      · exact .inr hy'
  · exact hinv.gray_loop g (hgray g hg).2
  · rcases hinv.root_done with hroot | hroot
    · by_cases hrc : root = current
      · exact .inr (by rw [hrc, hcurrent]; simp)
      · exact .inl ((List.mem_cons.mp hroot).resolve_left hrc)
    · exact .inr (hwhite root hroot)

section Rounds

variable (hclosed : ∀ x ∈ nodes, ∀ y ∈ (edges x).getD [], y ∈ nodes)
variable {root current : K} {color : Colors K} {stack sorted : List K}

include hclosed in
-- A white key turns grey and goes back on the stack under the neighbours that were white.
theorem LoopInv.step_white (pushed : List K)
    (hinv : LoopInv edges nodes root color (current :: stack) sorted)
    (hc : color.lookup current = some .White)
    (hnot : ∀ y ∈ (edges current).getD [], (color.insert current .Gray).lookup y ≠ some .Gray)
    (hpushed : ∀ y, y ∈ pushed ↔
      y ∈ (edges current).getD [] ∧ (color.insert current .Gray).lookup y = some .White)
    (hlen : pushed.length ≤ ((edges current).getD []).length) :
    LoopInv edges nodes root (color.insert current .Gray) (pushed ++ current :: stack) sorted ∧
      pending edges nodes (color.insert current .Gray) (pushed ++ current :: stack) <
        pending edges nodes color (current :: stack) := by
  have hcur : current ∈ nodes := hinv.stack_mem current List.mem_cons_self
  have hat : (color.insert current .Gray).lookup current = some .Gray := AList.lookup_insert _
  have hother : ∀ x, x ≠ current → (color.insert current .Gray).lookup x = color.lookup x :=
    fun x hx => AList.lookup_insert_ne hx
  -- the pushed keys are white, so no grey key is among them
  have hgray_pushed : ∀ g, (color.insert current .Gray).lookup g = some .Gray → g ∉ pushed := by
    intro g hg hmem
    rw [((hpushed g).mp hmem).2] at hg
    cases hg
  -- a grey key other than the popped one was grey before the round
  have hgray : ∀ g, (color.insert current .Gray).lookup g = some .Gray → g ≠ current →
      color.lookup g = some .Gray := fun g hg hne => hother g hne ▸ hg
  refine ⟨{ colored := ?_, stack_mem := ?_, black_iff := ?_, nodup := hinv.nodup,
            finished := hinv.finished, gray_mem := ?_, gray_reach := ?_, gray_pending := ?_,
            gray_loop := ?_, root_done := ?_ }, ?_⟩
  · intro x
    rw [AList.mem_insert, hinv.colored x]
    exact or_iff_right_of_imp fun h => h ▸ hcur
  · intro x hx
    rcases List.mem_append.mp hx with hx | hx
    · exact hclosed current hcur x ((hpushed x).mp hx).1
    · exact hinv.stack_mem x hx
  · intro x
    by_cases hx : x = current
    · rw [hx, hat, ← hinv.black_iff, hc]
      simp
    · rw [hother x hx]
      exact hinv.black_iff x
  · intro g hg
    refine List.mem_append_right _ ?_
    by_cases hg' : g = current
    · exact hg' ▸ List.mem_cons_self
    · exact hinv.gray_mem g (hgray g hg hg')
  · intro g hg e he
    rw [take_idxOf_append _ (hgray_pushed g hg)] at he
    by_cases hg' : g = current
    · subst hg'
      -- nothing is above the fresh grey entry but the pushed neighbours
      rcases List.mem_append.mp he with he | he
      · exact .single ⟨hcur, ((hpushed e).mp he).1⟩
      · simp at he
    · have hreach := hinv.gray_reach g (hgray g hg hg')
      rw [take_idxOf_cons_ne stack hg'] at hreach
      rcases List.mem_append.mp he with he | he
      · exact (hreach current List.mem_cons_self).tail ⟨hcur, ((hpushed e).mp he).1⟩
      · rw [take_idxOf_cons_ne stack hg'] at he
        exact hreach e he
  · intro g hg y hy
    by_cases hyw : (color.insert current .Gray).lookup y = some .White
    · refine .inr ?_
      rw [take_idxOf_append _ (hgray_pushed g hg)]
      by_cases hg' : g = current
      · exact List.mem_append_left _ ((hpushed y).mpr ⟨hg' ▸ hy, hyw⟩)
      · have hyc : y ≠ current := by
          rintro rfl
          rw [hat] at hyw
          cases hyw
        rw [hother y hyc] at hyw
        refine List.mem_append_right _ ?_
        exact (hinv.gray_pending g (hgray g hg hg') y hy).resolve_left (not_not.mpr hyw)
    · exact .inl hyw
  · intro g hg
    by_cases hg' : g = current
    · subst hg'
      exact fun hmem => hnot g hmem hat
    · exact hinv.gray_loop g (hgray g hg hg')
  · by_cases hrc : root = current
    · exact .inl (List.mem_append_right _ (hrc ▸ List.mem_cons_self))
    · rcases hinv.root_done with hroot | hroot
      · exact .inl (List.mem_append_right _ hroot)
      · exact .inr (by rwa [hother root hrc])
  · -- the popped key stops counting two rounds and its pushes
    have hsum := sum_map_le_of_update
      (f := fun x => if color.lookup x = some .White then 2 + ((edges x).getD []).length else 0)
      (g := fun x => if (color.insert current .Gray).lookup x = some .White then
        2 + ((edges x).getD []).length else 0) hcur (fun x hx => by simp only [hother x hx])
      (by simp [hat])
    simp only [hc, if_true] at hsum
    simp only [pending, List.length_append, List.length_cons]
    omega

include hclosed in
-- Popped again, a grey key turns black and joins the post-order: its neighbours are black
-- already, since none is white, grey or the key itself.
theorem LoopInv.step_gray (hinv : LoopInv edges nodes root color (current :: stack) sorted)
    (hc : color.lookup current = some .Gray)
    (hnot : ∀ y ∈ (edges current).getD [], (color.insert current .Black).lookup y ≠ some .Gray) :
    LoopInv edges nodes root (color.insert current .Black) stack (sorted ++ [current]) ∧
      pending edges nodes (color.insert current .Black) stack <
        pending edges nodes color (current :: stack) ∧
      ∀ y ∈ (edges current).getD [], (color.insert current .Black).lookup y ≠ some .White := by
  have hcur : current ∈ nodes := hinv.stack_mem current List.mem_cons_self
  have hat : (color.insert current .Black).lookup current = some .Black := AList.lookup_insert _
  have hother : ∀ x, x ≠ current → (color.insert current .Black).lookup x = color.lookup x :=
    fun x hx => AList.lookup_insert_ne hx
  have hblack : ∀ y ∈ (edges current).getD [], color.lookup y = some .Black := by
    intro y hy
    have hyc : y ≠ current := fun h => hinv.gray_loop current hc (h ▸ hy)
    have hwhite := hinv.gray_pending current hc y hy
    simp only [List.idxOf_cons_self, List.take_zero, List.not_mem_nil, or_false] at hwhite
    exact hinv.black_of_ne edges (hclosed current hcur y hy) hwhite
      (by rw [← hother y hyc]; exact hnot y hy)
  have hnotin : current ∉ sorted := fun h => by
    rw [← hinv.black_iff, hc] at h
    cases h
  obtain ⟨hgray_mem, hgray_reach, hgray_pending, hgray_loop, hroot⟩ := hinv.pop edges hother hat
  refine ⟨{ colored := ?_, stack_mem := fun x hx => hinv.stack_mem x (List.mem_cons_of_mem _ hx),
            black_iff := ?_, nodup := ?_, finished := ?_, gray_mem := hgray_mem,
            gray_reach := hgray_reach, gray_pending := hgray_pending, gray_loop := hgray_loop,
            root_done := hroot }, ?_, ?_⟩
  · intro x
    rw [AList.mem_insert, hinv.colored x]
    exact or_iff_right_of_imp fun h => h ▸ hcur
  · intro x
    by_cases hx : x = current
    · rw [hx, hat]
      simp
    · rw [hother x hx, hinv.black_iff x]
      simp [hx]
  · exact List.nodup_append.mpr ⟨hinv.nodup, List.nodup_singleton _,
      fun a ha b hb => by rintro rfl; exact hnotin (List.mem_singleton.mp hb ▸ ha)⟩
  · exact finished_snoc edges hinv.finished fun y hy => (hinv.black_iff y).mp (hblack y hy)
  · -- no key changes between white and another colour, so the sum is the same
    have hsum : (nodes.map fun x => if (color.insert current .Black).lookup x = some .White then
        2 + ((edges x).getD []).length else 0) = nodes.map fun x =>
          if color.lookup x = some .White then 2 + ((edges x).getD []).length else 0 := by
      refine List.map_congr_left fun x _ => ?_
      by_cases hx : x = current
      · rw [hx, hat, hc]
        simp
      · simp only [hother x hx]
    simp only [pending, hsum, List.length_cons]
    omega
  · intro y hy
    have hyc : y ≠ current := fun h => hinv.gray_loop current hc (h ▸ hy)
    rw [hother y hyc, hblack y hy]
    simp

-- Popped when black already, a key changes nothing: its neighbours are before it in the
-- post-order, so none is pushed.
theorem LoopInv.step_black (hinv : LoopInv edges nodes root color (current :: stack) sorted)
    (hc : color.lookup current = some .Black) :
    LoopInv edges nodes root color stack sorted ∧
      pending edges nodes color stack < pending edges nodes color (current :: stack) ∧
      ∀ y ∈ (edges current).getD [], color.lookup y = some .Black := by
  obtain ⟨hgray_mem, hgray_reach, hgray_pending, hgray_loop, hroot⟩ :=
    hinv.pop edges (fun _ _ => rfl) hc
  refine ⟨{ colored := hinv.colored,
            stack_mem := fun x hx => hinv.stack_mem x (List.mem_cons_of_mem _ hx),
            black_iff := hinv.black_iff, nodup := hinv.nodup, finished := hinv.finished,
            gray_mem := hgray_mem, gray_reach := hgray_reach, gray_pending := hgray_pending,
            gray_loop := hgray_loop, root_done := hroot }, ?_, ?_⟩
  · simp only [pending, List.length_cons]
    omega
  · intro y hy
    obtain ⟨l₁, l₂, hsplit⟩ := List.append_of_mem ((hinv.black_iff current).mp hc)
    refine (hinv.black_iff y).mpr ?_
    exact hsplit ▸ List.mem_append_left _ (hinv.finished l₁ current l₂ hsplit y hy)

-- A grey neighbour of the popped key, or the popped key itself as its own neighbour, closes a
-- cycle: the popped key is above the neighbour's grey entry, so reachable from it.
theorem LoopInv.not_acyclic (hinv : LoopInv edges nodes root color (current :: stack) sorted)
    {y : K} (hy : y ∈ (edges current).getD [])
    (hgray : y = current ∨ color.lookup y = some .Gray) :
    ¬GraphOrder.Acyclic (topology_edge edges nodes) := by
  have hcur : current ∈ nodes := hinv.stack_mem current List.mem_cons_self
  intro hacyclic
  by_cases hyc : y = current
  · exact hacyclic current (.single ⟨hcur, hyc ▸ hy⟩)
  · have hreach := hinv.gray_reach y (hgray.resolve_left hyc) current
      (by rw [take_idxOf_cons_ne stack hyc]; exact List.mem_cons_self)
    exact hacyclic y (hreach.tail ⟨hcur, hy⟩)

-- Only a white key turns white: recolouring a key to grey or black keeps the other keys.
theorem not_white_insert {x : K} {c : Color} (hc : c ≠ .White)
    (hx : color.lookup x ≠ some .White) : (color.insert current c).lookup x ≠ some .White := by
  by_cases hxc : x = current
  · rw [hxc, AList.lookup_insert]
    simpa using hc
  · rwa [AList.lookup_insert_ne hxc]

include hclosed in
-- One round of the search: a grey neighbour is a cycle; otherwise the invariant holds again,
-- the measure drops and no key turns white.
theorem LoopInv.step (hinv : LoopInv edges nodes root color (current :: stack) sorted) :
    (dfs_step edges color current stack sorted = some (.error .HasCycle) ∧
        ¬GraphOrder.Acyclic (topology_edge edges nodes)) ∨
      ∃ color' stack' sorted',
        dfs_step edges color current stack sorted = some (.ok (color', stack', sorted')) ∧
        LoopInv edges nodes root color' stack' sorted' ∧
        pending edges nodes color' stack' < pending edges nodes color (current :: stack) ∧
        ∀ x, color.lookup x ≠ some .White → color'.lookup x ≠ some .White := by
  have hcur : current ∈ nodes := hinv.stack_mem current List.mem_cons_self
  -- the neighbours have colours, in the map before the round and after it
  have hcolored : ∀ c, ∀ y ∈ (edges current).getD [], y ∈ color.insert current c :=
    fun c y hy => (AList.mem_insert _).mpr (.inr ((hinv.colored y).mpr (hclosed current hcur y hy)))
  obtain ⟨c, hc⟩ := hinv.lookup_eq edges hcur
  cases c with
  | White =>
    rcases push_edges_spec (hcolored .Gray) (current :: stack) with
      ⟨herr, y, hy, hgray⟩ | ⟨hok, hnot⟩
    · refine .inl ⟨by simp [dfs_step, hc, herr], hinv.not_acyclic edges hy ?_⟩
      by_cases hyc : y = current
      · exact .inl hyc
      · exact .inr (by rwa [AList.lookup_insert_ne hyc] at hgray)
    · -- the white neighbours go on the stack, the last one on top
      let pushed := (((edges current).getD []).filter
        fun y => (color.insert current .Gray).lookup y = some .White).reverse
      obtain ⟨hinv', hlt⟩ := hinv.step_white edges hclosed pushed hc hnot
        (fun y => by simp [pushed]) ((List.length_reverse).trans_le (List.length_filter_le _ _))
      exact .inr ⟨_, _, _, by simp [dfs_step, hc, hok, pushed], hinv', hlt,
        fun x hx => not_white_insert (by simp) hx⟩
  | Gray =>
    rcases push_edges_spec (hcolored .Black) stack with
      ⟨herr, y, hy, hgray⟩ | ⟨hok, hnot⟩
    · refine .inl ⟨by simp [dfs_step, hc, herr], hinv.not_acyclic edges hy (.inr ?_)⟩
      have hyc : y ≠ current := by
        rintro rfl
        rw [AList.lookup_insert] at hgray
        cases hgray
      rwa [AList.lookup_insert_ne hyc] at hgray
    · obtain ⟨hinv', hlt, hwhite⟩ := hinv.step_gray edges hclosed hc hnot
      -- no neighbour is white, so nothing is pushed
      have hnone : ((edges current).getD []).filter
          (fun y => (color.insert current .Black).lookup y = some .White) = [] :=
        List.filter_eq_nil_iff.mpr fun y hy => by simpa using hwhite y hy
      rw [hnone, List.reverse_nil, List.nil_append] at hok
      exact .inr ⟨_, _, _, by simp [dfs_step, hc, hok], hinv', hlt,
        fun x hx => not_white_insert (by simp) hx⟩
  | Black =>
    obtain ⟨hinv', hlt, hblack⟩ := hinv.step_black edges hc
    have hcolored' : ∀ y ∈ (edges current).getD [], y ∈ color :=
      fun y hy => (hinv.colored y).mpr (hclosed current hcur y hy)
    rcases push_edges_spec hcolored' stack with ⟨-, y, hy, hgray⟩ | ⟨hok, -⟩
    · rw [hblack y hy] at hgray
      cases hgray
    · have hnone : ((edges current).getD []).filter (fun y => color.lookup y = some .White) = [] :=
        List.filter_eq_nil_iff.mpr fun y hy => by simp [hblack y hy]
      rw [hnone, List.reverse_nil, List.nil_append] at hok
      exact .inr ⟨_, _, _, by simp [dfs_step, hc, hok], hinv', hlt, fun _ hx => hx⟩

end Rounds

section Loops

variable (hclosed : ∀ x ∈ nodes, ∀ y ∈ (edges x).getD [], y ∈ nodes)

include hclosed in
-- With fuel for every pending round, the search from one root empties its stack or finds a
-- cycle. The induction is on the fuel, and the step lemma carries the invariant.
theorem LoopInv.loop {root : K} : ∀ (fuel : Nat) (color : Colors K) (stack sorted : List K),
    LoopInv edges nodes root color stack sorted → pending edges nodes color stack ≤ fuel →
    (dfs_loop edges fuel color stack sorted = some (.error .HasCycle) ∧
        ¬GraphOrder.Acyclic (topology_edge edges nodes)) ∨
      ∃ color' sorted', dfs_loop edges fuel color stack sorted = some (.ok (color', sorted')) ∧
        LoopInv edges nodes root color' [] sorted' ∧
        ∀ x, color.lookup x ≠ some .White → color'.lookup x ≠ some .White
  | _, color, [], sorted, hinv, _ => .inr ⟨color, sorted, by simp [dfs_loop], hinv, fun _ hx => hx⟩
  | 0, color, current :: stack, sorted, _, hle => by
    simp only [pending, List.length_cons] at hle
    omega
  | fuel + 1, color, current :: stack, sorted, hinv, hle => by
    rcases hinv.step edges hclosed with
      ⟨herr, hnot⟩ | ⟨color₁, stack₁, sorted₁, hstep, hinv₁, hlt, hmono₁⟩
    · exact .inl ⟨by simp [dfs_loop, herr], hnot⟩
    rcases LoopInv.loop fuel color₁ stack₁ sorted₁ hinv₁ (by omega) with
      ⟨herr, hnot⟩ | ⟨color', sorted', hloop, hinv', hmono'⟩
    · exact .inl ⟨by simp [dfs_loop, hstep, herr], hnot⟩
    · exact .inr ⟨color', sorted', by simp [dfs_loop, hstep, hloop], hinv',
        fun x hx => hmono' x (hmono₁ x (hx))⟩

-- Between two searches no key is grey, so a white key starts the next one with the invariant.
theorem SearchInv.restart {color : Colors K} {sorted : List K}
    (hinv : SearchInv edges nodes color [] sorted) {key : K} (hkey : key ∈ nodes) :
    LoopInv edges nodes key color [key] sorted := by
  have hnot : ∀ g, color.lookup g ≠ some .Gray := fun g hg => by
    simpa using hinv.gray_mem g hg
  exact { colored := hinv.colored, stack_mem := by simpa using hkey, black_iff := hinv.black_iff,
          nodup := hinv.nodup, finished := hinv.finished,
          gray_mem := fun g hg => absurd hg (hnot g), gray_reach := fun g hg => absurd hg (hnot g),
          gray_pending := fun g hg => absurd hg (hnot g),
          gray_loop := fun g hg => absurd hg (hnot g), root_done := .inl (List.mem_singleton_self key) }

-- A search from one key never has more rounds pending than the fuel the index gives it.
theorem pending_singleton_le (color : Colors K) (key : K) :
    pending edges nodes color [key] ≤
      2 * nodes.length + (nodes.map fun x => ((edges x).getD []).length).sum + 1 := by
  have hle : (nodes.map fun x => if color.lookup x = some .White then
      2 + ((edges x).getD []).length else 0).sum ≤
        (nodes.map fun x => 2 + ((edges x).getD []).length).sum :=
    List.sum_le_sum fun x _ => by split <;> omega
  simp only [List.sum_map_add, List.map_const', List.sum_replicate_nat] at hle
  simp only [pending, List.length_singleton]
  omega

-- The index starts with every listed key white, and nothing on the stack or in the order.
theorem search_inv_init (nodes : List K) :
    SearchInv edges nodes (nodes.foldl (fun color key => color.insert key Color.White) ∅) [] [] := by
  have hlookup := AListFold.lookup_foldl_insert_const Color.White nodes ∅
  have hnot : ∀ x c, c ≠ Color.White →
      (nodes.foldl (fun (color : Colors K) key => color.insert key Color.White) ∅).lookup x ≠
        some c := by
    intro x c hc
    rw [hlookup x]
    split <;> simp [Ne.symm hc]
  exact { colored := fun x => by rw [← AList.lookup_isSome, hlookup x]; split <;> simp [*],
          stack_mem := by simp, black_iff := fun x => by simpa using hnot x .Black (by simp),
          nodup := List.nodup_nil, finished := fun l₁ x l₂ h => by simp at h,
          gray_mem := fun g hg => absurd hg (hnot g .Gray (by simp)),
          gray_reach := fun g hg => absurd hg (hnot g .Gray (by simp)),
          gray_pending := fun g hg => absurd hg (hnot g .Gray (by simp)),
          gray_loop := fun g hg => absurd hg (hnot g .Gray (by simp)) }

include hclosed in
-- The loop over the roots: each key still white starts a search, and after the key no key
-- of the list so far is white. The induction is on the keys left.
theorem SearchInv.roots {fuel : Nat}
    (hfuel : 2 * nodes.length + (nodes.map fun x => ((edges x).getD []).length).sum + 1 ≤ fuel) :
    ∀ (keys : List K) (color : Colors K) (sorted : List K), (∀ k ∈ keys, k ∈ nodes) →
    SearchInv edges nodes color [] sorted →
    (dfs_roots edges fuel keys color sorted = some (.error .HasCycle) ∧
        ¬GraphOrder.Acyclic (topology_edge edges nodes)) ∨
      ∃ color' sorted', dfs_roots edges fuel keys color sorted = some (.ok sorted') ∧
        SearchInv edges nodes color' [] sorted' ∧
        (∀ x, color.lookup x ≠ some .White → color'.lookup x ≠ some .White) ∧
        ∀ k ∈ keys, color'.lookup k ≠ some .White
  | [], color, sorted, _, hinv => .inr ⟨color, sorted, by simp [dfs_roots], hinv, fun _ hx => hx,
      by simp⟩
  | key :: keys, color, sorted, hkeys, hinv => by
    have hkey : key ∈ nodes := hkeys key List.mem_cons_self
    have hkeys' : ∀ k ∈ keys, k ∈ nodes := fun k hk => hkeys k (List.mem_cons_of_mem _ hk)
    obtain ⟨c, hc⟩ := hinv.lookup_eq edges hkey
    by_cases hwhite : c = .White
    · subst hwhite
      -- a white key is the root of a new search
      rcases LoopInv.loop edges hclosed fuel color [key] sorted (hinv.restart edges hkey)
          ((pending_singleton_le edges color key).trans hfuel) with
        ⟨herr, hnot⟩ | ⟨color₁, sorted₁, hloop, hinv₁, hmono₁⟩
      · exact .inl ⟨by simp [dfs_roots, hc, herr], hnot⟩
      have hroot : color₁.lookup key ≠ some .White := hinv₁.root_done.resolve_left List.not_mem_nil
      rcases SearchInv.roots hfuel keys color₁ sorted₁ hkeys' hinv₁.toSearchInv with
        ⟨herr, hnot⟩ | ⟨color', sorted', hroots, hinv', hmono', hdone⟩
      · exact .inl ⟨by simp [dfs_roots, hc, hloop, herr], hnot⟩
      · exact .inr ⟨color', sorted', by simp [dfs_roots, hc, hloop, hroots], hinv',
          fun x hx => hmono' x (hmono₁ x hx), List.forall_mem_cons.mpr ⟨hmono' key hroot, hdone⟩⟩
    · -- a key reached by an earlier search is passed
      have hkey_done : color.lookup key ≠ some .White := by simpa [hc] using hwhite
      rcases SearchInv.roots hfuel keys color sorted hkeys' hinv with
        ⟨herr, hnot⟩ | ⟨color', sorted', hroots, hinv', hmono', hdone⟩
      · exact .inl ⟨by simp [dfs_roots, hc, hwhite, herr], hnot⟩
      · exact .inr ⟨color', sorted', by simp [dfs_roots, hc, hwhite, hroots], hinv', hmono',
          List.forall_mem_cons.mpr ⟨hmono' key hkey_done, hdone⟩⟩

end Loops

-- Listing the keys once, with edges between listed keys, the depth-first index never panics,
-- whatever the in-degrees: it is `Ok` with every key once and every edge going forward, or it
-- is `HasCycle` and the graph has a cycle.
theorem topological_index_dfs_cases (nodes : List K) (hnodup : nodes.Nodup)
    (hclosed : ∀ x ∈ nodes, ∀ y ∈ (edges x).getD [], y ∈ nodes) :
    (topological_index_dfs edges nodes = some (.error .HasCycle) ∧
        ¬GraphOrder.Acyclic (topology_edge edges nodes)) ∨
      ∃ sorted, topological_index_dfs edges nodes = some (.ok sorted) ∧ sorted.Perm nodes ∧
        ∀ x ∈ nodes, ∀ y ∈ (edges x).getD [], sorted.idxOf x < sorted.idxOf y := by
  rcases SearchInv.roots edges hclosed le_rfl nodes _ [] (fun _ hk => hk)
      (search_inv_init edges nodes) with
    ⟨herr, hnot⟩ | ⟨color, sorted, hroots, hinv, -, hdone⟩
  · exact .inl ⟨by simp [topological_index_dfs, herr], hnot⟩
  -- after the last search every key is black, so in the post-order
  have hsorted : ∀ x ∈ nodes, x ∈ sorted := fun x hx =>
    (hinv.black_iff x).mp (hinv.black_of_ne edges hx (hdone x hx)
      fun hg => by simpa using hinv.gray_mem x hg)
  have hmem : ∀ x ∈ sorted, x ∈ nodes := fun x hx =>
    (hinv.colored x).mp (AList.lookup_isSome.mp (by rw [(hinv.black_iff x).mpr hx]; rfl))
  have hperm : sorted.Perm nodes :=
    (List.perm_ext_iff_of_nodup hinv.nodup hnodup).mpr fun x => ⟨hmem x, hsorted x⟩
  refine .inr ⟨sorted.reverse, by simp [topological_index_dfs, hroots],
    (List.reverse_perm sorted).trans hperm, fun x hx y hy => ?_⟩
  -- the post-order puts every neighbour first, so its reverse puts it after
  have hyx : sorted.idxOf y < sorted.idxOf x :=
    GraphOrder.idxOf_lt_of_ordered (r := fun a b => a ∈ (edges b).getD []) hinv.finished
      (hsorted x hx) hy
  exact (GraphOrder.idxOf_reverse_lt_iff hinv.nodup (hsorted x hx)
    (hsorted y (hclosed x hx y hy))).mpr hyx

end Invariant

-- The depth-first index is `Ok` exactly on the acyclic graphs.
theorem topological_index_dfs_ok_iff (nodes : List K) (hnodup : nodes.Nodup)
    (hclosed : ∀ x ∈ nodes, ∀ y ∈ (edges x).getD [], y ∈ nodes) :
    (∃ sorted, topological_index_dfs edges nodes = some (.ok sorted)) ↔
      GraphOrder.Acyclic (topology_edge edges nodes) :=
  ok_iff_acyclic_of_cases edges (topological_index_dfs_cases edges nodes hnodup hclosed)

end Dfs

end Waglayla.Mining
