import Waglayla.Consensus.Ghostdag.Blues
import Waglayla.Maps.AListFold

-- The loops of the k-cluster check of a blue candidate, and the two updates of the worldview.

namespace Waglayla.Consensus.GhostdagManager

open DagPast AListFold

variable {M : GhostdagManager}

section AnticoneSizeWalk

theorem blue_anticone_size_go_of_lookup {block : Hash} (fuel : Nat) {sizes : HashKTypeMap}
    {sp : Hash} {size : Nat} (h : sizes.lookup block = some size) :
    blue_anticone_size.go M block (fuel + 1) sizes sp = some size := by
  simp [blue_anticone_size.go, h]

theorem blue_anticone_size_go_step {block : Hash} (fuel : Nat) {sizes : HashKTypeMap}
    {sp : Hash} {sp_data : GhostdagData} (h : sizes.lookup block = none)
    (hgenesis : sp ≠ M.genesis_hash) (horigin : sp ≠ ORIGIN)
    (hsp : M.ghostdag_store.lookup sp = some sp_data) :
    blue_anticone_size.go M block (fuel + 1) sizes sp =
      blue_anticone_size.go M block fuel sp_data.blues_anticone_sizes sp_data.selected_parent := by
  simp [blue_anticone_size.go, h, hgenesis, horigin, hsp]

-- A walk that found its entry finds the same one with more fuel.
theorem blue_anticone_size_go_mono {block : Hash} {fuel fuel' : Nat} (hle : fuel ≤ fuel')
    {sizes : HashKTypeMap} {sp : Hash} {size : Nat}
    (h : blue_anticone_size.go M block fuel sizes sp = some size) :
    blue_anticone_size.go M block fuel' sizes sp = some size := by
  induction fuel generalizing fuel' sizes sp with
  | zero => simp [blue_anticone_size.go] at h
  | succ fuel ih =>
    obtain ⟨fuel', rfl⟩ : ∃ f, fuel' = f + 1 := ⟨fuel' - 1, by omega⟩
    simp only [blue_anticone_size.go] at h ⊢
    split at h
    · exact h
    · split_ifs at h ⊢
      cases hsp : M.ghostdag_store.lookup sp with
      | none => simp [hsp] at h
      | some sp_data =>
        simp only [hsp, Option.bind_eq_bind, Option.bind_some] at h ⊢
        exact ih (by omega) h

theorem chain_fuel_congr {d d' : GhostdagData} (hsp : d'.selected_parent = d.selected_parent) :
    M.chain_fuel d' = M.chain_fuel d := by
  unfold chain_fuel
  rw [hsp]

theorem one_le_chain_fuel (d : GhostdagData) : 1 ≤ M.chain_fuel d := by
  unfold chain_fuel
  split <;> omega

-- Two worldviews with one selected parent and one entry for `block` agree on its size.
theorem blue_anticone_size_of_lookup {d : GhostdagData} {block : Hash} {size : Nat}
    (h : d.blues_anticone_sizes.lookup block = some size) :
    M.blue_anticone_size block d = some size := by
  obtain ⟨fuel, hfuel⟩ : ∃ f, M.chain_fuel d = f + 1 :=
    ⟨M.chain_fuel d - 1, by have := one_le_chain_fuel (M := M) d; omega⟩
  rw [blue_anticone_size, hfuel]
  exact blue_anticone_size_go_of_lookup fuel h

theorem blue_anticone_size_congr {d d' : GhostdagData} (hsp : d'.selected_parent = d.selected_parent)
    {block : Hash} (hlookup : d'.blues_anticone_sizes.lookup block = d.blues_anticone_sizes.lookup block) :
    M.blue_anticone_size block d' = M.blue_anticone_size block d := by
  obtain ⟨fuel, hfuel⟩ : ∃ f, M.chain_fuel d = f + 1 :=
    ⟨M.chain_fuel d - 1, by have := one_le_chain_fuel (M := M) d; omega⟩
  simp only [blue_anticone_size, chain_fuel_congr hsp, hfuel, blue_anticone_size.go, hlookup, hsp]

end AnticoneSizeWalk

section Worldview

variable (hinv : M.Inv)
include hinv

theorem ne_origin_of_lookup {X : Hash} {d : GhostdagData}
    (hX : M.ghostdag_store.lookup X = some d) : X ≠ ORIGIN :=
  ne_origin_of_mem hinv (stored_of_lookup hX)

-- Genesis has no blues, so a worldview on top of it has only its own mergeset blues.
theorem not_in_blues_genesis (x : Hash) : ¬M.InBlues genesis_ghostdag_data x := by
  rintro (hx | ⟨hsp, -⟩)
  · cases hx
  · exact hinv.origin_no_data (stored_of_lookup hsp)

-- The worldview a new block starts from: its selected parent, with no blue in its
-- anticone, on top of the selected parent's worldview.
theorem context_inv_new {sp : Hash} {sp_data : GhostdagData}
    (hsp : M.ghostdag_store.lookup sp = some sp_data) :
    M.ContextInv (GhostdagData.new_with_selected_parent sp M.k) := by
  set d0 := GhostdagData.new_with_selected_parent sp M.k
  have hblues : ∀ x, M.InBlues d0 x ↔ x = sp ∨ M.InBlues sp_data x := by
    intro x
    rw [in_blues_iff hsp]
    simp [d0]
  -- the blues of `sp_data` are in the past of `sp`, so none is in its anticone
  have hsp_anticone : M.blue_anticone d0 sp = ∅ := by
    ext x
    simp only [mem_blue_anticone, hblues, Finset.notMem_empty, iff_false, not_and]
    rintro - (rfl | hx)
    · exact Anticone.irrefl x
    · exact (in_blues_past hinv hsp hx).1.not_anticone
  have hother : ∀ b, M.InBlues sp_data b → M.blue_anticone d0 b = M.blue_anticone sp_data b := by
    intro b hb
    have hpast := (in_blues_past hinv hsp hb).1
    ext x
    simp only [mem_blue_anticone, hblues]
    constructor
    · rintro ⟨hx, rfl | hxb, hanti⟩
      · exact absurd hpast hanti.1
      · exact ⟨hx, hxb, hanti⟩
    · rintro ⟨hx, hxb, hanti⟩
      exact ⟨hx, .inr hxb, hanti⟩
  constructor
  · intro b hb
    rcases (hblues b).mp hb with rfl | hb
    · rw [hsp_anticone, Finset.card_empty]
      have hfound : d0.blues_anticone_sizes.lookup b = some 0 := by
        simp only [d0, GhostdagData.new_with_selected_parent, AList.lookup_insert]
      simp only [blue_anticone_size, chain_fuel, d0,
        GhostdagData.new_with_selected_parent_selected_parent, hsp]
      exact blue_anticone_size_go_of_lookup _ hfound
    · have hne : b ≠ sp := (in_blues_past hinv hsp hb).2
      have hgenesis : sp ≠ M.genesis_hash := by
        rintro rfl
        rw [hinv.genesis_data] at hsp
        cases hsp
        exact not_in_blues_genesis hinv b hb
      have hwalk := (hinv.context sp sp_data hsp).sizes b hb
      -- the walk from `d0` misses `b` in its own entries and continues as the walk from `sp`
      have hfuel : M.chain_fuel sp_data ≤ sp_data.blue_score + 1 := by
        unfold chain_fuel
        split
        · next sp_sp_data hsp_sp =>
          have := (hinv.block sp sp_data hsp hgenesis).blue_score_lt sp_sp_data hsp_sp
          omega
        · omega
      rw [hother b hb]
      simp only [blue_anticone_size, chain_fuel, d0,
        GhostdagData.new_with_selected_parent_selected_parent, hsp]
      have hmiss : d0.blues_anticone_sizes.lookup b = none := by
        simp only [d0, GhostdagData.new_with_selected_parent, AList.lookup_insert_ne hne,
          AList.lookup_empty]
      rw [blue_anticone_size_go_step _ hmiss hgenesis (ne_origin_of_lookup hinv hsp) hsp]
      exact blue_anticone_size_go_mono hfuel hwalk
  · intro b hb
    rcases (hblues b).mp hb with rfl | hb
    · simp [hsp_anticone]
    · rw [hother b hb]
      exact (hinv.context sp sp_data hsp).cluster b hb

end Worldview

section AddBlue

variable {D : GhostdagData} {c : Hash} {size : Nat} {sizes : HashKTypeMap}

-- The blue set of the worldview grows by the new blue only.
theorem in_blues_add_blue (x : Hash) :
    M.InBlues (D.add_blue c size sizes) x ↔ M.InBlues D x ∨ x = c := by
  cases hsp : M.ghostdag_store.lookup D.selected_parent with
  | none =>
    rw [in_blues_of_lookup_none (by simpa using hsp), in_blues_of_lookup_none hsp]
    simp
  | some sp_data =>
    rw [in_blues_iff (by simpa using hsp), in_blues_iff hsp]
    simp only [GhostdagData.add_blue_mergeset_blues, List.mem_append, List.mem_singleton]
    tauto

-- The sizes `add_blue` records: raised by one for the blues in the new blue's anticone,
-- the new blue's own, and the old ones elsewhere.
theorem add_blue_lookup (x : Hash) :
    (D.add_blue c size sizes).blues_anticone_sizes.lookup x =
      match sizes.lookup x with
      | some s => some (s + 1)
      | none => (D.blues_anticone_sizes.insert c size).lookup x := by
  unfold GhostdagData.add_blue
  rw [foldl_obs (local_insert_map (· + 1))]
  cases sizes.lookup x <;> simp

open Classical in
theorem blue_anticone_add_blue (hc : c ∈ M.relations_store) (b : Hash) :
    M.blue_anticone (D.add_blue c size sizes) b =
      if M.Anticone b c then insert c (M.blue_anticone D b) else M.blue_anticone D b := by
  ext x
  split_ifs with hanti
  · rw [Finset.mem_insert, mem_blue_anticone, mem_blue_anticone, in_blues_add_blue]
    constructor
    · rintro ⟨hx, hxD | rfl, hxb⟩
      · exact .inr ⟨hx, hxD, hxb⟩
      · exact .inl rfl
    · rintro (rfl | ⟨hx, hxD, hxb⟩)
      · exact ⟨hc, .inr rfl, hanti⟩
      · exact ⟨hx, .inl hxD, hxb⟩
  · rw [mem_blue_anticone, mem_blue_anticone, in_blues_add_blue]
    constructor
    · rintro ⟨hx, hxD | rfl, hxb⟩
      · exact ⟨hx, hxD, hxb⟩
      · exact absurd hxb hanti
    · rintro ⟨hx, hxD, hxb⟩
      exact ⟨hx, .inl hxD, hxb⟩

-- Adding a blue that passed the check keeps the recorded sizes right and the
-- k-cluster bound.
theorem context_inv_add_blue (hD : M.ContextInv D)
    (hmem : ∀ x, M.InBlues D x → x ∈ M.relations_store) (hc : c ∈ M.relations_store)
    (hc_new : ¬M.InBlues D c) (hcolor : M.IsColoring D c (.Blue size sizes)) :
    M.ContextInv (D.add_blue c size sizes) := by
  obtain ⟨⟨-, hcard, hsmall⟩, rfl, hsizes⟩ := hcolor
  have hnot_self : c ∉ M.blue_anticone D c := fun h =>
    Anticone.irrefl c (mem_blue_anticone.mp h).2.2
  have hnot_old : ∀ b, c ∉ M.blue_anticone D b := fun b h => hc_new (mem_blue_anticone.mp h).2.1
  -- the candidate's own size, then the sizes raised in its anticone, then the rest
  have hown : M.blue_anticone (D.add_blue c (M.blue_anticone D c).card sizes) c = M.blue_anticone D c := by
    rw [blue_anticone_add_blue hc, if_neg (Anticone.irrefl c)]
  have hraised : ∀ b ∈ M.blue_anticone D c,
      (M.blue_anticone (D.add_blue c (M.blue_anticone D c).card sizes) b).card =
        (M.blue_anticone D b).card + 1 := by
    intro b hb
    have hanti : M.Anticone b c := (mem_blue_anticone.mp hb).2.2.symm
    rw [blue_anticone_add_blue hc, if_pos hanti, Finset.card_insert_of_notMem (hnot_old b)]
  have hkept : ∀ b, M.InBlues D b → b ∉ M.blue_anticone D c →
      M.blue_anticone (D.add_blue c (M.blue_anticone D c).card sizes) b = M.blue_anticone D b := by
    intro b hb hbc
    have hanti : ¬M.Anticone b c := fun h =>
      hbc (mem_blue_anticone.mpr ⟨hmem b hb, hb, h.symm⟩)
    rw [blue_anticone_add_blue hc, if_neg hanti]
  constructor
  · intro b hb
    rcases (in_blues_add_blue b).mp hb with hb | rfl
    · by_cases hbc : b ∈ M.blue_anticone D c
      · have hlook : (D.add_blue c (M.blue_anticone D c).card sizes).blues_anticone_sizes.lookup b =
            some ((M.blue_anticone D b).card + 1) := by
          simp only [add_blue_lookup, hsizes b, if_pos hbc]
        rw [hraised b hbc]
        exact blue_anticone_size_of_lookup hlook
      · have hbne : b ≠ c := fun h => hc_new (h ▸ hb)
        have hlook : (D.add_blue c (M.blue_anticone D c).card sizes).blues_anticone_sizes.lookup b =
            D.blues_anticone_sizes.lookup b := by
          simp only [add_blue_lookup, hsizes b, if_neg hbc, AList.lookup_insert_ne hbne]
        rw [hkept b hb hbc, blue_anticone_size_congr (D.add_blue_selected_parent c _ sizes) hlook]
        exact hD.sizes b hb
    · have hlook : (D.add_blue b (M.blue_anticone D b).card sizes).blues_anticone_sizes.lookup b =
          some (M.blue_anticone D b).card := by
        simp only [add_blue_lookup, hsizes b, if_neg hnot_self, AList.lookup_insert]
      rw [hown]
      exact blue_anticone_size_of_lookup hlook
  · intro b hb
    rcases (in_blues_add_blue b).mp hb with hb | rfl
    · by_cases hbc : b ∈ M.blue_anticone D c
      · rw [hraised b hbc]
        exact hsmall b hbc
      · rw [hkept b hb hbc]
        exact hD.cluster b hb
    · rw [hown]
      exact hcard

end AddBlue

section Scan

variable {D : GhostdagData} {c : Hash} (cnt : Hash → Nat)

variable (M) in
-- The scan of `L` from the count `size` passes: the blues outside the candidate's past
-- keep the count within `k`, and each has fewer than `k` blues in its anticone.
def ScanOk (c : Hash) (cnt : Hash → Nat) (L : List Hash) (size : Nat) : Prop :=
  size + (L.filter fun b => !M.reachability_service b c).length ≤ M.k ∧
    ∀ b ∈ L, M.reachability_service b c = false → cnt b < M.k

theorem scan_ok_cons_past {b : Hash} {L : List Hash} {size : Nat}
    (hreach : M.reachability_service b c = true) :
    M.ScanOk c cnt (b :: L) size ↔ M.ScanOk c cnt L size := by
  simp [ScanOk, hreach]

theorem scan_ok_cons_anticone {b : Hash} {L : List Hash} {size : Nat}
    (hreach : M.reachability_service b c = false) :
    M.ScanOk c cnt (b :: L) size ↔ cnt b < M.k ∧ M.ScanOk c cnt L (size + 1) := by
  simp only [ScanOk, List.filter_cons, hreach, Bool.not_false, if_true, List.length_cons,
    List.forall_mem_cons]
  constructor
  · rintro ⟨hlen, hb, hall⟩
    exact ⟨hb trivial, by omega, hall⟩
  · rintro ⟨hb, hlen, hall⟩
    exact ⟨by omega, fun _ => hb, hall⟩

-- The scan of one chain block's blues: it counts those outside the candidate's past and
-- records their sizes, and turns red at the first that breaks the k-cluster rule; it
-- passes exactly when `ScanOk` holds.
theorem scan_spec (L : List Hash)
    (hL : ∀ b ∈ L, M.reachability_service b c = false →
      M.blue_anticone_size b D = some (cnt b) ∧ cnt b ≤ M.k)
    (sizes : HashKTypeMap) (size : Nat) (hsize : size ≤ M.k) :
    (M.ScanOk c cnt L size →
      ∃ sizes', check_blue_candidate_with_chain_block.go M D c L sizes size =
          some (.Pending, sizes', size + (L.filter fun b => !M.reachability_service b c).length) ∧
        ∀ x, sizes'.lookup x =
          if x ∈ L ∧ M.reachability_service x c = false then some (cnt x) else sizes.lookup x) ∧
    (¬M.ScanOk c cnt L size →
      ∃ sizes' size', check_blue_candidate_with_chain_block.go M D c L sizes size =
        some (.Red, sizes', size')) := by
  induction L generalizing sizes size with
  | nil =>
    refine ⟨fun _ => ⟨sizes, rfl, by simp⟩, fun hbad => absurd ⟨by simpa using hsize, by simp⟩ hbad⟩
  | cons b L ih =>
    have hL' : ∀ b' ∈ L, M.reachability_service b' c = false →
        M.blue_anticone_size b' D = some (cnt b') ∧ cnt b' ≤ M.k :=
      fun b' hb' => hL b' (List.mem_cons_of_mem _ hb')
    cases hreach : M.reachability_service b c with
    | true =>
      -- `b` is in the candidate's past: skipped, and it counts for nothing
      have hstep : check_blue_candidate_with_chain_block.go M D c (b :: L) sizes size =
          check_blue_candidate_with_chain_block.go M D c L sizes size := by
        simp [check_blue_candidate_with_chain_block.go, hreach]
      have hfilter : ((b :: L).filter fun b => !M.reachability_service b c) =
          L.filter fun b => !M.reachability_service b c := by
        simp [hreach]
      have hmem : ∀ x, (x ∈ b :: L ∧ M.reachability_service x c = false) ↔
          (x ∈ L ∧ M.reachability_service x c = false) := by
        intro x
        constructor
        · rintro ⟨hx, hxr⟩
          rcases List.mem_cons.mp hx with rfl | hx
          · rw [hreach] at hxr
            cases hxr
          · exact ⟨hx, hxr⟩
        · rintro ⟨hx, hxr⟩
          exact ⟨List.mem_cons_of_mem _ hx, hxr⟩
      obtain ⟨hpass, hfail⟩ := ih hL' sizes size hsize
      rw [hstep, hfilter, scan_ok_cons_past cnt hreach]
      refine ⟨fun hok => ?_, hfail⟩
      obtain ⟨sizes', hgo, hlook⟩ := hpass hok
      exact ⟨sizes', hgo, fun x => by simp only [hlook x, hmem x]⟩
    | false =>
      obtain ⟨hwalk, hle⟩ := hL b List.mem_cons_self hreach
      have hfilter : ((b :: L).filter fun b => !M.reachability_service b c).length =
          (L.filter fun b => !M.reachability_service b c).length + 1 := by
        simp [hreach]
      rw [scan_ok_cons_anticone cnt hreach, hfilter]
      simp only [check_blue_candidate_with_chain_block.go, hreach, Bool.false_eq_true, if_false,
        hwalk, Option.bind_eq_bind, Option.bind_some, AList.lookup_insert]
      by_cases hover : size + 1 > M.k
      · -- the count runs past `k` at `b`
        rw [if_pos hover]
        refine ⟨fun hok => ?_, fun _ => ⟨_, _, rfl⟩⟩
        have hlen := hok.2.1
        omega
      rw [if_neg hover]
      by_cases hfull : cnt b = M.k
      · -- `b` already has `k` blues in its anticone
        rw [if_pos hfull]
        refine ⟨fun hok => ?_, fun _ => ⟨_, _, rfl⟩⟩
        have hlt := hok.1
        omega
      rw [if_neg hfull, if_pos hle]
      have hsmall : cnt b < M.k := by omega
      obtain ⟨hpass, hfail⟩ := ih hL' (sizes.insert b (cnt b)) (size + 1) (by omega)
      refine ⟨fun hok => ?_, fun hbad => hfail fun hok' => hbad ⟨hsmall, hok'⟩⟩
      obtain ⟨sizes', hgo, hlook⟩ := hpass hok.2
      refine ⟨sizes', by rw [hgo]; congr 3; omega, fun x => ?_⟩
      rw [hlook x]
      by_cases hx : x = b
      · subst hx
        simp [hreach]
      · simp [AList.lookup_insert_ne hx, hx]

end Scan

section Candidate

variable (M) in
-- The facts the colouring loop keeps about the worldview `D` under construction when it
-- checks the candidate `c`: the selected parent comes first among the mergeset blues, the
-- others are off its chain, and no blue so far is in the candidate's future.
structure CandidateSetting (D : GhostdagData) (c : Hash) : Prop where
  selected_parent_data : ∃ sp_data, M.ghostdag_store.lookup D.selected_parent = some sp_data
  blues_head : D.mergeset_blues.head? = some D.selected_parent
  blues_nodup : D.mergeset_blues.Nodup
  blues_off_chain : ∀ x ∈ D.mergeset_blues, x ≠ D.selected_parent → ¬M.Past x D.selected_parent
  blues_mem : ∀ x ∈ D.mergeset_blues, x ∈ M.ghostdag_store
  blues_not_future : ∀ x ∈ D.mergeset_blues, ¬M.Past c x
  candidate_mem : c ∈ M.ghostdag_store
  candidate_off_chain : ¬M.Past c D.selected_parent
  candidate_new : c ∉ D.mergeset_blues
  context : M.ContextInv D

variable (hinv : M.Inv) {D : GhostdagData} {c : Hash} (hset : M.CandidateSetting D c)
include hinv hset

theorem CandidateSetting.in_blues_mem {x : Hash} (hx : M.InBlues D x) : x ∈ M.relations_store := by
  obtain ⟨sp_data, hsp⟩ := hset.selected_parent_data
  rcases (in_blues_iff hsp x).mp hx with hx | hx
  · exact mem_relations hinv (hset.blues_mem x hx)
  · exact GhostdagManager.in_blues_mem hinv hsp hx

-- No blue of the worldview is in the candidate's future: the selected parent's blues are
-- in its past, which the candidate is not in, and the mergeset blues come earlier in
-- the topological order.
theorem CandidateSetting.not_future {x : Hash} (hx : M.InBlues D x) : ¬M.Past c x := by
  obtain ⟨sp_data, hsp⟩ := hset.selected_parent_data
  rcases (in_blues_iff hsp x).mp hx with hx | hx
  · exact hset.blues_not_future x hx
  · exact fun hcx => hset.candidate_off_chain (past_trans hcx (in_blues_past hinv hsp hx).1)

theorem CandidateSetting.not_in_blues : ¬M.InBlues D c := by
  obtain ⟨sp_data, hsp⟩ := hset.selected_parent_data
  rintro hc
  rcases (in_blues_iff hsp c).mp hc with hc | hc
  · exact hset.candidate_new hc
  · exact hset.candidate_off_chain (in_blues_past hinv hsp hc).1

end Candidate

section ChainWalk

variable (M) in
-- The chain block `⟨hash, d⟩` the walk for the worldview `D` visits with `fuel` left:
-- `D` itself first, then stored blocks down its selected chain, each with more fuel
-- than its blue score.
def ChainStep (D : GhostdagData) : Option Hash → GhostdagData → Nat → Prop
  | none, d, fuel => d = D ∧ M.chain_fuel D ≤ fuel
  | some X, d, fuel => M.ghostdag_store.lookup X = some d ∧ d.blue_score < fuel ∧
      ∀ x, M.InBlues d x → M.InBlues D x

variable (M) in
open Classical in
-- What the walk carries into the chain block `d`: the count and the sizes of the blues
-- of the candidate's anticone above `d`, all of which passed the rule.
structure ChainAcc (D : GhostdagData) (c : Hash) (d : GhostdagData) (sizes : HashKTypeMap)
    (size : Nat) : Prop where
  size_eq : size = ((M.blue_anticone D c).filter fun x => ¬M.InBlues d x).card
  sizes_eq : ∀ x, sizes.lookup x =
    if x ∈ M.blue_anticone D c ∧ ¬M.InBlues d x then some (M.blue_anticone D x).card else none
  size_le : size ≤ M.k
  small : ∀ x ∈ M.blue_anticone D c, ¬M.InBlues d x → (M.blue_anticone D x).card < M.k

variable (hinv : M.Inv) (hreach : M.ReachabilityCorrect) {D : GhostdagData} {c : Hash}
  (hset : M.CandidateSetting D c)
include hinv hreach hset

-- On the chain of `D`, a blue is in the candidate's anticone exactly when the
-- reachability service puts it outside the candidate's past.
theorem mem_blue_anticone_iff_reach {x : Hash} (hx : M.InBlues D x) :
    x ∈ M.blue_anticone D c ↔ M.reachability_service x c = false := by
  have hxmem := hset.in_blues_mem hinv hx
  rw [mem_blue_anticone, Bool.eq_false_iff, ne_eq, hreach x c hxmem (mem_relations hinv hset.candidate_mem)]
  constructor
  · rintro ⟨-, -, hanti⟩
    exact hanti.2
  · intro hxc
    exact ⟨hxmem, hx, hset.not_future hinv hx, hxc⟩

-- The blues a scan counts are the blues of the candidate's anticone in the scanned list.
theorem scan_length_eq {L : List Hash} (hL : L.Nodup) (hsub : ∀ x ∈ L, M.InBlues D x) :
    (L.filter fun b => !M.reachability_service b c).length =
      ((M.blue_anticone D c).filter fun x => x ∈ L).card := by
  classical
  rw [← List.toFinset_card_of_nodup (hL.filter _)]
  congr 1
  ext x
  simp only [List.mem_toFinset, List.mem_filter, Bool.not_eq_eq_eq_not, Bool.not_true,
    Finset.mem_filter]
  constructor
  · rintro ⟨hx, hxr⟩
    exact ⟨(mem_blue_anticone_iff_reach hinv hreach hset (hsub x hx)).mpr hxr, hx⟩
  · rintro ⟨hx, hxL⟩
    exact ⟨hxL, (mem_blue_anticone_iff_reach hinv hreach hset (hsub x hxL)).mp hx⟩

-- A chain block in the candidate's past ends the walk: every blue below it is in that
-- past too, so the walk has seen the whole anticone.
theorem chain_stop {X : Hash} {d : GhostdagData} (hX : M.ghostdag_store.lookup X = some d)
    (hXc : M.reachability_service X c = true) {sizes : HashKTypeMap} {size : Nat}
    (hacc : M.ChainAcc D c d sizes size) :
    M.ColoringBy (M.AnticoneRule D c) D c (.Blue size sizes) := by
  classical
  have hpast : M.Past X c := (hreach X c (mem_of_lookup hinv hX) (mem_relations hinv hset.candidate_mem)).mp hXc
  have hbelow : ∀ x ∈ M.blue_anticone D c, ¬M.InBlues d x := fun x hx hxd =>
    (mem_blue_anticone.mp hx).2.2.2 (past_trans (in_blues_past hinv hX hxd).1 hpast)
  have hall : ((M.blue_anticone D c).filter fun x => ¬M.InBlues d x) = M.blue_anticone D c :=
    Finset.filter_true_of_mem hbelow
  have hsize : size = (M.blue_anticone D c).card := by
    rw [hacc.size_eq]
    exact congrArg Finset.card hall
  refine ⟨⟨hsize ▸ hacc.size_le, fun b hb => hacc.small b hb (hbelow b hb)⟩, hsize, fun x => ?_⟩
  rw [hacc.sizes_eq x]
  by_cases hx : x ∈ M.blue_anticone D c
  · simp [hx, hbelow x hx]
  · simp [hx]

-- Unless the walk stops at it, a chain block's selected parent is stored, its mergeset
-- blues lie apart from the selected parent's blues, and the walk moves on to it.
theorem chain_next {h : Option Hash} {d : GhostdagData} {fuel : Nat}
    (hstep : M.ChainStep D h d (fuel + 1)) (hgo : ∀ X, h = some X → M.reachability_service X c = false) :
    ∃ d', M.ghostdag_store.lookup d.selected_parent = some d' ∧ d.mergeset_blues.Nodup ∧
      (∀ x ∈ d.mergeset_blues, ¬M.InBlues d' x) ∧ (∀ x, M.InBlues d x → M.InBlues D x) ∧
      M.ChainStep D (some d.selected_parent) d' fuel := by
  cases h with
  | none =>
    obtain ⟨rfl, hfuel⟩ := hstep
    obtain ⟨sp_data, hsp⟩ := hset.selected_parent_data
    have hfuel' : sp_data.blue_score + 2 ≤ fuel + 1 := by
      simpa [chain_fuel, hsp] using hfuel
    exact ⟨sp_data, hsp, hset.blues_nodup, not_in_blues_of_off_chain hinv hsp hset.blues_off_chain,
      fun _ hx => hx, hsp, by omega, fun _ hx => .chain hsp hx⟩
  | some X =>
    obtain ⟨hX, hbs, hsub⟩ := hstep
    -- genesis is in the past of every block, so the walk never moves past it
    have hXg : X ≠ M.genesis_hash := by
      rintro rfl
      have hpast := hinv.genesis_past c hset.candidate_mem
      have := (hreach _ c (genesis_mem hinv) (mem_relations hinv hset.candidate_mem)).mpr hpast
      rw [hgo _ rfl] at this
      cases this
    have hblock := hinv.block X d hX hXg
    obtain ⟨d', hd'⟩ := exists_lookup hblock.selected_parent_mem
    have hlt := hblock.blue_score_lt d' hd'
    exact ⟨d', hd', hblock.blues_nodup, not_in_blues_of_off_chain hinv hd' hblock.blues_off_chain,
      hsub, hd', by omega, fun x hx => hsub x (.chain hd' hx)⟩

-- A scan that turns red has found a break of the rule.
theorem chain_red {d : GhostdagData} (hsub : ∀ x, M.InBlues d x → M.InBlues D x)
    (hnodup : d.mergeset_blues.Nodup) {sizes : HashKTypeMap} {size : Nat}
    (hacc : M.ChainAcc D c d sizes size)
    (hbad : ¬M.ScanOk c (fun b => (M.blue_anticone D b).card) d.mergeset_blues size) :
    ¬M.AnticoneRule D c := by
  classical
  intro ⟨hcard, hsmall⟩
  apply hbad
  have hmb : ∀ x ∈ d.mergeset_blues, M.InBlues D x := fun x hx => hsub x (.mergeset hx)
  refine ⟨?_, fun b hb hbr => hsmall b ((mem_blue_anticone_iff_reach hinv hreach hset (hmb b hb)).mpr hbr)⟩
  -- the blues counted before and in this scan are disjoint parts of the anticone
  have hpart : ((M.blue_anticone D c).filter fun x => x ∈ d.mergeset_blues) ⊆
      (M.blue_anticone D c).filter fun x => M.InBlues d x := by
    intro x hx
    rw [Finset.mem_filter] at hx ⊢
    exact ⟨hx.1, .mergeset hx.2⟩
  have hsplit : ((M.blue_anticone D c).filter fun x => M.InBlues d x).card +
      ((M.blue_anticone D c).filter fun x => ¬M.InBlues d x).card = (M.blue_anticone D c).card :=
    Finset.card_filter_add_card_filter_not _
  rw [scan_length_eq hinv hreach hset hnodup hmb, hacc.size_eq]
  have := Finset.card_le_card hpart
  omega

-- A scan that passes hands the next chain block the anticone blues above it.
theorem chain_acc_next {d d' : GhostdagData}
    (hsp : M.ghostdag_store.lookup d.selected_parent = some d')
    (hsub : ∀ x, M.InBlues d x → M.InBlues D x) (hnodup : d.mergeset_blues.Nodup)
    (hdisj : ∀ x ∈ d.mergeset_blues, ¬M.InBlues d' x) {sizes sizes' : HashKTypeMap} {size : Nat}
    (hacc : M.ChainAcc D c d sizes size)
    (hok : M.ScanOk c (fun b => (M.blue_anticone D b).card) d.mergeset_blues size)
    (hlook : ∀ x, sizes'.lookup x =
      if x ∈ d.mergeset_blues ∧ M.reachability_service x c = false then
        some (M.blue_anticone D x).card
      else sizes.lookup x) :
    M.ChainAcc D c d' sizes'
      (size + (d.mergeset_blues.filter fun b => !M.reachability_service b c).length) := by
  classical
  have hmb : ∀ x ∈ d.mergeset_blues, M.InBlues D x := fun x hx => hsub x (.mergeset hx)
  have hreach_iff : ∀ x ∈ d.mergeset_blues,
      (M.reachability_service x c = false ↔ x ∈ M.blue_anticone D c) := fun x hx =>
    (mem_blue_anticone_iff_reach hinv hreach hset (hmb x hx)).symm
  -- outside the blues of `d'` are those outside the blues of `d` and the mergeset blues of `d`
  have hout : ∀ x, ¬M.InBlues d' x ↔ ¬M.InBlues d x ∨ x ∈ d.mergeset_blues := by
    intro x
    have hsplit := in_blues_iff hsp x
    constructor
    · intro hx
      by_cases hxm : x ∈ d.mergeset_blues
      · exact .inr hxm
      · exact .inl fun h => (hsplit.mp h).elim hxm hx
    · rintro (hx | hx)
      · exact fun h => hx (hsplit.mpr (.inr h))
      · exact hdisj x hx
  have hunion : ((M.blue_anticone D c).filter fun x => ¬M.InBlues d' x) =
      ((M.blue_anticone D c).filter fun x => ¬M.InBlues d x) ∪
        (M.blue_anticone D c).filter fun x => x ∈ d.mergeset_blues := by
    ext x
    simp only [Finset.mem_filter, Finset.mem_union, hout]
    tauto
  have hdisjoint : Disjoint ((M.blue_anticone D c).filter fun x => ¬M.InBlues d x)
      ((M.blue_anticone D c).filter fun x => x ∈ d.mergeset_blues) := by
    rw [Finset.disjoint_filter]
    exact fun x _ hx hxm => hx (.mergeset hxm)
  refine ⟨?_, fun x => ?_, hok.1, fun x hx hxd' => ?_⟩
  · rw [scan_length_eq hinv hreach hset hnodup hmb, hacc.size_eq, hunion,
      Finset.card_union_of_disjoint hdisjoint]
  · rw [hlook x, hacc.sizes_eq x]
    by_cases hxm : x ∈ d.mergeset_blues
    · have hnot : ¬M.InBlues d' x := hdisj x hxm
      by_cases hxT : x ∈ M.blue_anticone D c
      · simp [hxm, (hreach_iff x hxm).mpr hxT, hxT, hnot]
      · have hxr : M.reachability_service x c = true := by
          cases h : M.reachability_service x c
          · exact absurd ((hreach_iff x hxm).mp h) hxT
          · rfl
        simp [hxm, hxr, hxT]
    · have hiff : (¬M.InBlues d x ↔ ¬M.InBlues d' x) := by
        rw [hout x]
        simp [hxm]
      simp [hxm, hiff]
  · rcases (hout x).mp hxd' with hxd | hxm
    · exact hacc.small x hx hxd
    · exact hok.2 x hxm ((hreach_iff x hxm).mpr hx)

-- The walk down the chain answers the k-cluster part of the rule: blue with the
-- anticone size of the candidate and the sizes of its anticone blues when the rule holds,
-- red when it does not.
theorem chain_spec (fuel : Nat) :
    ∀ (h : Option Hash) (d : GhostdagData) (sizes : HashKTypeMap) (size : Nat),
      M.ChainStep D h d fuel → M.ChainAcc D c d sizes size →
      ∃ out, check_blue_candidate.go M D c fuel ⟨h, d⟩ sizes size = some out ∧
        M.ColoringBy (M.AnticoneRule D c) D c out := by
  induction fuel with
  | zero =>
    rintro (_ | X) d sizes size hstep -
    · have := one_le_chain_fuel (M := M) D
      exact absurd hstep.2 (by omega)
    · exact absurd hstep.2.1 (Nat.not_lt_zero _)
  | succ fuel ih =>
    intro h d sizes size hstep hacc
    -- a stored chain block in the candidate's past ends the walk
    by_cases hstop : ∃ X, h = some X ∧ M.reachability_service X c = true
    · obtain ⟨X, rfl, hXc⟩ := hstop
      refine ⟨.Blue size sizes, ?_, chain_stop hinv hreach hset hstep.1 hXc hacc⟩
      simp [check_blue_candidate.go, check_blue_candidate_with_chain_block, hXc]
    have hgo : ∀ X, h = some X → M.reachability_service X c = false := by
      rintro X rfl
      simpa using fun h => hstop ⟨X, rfl, h⟩
    obtain ⟨d', hd', hnodup, hdisj, hsub, hnext⟩ := chain_next hinv hreach hset hstep hgo
    -- otherwise the chain block's mergeset blues are scanned
    have hwith : M.check_blue_candidate_with_chain_block D ⟨h, d⟩ c sizes size =
        check_blue_candidate_with_chain_block.go M D c d.mergeset_blues sizes size := by
      cases h with
      | none => rfl
      | some X => simp [check_blue_candidate_with_chain_block, hgo X rfl]
    have hL : ∀ b ∈ d.mergeset_blues, M.reachability_service b c = false →
        M.blue_anticone_size b D = some (M.blue_anticone D b).card ∧
          (M.blue_anticone D b).card ≤ M.k := fun b hb _ =>
      ⟨hset.context.sizes b (hsub b (.mergeset hb)), hset.context.cluster b (hsub b (.mergeset hb))⟩
    obtain ⟨hpass, hfail⟩ := scan_spec (fun b => (M.blue_anticone D b).card) d.mergeset_blues hL
      sizes size hacc.size_le
    by_cases hok : M.ScanOk c (fun b => (M.blue_anticone D b).card) d.mergeset_blues size
    · obtain ⟨sizes', hgo', hlook⟩ := hpass hok
      obtain ⟨out, hout, hspec⟩ := ih _ d' sizes' _ hnext
        (chain_acc_next hinv hreach hset hd' hsub hnodup hdisj hacc hok hlook)
      exact ⟨out, by simp [check_blue_candidate.go, hwith, hgo', hd', hout], hspec⟩
    · obtain ⟨sizes', size', hgo'⟩ := hfail hok
      exact ⟨.Red, by simp [check_blue_candidate.go, hwith, hgo'],
        chain_red hinv hreach hset hsub hnodup hacc hok⟩

end ChainWalk

theorem coloring_by_congr {r r' : Prop} (h : r ↔ r') {d : GhostdagData} {c : Hash}
    {out : ColoringOutput} : M.ColoringBy r d c out ↔ M.ColoringBy r' d c out := by
  cases out <;> simp [ColoringBy, h]

section Check

variable (hinv : M.Inv) (hreach : M.ReachabilityCorrect) {D : GhostdagData} {c : Hash}
  (hset : M.CandidateSetting D c)
include hinv hreach hset

-- `check_blue_candidate` answers GHOSTDAG's blue rule, and never panics.
theorem check_blue_candidate_spec (hlen : D.mergeset_blues.length ≤ M.k + 1) :
    ∃ out, M.check_blue_candidate D c = some out ∧ M.IsColoring D c out := by
  classical
  unfold check_blue_candidate
  split_ifs with hfull
  · exact ⟨.Red, rfl, fun hrule => by have := hrule.1; omega⟩
  -- the walk starts at the new block with nothing counted
  have hstart : M.ChainStep D none D (M.chain_fuel D) := ⟨rfl, le_rfl⟩
  have hnone : ∀ x ∈ M.blue_anticone D c, M.InBlues D x := fun x hx => (mem_blue_anticone.mp hx).2.1
  have hacc : M.ChainAcc D c D ∅ 0 := by
    refine ⟨?_, fun x => ?_, Nat.zero_le _, fun x hx hxD => absurd (hnone x hx) hxD⟩
    · rw [Finset.filter_false_of_mem fun x hx hxD => hxD (hnone x hx), Finset.card_empty]
    · by_cases hx : x ∈ M.blue_anticone D c
      · simp [hnone x hx]
      · simp [hx]
  obtain ⟨out, hout, hspec⟩ := chain_spec hinv hreach hset _ none D ∅ 0 hstart hacc
  refine ⟨out, hout, (coloring_by_congr ?_).mp hspec⟩
  exact ⟨fun hrule => ⟨by omega, hrule⟩, fun hrule => hrule.2⟩

end Check

end Waglayla.Consensus.GhostdagManager
