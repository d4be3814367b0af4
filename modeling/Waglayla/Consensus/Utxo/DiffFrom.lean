import Waglayla.Consensus.Utxo.Diff

namespace Waglayla.Consensus

open UtxoCollection

namespace UtxoDiff

-- The diff that leads from what `self` does to what `other` does, both over one base. The
-- three rules reject outpoints where the two diffs cannot be over the same base, and the last
-- check an outpoint both add with one DAA score whose removal only one of them records.
def diff_from (self : UtxoDiff) (other : ImmutableUtxoDiff) :
    Except UtxoAlgebraError UtxoDiff :=
  let rule_not_added_output_removed_with_daa_score :=
    fun (outpoint : TransactionOutpoint) (this_entry other_entry : UtxoEntry) =>
      !(other_entry.block_daa_score != this_entry.block_daa_score &&
        (self.add.contains_with_daa_score outpoint other_entry.block_daa_score ||
          other.removed.contains_with_daa_score outpoint this_entry.block_daa_score))
  match self.remove.intersects_with_rule other.added
      rule_not_added_output_removed_with_daa_score with
  | some offending_outpoint =>
    .error (.DiffIntersectionPoint offending_outpoint "both in self.add and in other.remove")
  | none =>
    let rule_not_removed_output_added_with_daa_score :=
      fun (outpoint : TransactionOutpoint) (this_entry other_entry : UtxoEntry) =>
        !(other_entry.block_daa_score != this_entry.block_daa_score &&
          (self.remove.contains_with_daa_score outpoint other_entry.block_daa_score ||
            other.added.contains_with_daa_score outpoint this_entry.block_daa_score))
    match self.add.intersects_with_rule other.removed
        rule_not_removed_output_added_with_daa_score with
    | some offending_outpoint =>
      .error (.DiffIntersectionPoint offending_outpoint "both in self.remove and in other.add")
    | none =>
      match self.remove.intersects_with_rule other.removed fun _ this_entry other_entry =>
          other_entry.block_daa_score != this_entry.block_daa_score with
      | some offending_outpoint =>
        .error (.DiffIntersectionPoint offending_outpoint
          "both in self.remove and other.remove with different DAA scores, with no corresponding entry in self.add")
      | none =>
        -- `self.add` minus `other.added` starts `result.remove`; the rest is in both
        let first := subtraction_with_remainder_having_daa_score_in_place self.add other.added
          ∅ ∅
        let in_both_to_add := first.2
        if in_both_to_add.intersects self.remove != in_both_to_add.intersects other.removed then
          .error (.General
            "diff_from: outpoint both in self.add, other.add, and only one of self.remove and other.remove")
        else
          let result_remove :=
            subtraction_having_daa_score_in_place other.removed self.remove first.1
          let result_add := subtraction_having_daa_score_in_place self.remove other.removed ∅
          let result_add := subtraction_having_daa_score_in_place other.added self.add result_add
          .ok ⟨result_add, result_remove⟩

end UtxoDiff

section PerOutpoint

-- What `diff_from` leaves at one outpoint, from what `self.add`, `self.remove`,
-- `other.added` and `other.removed` hold there.
def diff_from_at (add remove added removed : Option UtxoEntry) :
    Option UtxoEntry × Option UtxoEntry :=
  (subtract_at added add (subtract_at remove removed none),
    subtract_at removed remove (subtract_at add added none))

-- The checks of `diff_from` pass at one outpoint: its three rules, and where both diffs add
-- one entry, both remove there or neither does.
structure DiffFromChecksAt (add remove added removed : Option UtxoEntry) : Prop where
  removed_added : ∀ s y, remove = some s → added = some y →
    y.block_daa_score ≠ s.block_daa_score ∧
      (has_daa_score add y.block_daa_score = true ∨
        has_daa_score removed s.block_daa_score = true)
  added_removed : ∀ x r, add = some x → removed = some r →
    r.block_daa_score ≠ x.block_daa_score ∧
      (has_daa_score remove r.block_daa_score = true ∨
        has_daa_score added x.block_daa_score = true)
  removed_removed : ∀ s r, remove = some s → removed = some r →
    r.block_daa_score = s.block_daa_score
  in_both : ∀ x, add = some x → has_daa_score added x.block_daa_score = true →
    (remove.isSome ↔ removed.isSome)

-- Two entries of one outpoint agree when the same DAA score makes them the same entry.
def agree : Option UtxoEntry → Option UtxoEntry → Prop
  | some x, some y => x.block_daa_score = y.block_daa_score → x = y
  | _, _ => True

instance (e e' : Option UtxoEntry) : Decidable (agree e e') :=
  match e, e' with
  | some x, some y =>
    inferInstanceAs (Decidable (x.block_daa_score = y.block_daa_score → x = y))
  | none, _ => isTrue trivial
  | some _, none => isTrue trivial

-- The entries of one outpoint agree pairwise: the source's "if an outpoint exists in both
-- diffs, its underlying values would be the same", with the base view's entry included.
def consistent_at (entries : List (Option UtxoEntry)) : Prop :=
  ∀ e ∈ entries, ∀ e' ∈ entries, agree e e'

instance (entries : List (Option UtxoEntry)) : Decidable (consistent_at entries) :=
  inferInstanceAs (Decidable (∀ e ∈ entries, ∀ e' ∈ entries, agree e e'))

-- A diff does not add and remove one outpoint at one DAA score.
def apart_at : Option UtxoEntry → Option UtxoEntry → Prop
  | some x, some r => x.block_daa_score ≠ r.block_daa_score
  | _, _ => True

instance (add remove : Option UtxoEntry) : Decidable (apart_at add remove) :=
  match add, remove with
  | some x, some r => inferInstanceAs (Decidable (x.block_daa_score ≠ r.block_daa_score))
  | none, _ => isTrue trivial
  | some _, none => isTrue trivial

@[simp]
theorem apart_at_none_left (e : Option UtxoEntry) : apart_at none e := trivial

@[simp]
theorem apart_at_none_right (e : Option UtxoEntry) : apart_at e none := by
  cases e <;> trivial

-- The diff at one outpoint that takes `base` to `view`: nothing when they are the same,
-- otherwise `view` added and `base` removed.
def canonical_at (base view : Option UtxoEntry) : Option UtxoEntry × Option UtxoEntry :=
  if view = base then (none, none) else (view, base)

theorem agree.symm {e e' : Option UtxoEntry} (h : agree e e') : agree e' e := by
  cases e with
  | none => cases e' <;> trivial
  | some x =>
    cases e' with
    | none => trivial
    | some y => exact fun hs => (h hs.symm).symm

theorem consistent_at.agree {entries : List (Option UtxoEntry)} (h : consistent_at entries)
    {e e' : Option UtxoEntry} (he : e ∈ entries) (he' : e' ∈ entries) : agree e e' :=
  h e he e' he'

-- An entry that is absent or already among consistent entries keeps them consistent.
theorem consistent_at_cons {entries : List (Option UtxoEntry)} (h : consistent_at entries)
    {e : Option UtxoEntry} (he : e = none ∨ e ∈ entries) : consistent_at (e :: entries) := by
  have hself : agree e e := by
    rcases he with rfl | he
    · trivial
    · exact h e he e he
  have hleft : ∀ e' ∈ entries, agree e e' := by
    rcases he with rfl | he
    · intro e' _
      trivial
    · exact fun e' he' => h e he e' he'
  intro x hx y hy
  rcases List.mem_cons.mp hx with rfl | hx'
  · rcases List.mem_cons.mp hy with rfl | hy'
    · exact hself
    · exact hleft y hy'
  · rcases List.mem_cons.mp hy with rfl | hy'
    · exact (hleft x hx').symm
    · exact h x hx' y hy'

-- Between agreeing entries, holding an entry's DAA score is holding that entry.
theorem has_daa_score_iff_of_agree {e : Option UtxoEntry} {x : UtxoEntry} (h : agree e (some x)) :
    has_daa_score e x.block_daa_score = true ↔ e = some x := by
  rw [has_daa_score_eq_true]
  constructor
  · rintro ⟨y, rfl, hy⟩
    rw [h hy]
  · rintro rfl
    exact ⟨x, rfl, rfl⟩

@[simp]
theorem has_daa_score_self (x : UtxoEntry) : has_daa_score (some x) x.block_daa_score = true := by
  simp [has_daa_score]

@[simp]
theorem subtract_at_none_left (other result : Option UtxoEntry) :
    subtract_at none other result = result :=
  rfl

@[simp]
theorem subtract_at_self (e result : Option UtxoEntry) : subtract_at e e result = result := by
  cases e <;> simp [subtract_at]

@[simp]
theorem subtract_at_none (e : Option UtxoEntry) : subtract_at e none none = e := by
  cases e <;> rfl

-- Subtracting an agreeing entry removes exactly the same entry.
theorem subtract_at_of_agree {this other : Option UtxoEntry} (h : agree this other) :
    subtract_at this other none = if this = other then none else this := by
  cases this with
  | none => simp [subtract_at]
  | some x =>
    simp only [subtract_at]
    rw [if_congr (has_daa_score_iff_of_agree h.symm) rfl rfl]
    simp [eq_comm]

-- A view is its base, the diff's own entry, or nothing.
theorem view_at_mem {entries : List (Option UtxoEntry)} {base add remove : Option UtxoEntry}
    (hbase : base ∈ entries) (hadd : add ∈ entries) :
    view_at base add remove = none ∨ view_at base add remove ∈ entries := by
  unfold view_at
  cases add with
  | some x => exact .inr hadd
  | none =>
    dsimp only
    split
    · exact .inl rfl
    · exact .inr hbase

@[simp]
theorem with_diff_at_none_right (add remove : Option UtxoEntry) :
    with_diff_at add remove none none = (add, remove) :=
  rfl

-- Over a first diff that adds nothing, a removal is recorded before any addition is looked at.
theorem with_diff_at_none_none (added removed : Option UtxoEntry) :
    with_diff_at none none added removed = with_diff_at none removed added none := by
  cases removed <;> rfl

-- A second diff that removes the first one's own entry takes that addition back.
theorem with_diff_at_removed_self (add remove added : Option UtxoEntry) :
    with_diff_at add remove added add = with_diff_at none remove added none := by
  cases add with
  | none => rfl
  | some x => simp [with_diff_at]

-- An addition over a removal of an agreeing entry cancels it when it is that entry.
theorem with_diff_at_none_of_agree {remove added : Option UtxoEntry} (h : agree remove added) :
    with_diff_at none remove added none = canonical_at remove added := by
  cases added with
  | none =>
    unfold canonical_at
    split_ifs with h'
    · rw [← h']
      rfl
    · rfl
  | some y =>
    simp only [with_diff_at, canonical_at]
    rw [if_congr (has_daa_score_iff_of_agree h) rfl rfl]
    simp [eq_comm]

section Canonical

variable {base va vb : Option UtxoEntry}

-- The diff from a base to any view applies to that base.
theorem applies_at_canonical_at (base view : Option UtxoEntry) :
    applies_at base (canonical_at base view).1 (canonical_at base view).2 := by
  unfold canonical_at
  split_ifs
  · exact ⟨fun _ h => (nomatch h), fun _ h => (nomatch h)⟩
  · refine ⟨fun r hr => ⟨r, hr, rfl⟩, fun _ _ => ?_⟩
    cases base with
    | none => exact .inl rfl
    | some v => exact .inr rfl

-- A diff that applies to a base, keeps its add and remove apart and removes the base's own
-- entry is the diff from the base to the view it leaves.
theorem eq_canonical_at {add remove : Option UtxoEntry} (ha : applies_at base add remove)
    (hapart : apart_at add remove) (hagree : agree base remove) :
    (add, remove) = canonical_at base (view_at base add remove) := by
  cases remove with
  | none =>
    cases add with
    | none => simp [canonical_at, view_at]
    | some x =>
      -- an addition over nothing
      have hbase : base = none := by
        rcases ha.2 x rfl with h | h
        · exact h
        · cases h
      subst hbase
      rfl
  | some r =>
    -- the removal spends the base's entry itself
    obtain ⟨v, hv, hvr⟩ := ha.1 r rfl
    have hvr : v = r := by
      subst hv
      exact hagree hvr
    subst hv hvr
    cases add with
    | none => simp [canonical_at, view_at]
    | some x =>
      have hne : x ≠ v := fun h => hapart (h ▸ rfl)
      simp [canonical_at, view_at, hne]

-- The diff between two diffs from one base is the diff between the views they leave.
theorem diff_from_at_canonical_at (hab : agree va vb) :
    diff_from_at (canonical_at base va).1 (canonical_at base va).2 (canonical_at base vb).1
        (canonical_at base vb).2 = canonical_at va vb := by
  by_cases ha : va = base
  · -- the first diff is empty there, and the second is the result
    simp [canonical_at, ha, diff_from_at]
  by_cases hb : vb = base
  · -- the second diff is empty there, and the first is reversed
    simp [canonical_at, ha, hb, Ne.symm ha, diff_from_at]
  · -- both remove the base's entry, which then cancels out
    simp only [canonical_at, if_neg ha, if_neg hb, diff_from_at, subtract_at_self,
      subtract_at_of_agree hab, subtract_at_of_agree hab.symm]
    by_cases hab' : vb = va
    · simp [hab']
    · simp [hab', Ne.symm hab']

-- Two diffs from one base pass every check of `diff_from`.
theorem diff_from_checks_at_canonical_at (ha : agree base va) (hb : agree base vb) :
    DiffFromChecksAt (canonical_at base va).1 (canonical_at base va).2 (canonical_at base vb).1
      (canonical_at base vb).2 := by
  by_cases hva : va = base
  · -- nothing in the first diff, so no rule can fail
    simp only [canonical_at, if_pos hva]
    exact ⟨fun _ _ h => (nomatch h), fun _ _ h => (nomatch h), fun _ _ h => (nomatch h),
      fun _ h => (nomatch h)⟩
  by_cases hvb : vb = base
  · -- nothing in the second diff
    simp only [canonical_at, if_pos hvb, if_neg hva]
    exact ⟨fun _ _ _ h => (nomatch h), fun _ _ _ h => (nomatch h), fun _ _ _ h => (nomatch h),
      fun _ _ h => by simp [has_daa_score] at h⟩
  -- both diffs remove the base's entry and add one of another DAA score
  simp only [canonical_at, if_neg hva, if_neg hvb]
  refine ⟨fun s y hs hy => ⟨fun hsy => hvb ?_, .inr (hs ▸ has_daa_score_self s)⟩,
    fun x r hx hr => ⟨fun hrx => hva ?_, .inl (hr ▸ has_daa_score_self r)⟩,
    fun s r hs hr => by rw [hs] at hr; cases hr; rfl, fun _ _ _ => Iff.rfl⟩
  · subst hs hy
    rw [hb hsy.symm]
  · subst hx hr
    rw [ha hrx]

-- Merging the diff from a base to one view with the diff from that view to another is the
-- diff from the base to the other view.
theorem with_diff_at_canonical_at (hb : agree base vb) :
    with_diff_at (canonical_at base va).1 (canonical_at base va).2 (canonical_at va vb).1
      (canonical_at va vb).2 = canonical_at base vb := by
  by_cases ha : va = base
  · -- the first diff is empty there, and the merge is the second diff
    subst ha
    by_cases hab : vb = va
    · simp [canonical_at, hab]
    · simp only [canonical_at, if_neg hab, ↓reduceIte]
      rw [with_diff_at_none_none, with_diff_at_none_of_agree hb, canonical_at, if_neg hab]
  by_cases hab : vb = va
  · -- the second diff is empty there
    simp [canonical_at, hab, ha]
  · -- the second diff removes the first one's entry, and the base's removal stays
    simp only [canonical_at, if_neg ha, if_neg hab]
    rw [with_diff_at_removed_self, with_diff_at_none_of_agree hb, canonical_at]

-- The views two diffs leave, the second over the base or over the first's view, are
-- consistent with the entries they are made of.
theorem consistent_at_views {add remove added removed : Option UtxoEntry}
    (h : consistent_at [base, add, remove, added, removed]) (w : Option UtxoEntry)
    (hw : w = base ∨ w = view_at base add remove) :
    consistent_at [view_at w added removed, view_at base add remove, base, add, remove,
      added, removed] := by
  have hva : view_at base add remove = none ∨
      view_at base add remove ∈ [base, add, remove, added, removed] :=
    view_at_mem (by simp) (by simp)
  have hw' : w ∈ view_at base add remove :: [base, add, remove, added, removed] := by
    rcases hw with rfl | rfl <;> simp
  exact consistent_at_cons (consistent_at_cons h hva) (view_at_mem hw' (by simp))

-- At one outpoint, for two diffs over one base: `diff_from` passes its checks, its result
-- applies where the first diff leaves the base, and merged into the first diff it gives the
-- second one back.
theorem with_diff_at_diff_from_at {add remove added removed : Option UtxoEntry}
    (ha : applies_at base add remove) (hb : applies_at base added removed)
    (ha_apart : apart_at add remove) (hb_apart : apart_at added removed)
    (h : consistent_at [base, add, remove, added, removed]) :
    DiffFromChecksAt add remove added removed ∧
      applies_at (view_at base add remove) (diff_from_at add remove added removed).1
        (diff_from_at add remove added removed).2 ∧
      with_diff_at add remove (diff_from_at add remove added removed).1
        (diff_from_at add remove added removed).2 = (added, removed) := by
  have hc := consistent_at_views h base (.inl rfl)
  have hA := eq_canonical_at ha ha_apart (hc.agree (by simp) (by simp))
  have hB := eq_canonical_at hb hb_apart (hc.agree (by simp) (by simp))
  -- both diffs are the diffs from the base to the views they leave
  generalize view_at base add remove = va at hA hc ⊢
  generalize view_at base added removed = vb at hB hc
  obtain ⟨rfl, rfl⟩ : add = (canonical_at base va).1 ∧ remove = (canonical_at base va).2 :=
    ⟨congrArg Prod.fst hA, congrArg Prod.snd hA⟩
  obtain ⟨rfl, rfl⟩ : added = (canonical_at base vb).1 ∧ removed = (canonical_at base vb).2 :=
    ⟨congrArg Prod.fst hB, congrArg Prod.snd hB⟩
  rw [diff_from_at_canonical_at (hc.agree (by simp) (by simp)),
    with_diff_at_canonical_at (hc.agree (by simp) (by simp))]
  exact ⟨diff_from_checks_at_canonical_at (hc.agree (by simp) (by simp))
    (hc.agree (by simp) (by simp)), applies_at_canonical_at va vb, rfl⟩

-- At one outpoint, for a diff and a second one over the view it leaves: `diff_from` passes
-- its checks on the first diff and their merge, and gives the second diff back.
theorem diff_from_at_with_diff_at {add remove added removed : Option UtxoEntry}
    (ha : applies_at base add remove) (hb : applies_at (view_at base add remove) added removed)
    (ha_apart : apart_at add remove) (hb_apart : apart_at added removed)
    (h : consistent_at [base, add, remove, added, removed]) :
    DiffFromChecksAt add remove (with_diff_at add remove added removed).1
        (with_diff_at add remove added removed).2 ∧
      diff_from_at add remove (with_diff_at add remove added removed).1
        (with_diff_at add remove added removed).2 = (added, removed) := by
  have hc := consistent_at_views h (view_at base add remove) (.inr rfl)
  have hA := eq_canonical_at ha ha_apart (hc.agree (by simp) (by simp))
  have hB := eq_canonical_at hb hb_apart (hc.agree (by simp) (by simp))
  -- the first diff goes from the base to its view, the second from there to its own
  generalize view_at base add remove = va at hA hB hc
  generalize view_at va added removed = vb at hB hc
  obtain ⟨rfl, rfl⟩ : add = (canonical_at base va).1 ∧ remove = (canonical_at base va).2 :=
    ⟨congrArg Prod.fst hA, congrArg Prod.snd hA⟩
  obtain ⟨rfl, rfl⟩ : added = (canonical_at va vb).1 ∧ removed = (canonical_at va vb).2 :=
    ⟨congrArg Prod.fst hB, congrArg Prod.snd hB⟩
  rw [with_diff_at_canonical_at (hc.agree (by simp) (by simp))]
  exact ⟨diff_from_checks_at_canonical_at (hc.agree (by simp) (by simp))
    (hc.agree (by simp) (by simp)), diff_from_at_canonical_at (hc.agree (by simp) (by simp))⟩

end Canonical

end PerOutpoint

namespace UtxoDiff

-- The checks of `diff_from` pass when they pass at every outpoint.
theorem diff_from_ok {self : UtxoDiff} {other : ImmutableUtxoDiff}
    (h : ∀ o, DiffFromChecksAt (self.add.lookup o) (self.remove.lookup o) (other.added.lookup o)
      (other.removed.lookup o)) :
    ∃ d, self.diff_from other = .ok d := by
  unfold diff_from
  dsimp only
  rw [intersects_with_rule_eq_none_iff.mpr fun o s y hs hy => ?rule1,
    intersects_with_rule_eq_none_iff.mpr fun o x r hx hr => ?rule2,
    intersects_with_rule_eq_none_iff.mpr fun o s r hs hr => ?rule3]
  · dsimp only
    rw [if_neg ?general]
    · exact ⟨_, rfl⟩
    -- an outpoint both add is in both removals or in neither
    rw [bne_iff_ne, not_not, Bool.eq_iff_iff, intersects_iff, intersects_iff]
    refine exists_congr fun o => and_congr_right fun hmem => ?_
    have hlook := (Prod.mk.inj
      (lookup_subtraction_with_remainder_having_daa_score_in_place self.add other.added ∅ ∅ o)).2
    rw [← AList.lookup_isSome, hlook] at hmem
    rw [← AList.lookup_isSome, ← AList.lookup_isSome]
    cases hx : self.add.lookup o with
    | none => simp [hx] at hmem
    | some x =>
      simp only [hx, AList.lookup_empty] at hmem
      split_ifs at hmem with hxs
      · exact (h o).in_both x hx hxs
      · cases hmem
  case rule1 =>
    -- `self` removes and `other` adds: other DAA scores, and one side has both
    simp only [contains_with_daa_score_eq, Bool.not_eq_eq_eq_not, Bool.not_false,
      Bool.and_eq_true, bne_iff_ne, Bool.or_eq_true]
    exact (h o).removed_added s y hs hy
  case rule2 =>
    simp only [contains_with_daa_score_eq, Bool.not_eq_eq_eq_not, Bool.not_false,
      Bool.and_eq_true, bne_iff_ne, Bool.or_eq_true]
    exact (h o).added_removed x r hx hr
  case rule3 =>
    simp [(h o).removed_removed s r hs hr]

-- A successful `diff_from` acts at every outpoint as `diff_from_at` says.
theorem lookup_diff_from {self : UtxoDiff} {other : ImmutableUtxoDiff} {d : UtxoDiff}
    (h : self.diff_from other = .ok d) (o : TransactionOutpoint) :
    d.lookups o = diff_from_at (self.add.lookup o) (self.remove.lookup o)
      (other.added.lookup o) (other.removed.lookup o) := by
  unfold diff_from at h
  dsimp only at h
  split at h
  · cases h
  split at h
  · cases h
  split at h
  · cases h
  split_ifs at h
  cases h
  have hfirst := (Prod.mk.inj
    (lookup_subtraction_with_remainder_having_daa_score_in_place self.add other.added ∅ ∅ o)).1
  simp only [lookups, diff_from_at, lookup_subtraction_having_daa_score_in_place, hfirst,
    AList.lookup_empty]

section RoundTrip

variable {V : UtxoView} {a b : UtxoDiff}

-- The diff from `a` to `b`, two diffs over `V`, merged into `a` gives `b` back.
theorem with_diff_diff_from_of_applies
    (ha_apart : ∀ o, apart_at (a.add.lookup o) (a.remove.lookup o))
    (hb_apart : ∀ o, apart_at (b.add.lookup o) (b.remove.lookup o))
    (hcons : ∀ o, consistent_at [V o, a.add.lookup o, a.remove.lookup o, b.add.lookup o,
      b.remove.lookup o])
    (ha : applies_to a.immutable V) (hb : applies_to b.immutable V) :
    ∃ d w, a.diff_from b.immutable = .ok d ∧ a.with_diff d.immutable = .ok w ∧
      ∀ o, w.lookups o = b.lookups o := by
  have hat := fun o =>
    with_diff_at_diff_from_at (ha o) (hb o) (ha_apart o) (hb_apart o) (hcons o)
  simp only [immutable] at hat
  obtain ⟨d, hd⟩ := @diff_from_ok a b.immutable fun o => (hat o).1
  have hdo := lookup_diff_from hd
  simp only [immutable] at hdo
  -- the diff found applies where `a` leaves the base, so the merge passes its checks
  have hdapp : applies_to d.immutable (compose V a.immutable) := by
    intro o
    obtain ⟨-, happ, -⟩ := hat o
    rw [← hdo o] at happ
    rw [compose_eq_view_at]
    exact happ
  obtain ⟨w, hw⟩ := with_diff_ok_of_applies hdapp
  refine ⟨d, w, hd, hw, fun o => ?_⟩
  obtain ⟨-, -, hround⟩ := hat o
  rw [← hdo o] at hround
  exact (lookup_with_diff_in_place hw o).trans hround

-- `a` merged with a diff `b` over the view `a` leaves, then diffed from `a`, gives `b` back.
theorem diff_from_with_diff_of_applies
    (ha_apart : ∀ o, apart_at (a.add.lookup o) (a.remove.lookup o))
    (hb_apart : ∀ o, apart_at (b.add.lookup o) (b.remove.lookup o))
    (hcons : ∀ o, consistent_at [V o, a.add.lookup o, a.remove.lookup o, b.add.lookup o,
      b.remove.lookup o])
    (ha : applies_to a.immutable V) (hb : applies_to b.immutable (compose V a.immutable)) :
    ∃ w d, a.with_diff b.immutable = .ok w ∧ a.diff_from w.immutable = .ok d ∧
      ∀ o, d.lookups o = b.lookups o := by
  have hat := fun o => by
    have hbo := hb o
    rw [compose_eq_view_at] at hbo
    exact diff_from_at_with_diff_at (ha o) hbo (ha_apart o) (hb_apart o) (hcons o)
  simp only [immutable] at hat
  obtain ⟨w, hw⟩ := with_diff_ok_of_applies hb
  -- the merge holds at every outpoint what `with_diff_at` says
  have hwo : ∀ o, w.lookups o = with_diff_at (a.add.lookup o) (a.remove.lookup o)
      (b.add.lookup o) (b.remove.lookup o) := fun o => lookup_with_diff_in_place hw o
  obtain ⟨d, hd⟩ := @diff_from_ok a w.immutable fun o => by
    obtain ⟨hchecks, -⟩ := hat o
    rw [← hwo o] at hchecks
    exact hchecks
  have hdo := lookup_diff_from hd
  simp only [immutable] at hdo
  refine ⟨w, d, hw, hd, fun o => ?_⟩
  obtain ⟨-, hround⟩ := hat o
  rw [← hwo o] at hround
  exact (hdo o).trans hround

end RoundTrip

end UtxoDiff


open UtxoDiff

-- `diff_from` and `with_diff` undo each other on diffs that apply to one base view, where no
-- diff adds and removes an outpoint at one DAA score and entries of one outpoint with one DAA
-- score are one entry: the diff from `a` to `b` merged into `a` is `b`, and `a` merged with a
-- diff `b` over its view, then diffed from `a`, is `b` (as maps: the same entries at every
-- outpoint).
theorem diff_from_with_diff_inverse (V : UtxoView) (a b : UtxoDiff)
    (ha_apart : ∀ o, apart_at (a.add.lookup o) (a.remove.lookup o))
    (hb_apart : ∀ o, apart_at (b.add.lookup o) (b.remove.lookup o))
    (hcons : ∀ o, consistent_at [V o, a.add.lookup o, a.remove.lookup o, b.add.lookup o,
      b.remove.lookup o])
    (ha : applies_to a.immutable V) :
    (applies_to b.immutable V →
      ∃ d w, a.diff_from b.immutable = .ok d ∧ a.with_diff d.immutable = .ok w ∧
        ∀ o, w.lookups o = b.lookups o) ∧
    (applies_to b.immutable (compose V a.immutable) →
      ∃ w d, a.with_diff b.immutable = .ok w ∧ a.diff_from w.immutable = .ok d ∧
        ∀ o, d.lookups o = b.lookups o) :=
  ⟨with_diff_diff_from_of_applies ha_apart hb_apart hcons ha,
    diff_from_with_diff_of_applies ha_apart hb_apart hcons ha⟩

-- A spend and a replacement of the base's one entry: as one diff over the base, whose
-- difference from the spend merges back to it, and as a second diff after the spend, which the
-- merge with the spend gives back as a difference.
theorem diff_from_with_diff_inverse_spend_replace :
    let o : TransactionOutpoint := ⟨[], 0⟩
    let v : UtxoEntry := ⟨10, ⟨0, []⟩, 1, false⟩
    let y : UtxoEntry := ⟨20, ⟨0, []⟩, 2, false⟩
    let a : UtxoDiff := ⟨∅, (∅ : UtxoCollection).insert o v⟩
    let b : UtxoDiff := ⟨(∅ : UtxoCollection).insert o y, (∅ : UtxoCollection).insert o v⟩
    let b' : UtxoDiff := ⟨(∅ : UtxoCollection).insert o y, ∅⟩
    (∃ d w, a.diff_from b.immutable = .ok d ∧ a.with_diff d.immutable = .ok w ∧
      ∀ p, w.lookups p = b.lookups p) ∧
    ∃ w d, a.with_diff b'.immutable = .ok w ∧ a.diff_from w.immutable = .ok d ∧
      ∀ p, d.lookups p = b'.lookups p := by
  intro o v y a b b'
  -- the base holds v at o
  let V : UtxoView := fun p => if p = o then some v else none
  have ha_apart : ∀ p, apart_at (a.add.lookup p) (a.remove.lookup p) := fun p => by simp [a]
  have hb_apart : ∀ p, apart_at (b.add.lookup p) (b.remove.lookup p) := fun p => by
    by_cases hp : p = o
    · subst hp
      decide
    · simp only [b, AList.lookup_insert_ne hp, AList.lookup_empty, apart_at_none_left]
  have hb'_apart : ∀ p, apart_at (b'.add.lookup p) (b'.remove.lookup p) := fun p => by
    simp [b']
  -- at o the entries are the base's and the replacement, of different DAA scores
  have hcons : ∀ p, consistent_at [V p, a.add.lookup p, a.remove.lookup p, b.add.lookup p,
      b.remove.lookup p] := fun p => by
    by_cases hp : p = o
    · subst hp
      decide
    · simp only [V, a, b, if_neg hp, AList.lookup_insert_ne hp, AList.lookup_empty]
      decide
  have hcons' : ∀ p, consistent_at [V p, a.add.lookup p, a.remove.lookup p, b'.add.lookup p,
      b'.remove.lookup p] := fun p => by
    by_cases hp : p = o
    · subst hp
      decide
    · simp only [V, a, b', if_neg hp, AList.lookup_insert_ne hp, AList.lookup_empty]
      decide
  have ha : applies_to a.immutable V := applies_to_of_check (by decide)
  exact ⟨(diff_from_with_diff_inverse V a b ha_apart hb_apart hcons ha).1
      (applies_to_of_check (by decide)),
    (diff_from_with_diff_inverse V a b' ha_apart hb'_apart hcons' ha).2
      (applies_to_of_check (by decide))⟩

-- The round trips fail for diffs that are not over one base, though none adds and removes an
-- outpoint at one DAA score: two removals of different entries with one DAA score have the
-- empty diff, which merged gives the first removal back; and an addition merged with a removal
-- of another entry is rejected by `diff_from`.
theorem diff_from_with_diff_not_inverse :
    let o : TransactionOutpoint := ⟨[], 0⟩
    let e : UtxoEntry := ⟨10, ⟨0, []⟩, 1, false⟩
    let e' : UtxoEntry := ⟨20, ⟨0, []⟩, 1, false⟩
    let e₂ : UtxoEntry := ⟨20, ⟨0, []⟩, 2, false⟩
    let a : UtxoDiff := ⟨∅, (∅ : UtxoCollection).insert o e⟩
    let b : UtxoDiff := ⟨∅, (∅ : UtxoCollection).insert o e'⟩
    let a' : UtxoDiff := ⟨(∅ : UtxoCollection).insert o e, ∅⟩
    let b' : UtxoDiff := ⟨∅, (∅ : UtxoCollection).insert o e₂⟩
    (∀ p, apart_at (a.add.lookup p) (a.remove.lookup p)) ∧
      (∀ p, apart_at (b.add.lookup p) (b.remove.lookup p)) ∧
      (∃ d w, a.diff_from b.immutable = .ok d ∧ a.with_diff d.immutable = .ok w ∧
        w.lookups o ≠ b.lookups o) ∧
      (∀ p, apart_at (a'.add.lookup p) (a'.remove.lookup p)) ∧
      (∀ p, apart_at (b'.add.lookup p) (b'.remove.lookup p)) ∧
      ∃ w, a'.with_diff b'.immutable = .ok w ∧
        a'.diff_from w.immutable = .error (.General
          "diff_from: outpoint both in self.add, other.add, and only one of self.remove and other.remove") := by
  intro o e e' e₂ a b a' b'
  exact ⟨fun p => by simp [a], fun p => by simp [b], ⟨_, _, rfl, rfl, by decide⟩,
    fun p => by simp [a'], fun p => by simp [b'], _, rfl, rfl⟩

end Waglayla.Consensus
