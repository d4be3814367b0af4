import Waglayla.Consensus.Tx

namespace Waglayla.Consensus

open UtxoCollection

-- The description strings are carried, though the source's `PartialEq` ignores them.
inductive UtxoAlgebraError where
  | DuplicateRemovePoint (outpoint : TransactionOutpoint)
  | DuplicateAddPoint (outpoint : TransactionOutpoint)
  | DoubleRemoveCall (outpoint : TransactionOutpoint)
  | DoubleAddCall (outpoint : TransactionOutpoint)
  | DiffIntersectionPoint (outpoint : TransactionOutpoint) (message : String)
  | General (message : String)
  deriving Repr

structure UtxoDiff where
  add : UtxoCollection
  remove : UtxoCollection

-- `impl ImmutableUtxoDiff`: the two collections a diff shows to `with_diff` and to views.
structure ImmutableUtxoDiff where
  added : UtxoCollection
  removed : UtxoCollection

namespace UtxoDiff

def default : UtxoDiff := ⟨∅, ∅⟩

-- `impl ImmutableUtxoDiff for UtxoDiff`
def immutable (self : UtxoDiff) : ImmutableUtxoDiff := ⟨self.add, self.remove⟩

-- `ReversedUtxoDiff::new(self)`: its `added` is the inner `remove` and the other way round.
def as_reversed (self : UtxoDiff) : ImmutableUtxoDiff := ⟨self.remove, self.add⟩

def to_reversed (self : UtxoDiff) : UtxoDiff := ⟨self.remove, self.add⟩

-- The two sanity checks reject before anything is changed, so an error leaves `self`
-- as it was and the in-place update is a new value here.
def with_diff_in_place (self : UtxoDiff) (other : ImmutableUtxoDiff) :
    Except UtxoAlgebraError UtxoDiff :=
  match other.removed.intersects_with_rule self.remove fun outpoint entry_to_add _ =>
      !self.add.contains_with_daa_score outpoint entry_to_add.block_daa_score with
  | some offending_outpoint => .error (.DuplicateRemovePoint offending_outpoint)
  | none =>
    match other.added.intersects_with_rule self.add fun outpoint _ existing_entry =>
        !other.removed.contains_with_daa_score outpoint existing_entry.block_daa_score with
    | some offending_outpoint => .error (.DuplicateAddPoint offending_outpoint)
    | none =>
      -- a removal cancels an add of the same DAA score, and is recorded otherwise
      let first := intersection_with_remainder_having_daa_score_in_place other.removed self.add
        ∅ self.remove
      let add := self.add.remove_collection first.1
      -- an add cancels a removal of the same DAA score, and is recorded otherwise
      let second := intersection_with_remainder_having_daa_score_in_place other.added first.2
        ∅ add
      .ok ⟨second.2, first.2.remove_collection second.1⟩

def with_diff (self : UtxoDiff) (other : ImmutableUtxoDiff) : Except UtxoAlgebraError UtxoDiff :=
  self.with_diff_in_place other

-- The step `remove_entry` and `add_entry` share: an entry cancels one with the same DAA
-- score on the other side of the diff, is recorded on its own side if that side has no entry
-- at the outpoint (`Vacant`), and is an error otherwise.
def cancel_or_record (cancel record : UtxoCollection) (outpoint : TransactionOutpoint)
    (entry : UtxoEntry) (error : UtxoAlgebraError) :
    Except UtxoAlgebraError (UtxoCollection × UtxoCollection) :=
  if cancel.contains_with_daa_score outpoint entry.block_daa_score then
    .ok (cancel.erase outpoint, record)
  else if outpoint ∉ record then .ok (cancel, record.insert outpoint entry)
  else .error error

def remove_entry (self : UtxoDiff) (outpoint : TransactionOutpoint) (entry : UtxoEntry) :
    Except UtxoAlgebraError UtxoDiff :=
  (cancel_or_record self.add self.remove outpoint entry (.DoubleRemoveCall outpoint)).map
    fun (add, remove) => ⟨add, remove⟩

def add_entry (self : UtxoDiff) (outpoint : TransactionOutpoint) (entry : UtxoEntry) :
    Except UtxoAlgebraError UtxoDiff :=
  (cancel_or_record self.remove self.add outpoint entry (.DoubleAddCall outpoint)).map
    fun (remove, add) => ⟨add, remove⟩

def add_transaction (self : UtxoDiff) (transaction : PopulatedTransaction)
    (block_daa_score : UInt64) : Except UtxoAlgebraError UtxoDiff := do
  let self ← transaction.populated_inputs.foldlM
    (fun self (input, entry) => self.remove_entry input.previous_outpoint entry) self
  let is_coinbase := transaction.tx.is_coinbase
  let tx_id := transaction.tx.id
  transaction.tx.outputs.zipIdx.foldlM (fun self (output, i) =>
    self.add_entry ⟨tx_id, i.toUInt32⟩
      ⟨output.value, output.script_public_key, block_daa_score, is_coinbase⟩) self

end UtxoDiff

-- `ComposedUtxoView::get`; `compose` nests one more diff layer over a view.
def ComposedUtxoView.get (base : UtxoView) (diff : ImmutableUtxoDiff) : UtxoView :=
  fun outpoint =>
    match diff.added.lookup outpoint with
    | some entry => some entry
    | none => if outpoint ∈ diff.removed then none else base outpoint

def compose (base : UtxoView) (diff : ImmutableUtxoDiff) : UtxoView :=
  ComposedUtxoView.get base diff

section PerOutpoint

-- A diff seen at one outpoint: what it adds there and what it removes there.
def view_at (base added removed : Option UtxoEntry) : Option UtxoEntry :=
  match added with
  | some entry => some entry
  | none => if removed.isSome then none else base

theorem compose_eq_view_at (base : UtxoView) (diff : ImmutableUtxoDiff) (o : TransactionOutpoint) :
    compose base diff o = view_at (base o) (diff.added.lookup o) (diff.removed.lookup o) := by
  unfold compose ComposedUtxoView.get view_at
  cases diff.added.lookup o with
  | some entry => rfl
  | none => simp only [AList.lookup_isSome]

-- What `with_diff_in_place` leaves at one outpoint, from what `self.add`, `self.remove`,
-- `other.added` and `other.removed` hold there.
def with_diff_at (add remove added removed : Option UtxoEntry) :
    Option UtxoEntry × Option UtxoEntry :=
  let first : Option UtxoEntry × Option UtxoEntry :=
    match removed with
    | some entry => if has_daa_score add entry.block_daa_score then (none, remove) else (add, some entry)
    | none => (add, remove)
  match added with
  | some entry =>
    if has_daa_score first.2 entry.block_daa_score then (first.1, none) else (some entry, first.2)
  | none => first

-- A diff applies to a view at one outpoint: it removes only the entry the view holds
-- there, by DAA score, and adds only where the view holds nothing or it also removes.
def applies_at (base add remove : Option UtxoEntry) : Prop :=
  (∀ r, remove = some r → ∃ v, base = some v ∧ v.block_daa_score = r.block_daa_score) ∧
    ∀ x, add = some x → base = none ∨ remove.isSome

-- Merging a diff with its own reversal leaves nothing at any outpoint.
theorem with_diff_at_reversed (add remove : Option UtxoEntry) :
    with_diff_at add remove remove add = (none, none) := by
  cases add <;> cases remove <;> simp [with_diff_at, has_daa_score]

section Sequential

variable {base add remove added removed : Option UtxoEntry}

-- Where the second diff removes, the first diff left that very entry (by DAA score).
theorem has_daa_score_of_removed
    (hb : applies_at (view_at base add remove) added removed) {r : UtxoEntry}
    (hr : removed = some r) :
    (add = none ∧ remove = none ∧ ∃ v, base = some v ∧ v.block_daa_score = r.block_daa_score) ∨
      ∃ x, add = some x ∧ x.block_daa_score = r.block_daa_score := by
  obtain ⟨w, hw, hwr⟩ := hb.1 r hr
  cases add with
  | some x =>
    simp only [view_at, Option.some.injEq] at hw
    exact Or.inr ⟨x, rfl, hw ▸ hwr⟩
  | none =>
    cases remove with
    | some s => simp [view_at] at hw
    | none =>
      simp only [view_at, Option.isSome_none, Bool.false_eq_true, if_false] at hw
      exact Or.inl ⟨rfl, rfl, w, hw, hwr⟩

-- An entry the second diff adds over an empty outpoint, or over one it removes.
theorem view_at_eq_none_of_added
    (hb : applies_at (view_at base add remove) added removed) {y : UtxoEntry}
    (hy : added = some y) (hnone : removed = none) : view_at base add remove = none := by
  rcases hb.2 y hy with h | h
  · exact h
  · simp [hnone] at h

-- The first check of `with_diff_in_place` passes where the second diff removes.
theorem has_daa_score_add_of_removed
    (hb : applies_at (view_at base add remove) added removed) {r s : UtxoEntry}
    (hr : removed = some r) (hs : remove = some s) :
    has_daa_score add r.block_daa_score = true := by
  rcases has_daa_score_of_removed hb hr with ⟨-, hnone, -⟩ | ⟨x, hx, hxr⟩
  · rw [hs] at hnone
    cases hnone
  · exact has_daa_score_eq_true.mpr ⟨x, hx, hxr⟩

-- The second check passes where both diffs add.
theorem has_daa_score_removed_of_add
    (hb : applies_at (view_at base add remove) added removed) {y x : UtxoEntry}
    (hy : added = some y) (hx : add = some x) :
    has_daa_score removed x.block_daa_score = true := by
  -- the first diff shows `x`, so the second must remove it before adding `y`
  have hW : view_at base add remove = some x := by rw [hx]; rfl
  rcases hb.2 y hy with h | h
  · rw [hW] at h
    cases h
  · obtain ⟨r, hr⟩ := Option.isSome_iff_exists.mp h
    obtain ⟨w, hw, hwr⟩ := hb.1 r hr
    rw [hW, Option.some.injEq] at hw
    subst hw
    exact has_daa_score_eq_true.mpr ⟨r, hr, hwr.symm⟩

-- At one outpoint, the merged diff shows the base what the two diffs show in turn,
-- provided an entry the second diff adds is the base's own entry when their DAA scores
-- agree.
theorem view_at_with_diff_at (ha : applies_at base add remove)
    (hb : applies_at (view_at base add remove) added removed)
    (hcons : ∀ v y, base = some v → added = some y →
      v.block_daa_score = y.block_daa_score → v = y) :
    view_at base (with_diff_at add remove added removed).1
        (with_diff_at add remove added removed).2 =
      view_at (view_at base add remove) added removed := by
  cases removed with
  | none =>
    cases added with
    | none => rfl
    | some y =>
      have hW := view_at_eq_none_of_added hb rfl rfl
      have hstep : with_diff_at add remove (some y) none =
          if has_daa_score remove y.block_daa_score then (add, none) else (some y, remove) := rfl
      rw [hstep]
      split_ifs with hs
      · -- the add cancels a removal of the base's entry, which is the added entry
        obtain ⟨s, rfl, hsy⟩ := has_daa_score_eq_true.mp hs
        obtain ⟨v, hv, hvs⟩ := ha.1 s rfl
        have hadd : add = none := by
          cases add with
          | none => rfl
          | some x => simp [view_at] at hW
        subst hadd
        rw [show view_at base none none = base from rfl, hv, hcons v y hv rfl (hvs.trans hsy)]
        rfl
      · rfl
  | some r =>
    rcases has_daa_score_of_removed hb rfl with ⟨rfl, rfl, v, hv, hvr⟩ | ⟨x, rfl, hxr⟩
    · -- the first diff left the base's entry, and the removal records it
      cases added with
      | none => rfl
      | some y =>
        have hstep : with_diff_at none none (some y) (some r) =
            if has_daa_score (some r) y.block_daa_score then (none, none)
            else (some y, some r) := rfl
        rw [hstep]
        split_ifs with hs
        · obtain ⟨_, hr, hry⟩ := has_daa_score_eq_true.mp hs
          cases hr
          rw [show view_at base none none = base from rfl, hv, hcons v y hv rfl (hvr.trans hry)]
          rfl
        · rfl
    · -- the removal cancels the first diff's add of the same DAA score
      have hx : has_daa_score (some x) r.block_daa_score = true := by
        simp [has_daa_score, hxr]
      cases added with
      | none =>
        have hstep : with_diff_at (some x) remove none (some r) = (none, remove) := by
          simp [with_diff_at, hx]
        rw [hstep]
        rcases ha.2 x rfl with h | h
        · simp [view_at, h]
        · simp [view_at, h]
      | some y =>
        have hstep : with_diff_at (some x) remove (some y) (some r) =
            if has_daa_score remove y.block_daa_score then (none, none)
            else (some y, remove) := by
          simp [with_diff_at, hx]
        rw [hstep]
        split_ifs with hs
        · obtain ⟨s, rfl, hsy⟩ := has_daa_score_eq_true.mp hs
          obtain ⟨v, hv, hvs⟩ := ha.1 s rfl
          rw [show view_at base none none = base from rfl, hv, hcons v y hv rfl (hvs.trans hsy)]
          rfl
        · rfl

end Sequential

end PerOutpoint

-- `diff` applies to `base` at every outpoint.
def applies_to (diff : ImmutableUtxoDiff) (base : UtxoView) : Prop :=
  ∀ o, applies_at (base o) (diff.added.lookup o) (diff.removed.lookup o)

-- `applies_at` as a check, which a concrete view and diff decide.
def applies_at_check (base add remove : Option UtxoEntry) : Bool :=
  (remove.all fun r => base.any fun v => v.block_daa_score == r.block_daa_score) &&
    (add.isNone || base.isNone || remove.isSome)

theorem applies_at_of_check {base add remove : Option UtxoEntry}
    (h : applies_at_check base add remove = true) : applies_at base add remove := by
  cases base <;> cases add <;> cases remove <;> simp_all [applies_at_check, applies_at]

-- A diff applies to a view where the check passes at every outpoint it adds or removes; at
-- every other outpoint it does nothing.
theorem applies_to_of_check {diff : ImmutableUtxoDiff} {base : UtxoView}
    (h : ∀ o ∈ diff.added.keys ++ diff.removed.keys,
      applies_at_check (base o) (diff.added.lookup o) (diff.removed.lookup o) = true) :
    applies_to diff base := by
  intro o
  by_cases ho : o ∈ diff.added.keys ++ diff.removed.keys
  · exact applies_at_of_check (h o ho)
  · simp only [List.mem_append, not_or] at ho
    rw [AList.lookup_eq_none.mpr ho.1, AList.lookup_eq_none.mpr ho.2]
    exact ⟨fun _ hr => absurd hr (Option.some_ne_none _).symm,
      fun _ hx => absurd hx (Option.some_ne_none _).symm⟩

namespace UtxoDiff

-- Both checks pass when no outpoint breaks its rule.
theorem with_diff_in_place_ok {self : UtxoDiff} {other : ImmutableUtxoDiff}
    (hremove : ∀ o r s, other.removed.lookup o = some r → self.remove.lookup o = some s →
      has_daa_score (self.add.lookup o) r.block_daa_score = true)
    (hadd : ∀ o y x, other.added.lookup o = some y → self.add.lookup o = some x →
      has_daa_score (other.removed.lookup o) x.block_daa_score = true) :
    ∃ c, self.with_diff_in_place other = .ok c := by
  have h1 : other.removed.intersects_with_rule self.remove (fun outpoint entry_to_add _ =>
      !self.add.contains_with_daa_score outpoint entry_to_add.block_daa_score) = none := by
    rw [intersects_with_rule_eq_none_iff]
    intro o r s hr hs
    simp [contains_with_daa_score_eq, hremove o r s hr hs]
  have h2 : other.added.intersects_with_rule self.add (fun outpoint _ existing_entry =>
      !other.removed.contains_with_daa_score outpoint existing_entry.block_daa_score) = none := by
    rw [intersects_with_rule_eq_none_iff]
    intro o y x hy hx
    simp [contains_with_daa_score_eq, hadd o y x hy hx]
  unfold with_diff_in_place
  rw [h1, h2]
  exact ⟨_, rfl⟩

-- A successful merge acts at every outpoint as `with_diff_at` says.
theorem lookup_with_diff_in_place {self : UtxoDiff} {other : ImmutableUtxoDiff} {c : UtxoDiff}
    (h : self.with_diff_in_place other = .ok c) (o : TransactionOutpoint) :
    (c.add.lookup o, c.remove.lookup o) =
      with_diff_at (self.add.lookup o) (self.remove.lookup o) (other.added.lookup o)
        (other.removed.lookup o) := by
  unfold with_diff_in_place at h
  split at h
  · cases h
  split at h
  · cases h
  cases h
  simp only [intersection_with_remainder_having_daa_score_in_place]
  -- the first pass at `o`, then the second pass over its result
  have e1 := lookup_split_having_daa_score other.removed self.add (∅, self.remove) o
  generalize split_having_daa_score other.removed self.add (∅, self.remove) = first at e1 ⊢
  have e2 := lookup_split_having_daa_score other.added first.2
    (∅, self.add.remove_collection first.1) o
  generalize split_having_daa_score other.added first.2
    (∅, self.add.remove_collection first.1) = second at e2 ⊢
  rw [lookup_remove_collection]
  simp only [lookup_remove_collection, AList.lookup_empty] at e2
  unfold with_diff_at
  cases hrm : other.removed.lookup o with
  | none =>
    simp only [hrm, AList.lookup_empty] at e1
    obtain ⟨f1, f2⟩ := Prod.mk.inj e1
    rw [f1, f2] at e2
    cases had : other.added.lookup o with
    | none =>
      simp only [had] at e2
      obtain ⟨g1, g2⟩ := Prod.mk.inj e2
      simp [g1, g2, f2]
    | some y =>
      simp only [had] at e2
      split_ifs at e2 with hy <;> obtain ⟨g1, g2⟩ := Prod.mk.inj e2 <;> simp [g1, g2, f2, hy]
  | some r =>
    simp only [hrm, AList.lookup_empty] at e1
    split_ifs at e1 with hr
    all_goals
      obtain ⟨f1, f2⟩ := Prod.mk.inj e1
      rw [f1, f2] at e2
      cases had : other.added.lookup o with
      | none =>
        simp only [had] at e2
        obtain ⟨g1, g2⟩ := Prod.mk.inj e2
        simp [g1, g2, f2, hr]
      | some y =>
        simp only [had] at e2
        split_ifs at e2 with hy <;> obtain ⟨g1, g2⟩ := Prod.mk.inj e2 <;>
          simp [g1, g2, f2, hr, hy]

-- A diff that applies after `self` passes both sanity checks.
theorem with_diff_ok_of_applies {V : UtxoView} {a : UtxoDiff} {b : ImmutableUtxoDiff}
    (hb : applies_to b (compose V a.immutable)) : ∃ c, a.with_diff b = .ok c := by
  have hbo : ∀ o, applies_at (view_at (V o) (a.add.lookup o) (a.remove.lookup o))
      (b.added.lookup o) (b.removed.lookup o) := fun o => by
    have h := hb o
    rwa [compose_eq_view_at] at h
  apply with_diff_in_place_ok
  · intro o r s hr hs
    exact has_daa_score_add_of_removed (hbo o) hr hs
  · intro o y x hy hx
    exact has_daa_score_removed_of_add (hbo o) hy hx

-- Merging two diffs that apply in turn composes them: the merged diff over the base
-- is the first diff, then the second, at every outpoint.
theorem with_diff_compose {V : UtxoView} {a : UtxoDiff} {b : ImmutableUtxoDiff}
    (ha : applies_to a.immutable V) (hb : applies_to b (compose V a.immutable))
    (hcons : ∀ o v y, V o = some v → b.added.lookup o = some y →
      v.block_daa_score = y.block_daa_score → v = y) :
    ∃ c, a.with_diff b = .ok c ∧
      ∀ o, compose V c.immutable o = compose (compose V a.immutable) b o := by
  obtain ⟨c, hc⟩ := with_diff_ok_of_applies hb
  refine ⟨c, hc, fun o => ?_⟩
  have hlook := lookup_with_diff_in_place hc o
  have hbo := hb o
  rw [compose_eq_view_at] at hbo
  rw [compose_eq_view_at, compose_eq_view_at, compose_eq_view_at]
  simp only [immutable] at hlook ⊢
  rw [show c.add.lookup o = (c.add.lookup o, c.remove.lookup o).1 from rfl,
    show c.remove.lookup o = (c.add.lookup o, c.remove.lookup o).2 from rfl, hlook]
  exact view_at_with_diff_at (ha o) hbo (hcons o)

-- A diff merged with its own reversal cancels out, whatever it holds.
theorem with_diff_as_reversed (d : UtxoDiff) : d.with_diff d.as_reversed = .ok default := by
  have hok : ∃ c, d.with_diff d.as_reversed = .ok c := by
    apply with_diff_in_place_ok
    · intro o r s hr _
      exact has_daa_score_eq_true.mpr ⟨r, hr, rfl⟩
    · intro o y x _ hx
      exact has_daa_score_eq_true.mpr ⟨x, hx, rfl⟩
  obtain ⟨c, hc⟩ := hok
  have hempty : ∀ o, c.add.lookup o = none ∧ c.remove.lookup o = none := fun o => by
    have h := lookup_with_diff_in_place hc o
    rw [show d.as_reversed.added = d.remove from rfl, show d.as_reversed.removed = d.add from rfl,
      with_diff_at_reversed] at h
    exact Prod.mk.inj h
  rw [hc, show c = default from ?_]
  rw [show c = ⟨c.add, c.remove⟩ from rfl,
    AListFold.eq_empty_of_lookup_eq_none fun o => (hempty o).1,
    AListFold.eq_empty_of_lookup_eq_none fun o => (hempty o).2]
  rfl

end UtxoDiff

open UtxoDiff

-- Merging diffs that apply in turn is applying them in turn, when an entry the second
-- diff adds is the base's own entry wherever their DAA scores agree; and a diff merged
-- with its reversal is empty.
theorem with_diff_applies_sequentially :
    (∀ (V : UtxoView) (a : UtxoDiff) (b : ImmutableUtxoDiff),
      applies_to a.immutable V → applies_to b (compose V a.immutable) →
      (∀ o v y, V o = some v → b.added.lookup o = some y →
        v.block_daa_score = y.block_daa_score → v = y) →
      ∃ c, a.with_diff b = .ok c ∧
        ∀ o, compose V c.immutable o = compose (compose V a.immutable) b o) ∧
    ∀ d : UtxoDiff, d.with_diff d.as_reversed = .ok UtxoDiff.default :=
  ⟨fun _ _ _ ha hb hcons => with_diff_compose ha hb hcons, with_diff_as_reversed⟩

-- A diff that spends the base's entry at o₁ and adds one at o₂, then one that spends that
-- entry and adds one at o₃: the merge cancels o₂, and shows what the two show in turn.
theorem with_diff_applies_sequentially_spend_chain :
    let o₁ : TransactionOutpoint := ⟨[1], 0⟩
    let o₂ : TransactionOutpoint := ⟨[2], 0⟩
    let o₃ : TransactionOutpoint := ⟨[3], 0⟩
    let e₁ : UtxoEntry := ⟨50, ⟨0, []⟩, 3, false⟩
    let e₂ : UtxoEntry := ⟨40, ⟨0, []⟩, 5, false⟩
    let e₃ : UtxoEntry := ⟨30, ⟨0, []⟩, 6, false⟩
    let V : UtxoView := fun p => if p = o₁ then some e₁ else none
    let a : UtxoDiff := ⟨(∅ : UtxoCollection).insert o₂ e₂, (∅ : UtxoCollection).insert o₁ e₁⟩
    let b : ImmutableUtxoDiff :=
      ⟨(∅ : UtxoCollection).insert o₃ e₃, (∅ : UtxoCollection).insert o₂ e₂⟩
    a.with_diff b = .ok ⟨(∅ : UtxoCollection).insert o₃ e₃, (∅ : UtxoCollection).insert o₁ e₁⟩ ∧
    (∃ c, a.with_diff b = .ok c ∧
      ∀ o, compose V c.immutable o = compose (compose V a.immutable) b o) ∧
    a.with_diff a.as_reversed = .ok UtxoDiff.default := by
  intro o₁ o₂ o₃ e₁ e₂ e₃ V a b
  obtain ⟨hseq, hrev⟩ := with_diff_applies_sequentially
  -- the second diff adds at o₃ only, where the base holds nothing
  have hcons : ∀ o v y, V o = some v → b.added.lookup o = some y →
      v.block_daa_score = y.block_daa_score → v = y := fun o v y hv hy hdaa =>
    AListFold.forall_lookup_of_forall_keys
      (P := fun o y => ∀ v ∈ V o, v.block_daa_score = y.block_daa_score → v = y)
      (by decide) o y hy v hv hdaa
  exact ⟨rfl, hseq V a b (applies_to_of_check (by decide)) (applies_to_of_check (by decide)) hcons,
    hrev a⟩

-- The merge identifies entries by outpoint and DAA score: spending the base's entry and
-- adding another one with the same DAA score merges to the empty diff, which shows the
-- spent entry again.
theorem with_diff_cancels_by_daa_score :
    let o : TransactionOutpoint := ⟨[], 0⟩
    let v : UtxoEntry := ⟨10, ⟨0, []⟩, 0, false⟩
    let y : UtxoEntry := ⟨20, ⟨0, []⟩, 0, false⟩
    let V : UtxoView := fun p => if p = o then some v else none
    let a : UtxoDiff := ⟨∅, (∅ : UtxoCollection).insert o v⟩
    let b : ImmutableUtxoDiff := ⟨(∅ : UtxoCollection).insert o y, ∅⟩
    applies_to a.immutable V ∧ applies_to b (compose V a.immutable) ∧
      ∃ c, a.with_diff b = .ok c ∧
        compose V c.immutable o ≠ compose (compose V a.immutable) b o := by
  intro o v y V a b
  exact ⟨applies_to_of_check (by decide), applies_to_of_check (by decide), _, rfl, by decide⟩

section AddTransaction

-- A removal or an addition of one entry, the two kinds of change `add_transaction` makes.
inductive EntryOp where
  | remove (outpoint : TransactionOutpoint) (entry : UtxoEntry)
  | add (outpoint : TransactionOutpoint) (entry : UtxoEntry)

namespace EntryOp

def outpoint : EntryOp → TransactionOutpoint
  | .remove outpoint _ => outpoint
  | .add outpoint _ => outpoint

-- What the composed view shows at the outpoint once the change is made.
def result : EntryOp → Option UtxoEntry
  | .remove _ _ => none
  | .add _ entry => some entry

-- What a change needs of the diff at its outpoint, over the base view there: a removal
-- spends the entry the composed view shows; an addition creates an outpoint the view does
-- not show, and the base's entry there, if its DAA score is the new entry's, is that entry.
def pre (base : Option UtxoEntry) (add remove : Option UtxoEntry) : EntryOp → Prop
  | .remove _ entry => view_at base add remove = some entry ∧ applies_at base add remove
  | .add _ entry => view_at base add remove = none ∧ applies_at base add remove ∧
      ∀ v, base = some v → v.block_daa_score = entry.block_daa_score → v = entry

end EntryOp

namespace UtxoDiff

-- What a diff holds at one outpoint: the entry it adds and the entry it removes there.
def lookups (self : UtxoDiff) (outpoint : TransactionOutpoint) :
    Option UtxoEntry × Option UtxoEntry :=
  (self.add.lookup outpoint, self.remove.lookup outpoint)

def apply (self : UtxoDiff) : EntryOp → Except UtxoAlgebraError UtxoDiff
  | .remove outpoint entry => self.remove_entry outpoint entry
  | .add outpoint entry => self.add_entry outpoint entry

-- The outpoints and entries a transaction's outputs create at a DAA score.
def created_entries (transaction : PopulatedTransaction) (block_daa_score : UInt64) :
    List (TransactionOutpoint × UtxoEntry) :=
  transaction.tx.outputs.zipIdx.map fun (output, i) =>
    (⟨transaction.tx.id, i.toUInt32⟩,
      ⟨output.value, output.script_public_key, block_daa_score, transaction.tx.is_coinbase⟩)

-- The changes a transaction makes: its inputs' removals, then its outputs' additions.
def entry_ops (transaction : PopulatedTransaction) (block_daa_score : UInt64) : List EntryOp :=
  transaction.populated_inputs.map (fun (input, entry) => .remove input.previous_outpoint entry) ++
    (created_entries transaction block_daa_score).map fun created => .add created.1 created.2

theorem add_transaction_eq (self : UtxoDiff) (transaction : PopulatedTransaction)
    (block_daa_score : UInt64) :
    self.add_transaction transaction block_daa_score =
      (entry_ops transaction block_daa_score).foldlM apply self := by
  simp only [add_transaction, entry_ops, created_entries, List.foldlM_append, List.foldlM_map]
  rfl

-- A removal of the entry the composed view shows cancels the diff's own addition of it, or
-- records the removal of the base's entry; either way the view shows nothing there.
theorem remove_entry_spec {self : UtxoDiff} {base : Option UtxoEntry}
    {outpoint : TransactionOutpoint} {entry : UtxoEntry}
    (h : (EntryOp.remove outpoint entry).pre base (self.add.lookup outpoint)
      (self.remove.lookup outpoint)) :
    ∃ self', self.remove_entry outpoint entry = .ok self' ∧
      view_at base (self'.add.lookup outpoint) (self'.remove.lookup outpoint) = none ∧
      ∀ p, p ≠ outpoint → self'.lookups p = self.lookups p := by
  obtain ⟨hview, happ⟩ := h
  unfold remove_entry cancel_or_record
  rw [contains_with_daa_score_eq]
  cases ha : self.add.lookup outpoint with
  | some a =>
    -- the view shows the diff's own addition, which the removal cancels
    have hae : a = entry := by simpa [view_at, ha] using hview
    subst hae
    rw [if_pos (has_daa_score_eq_true.mpr ⟨a, rfl, rfl⟩)]
    refine ⟨_, rfl, ?_, fun p hp => ?_⟩
    · rcases happ.2 a ha with hbase | hremoved
      · simp [view_at, hbase]
      · simp [view_at, hremoved]
    · simp [lookups, AList.lookup_erase_ne hp]
  | none =>
    -- the view shows the base's entry, not yet removed
    have hrm : self.remove.lookup outpoint = none := by
      cases hr : self.remove.lookup outpoint with
      | none => rfl
      | some _ => simp [view_at, ha, hr] at hview
    have hvacant : outpoint ∉ self.remove := AList.lookup_eq_none.mp hrm
    rw [if_neg (by simp [has_daa_score]), if_pos hvacant]
    refine ⟨_, rfl, by simp [view_at, ha], fun p hp => ?_⟩
    simp [lookups, AList.lookup_insert_ne hp]

-- An addition at an outpoint the view does not show cancels a removal of the base's entry
-- of the same DAA score, which is then the new entry, or records the new entry.
theorem add_entry_spec {self : UtxoDiff} {base : Option UtxoEntry}
    {outpoint : TransactionOutpoint} {entry : UtxoEntry}
    (h : (EntryOp.add outpoint entry).pre base (self.add.lookup outpoint)
      (self.remove.lookup outpoint)) :
    ∃ self', self.add_entry outpoint entry = .ok self' ∧
      view_at base (self'.add.lookup outpoint) (self'.remove.lookup outpoint) = some entry ∧
      ∀ p, p ≠ outpoint → self'.lookups p = self.lookups p := by
  obtain ⟨hview, happ, hsame⟩ := h
  have ha : self.add.lookup outpoint = none := by
    cases ha : self.add.lookup outpoint with
    | none => rfl
    | some _ => simp [view_at, ha] at hview
  have hvacant : outpoint ∉ self.add := AList.lookup_eq_none.mp ha
  unfold add_entry cancel_or_record
  rw [contains_with_daa_score_eq]
  by_cases hcancel : has_daa_score (self.remove.lookup outpoint) entry.block_daa_score = true
  · -- the base's entry comes back, and it is the new one
    obtain ⟨r, hr, hdaa⟩ := has_daa_score_eq_true.mp hcancel
    obtain ⟨v, hv, hvdaa⟩ := happ.1 r hr
    have hve : v = entry := hsame v hv (hvdaa.trans hdaa)
    rw [if_pos hcancel]
    refine ⟨_, rfl, by simp [view_at, ha, hv, hve], fun p hp => ?_⟩
    simp [lookups, AList.lookup_erase_ne hp]
  · rw [if_neg hcancel, if_pos hvacant]
    refine ⟨_, rfl, by simp [view_at], fun p hp => ?_⟩
    simp [lookups, AList.lookup_insert_ne hp]

theorem apply_spec {self : UtxoDiff} {base : Option UtxoEntry} {op : EntryOp}
    (h : op.pre base (self.add.lookup op.outpoint) (self.remove.lookup op.outpoint)) :
    ∃ self', self.apply op = .ok self' ∧
      view_at base (self'.add.lookup op.outpoint) (self'.remove.lookup op.outpoint) = op.result ∧
      ∀ p, p ≠ op.outpoint → self'.lookups p = self.lookups p := by
  cases op with
  | remove outpoint entry => exact remove_entry_spec h
  | add outpoint entry => exact add_entry_spec h

-- Changes at distinct outpoints, each possible on the diff it starts from, all succeed in
-- turn: each leaves its result at its outpoint, and the other outpoints keep the diff's
-- entries.
theorem foldlM_apply_spec (V : UtxoView) :
    ∀ (ops : List EntryOp) (self : UtxoDiff), (ops.map EntryOp.outpoint).Nodup →
      (∀ op ∈ ops, op.pre (V op.outpoint) (self.add.lookup op.outpoint)
        (self.remove.lookup op.outpoint)) →
      ∃ self', ops.foldlM apply self = .ok self' ∧
        (∀ op ∈ ops, view_at (V op.outpoint) (self'.add.lookup op.outpoint)
          (self'.remove.lookup op.outpoint) = op.result) ∧
        ∀ p, p ∉ ops.map EntryOp.outpoint → self'.lookups p = self.lookups p
  | [], self, _, _ => ⟨self, rfl, by simp, fun _ _ => rfl⟩
  | op :: ops, self, hnodup, hpre => by
    obtain ⟨hnot, hnodup'⟩ := List.nodup_cons.mp hnodup
    obtain ⟨self₁, h₁, hres₁, hframe₁⟩ := apply_spec (hpre op List.mem_cons_self)
    -- the later changes are at other outpoints, where the first change left the diff alone
    have hpre' : ∀ op' ∈ ops, op'.pre (V op'.outpoint) (self₁.add.lookup op'.outpoint)
        (self₁.remove.lookup op'.outpoint) := by
      intro op' hop'
      have hne : op'.outpoint ≠ op.outpoint := fun he =>
        hnot (he ▸ List.mem_map_of_mem hop')
      have hsame := Prod.mk.inj (hframe₁ _ hne)
      rw [hsame.1, hsame.2]
      exact hpre op' (List.mem_cons_of_mem op hop')
    obtain ⟨self', h', hres', hframe'⟩ := foldlM_apply_spec V ops self₁ hnodup' hpre'
    refine ⟨self', ?_, fun op' hop' => ?_, fun p hp => ?_⟩
    · rw [List.foldlM_cons, h₁]
      exact h'
    · rcases List.mem_cons.mp hop' with rfl | hop'
      · have hsame := Prod.mk.inj (hframe' _ hnot)
        rw [hsame.1, hsame.2]
        exact hres₁
      · exact hres' op' hop'
    · simp only [List.map_cons, List.mem_cons, not_or] at hp
      rw [hframe' p hp.2, hframe₁ p hp.1]

-- Folding `add_transaction` over transactions makes all their changes in turn.
theorem foldlM_add_transaction_eq (block_daa_score : UInt64) :
    ∀ (txs : List PopulatedTransaction) (self : UtxoDiff),
      txs.foldlM (fun d t => d.add_transaction t block_daa_score) self =
        (txs.flatMap (entry_ops · block_daa_score)).foldlM apply self
  | [], _ => rfl
  | t :: txs, self => by
    rw [List.foldlM_cons, List.flatMap_cons, List.foldlM_append, add_transaction_eq]
    congr 1
    funext self'
    exact foldlM_add_transaction_eq block_daa_score txs self'

theorem flatMap_append_perm {α β : Type} [DecidableEq β] (f g : α → List β) :
    ∀ l : List α, (l.flatMap fun x => f x ++ g x).Perm (l.flatMap f ++ l.flatMap g)
  | [] => List.Perm.refl _
  | x :: l => by
    simp only [List.flatMap_cons]
    refine ((flatMap_append_perm f g l).append_left (f x ++ g x)).trans ?_
    rw [List.perm_iff_count]
    intro a
    simp only [List.count_append]
    omega

theorem entry_ops_outpoints (transaction : PopulatedTransaction) (block_daa_score : UInt64) :
    (entry_ops transaction block_daa_score).map EntryOp.outpoint =
      transaction.tx.inputs.map (·.previous_outpoint) ++
        (created_entries transaction block_daa_score).map Prod.fst := by
  have hfst : transaction.populated_inputs.map Prod.fst = transaction.tx.inputs :=
    List.map_fst_zip (by rw [transaction.entries_length])
  simp only [entry_ops, List.map_append, List.map_map]
  congr 1
  rw [← hfst, List.map_map]
  rfl

theorem created_entries_block_daa_score {transaction : PopulatedTransaction}
    {block_daa_score : UInt64} {c : TransactionOutpoint × UtxoEntry}
    (h : c ∈ created_entries transaction block_daa_score) :
    c.2.block_daa_score = block_daa_score := by
  obtain ⟨⟨output, i⟩, _, rfl⟩ := List.mem_map.mp h
  rfl

-- Every input of a populated transaction comes with its entry.
theorem exists_populated_input {transaction : PopulatedTransaction} {input : TransactionInput}
    (h : input ∈ transaction.tx.inputs) : ∃ entry, (input, entry) ∈ transaction.populated_inputs := by
  have hfst : transaction.populated_inputs.map Prod.fst = transaction.tx.inputs :=
    List.map_fst_zip (by rw [transaction.entries_length])
  rw [← hfst] at h
  obtain ⟨⟨input', entry⟩, hmem, rfl⟩ := List.mem_map.mp h
  exact ⟨entry, hmem⟩

end UtxoDiff

open UtxoDiff in
-- Adding a mergeset's transactions to a diff that applies to the base view: spent outpoints
-- are distinct and shown by the composed view with the populated entries, created outpoints
-- are distinct and not shown, and a base entry at a created outpoint with the new DAA score
-- is the new entry. Every call succeeds, spent outpoints end up empty, created ones hold
-- their new entries, and the rest of the view is unchanged.
theorem add_transactions_compose {V : UtxoView} {d : UtxoDiff}
    {txs : List PopulatedTransaction} {block_daa_score : UInt64}
    (happ : applies_to d.immutable V)
    (hspent : (txs.flatMap fun t => t.tx.inputs.map (·.previous_outpoint)).Nodup)
    (hpresent : ∀ t ∈ txs, ∀ p ∈ t.populated_inputs,
      compose V d.immutable p.1.previous_outpoint = some p.2)
    (hcreated : (txs.flatMap fun t => (created_entries t block_daa_score).map Prod.fst).Nodup)
    (habsent : ∀ t ∈ txs, ∀ c ∈ created_entries t block_daa_score, compose V d.immutable c.1 = none)
    (hsame : ∀ t ∈ txs, ∀ c ∈ created_entries t block_daa_score, ∀ v, V c.1 = some v →
      v.block_daa_score = block_daa_score → v = c.2) :
    ∃ d', txs.foldlM (fun d t => d.add_transaction t block_daa_score) d = .ok d' ∧
      (∀ t ∈ txs, ∀ input ∈ t.tx.inputs, compose V d'.immutable input.previous_outpoint = none) ∧
      (∀ t ∈ txs, ∀ c ∈ created_entries t block_daa_score, compose V d'.immutable c.1 = some c.2) ∧
      ∀ o, o ∉ txs.flatMap (fun t => t.tx.inputs.map (·.previous_outpoint)) →
        o ∉ txs.flatMap (fun t => (created_entries t block_daa_score).map Prod.fst) →
        compose V d'.immutable o = compose V d.immutable o := by
  -- all the changes, and their outpoints: the spent ones, then the created ones, reordered
  have houtpoints : ((txs.flatMap (entry_ops · block_daa_score)).map EntryOp.outpoint).Perm
      (txs.flatMap (fun t => t.tx.inputs.map (·.previous_outpoint)) ++
        txs.flatMap fun t => (created_entries t block_daa_score).map Prod.fst) := by
    rw [List.map_flatMap]
    simp only [entry_ops_outpoints]
    exact flatMap_append_perm _ _ txs
  have hdisjoint : ∀ a ∈ txs.flatMap (fun t => t.tx.inputs.map (·.previous_outpoint)),
      ∀ b ∈ txs.flatMap (fun t => (created_entries t block_daa_score).map Prod.fst), a ≠ b := by
    intro a ha b hb hab
    obtain ⟨t, ht, ha⟩ := List.mem_flatMap.mp ha
    obtain ⟨input, hinput, rfl⟩ := List.mem_map.mp ha
    obtain ⟨u, hu, hb⟩ := List.mem_flatMap.mp hb
    obtain ⟨c, hc, rfl⟩ := List.mem_map.mp hb
    obtain ⟨entry, hentry⟩ := exists_populated_input hinput
    have h1 := hpresent t ht _ hentry
    rw [hab, habsent u hu c hc] at h1
    cases h1
  have hnodup : ((txs.flatMap (entry_ops · block_daa_score)).map EntryOp.outpoint).Nodup :=
    houtpoints.nodup_iff.mpr (List.nodup_append.mpr ⟨hspent, hcreated, hdisjoint⟩)
  -- each change is possible on `d` at its outpoint
  have hpre : ∀ op ∈ txs.flatMap (entry_ops · block_daa_score),
      op.pre (V op.outpoint) (d.add.lookup op.outpoint) (d.remove.lookup op.outpoint) := by
    intro op hop
    obtain ⟨t, ht, hop⟩ := List.mem_flatMap.mp hop
    have happ_at := happ op.outpoint
    rcases List.mem_append.mp hop with hop | hop
    · obtain ⟨⟨input, entry⟩, hmem, rfl⟩ := List.mem_map.mp hop
      have hview := hpresent t ht _ hmem
      rw [compose_eq_view_at] at hview
      exact ⟨hview, happ_at⟩
    · obtain ⟨c, hc, rfl⟩ := List.mem_map.mp hop
      have hview := habsent t ht c hc
      rw [compose_eq_view_at] at hview
      exact ⟨hview, happ_at, fun v hv hdaa =>
        hsame t ht c hc v hv (hdaa.trans (created_entries_block_daa_score hc))⟩
  obtain ⟨d', hfold, hres, hframe⟩ := foldlM_apply_spec V _ d hnodup hpre
  refine ⟨d', (foldlM_add_transaction_eq block_daa_score txs d).trans hfold, ?_, ?_, ?_⟩
  · intro t ht input hinput
    obtain ⟨entry, hentry⟩ := exists_populated_input hinput
    have hop : EntryOp.remove input.previous_outpoint entry ∈
        txs.flatMap (entry_ops · block_daa_score) :=
      List.mem_flatMap.mpr ⟨t, ht, List.mem_append_left _ (List.mem_map.mpr ⟨_, hentry, rfl⟩)⟩
    rw [compose_eq_view_at]
    exact hres _ hop
  · intro t ht c hc
    have hop : EntryOp.add c.1 c.2 ∈ txs.flatMap (entry_ops · block_daa_score) :=
      List.mem_flatMap.mpr ⟨t, ht, List.mem_append_right _ (List.mem_map.mpr ⟨c, hc, rfl⟩)⟩
    rw [compose_eq_view_at]
    exact hres _ hop
  · intro o hs hc
    have hnot : o ∉ (txs.flatMap (entry_ops · block_daa_score)).map EntryOp.outpoint := fun hmem =>
      (List.mem_append.mp (houtpoints.subset hmem)).elim hs hc
    have hsame' := Prod.mk.inj (hframe o hnot)
    rw [compose_eq_view_at, compose_eq_view_at]
    simp only [immutable, hsame'.1, hsame'.2]

-- A transaction that spends a base entry and re-creates, at its DAA score, the entry the
-- diff removed at its own outpoint: the spend is recorded and the re-creation cancels the
-- removal, so the diff ends up spending the first entry only and the view shows the second
-- again.
theorem add_transactions_compose_spend_recreate :
    let o₁ : TransactionOutpoint := ⟨[1], 0⟩
    let o₂ : TransactionOutpoint := ⟨[2], 0⟩
    let e₁ : UtxoEntry := ⟨50, ⟨0, []⟩, 3, false⟩
    let e₂ : UtxoEntry := ⟨20, ⟨0, []⟩, 5, false⟩
    let V : UtxoView := fun p => if p = o₁ then some e₁ else if p = o₂ then some e₂ else none
    let d : UtxoDiff := ⟨∅, (∅ : UtxoCollection).insert o₂ e₂⟩
    let tx : Transaction :=
      ⟨0, [⟨o₁, [], 0, 0⟩], [⟨20, ⟨0, []⟩⟩], 0, SUBNETWORK_ID_NATIVE, 0, [], 0, [2]⟩
    let t : PopulatedTransaction := ⟨tx, [e₁], rfl⟩
    [t].foldlM (fun d t => d.add_transaction t 5) d = .ok ⟨∅, (∅ : UtxoCollection).insert o₁ e₁⟩ ∧
    ∃ d', [t].foldlM (fun d t => d.add_transaction t 5) d = .ok d' ∧
      (∀ t' ∈ [t], ∀ input ∈ t'.tx.inputs,
        compose V d'.immutable input.previous_outpoint = none) ∧
      (∀ t' ∈ [t], ∀ c ∈ UtxoDiff.created_entries t' 5, compose V d'.immutable c.1 = some c.2) ∧
      ∀ o, o ∉ [t].flatMap (fun t => t.tx.inputs.map (·.previous_outpoint)) →
        o ∉ [t].flatMap (fun t => (UtxoDiff.created_entries t 5).map Prod.fst) →
        compose V d'.immutable o = compose V d.immutable o := by
  intro o₁ o₂ e₁ e₂ V d tx t
  refine ⟨rfl, add_transactions_compose (applies_to_of_check (by decide)) (by decide)
    (by decide) (by decide) (by decide) fun t' ht' c hc v hv _ => ?_⟩
  -- the only created entry is e₂ at o₂, where the base holds e₂
  obtain rfl := List.mem_singleton.mp ht'
  obtain rfl : c = (o₂, e₂) := List.mem_singleton.mp hc
  exact Option.some.inj hv.symm

-- A coinbase creating an outpoint the diff spends from the base, at the DAA score of the
-- base's entry there, cancels that removal: the view shows the base's entry again, not the
-- coinbase's output.
theorem add_transaction_cancels_by_daa_score :
    let o : TransactionOutpoint := ⟨[], 0⟩
    let v : UtxoEntry := ⟨10, ⟨0, []⟩, 5, true⟩
    let V : UtxoView := fun p => if p = o then some v else none
    let d : UtxoDiff := ⟨∅, (∅ : UtxoCollection).insert o v⟩
    let tx : Transaction := ⟨0, [], [⟨20, ⟨0, []⟩⟩], 0, SUBNETWORK_ID_COINBASE, 0, [], 0, []⟩
    let t : PopulatedTransaction := ⟨tx, [], rfl⟩
    applies_to d.immutable V ∧ compose V d.immutable o = none ∧
      UtxoDiff.created_entries t 5 = [(o, ⟨20, ⟨0, []⟩, 5, true⟩)] ∧
      ∃ d', [t].foldlM (fun d t => d.add_transaction t 5) d = .ok d' ∧
        compose V d'.immutable o = some v ∧ v ≠ ⟨20, ⟨0, []⟩, 5, true⟩ := by
  intro o v V d tx t
  exact ⟨applies_to_of_check (by decide), by decide, rfl, _, rfl, by decide, by decide⟩

end AddTransaction

end Waglayla.Consensus
