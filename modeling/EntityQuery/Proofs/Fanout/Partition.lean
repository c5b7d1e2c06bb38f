import EntityQuery.Proofs.Fanout.Overlap
import EntityQuery.Proofs.Value.Alike

/-!
# Partitions — exclusions cut the values of a property

Exclusions on one property are replaced by a single component, whose pieces are the ranges around
the excluded values. The values are told apart by identity and put in order by the comparator, so
two neighbours may compare as equal, and then nothing lies between them. Still the ranges are a
partition: what differs from all excluded values passes one of them and no other, an excluded value
passes none, and what passes an earlier range comes first in the direction of reading.

* **`Component.Cuts`** — what it means that a component cuts the values at excluded ones.
* **`Splitter.splitExclusions_cuts`** — when exclusions are replaced, and that they are cut at.
-/

namespace EntityQuery

variable {cmp : Comparator} {occurs : Value → Prop} {sorts : List SortOrder} {property : String}
  {c : Clause} {s : Splitting}

/-- Whether a value of a property passes a clause. -/
def Clause.admits (cmp : Comparator) (property : String) (x : Value) (c : Clause) : Bool :=
  c.all (Predicate.passes cmp (.ofFields [(property, x)]))

/-- The values that a clause excludes. -/
def Clause.excluded (c : Clause) : List Value :=
  (c.filter Predicate.isExclusion).map (·.test.value)

/-- A component cuts the values of its property at excluded ones: there is one piece more than there
    are excluded values, each value is in one piece or equal to an excluded one, and the pieces
    stand in the order in which the property is read. -/
structure Component.Cuts (cmp : Comparator) (occurs : Value → Prop) (excluded : List Value)
    (d : Direction) (c : Component) : Prop where
  size    : c.pieces.length = {i | ∃ v ∈ excluded, v.identity = i}.ncard + 1
  inside  : ∀ x, occurs x → (∀ v ∈ excluded, cmp.order x v ≠ .eq) →
    c.pieces.countP (Clause.admits cmp c.property x) = 1
  outside : ∀ x, occurs x → (∃ v ∈ excluded, cmp.order x v = .eq) →
    c.pieces.countP (Clause.admits cmp c.property x) = 0
  ordered : c.pieces.Pairwise fun earlier later => ∀ x y, occurs x → occurs y →
    earlier.admits cmp c.property x = true → later.admits cmp c.property y = true →
    (cmp.inDirection d).order x y = .lt

@[simp] theorem View.value_single (property : String) (x : Value) :
    (View.ofFields [(property, x)]).value property = x := by
  simp [View.ofFields, Value.fieldOrNull, Value.field?]

namespace Splitter

/-! ## Ranges -/

@[simp] theorem length_rangesFrom (lower : Value) (vs : List Value) :
    (rangesFrom property lower vs).length = vs.length + 1 := by
  induction vs generalizing lower with
  | nil => rfl
  | cons upper vs ih => rw [rangesFrom, List.length_cons, ih, List.length_cons]

theorem length_rangesAround {vs : List Value} (h : vs ≠ []) :
    (rangesAround property vs).length = vs.length + 1 := by
  obtain ⟨v, vs, rfl⟩ := List.exists_cons_of_ne_nil h
  rw [rangesAround, List.length_cons, length_rangesFrom, List.length_cons]

/-- No value passes two ranges, as it would have to be before itself. -/
theorem countP_admits_le_one (h : cmp.Consistent occurs) {d : Direction} {ranges : List Clause}
    (hranges : ranges.Pairwise (ReadBefore cmp occurs property d)) {x : Value} (hx : occurs x) :
    ranges.countP (Clause.admits cmp property x) ≤ 1 := by
  by_contra hmany
  obtain ⟨earlier, later, hsub, hearlier, hlater⟩ := one_lt_countP_iff.mp (Nat.not_le.mp hmany)
  have hx' : occurs ((View.ofFields [(property, x)]).value property) := by
    rwa [View.value_single]
  have hlt := List.pairwise_iff_forall_sublist.mp hranges hsub _ _ hx' hx' hearlier hlater
  rw [(h.inDirection d).order_self hx'] at hlt
  cases hlt

/-! ## Exclusions that are replaced -/

/-- The exclusions of a clause are replaced as they would be without its other tests. -/
theorem SplitsExclusions.of_excluded {values : List Value}
    (h : SplitsExclusions cmp sorts c property values s) :
    SplitsExclusions cmp sorts (c.filter Predicate.isExclusion) property values s where
  consumed := by rw [List.filter_filter, h.consumed]; simp only [Bool.and_self]
  nonempty := h.nonempty
  properties := h.properties
  first := h.first
  distinct := h.distinct
  components := h.components

/-- Exclusions with values that occur are tests with operands that occur. -/
theorem operands_of_excluded (hoccurs : ∀ v ∈ c.excluded, occurs v) :
    ∀ p ∈ c.filter Predicate.isExclusion, ∀ v ∈ p.operands, occurs v := by
  intro p hp v hv
  have hexcluded := hoccurs _ (List.mem_map_of_mem hp)
  obtain ⟨property, test⟩ := p
  cases test with
  | relation r w =>
      obtain rfl := List.mem_singleton.mp hv
      exact hexcluded
  | _ => cases (List.mem_filter.mp hp).2

/-- A value passes some range exactly if it differs from all excluded values. -/
theorem SplitsExclusions.exists_admits_iff {values : List Value} (h : cmp.Consistent occurs)
    (hs : SplitsExclusions cmp sorts c property values s)
    (hoccurs : ∀ v ∈ c.excluded, occurs v) {x : Value} (hx : occurs x) :
    (∃ range ∈ inReadingOrder sorts (rangesAround property values),
      range.admits cmp property x = true) ↔ ∀ v ∈ c.excluded, cmp.order x v ≠ .eq := by
  obtain ⟨asked, hdistinct, hperm, hvalues, hsorted⟩ :=
    hs.of_excluded.values_spec h (operands_of_excluded hoccurs)
  rw [hs.consumed] at hdistinct
  have hview := View.value_single property x
  have hview' : occurs ((View.ofFields [(property, x)]).value property) := hview.symm ▸ hx
  have hsome := any_rangesAround h hview' hs.values_ne_nil hvalues hsorted
  rw [hview] at hsome
  rw [← List.any_eq_true, any_inReadingOrder]
  refine hsome.trans ?_
  have hkept := any_distinct_values (x := x) h (fun v hv => ⟨hoccurs v hv, hx⟩) hdistinct
  constructor
  · intro hdiffers v hv heq
    obtain ⟨w, hw, heq⟩ := hkept.mpr ⟨v, hv, heq⟩
    exact hdiffers w (hperm.mem_iff.mpr hw) heq
  · intro hdiffers v hv heq
    obtain ⟨w, hw, heq⟩ := hkept.mp ⟨v, hperm.mem_iff.mp hv, heq⟩
    exact hdiffers w hw heq

/-- **Exclusions are cut at** by the component that replaces them. -/
theorem SplitsExclusions.cuts {values : List Value} (h : cmp.Consistent occurs)
    (hs : SplitsExclusions cmp sorts c property values s)
    (hoccurs : ∀ v ∈ c.excluded, occurs v) :
    (Component.of property sorts (inReadingOrder sorts (rangesAround property values))).Cuts cmp
      occurs c.excluded (SortOrder.reading sorts property) := by
  obtain ⟨asked, hdistinct, hperm, hvalues, hsorted⟩ :=
    hs.of_excluded.values_spec h (operands_of_excluded hoccurs)
  have hranges := inReadingOrder_ordered h hs.first hvalues hsorted
  refine ⟨?_, fun x hx hdiffers => ?_, fun x hx hequal => ?_, hranges.imp ?_⟩
  · rw [hs.consumed] at hdistinct
    show (inReadingOrder sorts (rangesAround property values)).length = _
    rw [(inReadingOrder_perm _).length_eq, length_rangesAround hs.values_ne_nil, hperm.length_eq,
      ← Value.ncard_identities hdistinct]
    rfl
  · refine Nat.le_antisymm (countP_admits_le_one h hranges hx) ?_
    exact List.countP_pos_iff.mpr ((hs.exists_admits_iff h hoccurs hx).mpr hdiffers)
  · rw [List.countP_eq_zero]
    intro range hrange hadmits
    obtain ⟨v, hv, heq⟩ := hequal
    exact (hs.exists_admits_iff h hoccurs hx).mp ⟨range, hrange, hadmits⟩ v hv heq
  · -- views of single values are compared as the values
    intro earlier later hbefore x y hx hy hearlier hlater
    have hxView := View.value_single property x
    have hyView := View.value_single property y
    have hlt := hbefore (.ofFields [(property, x)]) (.ofFields [(property, y)]) (hxView.symm ▸ hx)
      (hyView.symm ▸ hy) hearlier hlater
    rwa [hxView, hyView] at hlt

/-- Exclusions on one property, which is the first to be sorted by if there are sorts, are replaced
    if sets can hold their values and the comparator puts these in order. -/
theorem exists_splitExclusions (h : cmp.Consistent occurs)
    (hsome : c.filter Predicate.isExclusion ≠ [])
    (hone : ∀ p ∈ c.filter Predicate.isExclusion, p.property = property)
    (hoccurs : ∀ v ∈ c.excluded, occurs v)
    (hfirst : ∀ t ∈ sorts.head?, t.property = property)
    (hkeyable : ∀ v ∈ c.excluded, v.keyable = true) :
    ∃ s, splitExclusions cmp sorts c = .ok s := by
  obtain ⟨first, rest, hfilter⟩ := List.exists_cons_of_ne_nil hsome
  have hdistinct : Value.distinct c.excluded = .ok c.excluded.eraseDups :=
    Value.distinct_eq_ok.mpr ⟨List.all_eq_true.mpr hkeyable, rfl⟩
  have hkept : ∀ v ∈ c.excluded.eraseDups, occurs v := fun v hv =>
    hoccurs v (mem_of_mem_eraseDupsBy hv)
  obtain ⟨values, hvalues, -⟩ := (Value.sorted_spec h .ascending hkept).exists_ok
  obtain rfl : first.property = property := hone first (hfilter ▸ List.mem_cons_self)
  have hnames : ∀ name ∈ (first :: rest).map Predicate.property, name = first.property := by
    intro name hname
    obtain ⟨p, hp, rfl⟩ := List.mem_map.mp hname
    exact hone p (hfilter ▸ hp)
  rw [Clause.excluded, hfilter] at hdistinct hvalues
  rw [splitExclusions, hfilter]
  dsimp only
  rw [if_neg (length_eraseDups_le_one hnames)]
  cases sorts with
  | nil => exact ⟨_, bind_eq_ok.mpr ⟨_, hdistinct, bind_eq_ok.mpr ⟨_, hvalues, rfl⟩⟩⟩
  | cons t ts =>
      dsimp only
      rw [if_neg (not_not_intro (hfirst t rfl))]
      exact ⟨_, bind_eq_ok.mpr ⟨_, hdistinct, bind_eq_ok.mpr ⟨_, hvalues, rfl⟩⟩⟩

/-- **Partition.** Exclusions on one property are replaced exactly if this is the property that is
    sorted by first, if any is, and sets can hold the excluded values. What replaces them is one
    component on the property, which cuts its values at the excluded ones. -/
theorem splitExclusions_cuts (h : cmp.Consistent occurs)
    (hsome : ∃ p ∈ c, p.isExclusion = true)
    (hone : ∀ p ∈ c, p.isExclusion = true → p.property = property)
    (hoccurs : ∀ v ∈ c.excluded, occurs v) :
    ((∃ s, splitExclusions cmp sorts c = .ok s) ↔
        (∀ t ∈ sorts.head?, t.property = property) ∧ ∀ v ∈ c.excluded, v.keyable = true)
      ∧ ∀ s, splitExclusions cmp sorts c = .ok s →
        ∃ component, s.components = [component] ∧ component.property = property
          ∧ component.Cuts cmp occurs c.excluded (SortOrder.reading sorts property) := by
  have hne : c.filter Predicate.isExclusion ≠ [] := by
    obtain ⟨p, hp, hexclusion⟩ := hsome
    exact List.ne_nil_of_mem (List.mem_filter.mpr ⟨hp, hexclusion⟩)
  have hone' : ∀ p ∈ c.filter Predicate.isExclusion, p.property = property := by
    intro p hp
    obtain ⟨hp, hexclusion⟩ := List.mem_filter.mp hp
    exact hone p hp hexclusion
  have hsplits : ∀ s, splitExclusions cmp sorts c = .ok s →
      ∃ values, SplitsExclusions cmp sorts c property values s := by
    intro s hs
    rcases splitExclusions_eq_ok hs with ⟨hnone, -⟩ | ⟨property', values, hsplit⟩
    · exact absurd hnone hne
    · obtain ⟨p, hp⟩ := List.exists_mem_of_ne_nil _ hsplit.nonempty
      obtain rfl : property' = property := by
        rw [← hsplit.properties p hp]
        exact hone' p (hsplit.consumed ▸ hp)
      exact ⟨values, hsplit⟩
  refine ⟨⟨?_, fun ⟨hfirst, hkeyable⟩ => ?_⟩, fun s hs => ?_⟩
  · rintro ⟨s, hs⟩
    obtain ⟨values, hsplit⟩ := hsplits s hs
    obtain ⟨asked, hdistinct, -⟩ := hsplit.distinct
    rw [hsplit.consumed] at hdistinct
    exact ⟨hsplit.first, List.all_eq_true.mp (Value.distinct_eq_ok.mp hdistinct).1⟩
  · exact exists_splitExclusions h hne hone' hoccurs hfirst hkeyable
  · obtain ⟨values, hsplit⟩ := hsplits s hs
    exact ⟨_, hsplit.components, rfl, hsplit.cuts h hoccurs⟩

/-- Tests of a size and of names, two of which are spelled alike. -/
def unspelled : Clause :=
  [⟨"name", .relation .notEqual (.text "c")⟩, ⟨"name", .relation .notEqual (.text "a")⟩,
    ⟨"size", .relation .greater (.int 2)⟩, ⟨"name", .relation .notEqual (.bytes [0x61])⟩,
    ⟨"name", .relation .notEqual (.text "c")⟩]

/-- Four ranges, read from above. Nothing is in the third one. -/
def unspelledComponent : Component :=
  ⟨"name", some 0, some .descending, [[.above "name" (.text "c")],
    [.above "name" (.bytes [0x61]), .below "name" (.text "c")],
    [.above "name" (.text "a"), .below "name" (.bytes [0x61])], [.below "name" (.text "a")]]⟩

/-- Texts and bytes are in a consistent order. -/
theorem compare_consistent_octets :
    Comparator.Consistent Value.compare fun v => v.rank = .ok 3 := by
  refine Value.compare_consistent ?_ ?_ ?_
  · intro v hv
    cases v <;> first | rfl | cases hv
  · rintro _ b hk - ⟨k, l, rfl, rfl, -⟩
    cases hk
  · rintro _ b hs - ⟨s, t, rfl, rfl, -⟩
    cases hs

/-- Two of the three excluded names compare as equal, and another name passes one of four ranges. -/
theorem splitExclusions_cuts_spelled :
    splitExclusions Value.compare [⟨"name", .descending⟩] unspelled
        = .ok ⟨[unspelledComponent], unspelled.filter Predicate.isExclusion⟩
      ∧ unspelledComponent.Cuts Value.compare (fun v => v.rank = .ok 3) unspelled.excluded
          .descending
      ∧ unspelledComponent.pieces.countP (Clause.admits Value.compare "name" (.text "b")) = 1 := by
  have hs : splitExclusions Value.compare [⟨"name", .descending⟩] unspelled
      = .ok ⟨[unspelledComponent], unspelled.filter Predicate.isExclusion⟩ := by
    with_unfolding_all rfl
  have hone : ∀ p ∈ unspelled, p.isExclusion = true → p.property = "name" := by decide
  obtain ⟨component, hcomponents, -, hcuts⟩ := (splitExclusions_cuts compare_consistent_octets
    ⟨_, List.mem_cons_self, rfl⟩ hone (by decide)).2 _ hs
  obtain rfl := (List.cons.inj hcomponents).1
  refine ⟨hs, hcuts, hcuts.inside _ rfl (by decide)⟩

end Splitter

end EntityQuery
