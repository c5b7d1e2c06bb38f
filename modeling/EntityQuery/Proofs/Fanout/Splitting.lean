import EntityQuery.Fanout
import EntityQuery.Proofs.Filter.Passing
import EntityQuery.Proofs.Pairing

/-!
# Splitting keeps the meaning of a clause

What each splitter does when it succeeds is described once (`SplitsExclusions`, `SplitsChoice`):
the ranges around the excluded values, sorted and each taken once, and the equalities with the
values of a membership test. From this it follows that the pieces of the components say together
what the consumed tests said, and that a clause says what is left of it and its components say.

* **`Splitter.any_rangesAround`** — the ranges leave out the values around which they lie.
* **`Splitter.splitAll_means`** — the meaning of a clause that has been split.
-/

namespace EntityQuery

/-- Whether some piece of a component is true. -/
def Component.holds (pass : Predicate → Bool) (c : Component) : Bool := c.pieces.any (·.all pass)

namespace Splitter

variable {cmp : Comparator} {occurs : Value → Prop} {view : View} {sorts : List SortOrder}
  {property : String} {c : Clause} {s : Splitting}

/-! ## Ranges -/

/-- The ranges from a value on leave out the values between them. -/
theorem any_rangesFrom (h : cmp.Consistent occurs) (hx : occurs (view.value property))
    {lower : Value} {vs : List Value} (hvs : ∀ v ∈ lower :: vs, occurs v)
    (hsorted : (lower :: vs).Pairwise fun a b => cmp.order a b ≠ .gt) :
    (rangesFrom property lower vs).any (·.all (Predicate.passes cmp view)) = true ↔
      cmp.order (view.value property) lower = .gt
        ∧ ∀ v ∈ vs, cmp.order (view.value property) v ≠ .eq := by
  induction vs generalizing lower with
  | nil => simp [rangesFrom]
  | cons upper vs ih =>
      obtain ⟨hlower, hrest⟩ := List.pairwise_cons.mp hsorted
      obtain ⟨hlo, hup, hvs'⟩ : occurs lower ∧ occurs upper ∧ ∀ v ∈ vs, occurs v := by
        simpa using hvs
      have hlu : cmp.order lower upper ≠ .gt := hlower upper List.mem_cons_self
      rw [rangesFrom, List.any_cons, Bool.or_eq_true,
        ih (List.forall_mem_cons.mpr ⟨hup, hvs'⟩) hrest, List.forall_mem_cons]
      generalize hX : view.value property = x at hx ⊢
      have hpiece : [Predicate.above property lower, Predicate.below property upper].all
          (Predicate.passes cmp view) = true
            ↔ cmp.order x lower = .gt ∧ cmp.order x upper = .lt := by
        simp [hX]
      rw [hpiece]
      constructor
      · rintro (⟨hgt, hlt⟩ | ⟨hgt, hne⟩)
        · refine ⟨hgt, by rw [hlt]; decide, ?_⟩
          intro v hv
          rw [h.lt_of_lt_of_le hx hup (hvs' v hv) hlt ((List.pairwise_cons.mp hrest).1 v hv)]
          decide
        · refine ⟨?_, by rw [hgt]; decide, hne⟩
          rw [h.gt_iff_lt hx hlo]
          exact h.lt_of_le_of_lt hlo hup hx hlu ((h.gt_iff_lt hx hup).mp hgt)
      · rintro ⟨hgt, hne, hall⟩
        cases ho : cmp.order x upper with
        | lt => exact .inl ⟨hgt, rfl⟩
        | eq => exact absurd ho hne
        | gt => exact .inr ⟨rfl, hall⟩

/-- **Ranges** around values leave out these values and nothing else. -/
theorem any_rangesAround (h : cmp.Consistent occurs) (hx : occurs (view.value property))
    {vs : List Value} (hne : vs ≠ []) (hvs : ∀ v ∈ vs, occurs v)
    (hsorted : vs.Pairwise fun a b => cmp.order a b ≠ .gt) :
    (rangesAround property vs).any (·.all (Predicate.passes cmp view)) = true ↔
      ∀ v ∈ vs, cmp.order (view.value property) v ≠ .eq := by
  cases vs with
  | nil => exact absurd rfl hne
  | cons v vs =>
      have hv : occurs v := hvs v List.mem_cons_self
      rw [rangesAround, List.any_cons, Bool.or_eq_true, any_rangesFrom h hx hvs hsorted,
        List.forall_mem_cons]
      generalize hX : view.value property = x at hx ⊢
      have hpiece : [Predicate.below property v].all (Predicate.passes cmp view) = true ↔
          cmp.order x v = .lt := by
        simp [hX]
      rw [hpiece]
      constructor
      · rintro (hlt | ⟨hgt, hall⟩)
        · refine ⟨by rw [hlt]; decide, ?_⟩
          intro w hw
          rw [h.lt_of_lt_of_le hx hv (hvs w (List.mem_cons_of_mem v hw)) hlt
            ((List.pairwise_cons.mp hsorted).1 w hw)]
          decide
        · exact ⟨by rw [hgt]; decide, hall⟩
      · rintro ⟨hne, hall⟩
        cases ho : cmp.order x v with
        | lt => exact .inl rfl
        | eq => exact absurd ho hne
        | gt => exact .inr ⟨rfl, hall⟩

/-- A range is made of tests of its ends, which are values around which the ranges lie. -/
theorem mem_rangesAround {vs : List Value} {range : Clause} {r : Predicate}
    (hrange : range ∈ rangesAround property vs) (hr : r ∈ range) :
    ∃ v ∈ vs, r = .below property v ∨ r = .above property v := by
  have hfrom : ∀ {lower : Value} {vs : List Value}, range ∈ rangesFrom property lower vs →
      ∃ v ∈ lower :: vs, r = .below property v ∨ r = .above property v := by
    intro lower vs hrange
    induction vs generalizing lower with
    | nil =>
        obtain rfl := List.mem_singleton.mp hrange
        exact ⟨lower, List.mem_cons_self, .inr (List.mem_singleton.mp hr)⟩
    | cons upper vs ih =>
        rcases List.mem_cons.mp hrange with rfl | hrange
        · rcases List.mem_pair.mp hr with rfl | rfl
          · exact ⟨lower, List.mem_cons_self, .inr rfl⟩
          · exact ⟨upper, List.mem_cons_of_mem lower List.mem_cons_self, .inl rfl⟩
        · obtain ⟨v, hv, hr⟩ := ih hrange
          exact ⟨v, List.mem_cons_of_mem lower hv, hr⟩
  cases vs with
  | nil => cases hrange
  | cons v vs =>
      rcases List.mem_cons.mp hrange with rfl | hrange
      · exact ⟨v, List.mem_cons_self, .inl (List.mem_singleton.mp hr)⟩
      · exact hfrom hrange

/-- Every range from a value on has a lower end, which is this value or a later one. -/
theorem exists_above_of_mem_rangesFrom {lower : Value} {vs : List Value} {range : Clause}
    (h : range ∈ rangesFrom property lower vs) :
    ∃ v ∈ lower :: vs, Predicate.above property v ∈ range := by
  induction vs generalizing lower with
  | nil =>
      obtain rfl := List.mem_singleton.mp h
      exact ⟨lower, List.mem_cons_self, List.mem_cons_self⟩
  | cons upper vs ih =>
      rcases List.mem_cons.mp h with rfl | h
      · exact ⟨lower, List.mem_cons_self, List.mem_cons_self⟩
      · obtain ⟨v, hv, habove⟩ := ih h
        exact ⟨v, List.mem_cons_of_mem lower hv, habove⟩

theorem rangesFrom_pairwise {R : Clause → Clause → Prop} {lower : Value} {vs : List Value}
    (h : ∀ {upper rest}, upper :: rest <:+ vs → ∀ earlier later : Clause,
      Predicate.below property upper ∈ earlier → later ∈ rangesFrom property upper rest →
      R earlier later) :
    (rangesFrom property lower vs).Pairwise R := by
  induction vs generalizing lower with
  | nil => exact List.pairwise_singleton ..
  | cons upper vs ih =>
      refine .cons ?_ (ih fun hsuffix => h (hsuffix.trans (List.suffix_cons upper vs)))
      intro later hlater
      exact h (List.suffix_refl _) _ later (List.mem_cons_of_mem _ List.mem_cons_self) hlater

/-- Ranges are related if each that ends below a value is related to those from this value on. -/
theorem rangesAround_pairwise {R : Clause → Clause → Prop} {vs : List Value}
    (h : ∀ {upper rest}, upper :: rest <:+ vs → ∀ earlier later : Clause,
      Predicate.below property upper ∈ earlier → later ∈ rangesFrom property upper rest →
      R earlier later) :
    (rangesAround property vs).Pairwise R := by
  cases vs with
  | nil => exact .nil
  | cons v vs =>
      refine .cons ?_ (rangesFrom_pairwise fun hsuffix => h (hsuffix.trans (List.suffix_cons v vs)))
      intro later hlater
      exact h (List.suffix_refl _) _ later List.mem_cons_self hlater

theorem inReadingOrder_perm (ranges : List Clause) : (inReadingOrder sorts ranges).Perm ranges :=
  match sorts with
  | [] | ⟨_, .ascending⟩ :: _ => List.Perm.refl _
  | ⟨_, .descending⟩ :: _ => List.reverse_perm ranges

theorem mem_inReadingOrder {range : Clause} {ranges : List Clause} :
    range ∈ inReadingOrder sorts ranges ↔ range ∈ ranges :=
  (inReadingOrder_perm ranges).mem_iff

/-! ## Exclusions -/

/-- What splitting exclusions does: there are some, all on one property, which is the first to be
    sorted by if there are sorts, and they are replaced by the ranges around their values. -/
structure SplitsExclusions (cmp : Comparator) (sorts : List SortOrder) (c : Clause)
    (property : String) (values : List Value) (s : Splitting) : Prop where
  consumed   : s.consumed = c.filter Predicate.isExclusion
  nonempty   : s.consumed ≠ []
  properties : ∀ p ∈ s.consumed, p.property = property
  first      : ∀ t ∈ sorts.head?, t.property = property
  distinct   : ∃ asked, Value.distinct (s.consumed.map (·.test.value)) = .ok asked
    ∧ Value.sorted cmp .ascending asked = .ok values
  components : s.components
    = [Component.of property sorts (inReadingOrder sorts (rangesAround property values))]

/-- Names of which at most one is left without repetitions are one. -/
theorem eq_of_length_eraseDups {names : List String} (h : ¬ 1 < names.eraseDups.length)
    {a b : String} (ha : a ∈ names) (hb : b ∈ names) : a = b := by
  rw [← List.mem_eraseDups] at ha hb
  generalize names.eraseDups = kept at h ha hb
  rcases kept with _ | ⟨name, _ | ⟨_, _⟩⟩
  · cases ha
  · rw [List.mem_singleton.mp ha, List.mem_singleton.mp hb]
  · exact absurd (Nat.succ_lt_succ (Nat.succ_pos _)) h

/-- Names that are one leave at most one without repetitions. -/
theorem length_eraseDups_le_one {names : List String} (h : ∀ name ∈ names, name = property) :
    ¬ 1 < names.eraseDups.length := by
  have hnodup := nodup_eraseDups names
  have hone : ∀ name ∈ names.eraseDups, name = property :=
    fun name hname => h name (List.mem_eraseDups.mp hname)
  generalize names.eraseDups = kept at hnodup hone
  rcases kept with _ | ⟨name, _ | ⟨second, rest⟩⟩
  · exact Nat.not_lt_zero 1
  · exact Nat.lt_irrefl 1
  · have hname : name = second := (hone name List.mem_cons_self).trans
      (hone second (List.mem_cons_of_mem name List.mem_cons_self)).symm
    exact absurd (hname ▸ List.mem_cons_self) (List.nodup_cons.mp hnodup).1

theorem splitExclusions_eq_ok (h : splitExclusions cmp sorts c = .ok s) :
    (c.filter Predicate.isExclusion = [] ∧ s = {})
      ∨ ∃ property values, SplitsExclusions cmp sorts c property values s := by
  rw [splitExclusions] at h
  cases hfilter : c.filter Predicate.isExclusion with
  | nil =>
      rw [hfilter] at h
      exact .inl ⟨rfl, (Except.ok.inj h).symm⟩
  | cons first rest =>
      rw [hfilter] at h
      dsimp only at h
      right
      by_cases hnames : 1 < (((first :: rest).map Predicate.property).eraseDups).length
      · rw [if_pos hnames] at h
        cases h
      · rw [if_neg hnames] at h
        have hproperties : ∀ p ∈ first :: rest, p.property = first.property := fun p hp =>
          eq_of_length_eraseDups hnames (List.mem_map_of_mem hp)
            (List.mem_map_of_mem List.mem_cons_self)
        cases sorts with
        | nil =>
            obtain ⟨asked, hasked, h⟩ := bind_eq_ok.mp h
            obtain ⟨values, hvalues, h⟩ := bind_eq_ok.mp h
            obtain rfl := Except.ok.inj h
            refine ⟨first.property, values, hfilter.symm, List.cons_ne_nil _ _, hproperties, ?_,
              ⟨asked, hasked, hvalues⟩, rfl⟩
            intro t ht
            cases ht
        | cons t ts =>
            dsimp only at h
            by_cases ht : t.property = first.property
            · rw [if_neg (not_not_intro ht)] at h
              obtain ⟨asked, hasked, h⟩ := bind_eq_ok.mp h
              obtain ⟨values, hvalues, h⟩ := bind_eq_ok.mp h
              obtain rfl := Except.ok.inj h
              refine ⟨first.property, values, hfilter.symm, List.cons_ne_nil _ _, hproperties, ?_,
                ⟨asked, hasked, hvalues⟩, rfl⟩
              intro t' ht'
              obtain rfl : t = t' := Option.some.inj ht'
              exact ht
            · rw [if_pos ht] at h
              cases h

/-! ## Choices -/

/-- What splitting a membership test does: its values are told apart, ordered as the query reads
    them, and each is asked for by an equality. -/
structure SplitsChoice (cmp : Comparator) (sorts : List SortOrder) (asked : List Value)
    (p : Predicate) (component : Component) : Prop where
  test    : p.test = .oneOf asked
  pieces  : ∃ values ordered, Value.distinct asked = .ok values
    ∧ orderedChoices cmp sorts p.property values = .ok ordered
    ∧ component
      = Component.of p.property sorts (ordered.map fun v => [Predicate.equals p.property v])

theorem splitChoices_eq_ok (h : splitChoices cmp sorts c = .ok s) :
    s.consumed.Sublist c
      ∧ List.Forall₂ (fun p component => ∃ asked, SplitsChoice cmp sorts asked p component)
          s.consumed s.components := by
  induction c generalizing s with
  | nil =>
      obtain rfl := Except.ok.inj h
      exact ⟨List.Sublist.refl _, .nil⟩
  | cons p ps ih =>
      rw [splitChoices] at h
      obtain ⟨found, hfound, h⟩ := bind_eq_ok.mp h
      split at h
      · rename_i v w vs
        obtain ⟨ordered, hordered, h⟩ := bind_eq_ok.mp h
        obtain ⟨others, hothers, h⟩ := bind_eq_ok.mp h
        obtain rfl := Except.ok.inj h
        obtain ⟨hsub, hcomponents⟩ := ih hothers
        refine ⟨hsub.cons_cons p, .cons ?_ hcomponents⟩
        rw [Predicate.choices?] at hfound
        split at hfound
        · rename_i asked htest
          cases hdistinct : Value.distinct asked with
          | error f =>
              rw [hdistinct] at hfound
              cases hfound
          | ok values =>
              rw [hdistinct] at hfound
              obtain rfl := Option.some.inj (Except.ok.inj hfound)
              exact ⟨asked, htest, _, ordered, hdistinct, hordered, rfl⟩
        · cases hfound
      · obtain ⟨hsub, hcomponents⟩ := ih h
        exact ⟨hsub.cons p, hcomponents⟩

/-! ## Meaning -/

theorem mem_of_distinct {values kept : List Value} (h : Value.distinct values = .ok kept) :
    kept ⊆ values ∧ ∀ v ∈ values, ∃ w ∈ kept, v = w ∨ (v == w) = true := by
  obtain ⟨-, rfl⟩ := Value.distinct_eq_ok.mp h
  exact ⟨fun v hv => mem_of_mem_eraseDupsBy hv, fun v hv => exists_mem_eraseDupsBy hv⟩

/-- A value is equal to one of some values when it is equal to one of those that are kept. -/
theorem any_distinct_values (h : cmp.Consistent occurs) {x : Value} {values kept : List Value}
    (hvalues : ∀ v ∈ values, occurs v ∧ occurs x) (hkept : Value.distinct values = .ok kept) :
    (∃ v ∈ kept, cmp.order x v = .eq) ↔ ∃ v ∈ values, cmp.order x v = .eq := by
  obtain ⟨hsub, hall⟩ := mem_of_distinct hkept
  constructor
  · rintro ⟨v, hv, ho⟩
    exact ⟨v, hsub hv, ho⟩
  · rintro ⟨v, hv, ho⟩
    obtain ⟨w, hw, rfl | hvw⟩ := hall v hv
    · exact ⟨v, hw, ho⟩
    · refine ⟨w, hw, ?_⟩
      obtain ⟨hv, hx⟩ := hvalues v hv
      rwa [← Predicate.order_operand h hx hv (hvalues w (hsub hw)).1 hvw]

theorem any_inReadingOrder (f : Clause → Bool) (ranges : List Clause) :
    (inReadingOrder sorts ranges).any f = ranges.any f :=
  (inReadingOrder_perm ranges).any_eq

theorem value_mem_operands {p : Predicate} (h : p.isExclusion = true) :
    p.test.value ∈ p.operands := by
  obtain ⟨property, test⟩ := p
  cases test with
  | relation r v => exact List.mem_cons_self
  | _ => cases h

/-- An exclusion is passed by what is not equal to its value. -/
theorem passes_of_isExclusion {p : Predicate} (h : p.isExclusion = true) :
    p.passes cmp view = true ↔ cmp.order (view.value p.property) p.test.value ≠ .eq := by
  obtain ⟨property, test⟩ := p
  cases test with
  | relation r v =>
      cases r with
      | notEqual =>
          show (cmp.order (view.value property) v != .eq) = true ↔ _
          exact bne_iff_ne
      | _ => cases h
  | _ => cases h

/-- The values around which the ranges lie: those of the exclusions, each once and in order. -/
theorem SplitsExclusions.values_spec {values : List Value} (h : cmp.Consistent occurs)
    (hs : SplitsExclusions cmp sorts c property values s)
    (hc : ∀ p ∈ c, ∀ v ∈ p.operands, occurs v) :
    ∃ asked, Value.distinct (s.consumed.map (·.test.value)) = .ok asked ∧ values.Perm asked
      ∧ (∀ v ∈ values, occurs v) ∧ values.Pairwise fun a b => cmp.order a b ≠ .gt := by
  obtain ⟨asked, hdistinct, hvalues⟩ := hs.distinct
  have hasked : ∀ v ∈ asked, occurs v := by
    intro v hv
    obtain ⟨p, hp, rfl⟩ := List.mem_map.mp ((mem_of_distinct hdistinct).1 hv)
    rw [hs.consumed] at hp
    exact hc p (List.mem_filter.mp hp).1 _ (value_mem_operands (List.mem_filter.mp hp).2)
  obtain ⟨hperm, hsorted⟩ := (Value.sorted_spec h .ascending hasked).of_eq_ok hvalues
  exact ⟨asked, hdistinct, hperm, fun v hv => hasked v (hperm.mem_iff.mp hv), hsorted⟩

/-- Exclusions leave a value, and the ranges lie around it. -/
theorem SplitsExclusions.values_ne_nil {values : List Value}
    (h : SplitsExclusions cmp sorts c property values s) : values ≠ [] := by
  obtain ⟨asked, hdistinct, hvalues⟩ := h.distinct
  obtain ⟨p, hp⟩ := List.exists_mem_of_ne_nil _ h.nonempty
  obtain ⟨w, hw, -⟩ := (mem_of_distinct hdistinct).2 _ (List.mem_map_of_mem hp)
  exact List.ne_nil_of_mem ((Value.sorted_perm hvalues).mem_iff.mpr hw)

/-- **Exclusions** that are split: the ranges mean what the exclusions mean together. -/
theorem SplitsExclusions.all_holds {values : List Value} (h : cmp.Consistent occurs)
    (hs : SplitsExclusions cmp sorts c property values s)
    (hc : ∀ p ∈ c, p.Occurs occurs view) :
    s.components.all (Component.holds (Predicate.passes cmp view))
      = s.consumed.all (Predicate.passes cmp view) := by
  obtain ⟨asked, hdistinct, hperm, hvaluesOccur, hsorted⟩ :=
    hs.values_spec h fun p hp v hv => (hc p hp v hv).1
  have hexcluded : ∀ p ∈ s.consumed, p.isExclusion = true ∧ p.Occurs occurs view := by
    intro p hp
    rw [hs.consumed] at hp
    exact ⟨(List.mem_filter.mp hp).2, hc p (List.mem_filter.mp hp).1⟩
  have hoccurs : ∀ p ∈ s.consumed, occurs p.test.value ∧ occurs (view.value property) := by
    intro p hp
    obtain ⟨hexclusion, hp'⟩ := hexcluded p hp
    have hboth := hp' _ (value_mem_operands hexclusion)
    rwa [hs.properties p hp] at hboth
  have hmapped : ∀ v ∈ s.consumed.map (·.test.value),
      occurs v ∧ occurs (view.value property) := by
    intro v hv
    obtain ⟨p, hp, rfl⟩ := List.mem_map.mp hv
    exact hoccurs p hp
  obtain ⟨p₀, hp₀⟩ := List.exists_mem_of_ne_nil _ hs.nonempty
  have hx := (hoccurs p₀ hp₀).2
  rw [hs.components, Bool.eq_iff_iff, List.all_cons, List.all_nil, Bool.and_true, Component.holds,
    Component.of, any_inReadingOrder, any_rangesAround h hx hs.values_ne_nil hvaluesOccur hsorted,
    List.all_eq_true]
  have hdistinct' := any_distinct_values h hmapped hdistinct
  constructor
  · intro hnone p hp
    rw [passes_of_isExclusion (hexcluded p hp).1, hs.properties p hp]
    intro heq
    obtain ⟨w, hw, ho⟩ := hdistinct'.mpr ⟨_, List.mem_map.mpr ⟨p, hp, rfl⟩, heq⟩
    exact hnone w (hperm.mem_iff.mpr hw) ho
  · intro hnone v hv heq
    obtain ⟨w, hw, ho⟩ := hdistinct'.mp ⟨v, hperm.mem_iff.mp hv, heq⟩
    obtain ⟨p, hp, rfl⟩ := List.mem_map.mp hw
    refine (passes_of_isExclusion (hexcluded p hp).1).mp (hnone p hp) ?_
    rwa [hs.properties p hp]

/-- The values of a choice in the order of reading are the same values. -/
theorem orderedChoices_perm {values ordered : List Value}
    (h : orderedChoices cmp sorts property values = .ok ordered) : ordered.Perm values := by
  rw [orderedChoices] at h
  split at h
  · exact Value.sorted_perm h
  · obtain rfl := Except.ok.inj h
    exact List.Perm.refl _

/-- **A choice** that is split: the equalities mean what the membership test means. -/
theorem SplitsChoice.holds_eq {asked : List Value} {p : Predicate} {component : Component}
    (h : cmp.Consistent occurs) (hs : SplitsChoice cmp sorts asked p component)
    (hp : p.Occurs occurs view) :
    component.holds (Predicate.passes cmp view) = p.passes cmp view := by
  obtain ⟨htest, values, ordered, hdistinct, hordered, rfl⟩ := hs
  obtain ⟨property, test⟩ := p
  obtain rfl : test = .oneOf asked := htest
  have hperm := orderedChoices_perm hordered
  have hequals : ∀ v, [Predicate.equals property v].all (Predicate.passes cmp view)
      = (cmp.order (view.value property) v == .eq) := by
    intro v
    simp
  have hiff := any_distinct_values h hp hdistinct
  rw [Bool.eq_iff_iff]
  show ((ordered.map fun v => [Predicate.equals property v]).any fun c => c.all _) = true
    ↔ (asked.any fun v => cmp.order (view.value property) v == .eq) = true
  simp only [List.any_map, List.any_eq_true, Function.comp, hequals, beq_iff_eq, hperm.mem_iff,
    hiff]
  exact Iff.rfl

/-! ## Splitting by turns -/

/-- What one splitter takes out of a clause, and what it puts in its place. -/
theorem split_means (h : cmp.Consistent occurs) {splitter : Splitter}
    (hs : splitter.split cmp sorts c = .ok s) (hc : ∀ p ∈ c, p.Occurs occurs view) :
    s.consumed ⊆ c ∧ s.components.all (Component.holds (Predicate.passes cmp view))
      = s.consumed.all (Predicate.passes cmp view) := by
  cases splitter with
  | exclusion =>
      rcases splitExclusions_eq_ok hs with ⟨-, rfl⟩ | ⟨property, values, hsplit⟩
      · exact ⟨List.nil_subset _, rfl⟩
      · refine ⟨?_, hsplit.all_holds h hc⟩
        rw [hsplit.consumed]
        exact List.filter_subset_self _
  | choice =>
      obtain ⟨hsub, hcomponents⟩ := splitChoices_eq_ok hs
      refine ⟨hsub.subset, ?_⟩
      have hconsumed : ∀ p ∈ s.consumed, p.Occurs occurs view := fun p hp => hc p (hsub.subset hp)
      obtain ⟨components, consumed⟩ := s
      dsimp only at hcomponents hconsumed ⊢
      clear hs hsub
      induction hcomponents with
      | nil => rfl
      | cons hp _ ih =>
          obtain ⟨asked, hp⟩ := hp
          rw [List.all_cons, List.all_cons, hp.holds_eq h (hconsumed _ List.mem_cons_self),
            ih fun p hp => hconsumed p (List.mem_cons_of_mem _ hp)]

/-- A clause means what is left of it and what has been taken out. -/
theorem remainder_means {left : Clause} {C : Predicate → Prop} {pass : Predicate → Bool}
    (hres : Respects C pass) (hC : ∀ p ∈ c, C p) (hsub : s.consumed ⊆ c)
    (hleft : s.remainder c = .ok left) :
    left ⊆ c ∧ c.all pass = (left.all pass && s.consumed.all pass) := by
  rw [Splitting.remainder] at hleft
  split at hleft
  · rename_i hnil
    obtain rfl := Except.ok.inj hleft
    rw [List.isEmpty_iff.mp hnil, List.all_nil, Bool.and_true]
    exact ⟨List.Subset.refl _, rfl⟩
  · split at hleft
    · obtain rfl := Except.ok.inj hleft
      refine ⟨List.filter_subset_self _, ?_⟩
      rw [Bool.eq_iff_iff, Bool.and_eq_true, List.all_eq_true, List.all_eq_true, List.all_eq_true]
      constructor
      · intro hall
        exact ⟨fun p hp => hall p (List.mem_filter.mp hp).1, fun p hp => hall p (hsub hp)⟩
      · rintro ⟨hleft, hconsumed⟩ p hp
        by_cases hin : s.consumed.contains p = true
        · rw [List.contains_eq_any_beq, List.any_eq_true] at hin
          obtain ⟨r, hr, hpr⟩ := hin
          rw [hres (hC p hp) (hC r (hsub hr)) hpr]
          exact hconsumed r hr
        · exact hleft p (List.mem_filter.mpr ⟨hp, by simpa using hin⟩)
    · cases hleft

/-- **Splitting** by several splitters in turn: a clause means what is left of it and what its
    components mean. -/
theorem splitAll_means (h : cmp.Consistent occurs) {splitters : List Splitter} {left : Clause}
    {components : List Component}
    (hs : splitAll cmp sorts splitters c = .ok (left, components))
    (hc : ∀ p ∈ c, p.Occurs occurs view) :
    c.all (Predicate.passes cmp view) = (left.all (Predicate.passes cmp view)
      && components.all (Component.holds (Predicate.passes cmp view))) := by
  induction splitters generalizing c components with
  | nil =>
      obtain ⟨rfl, rfl⟩ := Prod.mk.inj (Except.ok.inj hs)
      exact (Bool.and_true _).symm
  | cons splitter splitters ih =>
      obtain ⟨s, hsplit, hs⟩ := bind_eq_ok.mp hs
      obtain ⟨rest, hrest, hs⟩ := bind_eq_ok.mp hs
      obtain ⟨⟨left', components'⟩, hlater, hs⟩ := bind_eq_ok.mp hs
      obtain ⟨rfl, rfl⟩ := Prod.mk.inj (Except.ok.inj hs)
      obtain ⟨hsub, hmeans⟩ := split_means h hsplit hc
      obtain ⟨hrestSub, hall⟩ := remainder_means (Predicate.passes_respects h) hc hsub hrest
      rw [hall, ih hlater fun p hp => hc p (hrestSub hp), List.all_append, hmeans, Bool.and_assoc,
        Bool.and_comm (components'.all _)]

end Splitter

end EntityQuery
