import EntityQuery.Proofs.Filter.Passing
import EntityQuery.Proofs.Value.Alike

/-!
# Interchange — what is left out beside something that is one with it

Values that are one are compared alike unless they are an echo. So predicates that are one hold of
the same entities if their values do not echo, and where several are one it does not matter how many
of them stand. The same goes for the values of a membership test and for excluded values.

Whatever is left out beside its echo is missed, for the instant of the one that stays is not its
own.

* **`Condenses`** — some repetitions are left out of a list.
* **`Value.interchangeable`** — what is left out is not missed, unless it is an echo.
* **`Value.halfPastTwo_missed`** — half an hour after a clock was put back.
-/

namespace EntityQuery

/-! ## Predicates -/

namespace Predicate

variable {p r : Predicate} {entity : Fields}

/-- Predicates that are one test the same property, and differ in their values at most. -/
theorem test_of_beq (h : (p == r) = true) : p.property = r.property
    ∧ p.test.operator = r.test.operator ∧ (p.test.value == r.test.value) = true := by
  simpa [BEq.beq, same, Bool.and_eq_true, and_assoc] using h

/-- Predicates that are one, with no echo among the values that a property is compared with. -/
def Alike (p r : Predicate) : Prop :=
  (p == r) = true ∧ List.Forall₂ (fun v w => ¬ v.Echo w) p.operands r.operands

/-- Lists that are one, item by item, and have no echoes are gone through with one outcome. -/
theorem anyM_congr {vs ws : List Value} (h : (vs == ws) = true)
    (hecho : List.Forall₂ (fun v w => ¬ v.Echo w) vs ws) (x : Value) :
    (vs.anyM fun v => return (← Value.compare x v) == Ordering.eq)
      = ws.anyM fun w => return (← Value.compare x w) == Ordering.eq := by
  induction hecho with
  | nil => rfl
  | cons hvw _ ih =>
      rw [List.cons_beq_cons, Bool.and_eq_true] at h
      rw [List.anyM, List.anyM, (Value.compare_congr ⟨h.1, hvw⟩ x).2, ih h.2]

/-- Predicates that are alike hold of the same entities, and are refused alike. -/
theorem holds_congr (h : p.Alike r) (entity : Fields) :
    p.holds Value.compare entity = r.holds Value.compare entity := by
  obtain ⟨property, test⟩ := p
  obtain ⟨property', test'⟩ := r
  obtain ⟨hproperty, hoperator, hvalue⟩ := test_of_beq h.1
  have hecho := h.2
  obtain rfl : property = property' := hproperty
  cases test with
  | relation rel v =>
      cases test' with
      | relation rel' w =>
          obtain rfl := Operator.relation.inj hoperator
          have hvw : v.Alike w := ⟨hvalue, (List.forall₂_cons.mp hecho).1⟩
          simp only [holds, (Value.compare_congr hvw _).2]
      | _ => cases hoperator
  | oneOf vs =>
      cases test' with
      | oneOf ws =>
          have hvs : (vs == ws) = true := by rwa [← Value.allSame_eq_beq]
          exact anyM_congr hvs hecho _
      | _ => cases hoperator
  | present v =>
      cases test' with
      | present w => rfl
      | _ => cases hoperator
  | inside v =>
      cases test' with
      | inside w =>
          -- a region is looked at before containment is refused, but no outcome depends on it
          exact Value.compare_bind_congr hvalue _ _
      | _ => cases hoperator

/-- Whether an entity is found to pass a predicate, values being compared in their order. -/
def found (entity : Fields) (p : Predicate) : Bool :=
  match p.holds Value.compare entity with
  | .ok b => b
  | .error _ => false

end Predicate

/-! ## Repetitions that are left out -/

section

variable {α : Type} {one : α → α → Prop} {short long : List α}

/-- A list with some repetitions left out: nothing is new in it, and what is left out is one with
    something that stays. -/
structure Condenses (one : α → α → Prop) (short long : List α) : Prop where
  subset : short ⊆ long
  stays  : ∀ x ∈ long, ∃ y ∈ short, x = y ∨ one x y

theorem Condenses.forall_iff {P : α → Prop} (h : Condenses one short long)
    (hP : ∀ {x y}, one x y → (P x ↔ P y)) : (∀ x ∈ long, P x) ↔ ∀ y ∈ short, P y := by
  constructor
  · exact fun hlong y hy => hlong y (h.subset hy)
  · intro hshort x hx
    obtain ⟨y, hy, rfl | hxy⟩ := h.stays x hx
    · exact hshort x hy
    · exact (hP hxy).mpr (hshort y hy)

theorem Condenses.exists_iff {P : α → Prop} (h : Condenses one short long)
    (hP : ∀ {x y}, one x y → (P x ↔ P y)) : (∃ x ∈ long, P x) ↔ ∃ y ∈ short, P y := by
  constructor
  · rintro ⟨x, hx, hPx⟩
    obtain ⟨y, hy, rfl | hxy⟩ := h.stays x hx
    · exact ⟨x, hy, hPx⟩
    · exact ⟨y, hy, (hP hxy).mp hPx⟩
  · rintro ⟨y, hy, hPy⟩
    exact ⟨y, h.subset hy, hPy⟩

theorem Condenses.map {β : Type} {two : β → β → Prop} {f : α → β} (h : Condenses one short long)
    (hf : ∀ {x y}, one x y → two (f x) (f y)) : Condenses two (short.map f) (long.map f) where
  subset := List.map_subset f h.subset
  stays _ hfx := by
    obtain ⟨x, hx, rfl⟩ := List.mem_map.mp hfx
    obtain ⟨y, hy, rfl | hxy⟩ := h.stays x hx
    · exact ⟨f x, List.mem_map_of_mem hy, .inl rfl⟩
    · exact ⟨f y, List.mem_map_of_mem hy, .inr (hf hxy)⟩

/-- An element is left out that is one with another one before or after it. -/
theorem condenses_drop (front rest : List α) {x y : α} (hxy : one x y) (hy : y ∈ front ++ rest) :
    Condenses one (front ++ rest) (front ++ x :: rest) where
  subset z hz := by
    rcases List.mem_append.mp hz with hz | hz
    · exact List.mem_append_left _ hz
    · exact List.mem_append_right _ (List.mem_cons_of_mem x hz)
  stays z hz := by
    rcases List.mem_append.mp hz with hz | hz
    · exact ⟨z, List.mem_append_left _ hz, .inl rfl⟩
    · rcases List.mem_cons.mp hz with rfl | hz
      · exact ⟨y, hy, .inr hxy⟩
      · exact ⟨z, List.mem_append_right _ hz, .inl rfl⟩

theorem allM_eq_ok_true {ε : Type} {f : α → Except ε Bool} {l : List α} :
    l.allM f = .ok true ↔ ∀ x ∈ l, f x = .ok true := by
  induction l with
  | nil => exact iff_of_true rfl (List.forall_mem_nil _)
  | cons x l ih =>
      rw [List.forall_mem_cons, ← ih, List.allM, bind_eq_ok]
      constructor
      · rintro ⟨b, hb, h⟩
        cases b with
        | true => exact ⟨hb, h⟩
        | false => cases h
      · rintro ⟨hx, h⟩
        exact ⟨true, hx, h⟩

end

/-! ## What is left out is not missed -/

section

variable {entity : Fields} {property : String}

/-- Of predicates that are alike, as many as one likes may be asked for together. -/
theorem Clause.holds_iff_of_condenses {short long : Clause}
    (h : Condenses Predicate.Alike short long) :
    Clause.holds Value.compare entity long = .ok true
      ↔ Clause.holds Value.compare entity short = .ok true := by
  rw [holds, holds, allM_eq_ok_true, allM_eq_ok_true]
  exact h.forall_iff fun hpr => by rw [Predicate.holds_congr hpr]

/-- A clause that asks for a property to have none of some values. -/
def Clause.excluding (property : String) (values : List Value) : Clause :=
  values.map fun v => ⟨property, .relation .notEqual v⟩

/-- Of excluded values that are alike, as many as one likes may be excluded. -/
theorem Clause.excluding_iff_of_condenses {short long : List Value}
    (h : Condenses Value.Alike short long) :
    Clause.holds Value.compare entity (excluding property long) = .ok true
      ↔ Clause.holds Value.compare entity (excluding property short) = .ok true := by
  refine holds_iff_of_condenses (h.map fun {v w} hvw => ?_)
  constructor
  · show Predicate.same _ _ = true
    rw [Predicate.same, Bool.and_eq_true, Bool.and_eq_true]
    exact ⟨⟨beq_self_eq_true _, beq_self_eq_true _⟩, hvw.1⟩
  · exact List.forall₂_cons.mpr ⟨hvw.2, List.Forall₂.nil⟩

/-- Membership in a list of values that are compared. -/
theorem Predicate.holds_oneOf {vs : List Value}
    (hx : (Value.fieldOrNull entity property).Supported) (hvs : ∀ v ∈ vs, v.Supported) :
    Predicate.holds Value.compare entity ⟨property, .oneOf vs⟩
      = .ok (vs.any fun v =>
          Comparator.order Value.compare (Value.fieldOrNull entity property) v == .eq) := by
  refine anyM_eq_ok fun v hv => ?_
  rw [hx.compare_eq_order (hvs v hv)]
  rfl

/-- Of values that are alike, as many as one likes may be in the list of a membership test. -/
theorem Predicate.oneOf_eq_of_condenses {short long : List Value}
    (h : Condenses Value.Alike short long) (hx : (Value.fieldOrNull entity property).Supported)
    (hlong : ∀ v ∈ long, v.Supported) :
    Predicate.holds Value.compare entity ⟨property, .oneOf long⟩
      = Predicate.holds Value.compare entity ⟨property, .oneOf short⟩ := by
  rw [holds_oneOf hx hlong, holds_oneOf hx fun v hv => hlong v (h.subset hv), Except.ok.injEq,
    Bool.eq_iff_iff, List.any_eq_true, List.any_eq_true]
  refine h.exists_iff fun hvw => ?_
  rw [Comparator.order, (Value.compare_congr hvw _).2, ← Comparator.order]

/-- Leaves that ask for predicates that are alike. -/
def Filter.SameLeaf (f g : Filter) : Prop := ∃ p r, f = .leaf p ∧ g = .leaf r ∧ p.Alike r

/-- Of leaves that are alike, as many as one likes may be parts of an AND or an OR. -/
theorem Filter.satisfied_eq_of_condenses {short long : List Filter}
    (h : Condenses SameLeaf short long) (c : Connective) (entity : Fields) :
    (node c long).satisfied (Predicate.found entity)
      = (node c short).satisfied (Predicate.found entity) := by
  have hleaf : ∀ {f g : Filter}, SameLeaf f g → (f.satisfied (Predicate.found entity) = true
      ↔ g.satisfied (Predicate.found entity) = true) := by
    rintro _ _ ⟨p, r, rfl, rfl, hpr⟩
    rw [satisfied, satisfied, Predicate.found, Predicate.found, Predicate.holds_congr hpr]
  cases c with
  | all =>
      rw [satisfied, satisfied, allSatisfied_eq_all, allSatisfied_eq_all, Bool.eq_iff_iff,
        List.all_eq_true, List.all_eq_true]
      exact h.forall_iff hleaf
  | any =>
      rw [satisfied, satisfied, anySatisfied_eq_any, anySatisfied_eq_any, Bool.eq_iff_iff,
        List.any_eq_true, List.any_eq_true]
      exact h.exists_iff hleaf

end

/-! ## Echoes are missed -/

namespace Value

variable {v w : Value} {property : String}

@[simp] theorem fieldOrNull_singleton : fieldOrNull [(property, v)] property = v := by
  simp [fieldOrNull, field?]

/-- A value may be left out of a membership test beside one that it is one with, if it is no echo of
    it. An entity that has an echo for its value is missed. -/
theorem oneOf_drop_iff (hv : v.Supported) (h : (v == w) = true) :
    (∀ entity, (fieldOrNull entity property).Supported →
      Predicate.holds compare entity ⟨property, .oneOf [w, v]⟩
        = Predicate.holds compare entity ⟨property, .oneOf [w]⟩) ↔ ¬ v.Echo w := by
  have hw : w.Supported := hv.of_beq h
  have hboth : ∀ u ∈ [w, v], u.Supported :=
    List.forall_mem_cons.mpr ⟨hw, List.forall_mem_singleton.mpr hv⟩
  constructor
  · intro hall hecho
    have hentity : (fieldOrNull [(property, v)] property).Supported := by
      rwa [fieldOrNull_singleton]
    have hdrop := hall _ hentity
    rw [Predicate.holds_oneOf hentity hboth,
      Predicate.holds_oneOf hentity (List.forall_mem_singleton.mpr hw), Except.ok.injEq,
      fieldOrNull_singleton] at hdrop
    simp [hv.order_self, hecho.order_ne] at hdrop
  · intro hecho entity hx
    have hdrop : Condenses Alike [w] [w, v] :=
      condenses_drop [w] [] ⟨h, hecho⟩ List.mem_cons_self
    exact Predicate.oneOf_eq_of_condenses hdrop hx hboth

/-- So it is with excluded values. An entity that has an echo for its value is let in. -/
theorem excluding_drop_iff (hv : v.Supported) (h : (v == w) = true) :
    (∀ entity, Clause.holds compare entity (.excluding property [w, v]) = .ok true
      ↔ Clause.holds compare entity (.excluding property [w]) = .ok true) ↔ ¬ v.Echo w := by
  have hw : w.Supported := hv.of_beq h
  constructor
  · intro hall hecho
    have hdrop := hall [(property, v)]
    have hpasses : ∀ u, u.Supported →
        (Predicate.holds compare [(property, v)] ⟨property, .relation .notEqual u⟩ = .ok true
          ↔ Comparator.order compare v u ≠ .eq) := by
      intro u hu
      simp only [Predicate.holds, fieldOrNull_singleton, hv.compare_eq_order hu]
      cases Comparator.order compare v u <;> decide
    rw [Clause.holds, Clause.holds, allM_eq_ok_true, allM_eq_ok_true] at hdrop
    simp [Clause.excluding, hpasses w hw, hpasses v hv, hv.order_self,
      hecho.order_ne] at hdrop
  · intro hecho entity
    have hdrop : Condenses Alike [w] [w, v] :=
      condenses_drop [w] [] ⟨h, hecho⟩ List.mem_cons_self
    exact Clause.excluding_iff_of_condenses hdrop

/-- **Interchange.** Values that are one are compared alike with every value, and as equal with each
    other if they are compared at all, exactly if they are no echo. If they are compared, then
    either can be left out beside the other, in the list of a membership test and among excluded
    values, exactly if they are no echo. So nothing is missed that is left out beside something that
    it is alike with: a predicate that is asked for, a leaf of an AND or an OR, a value in the list
    of a membership test, an excluded value. -/
theorem interchangeable {a b : Value} (h : (a == b) = true) :
    ((∀ c, compare a c = compare b c ∧ compare c a = compare c b) ↔ ¬ a.Echo b)
    ∧ (a.Supported → b.Supported ∧ (compare a b = .ok .eq ↔ ¬ a.Echo b) ∧ ∀ property,
      ((∀ entity, (fieldOrNull entity property).Supported →
        Predicate.holds compare entity ⟨property, .oneOf [b, a]⟩
          = Predicate.holds compare entity ⟨property, .oneOf [b]⟩) ↔ ¬ a.Echo b)
      ∧ ((∀ entity, Clause.holds compare entity (.excluding property [b, a]) = .ok true
        ↔ Clause.holds compare entity (.excluding property [b]) = .ok true) ↔ ¬ a.Echo b))
    ∧ (∀ {short long : Clause}, Condenses Predicate.Alike short long → ∀ entity,
      (Clause.holds compare entity long = .ok true ↔ Clause.holds compare entity short = .ok true))
    ∧ (∀ {short long : List Filter}, Condenses Filter.SameLeaf short long → ∀ c entity,
      (Filter.node c long).satisfied (Predicate.found entity)
        = (Filter.node c short).satisfied (Predicate.found entity))
    ∧ ∀ {short long : List Value}, Condenses Alike short long → ∀ entity property,
      ((fieldOrNull entity property).Supported → (∀ v ∈ long, v.Supported) →
        Predicate.holds compare entity ⟨property, .oneOf long⟩
          = Predicate.holds compare entity ⟨property, .oneOf short⟩)
      ∧ (Clause.holds compare entity (.excluding property long) = .ok true
        ↔ Clause.holds compare entity (.excluding property short) = .ok true) := by
  refine ⟨compare_congr_iff h, fun ha => ⟨ha.of_beq h, ha.compare_eq_iff h, fun property => ?_⟩,
    fun hcondenses entity => Clause.holds_iff_of_condenses hcondenses,
    fun hcondenses c entity => Filter.satisfied_eq_of_condenses hcondenses c entity,
    fun hcondenses entity property => ?_⟩
  · exact ⟨oneOf_drop_iff ha h, excluding_drop_iff ha h⟩
  · exact ⟨Predicate.oneOf_eq_of_condenses hcondenses,
      Clause.excluding_iff_of_condenses hcondenses⟩

/-- The two zeros. -/
def zero (negative : Bool) : Value := .double (.ofMagnitude negative 0)

/-- Noon in a place that is an hour ahead of universal time, and eleven in universal time. -/
def noon (ahead : Bool) : Value :=
  .time { year := 2024, month := 5, day := 6, hour := if ahead then 12 else 11,
          offset := some (if ahead then 60 else 0) }

/-- The zeros are compared alike. Of a test for noon in each place one will do, and so will one zero
    in a list of values or among those that are excluded. -/
theorem interchangeable_zeros :
    (zero false == zero true) = true ∧ (zero false).Supported
      ∧ compare (zero false) (zero true) = .ok .eq
      ∧ (∀ c, compare (zero false) c = compare (zero true) c)
      ∧ (∀ entity,
        Clause.holds compare entity [.above "at" (noon true), .above "at" (noon false)] = .ok true
          ↔ Clause.holds compare entity [.above "at" (noon false)] = .ok true)
      ∧ Predicate.holds compare [("x", .int 0)] ⟨"x", .oneOf [zero false, .int 0, zero true]⟩
        = Predicate.holds compare [("x", .int 0)] ⟨"x", .oneOf [zero false, .int 0]⟩ := by
  have hzero : (zero false == zero true) = true := rfl
  have hzero' : (zero true).Alike (zero false) := by
    refine ⟨rfl, ?_⟩
    rintro ⟨s, t, hs, -, -⟩
    cases hs
  have hecho : ¬ (zero false).Echo (zero true) := fun h => hzero'.2 h.symm
  have hsupported : (zero false).Supported := ⟨_, rfl⟩
  have hnoon : Predicate.Alike (.above "at" (noon true)) (.above "at" (noon false)) := by
    refine ⟨by decide, List.forall₂_cons.mpr ⟨?_, List.Forall₂.nil⟩⟩
    -- neither clock goes by a zone
    rintro ⟨s, t, hs, -, z, hz, -⟩
    obtain rfl := time.inj hs
    cases hz
  have hall : ∀ v ∈ [zero false, .int 0, zero true], v.Supported :=
    List.forall_mem_cons.mpr ⟨hsupported,
      List.forall_mem_cons.mpr ⟨⟨_, rfl⟩, List.forall_mem_singleton.mpr ⟨_, rfl⟩⟩⟩
  obtain ⟨hcompare, hequal, hclauses, -, hlists⟩ := interchangeable hzero
  refine ⟨hzero, hsupported, (hequal hsupported).2.1.mpr hecho, fun c => (hcompare.mpr hecho c).1,
    ?_, ?_⟩
  · exact hclauses (condenses_drop [] [Predicate.above "at" (noon false)] hnoon List.mem_cons_self)
  · exact (hlists (condenses_drop [zero false, .int 0] [] hzero' List.mem_cons_self) _ "x").1
      ⟨_, rfl⟩ hall

end Value

/-- The clock in Oslo in the year 2021, from spring on. -/
def Zone.oslo : Zone where
  name := "Europe/Oslo"
  offset := 7200000000
  changes := [⟨1635642000000000, 3600000000⟩]
  settled := rfl

/-- Half past two in the night in which the clock was put back from three to two. -/
def Value.halfPastTwo (again : Bool) : Value :=
  .time { year := 2021, month := 10, day := 31, hour := 2, minute := 30, zone := some .oslo, again }

/-- The two are one value, and the first of them comes first. In a list one is left out, and then
    what is at the other is missed. -/
theorem Value.halfPastTwo_missed :
    (halfPastTwo true == halfPastTwo false) = true
      ∧ (halfPastTwo true).Supported ∧ (halfPastTwo false).Supported
      ∧ compare (halfPastTwo false) (halfPastTwo true) = .ok .lt
      ∧ distinct [halfPastTwo false, halfPastTwo true] = .ok [halfPastTwo false]
      ∧ Predicate.holds compare [("at", halfPastTwo true)]
          ⟨"at", .oneOf [halfPastTwo false, halfPastTwo true]⟩ = .ok true
      ∧ Predicate.holds compare [("at", halfPastTwo true)] ⟨"at", .oneOf [halfPastTwo false]⟩
        = .ok false :=
  ⟨rfl, ⟨_, rfl⟩, ⟨_, rfl⟩, rfl, rfl, rfl, rfl⟩

end EntityQuery
