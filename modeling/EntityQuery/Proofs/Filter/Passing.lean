import EntityQuery.Filter.Matching
import EntityQuery.Proofs.Filter.Clauses
import EntityQuery.Proofs.Value.Consistency
import EntityQuery.Proofs.Value.Identity

/-!
# Passing — the truth of predicates for an entity

What a filter looks at in an entity is a `View`: the value of each property, and an answer to the
tests that are no comparisons, presence and containment. Comparisons are read through a comparator.
If it is consistent on the values that are compared, predicates that are one have one truth.

* **`Predicate.passes`** — the truth of a predicate.
* **`Predicate.passes_respects`** — it is the same for predicates that are one.
* **`Predicate.holds_eq_passes`** — matching an entity by its fields finds this truth.
-/

namespace EntityQuery

/-- What a filter looks at in an entity. -/
structure View where
  value       : String → Value
  other       : Predicate → Bool
  other_congr : ∀ {p r}, (p == r) = true → other p = other r

namespace Predicate

variable {cmp : Comparator} {occurs : Value → Prop} {view : View} {p r : Predicate}

/-- Whether an entity passes a predicate, its values being compared by `cmp`. -/
def passes (cmp : Comparator) (view : View) (p : Predicate) : Bool :=
  match p.test with
  | .relation r v => r.holds (cmp.order (view.value p.property) v)
  | .oneOf vs => vs.any fun v => cmp.order (view.value p.property) v == .eq
  | .present _ | .inside _ => view.other p

@[simp] theorem passes_equals (property : String) (v : Value) :
    (equals property v).passes cmp view = (cmp.order (view.value property) v == .eq) := rfl

@[simp] theorem passes_below (property : String) (v : Value) :
    (below property v).passes cmp view = (cmp.order (view.value property) v == .lt) := rfl

@[simp] theorem passes_above (property : String) (v : Value) :
    (above property v).passes cmp view = (cmp.order (view.value property) v == .gt) := rfl

/-- The values that a property is compared with. -/
def operands (p : Predicate) : List Value :=
  match p.test with
  | .relation _ v => [v]
  | .oneOf vs => vs
  | .present _ | .inside _ => []

/-- The values that are compared when a predicate is looked at all occur. -/
def Occurs (occurs : Value → Prop) (view : View) (p : Predicate) : Prop :=
  ∀ v ∈ p.operands, occurs v ∧ occurs (view.value p.property)

/-- Values that are one compare in the same way with the value of a property. -/
theorem order_operand (h : cmp.Consistent occurs) {x v w : Value} (hx : occurs x) (hv : occurs v)
    (hw : occurs w) (hvw : (v == w) = true) : cmp.order x v = cmp.order x w :=
  h.order_right hv hw hx (h.same hv hw hvw)

/-- Lists that are one, item by item, hold an equal to the value of a property or do not. -/
theorem any_operand (h : cmp.Consistent occurs) {x : Value} {vs ws : List Value}
    (hv : ∀ v ∈ vs, occurs v ∧ occurs x) (hw : ∀ w ∈ ws, occurs w) (hvw : (vs == ws) = true) :
    (vs.any fun v => cmp.order x v == .eq) = ws.any fun w => cmp.order x w == .eq := by
  induction vs generalizing ws with
  | nil =>
      cases ws with
      | nil => rfl
      | cons w ws => cases hvw
  | cons v vs ih =>
      cases ws with
      | nil => cases hvw
      | cons w ws =>
          rw [List.cons_beq_cons, Bool.and_eq_true] at hvw
          obtain ⟨hv₀, hx⟩ := hv v List.mem_cons_self
          rw [List.any_cons, List.any_cons, order_operand h hx hv₀ (hw w List.mem_cons_self) hvw.1,
            ih (fun v hv' => hv v (List.mem_cons_of_mem _ hv'))
              (fun w hw' => hw w (List.mem_cons_of_mem _ hw')) hvw.2]

/-- Predicates that are one have one truth. -/
theorem passes_respects (h : cmp.Consistent occurs) :
    Respects (Occurs occurs view) (passes cmp view) := by
  intro p r hp hr hpr
  obtain ⟨property, test⟩ := p
  obtain ⟨property', test'⟩ := r
  have hother := view.other_congr hpr
  obtain ⟨⟨hproperty, hoperator⟩, hvalue⟩ : (property = property'
      ∧ test.operator = test'.operator) ∧ (test.value == test'.value) = true := by
    simpa [BEq.beq, same, Bool.and_eq_true] using hpr
  subst hproperty
  cases test with
  | relation rel v =>
      cases test' with
      | relation rel' w =>
          obtain rfl := Operator.relation.inj hoperator
          obtain ⟨hv, hx⟩ := hp v List.mem_cons_self
          obtain ⟨hw, -⟩ := hr w List.mem_cons_self
          show rel.holds (cmp.order (view.value property) v) = rel.holds _
          rw [order_operand h hx hv hw hvalue]
      | _ => cases hoperator
  | oneOf vs =>
      cases test' with
      | oneOf ws =>
          have hvs : (vs == ws) = true := by rwa [← Value.allSame_eq_beq]
          exact any_operand h hp (fun w hw => (hr w hw).1) hvs
      | _ => cases hoperator
  | present v =>
      cases test' with
      | present w => exact hother
      | _ => cases hoperator
  | inside v =>
      cases test' with
      | inside w => exact hother
      | _ => cases hoperator

end Predicate

/-! ## Entities by their fields -/

/-- The view of an entity that is given by its fields. Containment is never found. -/
def View.ofFields (entity : Fields) : View where
  value := Value.fieldOrNull entity
  other p := p.isPresence && (Value.field? entity p.property).isSome
  other_congr {p r} h := by
    obtain ⟨property, test⟩ := p
    obtain ⟨property', test'⟩ := r
    obtain ⟨⟨hproperty, hoperator⟩, -⟩ : (property = property'
        ∧ test.operator = test'.operator) ∧ (test.value == test'.value) = true := by
      simpa [BEq.beq, Predicate.same, Bool.and_eq_true] using h
    subst hproperty
    cases test <;> cases test' <;> first | rfl | simp [Test.operator] at hoperator

theorem anyM_eq_ok {ε β : Type} {f : β → Except ε Bool} {g : β → Bool} {bs : List β}
    (h : ∀ b ∈ bs, f b = .ok (g b)) : bs.anyM f = .ok (bs.any g) := by
  induction bs with
  | nil => rfl
  | cons b bs ih =>
      rw [List.anyM, h b List.mem_cons_self, List.any_cons]
      cases hb : g b with
      | true => rfl
      | false => exact ih fun b' hb' => h b' (List.mem_cons_of_mem b hb')

/-- Matching an entity by its fields finds the truth of a predicate, unless it asks for containment
    in a region. -/
theorem Predicate.holds_eq_passes {cmp : Comparator} {occurs : Value → Prop}
    (h : cmp.Consistent occurs) {entity : Fields} {p : Predicate}
    (hp : p.Occurs occurs (.ofFields entity)) (hinside : ∀ region, p.test ≠ .inside region) :
    p.holds cmp entity = .ok (p.passes cmp (.ofFields entity)) := by
  obtain ⟨property, test⟩ := p
  cases test with
  | relation rel v =>
      obtain ⟨hv, hx⟩ := hp v List.mem_cons_self
      exact bind_eq_ok.mpr ⟨_, h.eq_ok hx hv, rfl⟩
  | oneOf vs =>
      apply anyM_eq_ok
      intro v hv
      obtain ⟨hv, hx⟩ := hp v hv
      exact bind_eq_ok.mpr ⟨_, h.eq_ok hx hv, rfl⟩
  | present v =>
      show _ = Except.ok (true && _)
      rw [Bool.true_and]
      rfl
  | inside region => exact absurd rfl (hinside region)

end EntityQuery
