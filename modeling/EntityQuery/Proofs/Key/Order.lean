import EntityQuery.Key

/-!
# The order of keys — a line of places, and keys that share one

Paths are compared step by step and namespaces before them, so keys are in one line by their
`pathOrder`: opposite outcomes in opposite directions, and transitive. Keys that differ only in the
namespaces of the keys above them have the same place in it and are yet unequal (`Twins`). `cmp`
refines the line by equality. That leaves it transitive, as equality adds nothing to the line, but
of two twins each comes after the other.

* **`Key.cmp_ne_gt_iff`** — a key is not after another one if it is before it or equal to it.
* **`Key.cmp_swap_iff`** — exchanging two keys turns the outcome round exactly if they are no twins.
-/

namespace EntityQuery

/-- A line of what elements have is a line of the elements. -/
theorem transCmp_on {α β : Type} (cmp : β → β → Ordering) [h : Std.TransCmp cmp] (f : α → β) :
    Std.TransCmp fun a b => cmp (f a) (f b) where
  eq_swap := h.eq_swap
  isLE_trans := h.isLE_trans

namespace KeyId

/-- Numeric ids and names are each in one line, one line behind the other. -/
instance : Std.TransCmp cmp where
  eq_swap {a b} := by
    cases a with
    | number m =>
        cases b with
        | number n => exact Int.instTransOrd.eq_swap
        | name t => rfl
    | name s =>
        cases b with
        | number n => rfl
        | name t => exact String.instTransOrd.eq_swap
  isLE_trans {a b c} hab hbc := by
    cases a with
    | number m =>
        cases c with
        | name u => rfl
        | number l =>
            cases b with
            | number n => exact Int.instTransOrd.isLE_trans hab hbc
            | name t => cases hbc
    | name s =>
        cases b with
        | number n => cases hab
        | name t =>
            cases c with
            | number l => cases hbc
            | name u => exact String.instTransOrd.isLE_trans hab hbc

instance : Std.LawfulEqCmp cmp where
  compare_self {a} := by
    cases a with
    | number m => exact Int.compare_eq_eq.mpr rfl
    | name s => exact String.instLawfulEqOrd.compare_self
  eq_of_compare {a b} h := by
    cases a with
    | number m =>
        cases b with
        | number n => exact congrArg number (Int.compare_eq_eq.mp h)
        | name t => cases h
    | name s =>
        cases b with
        | number n => cases h
        | name t => exact congrArg name (String.instLawfulEqOrd.eq_of_compare h)

end KeyId

namespace Key

variable {a b c : Key}

/-! ## Places -/

instance : Std.TransCmp stepCmp :=
  have := transCmp_on KeyId.cmp (Prod.snd (α := String))
  inferInstanceAs (Std.TransCmp (compareLex (compareOn Prod.fst) fun a b : Step => a.2.cmp b.2))

instance : Std.LawfulEqCmp stepCmp where
  compare_self := Ordering.then_eq_eq.mpr
    ⟨Std.ReflCmp.compare_self, Std.LawfulEqCmp.compare_eq_iff_eq.mpr rfl⟩
  eq_of_compare {a b} h := by
    obtain ⟨hkind, hid⟩ := Ordering.then_eq_eq.mp h
    exact Prod.ext (Std.LawfulEqCmp.eq_of_compare hkind) (Std.LawfulEqCmp.eq_of_compare hid)

theorem pathCmp_eq_compareLex : pathCmp = List.compareLex stepCmp := by
  funext as
  induction as with
  | nil => funext bs; cases bs <;> rfl
  | cons a as ih =>
      funext bs
      cases bs with
      | nil => rfl
      | cons b bs => rw [pathCmp, List.compareLex_cons_cons, ih]

instance : Std.TransCmp pathCmp := pathCmp_eq_compareLex ▸ inferInstance

instance : Std.LawfulEqCmp pathCmp := pathCmp_eq_compareLex ▸ inferInstance

/-- Keys are in one line by namespace and path. -/
instance : Std.TransCmp pathOrder :=
  have := transCmp_on pathCmp path
  inferInstanceAs (Std.TransCmp (compareLex (compareOn space) fun a b => pathCmp a.path b.path))

@[simp] theorem pathOrder_eq_eq_iff : pathOrder a b = .eq ↔ a.space = b.space ∧ a.path = b.path := by
  rw [pathOrder, Ordering.then_eq_eq, Std.LawfulEqCmp.compare_eq_iff_eq,
    Std.LawfulEqCmp.compare_eq_iff_eq]

/-! ## Equality on top -/

/-- Unequal keys of one place: they differ in the namespaces of the keys above them. -/
def Twins (a b : Key) : Prop := a ≠ b ∧ a.space = b.space ∧ a.path = b.path

theorem lt_iff : lt a b = true ↔ pathOrder a b = .lt := beq_iff_eq

/-- Before, else equal, else after. -/
theorem cmp_eq : cmp a b = if pathOrder a b = .lt then .lt else if a = b then .eq else .gt := by
  rw [cmp, gt]
  by_cases hlt : pathOrder a b = .lt
  · rw [if_pos (lt_iff.mpr hlt), if_pos hlt]
  · have hnot : lt a b = false := by rw [← Bool.not_eq_true, lt_iff]; exact hlt
    rw [hnot, if_neg Bool.false_ne_true, if_neg hlt]
    by_cases heq : a = b
    · simp [heq]
    · simp [heq]

/-- **Not after.** A key is not after another one if it is before it or equal to it. -/
theorem cmp_ne_gt_iff : cmp a b ≠ .gt ↔ pathOrder a b = .lt ∨ a = b := by
  rw [cmp_eq]
  split
  · simp [*]
  · split
    · simp [*]
    · simp [*]

@[simp] theorem cmp_self (a : Key) : cmp a a = .eq := by
  have hself : pathOrder a a = .eq := Std.ReflCmp.compare_self
  simp [cmp_eq, hself]

theorem cmp_trans (hab : cmp a b ≠ .gt) (hbc : cmp b c ≠ .gt) : cmp a c ≠ .gt := by
  rw [cmp_ne_gt_iff] at *
  rcases hab with hab | rfl
  · rcases hbc with hbc | rfl
    · exact .inl (Std.TransCmp.lt_trans hab hbc)
    · exact .inl hab
  · exact hbc

/-- **Exchanging** two keys turns the outcome round exactly if they are no twins. -/
theorem cmp_swap_iff : cmp b a = (cmp a b).swap ↔ ¬ Twins a b := by
  have hswap : pathOrder b a = (pathOrder a b).swap := Std.OrientedCmp.eq_swap
  rw [cmp_eq, cmp_eq, Twins, ← pathOrder_eq_eq_iff, hswap]
  have hne : pathOrder a b ≠ .eq → a ≠ b := by
    rintro h rfl
    exact h Std.ReflCmp.compare_self
  cases ho : pathOrder a b with
  | lt =>
      have := (hne (by rw [ho]; decide)).symm
      simp [this]
  | gt =>
      have := hne (by rw [ho]; decide)
      simp [this]
  | eq =>
      by_cases heq : a = b
      · simp [heq]
      · simp [heq, Ne.symm heq]

end Key

end EntityQuery
