import EntityQuery.Fanout.Component
import EntityQuery.Proofs.Sorting.Sorted

/-!
# Consistent comparators — an order on the values that occur

A comparator may be any function, and it may refuse values. What planning and running a query need
of it is said here, for the values that occur: it gives an outcome, turns it round when the values
are exchanged, puts the values into one line and does not tell values apart that are one value.
Values that are different may still compare as equal.

* **`Comparator.Consistent`** — the conditions.
* **`Value.sorted_spec`** — values that occur are sorted.
-/

namespace EntityQuery

namespace Comparator

/-- The order of two values, as far as the comparator gives one. -/
def order (cmp : Comparator) (a b : Value) : Ordering :=
  match cmp a b with
  | .ok o => o
  | .error _ => .eq

/-- A consistent order on the values that occur, which respects their identity. -/
structure Consistent (cmp : Comparator) (occurs : Value → Prop) : Prop where
  total : ∀ {a b}, occurs a → occurs b → ∃ o, cmp a b = .ok o ∧ cmp b a = .ok o.swap
  trans : ∀ {a b c}, occurs a → occurs b → occurs c →
    cmp.order a b ≠ .gt → cmp.order b c ≠ .gt → cmp.order a c ≠ .gt
  same  : ∀ {a b}, occurs a → occurs b → (a == b) = true → cmp.order a b = .eq

namespace Consistent

variable {cmp : Comparator} {occurs : Value → Prop} {a b c : Value}

theorem eq_ok (h : cmp.Consistent occurs) (ha : occurs a) (hb : occurs b) :
    cmp a b = .ok (cmp.order a b) := by
  obtain ⟨o, ho, -⟩ := h.total ha hb
  rw [order, ho]

theorem order_swap (h : cmp.Consistent occurs) (ha : occurs a) (hb : occurs b) :
    cmp.order b a = (cmp.order a b).swap := by
  obtain ⟨o, hab, hba⟩ := h.total ha hb
  rw [order, order, hab, hba]

theorem order_self (h : cmp.Consistent occurs) (ha : occurs a) : cmp.order a a = .eq := by
  have hswap := h.order_swap ha ha
  cases ho : cmp.order a a with
  | eq => rfl
  | lt =>
      rw [ho] at hswap
      cases hswap
  | gt =>
      rw [ho] at hswap
      cases hswap

theorem gt_iff_lt (h : cmp.Consistent occurs) (ha : occurs a) (hb : occurs b) :
    cmp.order a b = .gt ↔ cmp.order b a = .lt := by
  rw [h.order_swap ha hb]
  cases cmp.order a b <;> decide

/-- An outcome is known from whether either value may stand before the other. -/
theorem order_congr (h : cmp.Consistent occurs) {a' b' : Value} (ha : occurs a) (hb : occurs b)
    (ha' : occurs a') (hb' : occurs b') (hle : cmp.order a b ≠ .gt ↔ cmp.order a' b' ≠ .gt)
    (hge : cmp.order b a ≠ .gt ↔ cmp.order b' a' ≠ .gt) : cmp.order a b = cmp.order a' b' := by
  rw [h.order_swap ha hb, h.order_swap ha' hb'] at hge
  cases ho : cmp.order a b <;> cases ho' : cmp.order a' b' <;> simp_all

/-- Values that compare as equal compare in the same way with every other one. -/
theorem order_left (h : cmp.Consistent occurs) (ha : occurs a) (hb : occurs b) (hc : occurs c)
    (hab : cmp.order a b = .eq) : cmp.order a c = cmp.order b c := by
  have hab' : cmp.order a b ≠ .gt := by rw [hab]; decide
  have hba' : cmp.order b a ≠ .gt := by rw [h.order_swap ha hb, hab]; decide
  refine h.order_congr ha hc hb hc ?_ ?_
  · exact ⟨h.trans hb ha hc hba', h.trans ha hb hc hab'⟩
  · exact ⟨fun hca => h.trans hc ha hb hca hab', fun hcb => h.trans hc hb ha hcb hba'⟩

theorem order_right (h : cmp.Consistent occurs) (ha : occurs a) (hb : occurs b) (hc : occurs c)
    (hab : cmp.order a b = .eq) : cmp.order c a = cmp.order c b := by
  rw [h.order_swap ha hc, h.order_swap hb hc, h.order_left ha hb hc hab]

theorem lt_of_lt_of_le (h : cmp.Consistent occurs) (ha : occurs a) (hb : occurs b)
    (hc : occurs c) (hab : cmp.order a b = .lt) (hbc : cmp.order b c ≠ .gt) :
    cmp.order a c = .lt := by
  have hac : cmp.order a c ≠ .gt := h.trans ha hb hc (by rw [hab]; decide) hbc
  cases ho : cmp.order a c with
  | lt => rfl
  | gt => exact absurd ho hac
  | eq =>
      exfalso
      apply hbc
      rw [h.gt_iff_lt hb hc, ← h.order_left ha hc hb ho, hab]

theorem lt_of_le_of_lt (h : cmp.Consistent occurs) (ha : occurs a) (hb : occurs b)
    (hc : occurs c) (hab : cmp.order a b ≠ .gt) (hbc : cmp.order b c = .lt) :
    cmp.order a c = .lt := by
  have hac : cmp.order a c ≠ .gt := h.trans ha hb hc hab (by rw [hbc]; decide)
  cases ho : cmp.order a c with
  | lt => rfl
  | gt => exact absurd ho hac
  | eq =>
      exfalso
      apply hab
      rw [h.order_left ha hc hb ho, h.gt_iff_lt hc hb, hbc]

/-- The comparator as a test of one value being before another. -/
theorem decides_before (h : cmp.Consistent occurs) :
    Decides (fun _ : Fault => False) cmp.before (fun a b => cmp.order a b ≠ .gt) occurs where
  test {a b} ha hb := by
    have hswap := h.order_swap ha hb
    rw [before, h.eq_ok ha hb]
    cases ho : cmp.order a b with
    | lt => exact Ends.ok (show Ordering.lt ≠ .gt by decide)
    | eq =>
        refine Ends.ok ?_
        show cmp.order b a ≠ .gt
        rw [hswap, ho]
        decide
    | gt =>
        refine Ends.ok ?_
        show cmp.order b a ≠ .gt
        rw [hswap, ho]
        decide
  trans := h.trans

end Consistent

/-! ## Directions -/

/-- A comparator read in a direction. -/
def inDirection (cmp : Comparator) (d : Direction) : Comparator := fun a b => d.apply <$> cmp a b

@[simp] theorem order_inDirection (cmp : Comparator) (d : Direction) (a b : Value) :
    (cmp.inDirection d).order a b = d.apply (cmp.order a b) := by
  rw [order, order, inDirection]
  cases cmp a b with
  | ok o => rfl
  | error f => cases d <;> rfl

@[simp] theorem order_inDirection_eq {cmp : Comparator} {d : Direction} {a b : Value} :
    (cmp.inDirection d).order a b = .eq ↔ cmp.order a b = .eq := by
  rw [order_inDirection]
  cases d <;> cases cmp.order a b <;> decide

/-- Reading in a direction keeps an order consistent. -/
theorem Consistent.inDirection {cmp : Comparator} {occurs : Value → Prop}
    (h : cmp.Consistent occurs) (d : Direction) : (cmp.inDirection d).Consistent occurs where
  total ha hb := by
    obtain ⟨o, hab, hba⟩ := h.total ha hb
    refine ⟨d.apply o, ?_, ?_⟩
    · rw [Comparator.inDirection, hab]
      rfl
    · rw [Comparator.inDirection, hba]
      cases d <;> rfl
  trans {a b c} ha hb hc hab hbc := by
    rw [order_inDirection] at *
    cases d with
    | ascending => exact h.trans ha hb hc hab hbc
    | descending =>
        show (cmp.order a c).swap ≠ .gt
        rw [← h.order_swap ha hc]
        refine h.trans hc hb ha ?_ ?_
        · rw [h.order_swap hb hc]
          exact hbc
        · rw [h.order_swap ha hb]
          exact hab
  same ha hb hab := order_inDirection_eq.mpr (h.same ha hb hab)

end Comparator

/-- Values in a direction: the same ones, each not after the next. -/
theorem Value.sorted_spec {cmp : Comparator} {occurs : Value → Prop} (h : cmp.Consistent occurs)
    (d : Direction) {vs : List Value} (hvs : ∀ v ∈ vs, occurs v) :
    Ends (fun _ => False)
      (fun ws => ws.Perm vs ∧ ws.Pairwise fun a b => d.apply (cmp.order a b) ≠ .gt)
      (sorted cmp d vs) := by
  cases d with
  | ascending => exact Sorting.sort_spec h.decides_before hvs
  | descending =>
      refine (Sorting.sortFalling_spec h.decides_before hvs).mono ?_
      rintro ws ⟨hperm, hsorted⟩
      refine ⟨hperm, hsorted.imp_of_mem ?_⟩
      intro a b ha hb hba
      have hswap := h.order_swap (hvs a (hperm.mem_iff.mp ha)) (hvs b (hperm.mem_iff.mp hb))
      rwa [hswap] at hba

/-- Values in a direction are the same ones, whatever the comparator. -/
theorem Value.sorted_perm {cmp : Comparator} {d : Direction} {vs ws : List Value}
    (h : sorted cmp d vs = .ok ws) : ws.Perm vs := by
  cases d with
  | ascending => exact ((Sorting.sort_spec decides_full fun _ _ => trivial).of_eq_ok h).1
  | descending => exact ((Sorting.sortFalling_spec decides_full fun _ _ => trivial).of_eq_ok h).1

/-- Integers are compared consistently. -/
theorem Value.compare_consistent_int :
    Comparator.Consistent Value.compare fun v => ∃ i, v = .int i where
  total := by
    rintro _ _ ⟨i, rfl⟩ ⟨j, rfl⟩
    have hswap : Ord.compare j i = (Ord.compare i j).swap := Std.OrientedCmp.eq_swap
    exact ⟨_, rfl, congrArg Except.ok hswap⟩
  trans := by
    rintro _ _ _ ⟨i, rfl⟩ ⟨j, rfl⟩ ⟨k, rfl⟩ hij hjk
    have hle : ∀ {m n : Int},
        Comparator.order Value.compare (.int m) (.int n) ≠ .gt ↔ m ≤ n := by
      intro m n
      show Ord.compare m n ≠ .gt ↔ m ≤ n
      rw [Ne, Int.compare_eq_gt, Int.not_lt]
    rw [hle] at *
    exact Int.le_trans hij hjk
  same := by
    rintro _ _ ⟨i, rfl⟩ ⟨j, rfl⟩ h
    obtain rfl : i = j := eq_of_beq (show (i == j) = true from h)
    exact Int.compare_eq_eq.mpr rfl

end EntityQuery
