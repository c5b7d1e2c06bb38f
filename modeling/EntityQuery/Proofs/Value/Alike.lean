import EntityQuery.Proofs.Value.Identity
import EntityQuery.Proofs.Value.Order

/-!
# Values that are compared alike

Values that are one need not be written alike: there are two zeros, an instant is read on many
clocks, and a NaN may have any bits. Nothing of this shows when values are compared. Values that are
one have one ordinal, or at least ordinals that compare alike with every other (`Ordinal.Alike`),
and if they have no place in the order they are refused alike. NaN and twin keys are no exception.

Echoes are the one exception. A clock that is put back shows a reading twice, and the two are one
value and have two instants.

* **`Value.compare_congr_iff`** — the outcome is the same for values that are one and no echoes.
* **`Value.compare_consistent`** — the order is consistent wherever neither twins nor echoes meet.
-/

namespace EntityQuery

/-! ## Ordinals -/

/-- Doubles that are one are ordered alike with every double, be it that they are NaNs. -/
theorem Double.compare?_congr {d e : Double} (h : d.same e = true) (g : Double) :
    d.compare? g = e.compare? g ∧ g.compare? d = g.compare? e := by
  rw [same] at h
  split at h
  · obtain ⟨⟨hd, he⟩, -⟩ : (d.isNaN = true ∧ e.isNaN = true) ∧ d.place = e.place := by
      simpa using h
    simp [compare?, hd, he]
  · rename_i hnan
    obtain ⟨hd, he⟩ : d.isNaN = false ∧ e.isNaN = false := by simpa using hnan
    simp [compare?, hd, he, eq_of_beq h]

namespace Ordinal

/-- Ordinals that no comparison tells apart. -/
def Alike (x y : Ordinal) : Prop := ∀ z, x.cmp z = y.cmp z ∧ z.cmp x = z.cmp y

theorem doubleCmp_congr {d e : Double} (h : d.same e = true) (g : Double) :
    doubleCmp d g = doubleCmp e g ∧ doubleCmp g d = doubleCmp g e := by
  obtain ⟨hleft, hright⟩ := Double.compare?_congr h g
  rw [doubleCmp, doubleCmp, doubleCmp, doubleCmp, hleft, hright]
  exact ⟨rfl, rfl⟩

theorem alike_double {d e : Double} (h : d.same e = true) : Alike (.double d) (.double e) := by
  intro z
  cases z with
  | double g => exact doubleCmp_congr h g
  | _ => exact ⟨rfl, rfl⟩

theorem alike_point {p q : GeoPoint} (h : p.same q = true) : Alike (.point p) (.point q) := by
  obtain ⟨hlat, hlon⟩ := Bool.and_eq_true_iff.mp h
  intro z
  cases z with
  | point r =>
      obtain ⟨hlat, hlat'⟩ := doubleCmp_congr hlat r.latitude
      obtain ⟨hlon, hlon'⟩ := doubleCmp_congr hlon r.longitude
      show pointCmp p r = pointCmp q r ∧ pointCmp r p = pointCmp r q
      rw [pointCmp, pointCmp, pointCmp, pointCmp, hlat, hlat', hlon, hlon']
      exact ⟨rfl, rfl⟩
  | _ => exact ⟨rfl, rfl⟩

/-- Every ordinal compares as equal to itself, NaN included. -/
theorem cmp_self (x : Ordinal) : x.cmp x = .eq := by
  cases x with
  | key k => exact Key.cmp_self k
  | double d =>
      cases hd : d.isNaN with
      | true =>
          show doubleCmp d d = .eq
          rw [doubleCmp, Double.compare?, hd]
          rfl
      | false =>
          have hordered : (Ordinal.double d).isOrdered = true := by simp [isOrdered, hd]
          rw [cmp_eq_line hordered hordered fun _ _ h => (by cases h)]
          exact Std.ReflCmp.compare_self
  | _ =>
      rw [cmp_eq_line rfl rfl fun _ _ h => (by cases h)]
      exact Std.ReflCmp.compare_self

theorem Alike.cmp_eq {x y : Ordinal} (h : x.Alike y) : x.cmp y = .eq := by
  rw [(h y).1, cmp_self]

end Ordinal

/-! ## Values -/

namespace Value

variable {a b c : Value}

/-- Times that are one reading of one clock and stand for two instants. -/
def Echo (a b : Value) : Prop := ∃ s t, a = .time s ∧ b = .time t ∧ s.Echo t

/-- Values that are one and no echo. -/
def Alike (a b : Value) : Prop := (a == b) = true ∧ ¬ a.Echo b

/-- Values that are one have one ordinal or are refused alike, or they both have ordinals, which
    are alike unless the values are an echo. -/
theorem ordinal_of_beq (h : (a == b) = true) :
    a.ordinal = b.ordinal
      ∨ ∃ x y, a.ordinal = .ok x ∧ b.ordinal = .ok y ∧ (a.Echo b ∨ x.Alike y) := by
  replace h : a.same b = true := h
  cases a with
  | double d =>
      cases b with
      | double e => exact .inr ⟨_, _, rfl, rfl, .inr (Ordinal.alike_double h)⟩
      | _ => cases h
  | point p =>
      cases b with
      | point q => exact .inr ⟨_, _, rfl, rfl, .inr (Ordinal.alike_point h)⟩
      | _ => cases h
  | time s =>
      cases b with
      | time t =>
          by_cases hecho : Echo (.time s) (.time t)
          · exact .inr ⟨_, _, rfl, rfl, .inl hecho⟩
          · have hinstant : s.instant = t.instant :=
              (Time.instant_eq_iff h).mpr fun hst => hecho ⟨s, t, rfl, rfl, hst⟩
            exact .inl (by rw [ordinal, ordinal, hinstant])
      | _ => cases h
  | bool | int | text | bytes | key =>
      -- values of these types are told apart by what they are
      cases b <;> simp only [same, beq_iff_eq, Bool.false_eq_true] at h
      all_goals exact .inl (by rw [h])
  | null | circle | rectangle | list | record =>
      cases b <;> first | exact .inl rfl | cases h

/-- **One outcome** for values that are alike, whatever they are compared with. -/
theorem compare_congr (h : a.Alike b) (c : Value) :
    compare a c = compare b c ∧ compare c a = compare c b := by
  rcases ordinal_of_beq h.1 with hab | ⟨x, y, ha, hb, hecho | halike⟩
  · rw [compare, compare, compare, compare, hab]
    exact ⟨rfl, rfl⟩
  · exact absurd hecho h.2
  · cases hc : c.ordinal with
    | error f =>
        rw [compare, compare, compare, compare, ha, hb, hc]
        exact ⟨rfl, rfl⟩
    | ok z =>
        rw [compare_eq_ok ha hc, compare_eq_ok hb hc, compare_eq_ok hc ha, compare_eq_ok hc hb,
          (halike z).1, (halike z).2]
        exact ⟨rfl, rfl⟩

/-- Values that are one are refused alike, be they an echo. -/
theorem compare_bind_congr {α : Type} (h : (a == b) = true) (c : Value) (r : Except Fault α) :
    (compare c a >>= fun _ => r) = compare c b >>= fun _ => r := by
  rcases ordinal_of_beq h with hab | ⟨x, y, ha, hb, -⟩
  · rw [compare, compare, hab]
  · rw [compare, compare, ha, hb]
    cases c.ordinal with
    | error f => rfl
    | ok z => rfl

/-- Whether a value has a type that is compared at all. -/
def Supported (v : Value) : Prop := ∃ x, v.ordinal = .ok x

theorem supported_of_isOrdered (ha : a.isOrdered = true) : a.Supported := by
  obtain ⟨x, hx, -⟩ := ordinal_eq_ok ha
  exact ⟨x, hx⟩

theorem Supported.compare_self (ha : a.Supported) : compare a a = .ok .eq := by
  obtain ⟨x, hx⟩ := ha
  rw [compare_eq_ok hx hx, Ordinal.cmp_self]

theorem Supported.order_self (ha : a.Supported) : Comparator.order compare a a = .eq := by
  rw [Comparator.order, ha.compare_self]

theorem Supported.of_beq (ha : a.Supported) (h : (a == b) = true) : b.Supported := by
  obtain ⟨x, hx⟩ := ha
  rcases ordinal_of_beq h with hab | ⟨_, y, _, hb, _⟩
  · exact ⟨x, hab ▸ hx⟩
  · exact ⟨y, hb⟩

theorem Echo.symm (h : a.Echo b) : b.Echo a := by
  obtain ⟨s, t, rfl, rfl, z, hs, ht, hreading, hinstant⟩ := h
  exact ⟨t, s, rfl, rfl, z, ht, hs, hreading.symm, hinstant.symm⟩

theorem Echo.supported (h : a.Echo b) : a.Supported := by
  obtain ⟨s, t, rfl, -, -⟩ := h
  exact ⟨_, rfl⟩

/-- A time does not compare as equal with its echo. -/
theorem Echo.order_ne (h : a.Echo b) : Comparator.order compare a b ≠ .eq := by
  obtain ⟨s, t, rfl, rfl, z, hs, ht, hreading, hinstant⟩ := h
  show Ord.compare s.instant t.instant ≠ .eq
  rw [Ne, Int.compare_eq_eq]
  exact hinstant

/-- **Echoes** are all that keeps values that are one from being compared alike. -/
theorem compare_congr_iff (h : (a == b) = true) :
    (∀ c, compare a c = compare b c ∧ compare c a = compare c b) ↔ ¬ a.Echo b := by
  constructor
  · intro hall hecho
    refine hecho.order_ne ?_
    rw [Comparator.order, ← (hall a).2, hecho.supported.compare_self]
  · exact fun hecho => compare_congr ⟨h, hecho⟩

/-- Values that are one compare as equal if they are compared at all and no echo. -/
theorem Supported.compare_eq_iff (ha : a.Supported) (h : (a == b) = true) :
    compare a b = .ok .eq ↔ ¬ a.Echo b := by
  constructor
  · intro heq hecho
    exact hecho.order_ne (by rw [Comparator.order, heq])
  · intro hecho
    rw [← (compare_congr ⟨h, hecho⟩ a).2, ha.compare_self]

theorem Supported.compare_eq_order (ha : a.Supported) (hb : b.Supported) :
    compare a b = .ok (Comparator.order compare a b) := by
  obtain ⟨x, hx⟩ := ha
  obtain ⟨y, hy⟩ := hb
  rw [Comparator.order, compare_eq_ok hx hy]

/-- **Consistency.** The order is consistent on values that are ordered, if neither twins nor echoes
    are among them. -/
theorem compare_consistent {occurs : Value → Prop} (hordered : ∀ v, occurs v → v.isOrdered = true)
    (htwins : ∀ a b, occurs a → occurs b → ¬ Twins a b)
    (hechoes : ∀ a b, occurs a → occurs b → ¬ Echo a b) :
    Comparator.Consistent compare occurs where
  total {a b} ha hb := by
    refine ⟨_, compare_eq_order (hordered a ha) (hordered b hb), ?_⟩
    rw [compare_eq_order (hordered b hb) (hordered a ha),
      (order_swap_iff (hordered a ha) (hordered b hb)).mpr (htwins a b ha hb)]
  trans ha hb hc := order_trans (hordered _ ha) (hordered _ hb) (hordered _ hc)
  same {a b} ha hb h := by
    have hsupported : a.Supported := supported_of_isOrdered (hordered a ha)
    rw [Comparator.order, (hsupported.compare_eq_iff h).mpr (hechoes a b ha hb)]

end Value

end EntityQuery
