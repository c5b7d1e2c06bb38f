import EntityQuery.Time

/-!
# Times that are one — readings of one clock and instants of several

The offset of a clock at a reading is found from its changes, and so is the offset that is in force
at an instant. If the reading is definite the two agree: the offset that is found at the reading is
in force at the instant it stands for. So definite readings of one clock that stand for one instant
are one reading, and times can be told apart by data (`Time.identity`): a definite time by its
instant, and another one by its clock and its reading.

Of times that are one only those can differ in their instants that are an *echo* of one another:
one reading of one clock, met for the first time and again.

* **`Zone.eq_of_instant`** — a clock shows an instant by one definite reading at most.
* **`Time.same_iff`** — the test and the identity say the same.
* **`Time.instant_eq_iff`** — times that are one have one instant unless they are an echo.
-/

namespace EntityQuery

namespace Change

variable {again : Bool} {reading instant offset : Int} {c : Change} {changes : List Change}

theorem offsetAt_cons_of_lt (h : reading < c.begins offset) :
    offsetAt again reading offset (c :: changes) = offset := by
  have hends : reading < c.ends offset := by
    rw [begins] at h
    rw [ends]
    omega
  cases again with
  | false => exact if_pos hends
  | true => exact if_pos h

theorem offsetAt_cons_of_le (h : c.ends offset ≤ reading) :
    offsetAt again reading offset (c :: changes) = offsetAt again reading c.offset changes := by
  have hbegins : c.begins offset ≤ reading := by
    rw [ends] at h
    rw [begins]
    omega
  cases again with
  | false => exact if_neg (Int.not_lt.mpr h)
  | true => exact if_neg (Int.not_lt.mpr hbegins)

/-- How far a clock is ahead at an instant, being ahead by `offset` before all changes. -/
def inForce (instant : Int) : Int → List Change → Int
  | offset, [] => offset
  | offset, c :: changes =>
    if instant < c.instant then offset else inForce instant c.offset changes

/-- While a change is on, the next one has not begun. -/
theorem offsetAt_of_lt_ends (h : settled offset (c :: changes) = true)
    (hreading : reading < c.ends offset) :
    offsetAt again reading c.offset changes = c.offset := by
  cases changes with
  | nil => rfl
  | cons d changes =>
      rw [settled, Bool.and_eq_true] at h
      have hnext : c.ends offset ≤ d.begins c.offset := of_decide_eq_true h.1
      exact offsetAt_cons_of_lt (by omega)

/-- A reading after a change stands for an instant after it. -/
theorem instant_le_sub_offsetAt (h : settled offset (c :: changes) = true)
    (hreading : c.ends offset ≤ reading) :
    c.instant ≤ reading - offsetAt false reading c.offset changes := by
  induction changes generalizing c offset with
  | nil =>
      rw [ends] at hreading
      rw [offsetAt]
      omega
  | cons d changes ih =>
      rw [settled, Bool.and_eq_true] at h
      have hnext : c.ends offset ≤ d.begins c.offset := of_decide_eq_true h.1
      rw [ends] at hreading hnext
      rw [begins] at hnext
      by_cases hd : reading < d.ends c.offset
      · rw [offsetAt, if_neg Bool.false_ne_true, if_pos hd]
        omega
      · rw [offsetAt_cons_of_le (Int.not_lt.mp hd)]
        have := ih h.2 (Int.not_lt.mp hd)
        omega

/-- At a definite reading the offset is the one in force at the instant it stands for. -/
theorem inForce_of_definite (h : settled offset changes = true)
    (hdefinite : offsetAt false reading offset changes = offsetAt true reading offset changes) :
    inForce (reading - offsetAt false reading offset changes) offset changes
      = offsetAt false reading offset changes := by
  induction changes generalizing offset with
  | nil => rfl
  | cons c changes ih =>
      have hsettled : settled c.offset changes = true := (Bool.and_eq_true_iff.mp h).2
      by_cases hbefore : reading < c.begins offset
      · rw [offsetAt_cons_of_lt hbefore, inForce, if_pos]
        rw [begins] at hbefore
        omega
      by_cases hafter : c.ends offset ≤ reading
      · rw [offsetAt_cons_of_le hafter, offsetAt_cons_of_le hafter] at hdefinite
        rw [offsetAt_cons_of_le hafter, inForce,
          if_neg (Int.not_lt.mpr (instant_le_sub_offsetAt h hafter))]
        exact ih hsettled hdefinite
      · -- the change is on, so the reading does not mean the same again
        have hends : reading < c.ends offset := Int.not_le.mp hafter
        rw [offsetAt, offsetAt, if_neg Bool.false_ne_true, if_pos rfl, if_pos hends,
          if_neg hbefore, offsetAt_of_lt_ends h hends] at hdefinite
        rw [begins] at hbefore
        rw [ends] at hends
        omega

end Change

/-- **One reading for an instant**, if it is definite. -/
theorem Zone.eq_of_instant {z : Zone} {r s : Int} (hr : z.isDefinite r = true)
    (hs : z.isDefinite s = true) (h : r - z.offsetAt r false = s - z.offsetAt s false) : r = s := by
  have hr' := Change.inForce_of_definite z.settled (eq_of_beq hr)
  have hs' := Change.inForce_of_definite z.settled (eq_of_beq hs)
  have hoffset : z.offsetAt r false = z.offsetAt s false := by
    rw [offsetAt, offsetAt, ← hr', ← hs']
    exact congrArg (Change.inForce · z.offset z.changes) h
  omega

namespace Time

variable {s t : Time} {z : Zone}

/-- One reading of one clock that stands for two instants. -/
def Echo (s t : Time) : Prop :=
  ∃ z, s.zone = some z ∧ t.zone = some z ∧ s.reading = t.reading ∧ s.instant ≠ t.instant

theorem instant_of_zone (h : s.zone = some z) :
    s.instant = s.reading - z.offsetAt s.reading s.again := by
  rw [instant, h]

/-- For a definite reading it does not matter whether it is met again. -/
theorem instant_of_definite (h : s.zone = some z) (hs : z.isDefinite s.reading = true) :
    s.instant = s.reading - z.offsetAt s.reading false := by
  rw [instant_of_zone h]
  cases s.again with
  | false => rfl
  | true => rw [eq_of_beq hs]

theorem isDefinite_of_zone (h : s.zone = some z) : s.isDefinite = z.isDefinite s.reading := by
  rw [isDefinite, h]
  rfl

theorem isNaive_of_zone (h : s.zone = some z) : s.isNaive = false := by
  rw [isNaive, h, Option.isNone_some, Bool.and_false]

/-- What a time is told apart by: a definite time by whether it is naive and by its instant, and
    another one by its clock and its reading. -/
def identity (t : Time) : (Bool × Int) ⊕ (Option Zone × Int) :=
  if t.isDefinite then .inl (t.isNaive, t.instant) else .inr (t.zone, t.reading)

/-- Times on one clock that goes by a zone are one when their readings are. -/
theorem same_of_zone (hs : s.zone = some z) (ht : t.zone = some z) :
    s.same t = true ↔ s.reading = t.reading := by
  rw [same, hs, ht]
  simp

/-- Other times are one when both are definite and their instants are one. -/
theorem same_of_ne (h : ∀ z, ¬ (s.zone = some z ∧ t.zone = some z)) :
    s.same t = true ↔ (s.isNaive = t.isNaive ∧ s.isDefinite = true ∧ t.isDefinite = true)
      ∧ s.instant = t.instant := by
  have hclock : (s.zone.isSome && s.zone == t.zone) = false := by
    cases hs : s.zone with
    | none => rfl
    | some z =>
        rw [Option.isSome_some, Bool.true_and, beq_eq_false_iff_ne]
        exact fun ht => h z ⟨hs, ht.symm⟩
  rw [same, hclock]
  simp [and_assoc]

/-- **Identity.** A time is the same as another one exactly when their identities are equal. -/
theorem same_iff : s.same t = true ↔ s.identity = t.identity := by
  by_cases hclock : ∃ z, s.zone = some z ∧ t.zone = some z
  · obtain ⟨z, hs, ht⟩ := hclock
    rw [same_of_zone hs ht, identity, identity, isDefinite_of_zone hs, isDefinite_of_zone ht]
    constructor
    · intro hreading
      rw [← hreading]
      cases hdefinite : z.isDefinite s.reading with
      | false => rw [if_neg Bool.false_ne_true, if_neg Bool.false_ne_true, hs, ht]
      | true =>
          have hdefinite' : z.isDefinite t.reading = true := hreading ▸ hdefinite
          rw [if_pos rfl, if_pos rfl, isNaive_of_zone hs, isNaive_of_zone ht,
            instant_of_definite hs hdefinite, instant_of_definite ht hdefinite', hreading]
    · cases hdefinite : z.isDefinite s.reading <;> cases hdefinite' : z.isDefinite t.reading
      case true.true =>
        rw [if_pos rfl, if_pos rfl, Sum.inl.injEq, Prod.mk.injEq,
          instant_of_definite hs hdefinite, instant_of_definite ht hdefinite']
        exact fun h => Zone.eq_of_instant hdefinite hdefinite' h.2
      all_goals simp
  · rw [same_of_ne fun z hz => hclock ⟨z, hz⟩, identity, identity]
    cases hdefinite : s.isDefinite <;> cases hdefinite' : t.isDefinite
    case false.false =>
      -- a time that is not definite is on a clock that goes by a zone
      simp only [Bool.false_eq_true, false_and, and_false, if_false, false_iff, Sum.inr.injEq,
        Prod.mk.injEq]
      rintro ⟨hzone, -⟩
      cases hs : s.zone with
      | none =>
          rw [isDefinite, hs] at hdefinite
          cases hdefinite
      | some z => exact hclock ⟨z, hs, hzone ▸ hs⟩
    all_goals simp

/-- **Echoes.** Times that are one stand for one instant unless they are an echo. -/
theorem instant_eq_iff (h : s.same t = true) : s.instant = t.instant ↔ ¬ s.Echo t := by
  constructor
  · rintro hinstant ⟨z, -, -, -, hne⟩
    exact hne hinstant
  · intro hecho
    by_cases hclock : ∃ z, s.zone = some z ∧ t.zone = some z
    · obtain ⟨z, hs, ht⟩ := hclock
      exact Decidable.byContradiction fun hne => hecho ⟨z, hs, ht, (same_of_zone hs ht).mp h, hne⟩
    · exact ((same_of_ne fun z hz => hclock ⟨z, hz⟩).mp h).2

end Time

end EntityQuery
