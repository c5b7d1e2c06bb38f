/-!
# Outcomes — reasoning on computations that may fail

Much of the library is written with computations that end in a result or in a fault. `Ends E Q`
says of such a computation that a result is in `Q` and a fault in `E`. With `E` empty it says that
the computation succeeds; with `E` full it says what holds whenever it does. The rules follow the
computation step by step, so that a function is described once and its callers need not look into
it again.
-/

namespace EntityQuery

variable {ε α β : Type}

/-- A result is in `Q`, and a fault in `E`. -/
def Ends (E : ε → Prop) (Q : α → Prop) : Except ε α → Prop
  | .ok a => Q a
  | .error f => E f

namespace Ends

variable {E : ε → Prop} {P Q : α → Prop} {R : β → Prop} {r : Except ε α}

theorem ok {a : α} (h : Q a) : Ends E Q (.ok a) := h

/-- Do one computation and then another that uses its result. -/
theorem bind {k : α → Except ε β} (h : Ends E P r) (hk : ∀ a, P a → Ends E R (k a)) :
    Ends E R (r >>= k) := by
  cases r with
  | ok a => exact hk a h
  | error f => exact h

theorem mono (h : Ends E P r) (hPQ : ∀ a, P a → Q a) : Ends E Q r := by
  cases r with
  | ok a => exact hPQ a h
  | error f => exact h

theorem weaken {F : ε → Prop} (h : Ends E Q r) (hEF : ∀ f, E f → F f) : Ends F Q r := by
  cases r with
  | ok a => exact h
  | error f => exact hEF f h

/-- With nothing asked of results and faults, anything will do. -/
theorem trivially : Ends (fun _ => True) (fun _ => True) r := by
  cases r <;> trivial

/-- What holds of every result holds of the one that is there. -/
theorem of_eq_ok {a : α} (h : Ends E Q r) (hr : r = .ok a) : Q a := by
  subst hr
  exact h

/-- A result that is spoken of is the one that is there. -/
theorem result (h : Ends E Q r) : Ends E (fun a => r = .ok a) r := by
  cases r with
  | ok a => rfl
  | error f => exact h

/-- Stop at a condition, or go on. -/
theorem guard {c : Prop} [Decidable c] {f : ε} {k : Unit → Except ε β} (hf : E f)
    (hk : Ends E R (k ())) : Ends E R (if c then throw f >>= k else k ()) := by
  by_cases hc : c
  · rw [if_pos hc]
    exact hf
  · rw [if_neg hc]
    exact hk

/-- The faults of a list are those of its elements. -/
theorem mapM {f : α → Except ε β} {xs : List α} (h : ∀ x ∈ xs, Ends E (fun _ => True) (f x)) :
    Ends E (fun _ => True) (xs.mapM f) := by
  induction xs with
  | nil => exact Ends.ok trivial
  | cons x xs ih =>
      rw [List.mapM_cons]
      refine Ends.bind (h x List.mem_cons_self) fun y _ => ?_
      exact Ends.bind (ih fun z hz => h z (List.mem_cons_of_mem x hz)) fun _ _ => Ends.ok trivial

/-- A computation that has no fault to end in gives a result. -/
theorem exists_ok (h : Ends (fun _ => False) Q r) : ∃ a, r = .ok a ∧ Q a := by
  cases r with
  | ok a => exact ⟨a, rfl, h⟩
  | error f => exact h.elim

end Ends

/-! ## Peeling a computation that has succeeded -/

theorem bind_eq_ok {r : Except ε α} {k : α → Except ε β} {b : β} :
    (r >>= k) = .ok b ↔ ∃ a, r = .ok a ∧ k a = .ok b := by
  cases r with
  | ok a =>
      constructor
      · intro h
        exact ⟨a, rfl, h⟩
      · rintro ⟨a', ha, h⟩
        obtain rfl := Except.ok.inj ha
        exact h
  | error f =>
      constructor
      · intro h
        cases h
      · rintro ⟨a', ha, -⟩
        cases ha

/-- Two computations in a row fail where the first does, or else where the second does. -/
theorem bind_eq_error {r : Except ε α} {k : α → Except ε β} {f : ε} :
    (r >>= k) = .error f ↔ r = .error f ∨ ∃ a, r = .ok a ∧ k a = .error f := by
  cases r with
  | ok a =>
      constructor
      · exact fun h => .inr ⟨a, rfl, h⟩
      · rintro (h | ⟨a', ha, h⟩)
        · cases h
        · obtain rfl := Except.ok.inj ha
          exact h
  | error e =>
      constructor
      · exact fun h => .inl (congrArg Except.error (Except.error.inj h))
      · rintro (h | ⟨a', ha, -⟩)
        · exact congrArg Except.error (Except.error.inj h)
        · cases ha

/-- A computation that is guarded succeeds with what it guards. -/
theorem ite_eq_ok {c : Prop} [Decidable c] {a b : α} {f : ε} :
    (if c then .ok a else .error f : Except ε α) = .ok b ↔ c ∧ b = a := by
  by_cases hc : c
  · rw [if_pos hc, Except.ok.injEq, and_iff_right hc]
    exact eq_comm
  · rw [if_neg hc]
    exact ⟨fun h => (by cases h), fun h => absurd h.1 hc⟩

/-- A computation that stops at a condition has come past it only if the condition fails. -/
theorem guard_eq_ok {c : Prop} [Decidable c] {f : ε} {k : Unit → Except ε β} {b : β} :
    (if c then throw f >>= k else k ()) = .ok b ↔ ¬ c ∧ k () = .ok b := by
  by_cases hc : c
  · rw [if_pos hc]
    exact ⟨fun h => (by cases h), fun h => absurd hc h.1⟩
  · rw [if_neg hc, and_iff_right hc]

theorem map_eq_ok {r : Except ε α} {f : α → β} {b : β} :
    r.map f = .ok b ↔ ∃ a, r = .ok a ∧ f a = b := by
  cases r <;> simp [Except.map]

/-- Telling a fault in other words does not touch a result. -/
theorem mapError_eq_ok {ε' : Type} {r : Except ε α} {f : ε → ε'} {a : α} :
    r.mapError f = .ok a ↔ r = .ok a := by
  cases r with
  | ok b =>
      constructor
      · exact fun h => congrArg Except.ok (Except.ok.inj h)
      · exact fun h => congrArg Except.ok (Except.ok.inj h)
  | error e => exact iff_of_false (fun h => by cases h) fun h => by cases h

theorem mapM_cons_eq_ok {f : α → Except ε β} {x : α} {xs : List α} {ys : List β} :
    (x :: xs).mapM f = .ok ys ↔ ∃ y zs, f x = .ok y ∧ xs.mapM f = .ok zs ∧ ys = y :: zs := by
  rw [List.mapM_cons, bind_eq_ok]
  constructor
  · rintro ⟨y, hy, h⟩
    obtain ⟨zs, hzs, h⟩ := bind_eq_ok.mp h
    exact ⟨y, zs, hy, hzs, (Except.ok.inj h).symm⟩
  · rintro ⟨y, zs, hy, hzs, rfl⟩
    exact ⟨y, hy, bind_eq_ok.mpr ⟨zs, hzs, rfl⟩⟩

/-- The results of a list are those of its elements. -/
theorem mem_of_mapM_eq_ok {f : α → Except ε β} {xs : List α} {ys : List β}
    (h : xs.mapM f = .ok ys) {y : β} : y ∈ ys ↔ ∃ x ∈ xs, f x = .ok y := by
  induction xs generalizing ys with
  | nil =>
      obtain rfl := Except.ok.inj h
      simp
  | cons x xs ih =>
      obtain ⟨z, zs, hz, hzs, rfl⟩ := mapM_cons_eq_ok.mp h
      rw [List.mem_cons, ih hzs]
      constructor
      · rintro (rfl | ⟨x', hx', hy⟩)
        · exact ⟨x, List.mem_cons_self, hz⟩
        · exact ⟨x', List.mem_cons_of_mem x hx', hy⟩
      · rintro ⟨x', hx', hy⟩
        rcases List.mem_cons.mp hx' with rfl | hx'
        · exact .inl (Except.ok.inj (hy.symm.trans hz))
        · exact .inr ⟨x', hx', hy⟩

/-- Every element of a list that has been gone through has a result. -/
theorem ok_of_mapM_eq_ok {f : α → Except ε β} {xs : List α} {ys : List β}
    (h : xs.mapM f = .ok ys) {x : α} (hx : x ∈ xs) : ∃ y ∈ ys, f x = .ok y := by
  induction xs generalizing ys with
  | nil => cases hx
  | cons x' xs ih =>
      obtain ⟨z, zs, hz, hzs, rfl⟩ := mapM_cons_eq_ok.mp h
      rcases List.mem_cons.mp hx with rfl | hx
      · exact ⟨z, List.mem_cons_self, hz⟩
      · obtain ⟨y, hy, hfy⟩ := ih hzs hx
        exact ⟨y, List.mem_cons_of_mem z hy, hfy⟩

/-- A list has as many results as elements. -/
theorem length_of_mapM_eq_ok {f : α → Except ε β} {xs : List α} {ys : List β}
    (h : xs.mapM f = .ok ys) : ys.length = xs.length := by
  induction xs generalizing ys with
  | nil =>
      obtain rfl := Except.ok.inj h
      rfl
  | cons x xs ih =>
      obtain ⟨y, zs, -, hzs, rfl⟩ := mapM_cons_eq_ok.mp h
      rw [List.length_cons, List.length_cons, ih hzs]

theorem mapM_eq_ok_map {f : α → Except ε β} {g : α → β} {xs : List α}
    (h : ∀ x ∈ xs, f x = .ok (g x)) : xs.mapM f = .ok (xs.map g) := by
  induction xs with
  | nil => rfl
  | cons x xs ih =>
      rw [mapM_cons_eq_ok]
      exact ⟨g x, xs.map g, h x List.mem_cons_self,
        ih fun y hy => h y (List.mem_cons_of_mem x hy), rfl⟩

/-- A list has results if each of its elements has one. -/
theorem exists_mapM_eq_ok {f : α → Except ε β} {xs : List α} (h : ∀ x ∈ xs, ∃ y, f x = .ok y) :
    ∃ ys, xs.mapM f = .ok ys := by
  induction xs with
  | nil => exact ⟨[], rfl⟩
  | cons x xs ih =>
      obtain ⟨y, hy⟩ := h x List.mem_cons_self
      obtain ⟨zs, hzs⟩ := ih fun x' hx' => h x' (List.mem_cons_of_mem x hx')
      exact ⟨y :: zs, mapM_cons_eq_ok.mpr ⟨y, zs, hy, hzs, rfl⟩⟩

/-! ## Tests of order -/

/-- A test of whether one element comes before another decides a transitive relation among the
    elements in `S`: an outcome says which of the two may stand first. With every fault in `E` and
    the full relation this holds of any test. -/
structure Decides (E : ε → Prop) (before : α → α → Except ε Bool) (le : α → α → Prop)
    (S : α → Prop) : Prop where
  test  : ∀ {a b}, S a → S b → Ends E (fun r => if r then le a b else le b a) (before a b)
  trans : ∀ {a b c}, S a → S b → S c → le a b → le b c → le a c

theorem decides_full {before : α → α → Except ε Bool} :
    Decides (fun _ => True) before (fun _ _ => True) (fun _ => True) where
  test {a b} _ _ := by
    cases before a b with
    | ok r => cases r <;> trivial
    | error f => trivial
  trans _ _ _ _ _ := trivial

/-- A comparison decides a reflexive and transitive relation among the elements in `S`. -/
structure Orders (E : ε → Prop) (cmp : α → α → Except ε Ordering) (le : α → α → Prop)
    (S : α → Prop) : Prop where
  compare : ∀ {a b}, S a → S b →
    Ends E (fun o => (o ≠ .gt → le a b) ∧ (o ≠ .lt → le b a)) (cmp a b)
  refl    : ∀ {a}, S a → le a a
  trans   : ∀ {a b c}, S a → S b → S c → le a b → le b c → le a c

/-- A comparison whose outcome is `lt` is a test of one element being before another. -/
theorem Orders.decides {E : ε → Prop} {cmp : α → α → Except ε Ordering} {le : α → α → Prop}
    {S : α → Prop} (h : Orders E cmp le S) :
    Decides E (fun a b => return (← cmp a b) == .lt) le S where
  test ha hb := by
    refine Ends.bind (h.compare ha hb) ?_
    intro o ho
    cases o with
    | lt => exact Ends.ok (ho.1 (by decide))
    | eq => exact Ends.ok (ho.2 (by decide))
    | gt => exact Ends.ok (ho.2 (by decide))
  trans := h.trans

end EntityQuery
