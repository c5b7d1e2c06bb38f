import EntityQuery.Execution.Entity
import EntityQuery.Proofs.Value.Consistency

/-!
# The order of entities — sort by sort, then by key

Entities are compared by the values of one sort after the other, each read in its direction, and at
last by key. If the comparator is consistent on these values and on the keys, entities that have
them are put into one line too.

* **`Access.orders`** — the order of entities is total and transitive.
* **`Access.order_eq_lt`** — an entity is before another one if it is in some sort and they are
  equal in those before it.
* **`Access.sort_eq_sort`** — sorting depends on the order alone, if it tells the entities apart.
-/

namespace EntityQuery.Access

variable {α : Type} {access : Access α} {cmp : Comparator} {occurs : Value → Prop} {s : SortOrder}
  {sorts rest : List SortOrder} {a b c : α}

/-- The order of two entities, as far as there is one. -/
def order (access : Access α) (cmp : Comparator) (sorts : List SortOrder) (a b : α) : Ordering :=
  match access.compare cmp sorts a b with
  | .ok o => o
  | .error _ => .eq

/-- An entity does not come after another one. -/
def NotAfter (access : Access α) (cmp : Comparator) (sorts : List SortOrder) (a b : α) : Prop :=
  access.order cmp sorts a b ≠ .gt

/-- An entity has a key and a value for each sort. -/
structure Comparable (access : Access α) (occurs : Value → Prop) (sorts : List SortOrder) (a : α) :
    Prop where
  key    : ∃ k, access.keyOf a = .ok k ∧ occurs k
  values : ∀ s ∈ sorts, ∃ v, access.valueOf a s.property = .ok v ∧ occurs v

theorem Comparable.tail (ha : access.Comparable occurs (s :: rest) a) :
    access.Comparable occurs rest a :=
  ⟨ha.key, fun t ht => ha.values t (List.mem_cons_of_mem s ht)⟩

theorem Comparable.head (ha : access.Comparable occurs (s :: rest) a) :
    ∃ v, access.valueOf a s.property = .ok v ∧ occurs v :=
  ha.values s List.mem_cons_self

theorem compare_nil {k l : Value} (ha : access.keyOf a = .ok k) (hb : access.keyOf b = .ok l) :
    access.compare cmp [] a b = cmp k l := by
  rw [compare, compareKeys, ha, hb]
  rfl

/-- The first sort decides unless the values are equal there. -/
theorem compare_cons (h : cmp.Consistent occurs) {x y : Value}
    (ha : access.valueOf a s.property = .ok x) (hb : access.valueOf b s.property = .ok y)
    (hx : occurs x) (hy : occurs y) :
    access.compare cmp (s :: rest) a b = match (cmp.inDirection s.direction).order x y with
      | .eq => access.compare cmp rest a b
      | o => .ok o := by
  rw [compare, ha, hb]
  show (cmp x y >>= fun o => match o with
    | .eq => access.compare cmp rest a b
    | o => return s.direction.apply o) = _
  rw [h.eq_ok hx hy, Comparator.order_inDirection]
  cases cmp.order x y with
  | eq => cases s.direction <;> rfl
  | lt => cases s.direction <;> rfl
  | gt => cases s.direction <;> rfl

theorem order_cons (h : cmp.Consistent occurs) {x y : Value}
    (ha : access.valueOf a s.property = .ok x) (hb : access.valueOf b s.property = .ok y)
    (hx : occurs x) (hy : occurs y) :
    access.order cmp (s :: rest) a b
      = ((cmp.inDirection s.direction).order x y).then (access.order cmp rest a b) := by
  rw [order, compare_cons h ha hb hx hy]
  cases (cmp.inDirection s.direction).order x y <;> rfl

/-! ## Total and transitive -/

theorem compare_total (h : cmp.Consistent occurs) (ha : access.Comparable occurs sorts a)
    (hb : access.Comparable occurs sorts b) :
    access.compare cmp sorts a b = .ok (access.order cmp sorts a b)
      ∧ access.order cmp sorts b a = (access.order cmp sorts a b).swap := by
  induction sorts with
  | nil =>
      obtain ⟨k, hk, hkOccurs⟩ := ha.key
      obtain ⟨l, hl, hlOccurs⟩ := hb.key
      rw [order, order, compare_nil hk hl, compare_nil hl hk, h.eq_ok hkOccurs hlOccurs,
        h.eq_ok hlOccurs hkOccurs]
      exact ⟨rfl, h.order_swap hkOccurs hlOccurs⟩
  | cons s rest ih =>
      obtain ⟨x, hx, hxOccurs⟩ := ha.head
      obtain ⟨y, hy, hyOccurs⟩ := hb.head
      obtain ⟨hrest, hswap⟩ := ih ha.tail hb.tail
      rw [compare_cons h hx hy hxOccurs hyOccurs, order_cons h hx hy hxOccurs hyOccurs,
        order_cons h hy hx hyOccurs hxOccurs, Ordering.swap_then, hswap,
        (h.inDirection s.direction).order_swap hxOccurs hyOccurs]
      refine ⟨?_, rfl⟩
      cases (cmp.inDirection s.direction).order x y with
      | eq => exact hrest
      | lt => rfl
      | gt => rfl

theorem order_self (h : cmp.Consistent occurs) (ha : access.Comparable occurs sorts a) :
    access.order cmp sorts a a = .eq := by
  have hswap := (compare_total h ha ha).2
  cases ho : access.order cmp sorts a a with
  | eq => rfl
  | lt =>
      rw [ho] at hswap
      cases hswap
  | gt =>
      rw [ho] at hswap
      cases hswap

theorem NotAfter.trans (h : cmp.Consistent occurs) (ha : access.Comparable occurs sorts a)
    (hb : access.Comparable occurs sorts b) (hc : access.Comparable occurs sorts c)
    (hab : access.NotAfter cmp sorts a b) (hbc : access.NotAfter cmp sorts b c) :
    access.NotAfter cmp sorts a c := by
  induction sorts with
  | nil =>
      obtain ⟨k, hk, hkOccurs⟩ := ha.key
      obtain ⟨l, hl, hlOccurs⟩ := hb.key
      obtain ⟨m, hm, hmOccurs⟩ := hc.key
      simp only [NotAfter, order, compare_nil hk hl, compare_nil hl hm, compare_nil hk hm] at *
      exact h.trans hkOccurs hlOccurs hmOccurs hab hbc
  | cons s rest ih =>
      obtain ⟨x, hx, hxOccurs⟩ := ha.head
      obtain ⟨y, hy, hyOccurs⟩ := hb.head
      obtain ⟨z, hz, hzOccurs⟩ := hc.head
      have hdir := h.inDirection s.direction
      rw [NotAfter, order_cons h hx hy hxOccurs hyOccurs, Ne, Ordering.then_eq_gt, not_or] at hab
      rw [NotAfter, order_cons h hy hz hyOccurs hzOccurs, Ne, Ordering.then_eq_gt, not_or] at hbc
      rw [NotAfter, order_cons h hx hz hxOccurs hzOccurs, Ne, Ordering.then_eq_gt, not_or]
      refine ⟨hdir.trans hxOccurs hyOccurs hzOccurs hab.1 hbc.1, ?_⟩
      rintro ⟨hxz, hac⟩
      -- equal at both ends, so equal in between, and the other sorts decide
      have hxy : (cmp.inDirection s.direction).order x y = .eq := by
        cases ho : (cmp.inDirection s.direction).order x y with
        | eq => rfl
        | gt => exact absurd ho hab.1
        | lt =>
            have hlt := hdir.lt_of_lt_of_le hxOccurs hyOccurs hzOccurs ho hbc.1
            cases hlt.symm.trans hxz
      have hyz : (cmp.inDirection s.direction).order y z = .eq := by
        rw [← hdir.order_left hxOccurs hyOccurs hzOccurs hxy, hxz]
      exact ih ha.tail hb.tail hc.tail (fun hgt => hab.2 ⟨hxy, hgt⟩) (fun hgt => hbc.2 ⟨hyz, hgt⟩)
        hac

/-- **The order of entities** is decided by comparing them. -/
theorem orders {E : Fault → Prop} (h : cmp.Consistent occurs) :
    Orders E (access.compare cmp sorts) (access.NotAfter cmp sorts)
      (access.Comparable occurs sorts) where
  compare {a b} ha hb := by
    obtain ⟨hcompare, hswap⟩ := compare_total h ha hb
    rw [hcompare]
    refine ⟨fun hne => hne, fun hne => ?_⟩
    rw [NotAfter, hswap]
    cases ho : access.order cmp sorts a b with
    | lt => exact absurd ho hne
    | eq => decide
    | gt => decide
  refl {a} ha := by
    rw [NotAfter, order_self h ha]
    decide
  trans := NotAfter.trans h

/-! ## Deciding sorts -/

/-- **Deciding sorts.** The first sort in which entities differ decides. -/
theorem order_eq_lt (h : cmp.Consistent occurs) {x y : Value}
    (hvalues : ∀ t ∈ sorts, ∃ v w, access.valueOf a t.property = .ok v
      ∧ access.valueOf b t.property = .ok w ∧ occurs v ∧ occurs w ∧ cmp.order v w = .eq)
    (ha : access.valueOf a s.property = .ok x) (hb : access.valueOf b s.property = .ok y)
    (hx : occurs x) (hy : occurs y) (hlt : (cmp.inDirection s.direction).order x y = .lt) :
    access.order cmp (sorts ++ s :: rest) a b = .lt := by
  induction sorts with
  | nil =>
      rw [List.nil_append, order_cons h ha hb hx hy, hlt]
      rfl
  | cons t ts ih =>
      obtain ⟨v, w, hv, hw, hvOccurs, hwOccurs, heq⟩ := hvalues t List.mem_cons_self
      rw [List.cons_append, order_cons h hv hw hvOccurs hwOccurs,
        Comparator.order_inDirection_eq.mpr heq]
      exact ih fun t' ht' => hvalues t' (List.mem_cons_of_mem t ht')

/-! ## Sorting -/

/-- Entities that no sort tells apart, nor the key, have equal keys. -/
theorem order_keys_eq (h : cmp.Consistent occurs) {k l : Value} (hk : access.keyOf a = .ok k)
    (hl : access.keyOf b = .ok l) (ha : access.Comparable occurs sorts a)
    (hb : access.Comparable occurs sorts b) (heq : access.order cmp sorts a b = .eq) :
    cmp.order k l = .eq := by
  induction sorts with
  | nil =>
      rw [order, compare_nil hk hl] at heq
      exact heq
  | cons s rest ih =>
      obtain ⟨x, hx, hxOccurs⟩ := ha.head
      obtain ⟨y, hy, hyOccurs⟩ := hb.head
      rw [order_cons h hx hy hxOccurs hyOccurs, Ordering.then_eq_eq] at heq
      exact ih ha.tail hb.tail heq.2

/-- Sorting puts comparable entities into their order. -/
theorem sort_spec (h : cmp.Consistent occurs) {entities : List α}
    (hes : ∀ a ∈ entities, access.Comparable occurs sorts a) :
    ∃ rows, access.sort cmp sorts entities = .ok rows
      ∧ rows.Perm entities ∧ rows.Pairwise (access.NotAfter cmp sorts) := by
  have hdecides : Decides (fun _ : Fault => False)
      (fun a b => return (← access.compare cmp sorts a b) == .lt) (access.NotAfter cmp sorts)
      (access.Comparable occurs sorts) := (orders h).decides
  exact (Sorting.sort_spec hdecides hes).exists_ok

/-- **Sorting** by two lists of sorts gives the same rows, in the order of either, if the entities
    have the same order under both and only an entity and itself are equal in it. -/
theorem sort_eq_sort (h : cmp.Consistent occurs) {sorts' : List SortOrder} {entities : List α}
    (hes : ∀ a ∈ entities, access.Comparable occurs sorts a)
    (hes' : ∀ a ∈ entities, access.Comparable occurs sorts' a)
    (hsame : ∀ a ∈ entities, ∀ b ∈ entities,
      access.order cmp sorts' a b = access.order cmp sorts a b)
    (hapart : ∀ a ∈ entities, ∀ b ∈ entities, access.order cmp sorts a b = .eq → a = b) :
    ∃ rows, access.sort cmp sorts entities = .ok rows
      ∧ access.sort cmp sorts' entities = .ok rows
      ∧ rows.Perm entities ∧ rows.Pairwise (access.NotAfter cmp sorts) := by
  obtain ⟨rows, hrows, hperm, hsorted⟩ := sort_spec h hes
  obtain ⟨rows', hrows', hperm', hsorted'⟩ := sort_spec h hes'
  have hsorted'' : rows'.Pairwise (access.NotAfter cmp sorts) := by
    refine hsorted'.imp_of_mem ?_
    intro a b ha hb hab
    rwa [NotAfter, ← hsame a (hperm'.mem_iff.mp ha) b (hperm'.mem_iff.mp hb)]
  -- each may stand before the other only if they are equal in the order
  have hanti : ∀ a b, a ∈ rows → b ∈ rows' → access.NotAfter cmp sorts a b →
      access.NotAfter cmp sorts b a → a = b := by
    intro a b ha hb hab hba
    have ha := hperm.mem_iff.mp ha
    have hb := hperm'.mem_iff.mp hb
    refine hapart a ha b hb ?_
    rw [NotAfter, (compare_total h (hes a ha) (hes b hb)).2] at hba
    rw [NotAfter] at hab
    cases ho : access.order cmp sorts a b with
    | eq => rfl
    | gt => exact absurd ho hab
    | lt =>
        rw [ho] at hba
        exact absurd rfl hba
  obtain rfl : rows = rows' :=
    (hperm.trans hperm'.symm).eq_of_pairwise hanti hsorted hsorted''
  exact ⟨rows, hrows, hrows', hperm, hsorted⟩

end EntityQuery.Access
