import EntityQuery.Filter
import EntityQuery.Proofs.Outcome
import EntityQuery.Proofs.Value.Time

/-!
# Identity as data — values are one when their identities are equal

`Value.same` is a test of two values. Here it is turned into an equality: every value has an
`Identity`, and a value that a set can hold is the same as another one exactly when their
identities are equal. That the test is an equivalence follows at once, for values, for lists of
them and for predicates.

Records have no identity of their own, as the agreement of records is no equivalence when fields
are repeated.

* **`Value.same_iff`** — the test and the identity say the same.
-/

namespace EntityQuery

/-- What a double is told apart by: the place of a NaN, the order of another double. -/
def Double.identity (d : Double) : Place ⊕ Int := if d.isNaN then .inl d.place else .inr d.order

theorem Double.same_iff {a b : Double} : a.same b = true ↔ a.identity = b.identity := by
  rw [same, identity, identity]
  cases a.isNaN <;> cases b.isNaN <;> simp

/-- What a point is told apart by. -/
def GeoPoint.identity (p : GeoPoint) : (Place ⊕ Int) × (Place ⊕ Int) :=
  (p.latitude.identity, p.longitude.identity)

theorem GeoPoint.same_iff {p q : GeoPoint} : p.same q = true ↔ p.identity = q.identity := by
  rw [same, Bool.and_eq_true, Double.same_iff, Double.same_iff, identity, identity, Prod.mk.injEq]

namespace Value

/-- What a value is told apart by. All records share theirs. -/
inductive Identity where
  | null
  | bool (b : Bool)
  | int (i : Int)
  | time (t : (Bool × Int) ⊕ (Option Zone × Int))
  | text (s : String)
  | bytes (octets : List UInt8)
  | double (d : Place ⊕ Int)
  | point (p : (Place ⊕ Int) × (Place ⊕ Int))
  | key (k : Key)
  | circle (center : (Place ⊕ Int) × (Place ⊕ Int)) (radius : Place ⊕ Int)
  | rectangle (southwest northeast : (Place ⊕ Int) × (Place ⊕ Int))
  | list (items : List Identity)
  | record

mutual

def identity : Value → Identity
  | .null => .null
  | .bool b => .bool b
  | .int i => .int i
  | .time t => .time t.identity
  | .text s => .text s
  | .bytes bs => .bytes bs
  | .double d => .double d.identity
  | .point p => .point p.identity
  | .key k => .key k
  | .circle c r => .circle c.identity r.identity
  | .rectangle p q => .rectangle p.identity q.identity
  | .list items => .list (identities items)
  | .record _ => .record

def identities : List Value → List Identity
  | [] => []
  | v :: vs => identity v :: identities vs

end

mutual

/-- **Identity.** A value that a set can hold is the same as another value exactly when their
    identities are equal. -/
theorem same_iff : ∀ {a b : Value}, a.keyable = true →
    (a.same b = true ↔ a.identity = b.identity)
  | .list as, .list bs, h => by
      rw [same, identity, identity, Identity.list.injEq]
      exact allSame_iff h
  | .list _, .null, _ | .list _, .bool _, _ | .list _, .int _, _ | .list _, .time _, _
  | .list _, .text _, _ | .list _, .bytes _, _ | .list _, .double _, _ | .list _, .point _, _
  | .list _, .key _, _ | .list _, .circle _ _, _ | .list _, .rectangle _ _, _
  | .list _, .record _, _ => by simp [same, identity]
  | .null, b, _ | .bool _, b, _ | .int _, b, _ | .time _, b, _ | .text _, b, _ | .bytes _, b, _
  | .double _, b, _ | .point _, b, _ | .key _, b, _ | .circle _ _, b, _ | .rectangle _ _, b, _ => by
      cases b <;> simp [same, identity, Double.same_iff, GeoPoint.same_iff, Time.same_iff]

theorem allSame_iff : ∀ {as bs : List Value}, allKeyable as = true →
    (allSame as bs = true ↔ identities as = identities bs)
  | [], [], _ => by simp [allSame]
  | [], _ :: _, _ => by simp [allSame, identities]
  | _ :: _, [], _ => by simp [allSame, identities]
  | a :: as, b :: bs, h => by
      rw [allKeyable, Bool.and_eq_true] at h
      rw [allSame, Bool.and_eq_true, same_iff h.1, allSame_iff h.2, identities, identities,
        List.cons.injEq]

end

mutual

/-- Of values that are one a set can hold both or neither. -/
theorem keyable_eq_of_same : ∀ {a b : Value}, a.same b = true → a.keyable = b.keyable
  | .list as, b, h => by
      cases b with
      | list bs => exact allKeyable_eq_of_allSame h
      | _ => cases h
  | .null, b, h | .bool _, b, h | .int _, b, h | .time _, b, h | .text _, b, h | .bytes _, b, h
  | .double _, b, h | .point _, b, h | .key _, b, h | .circle _ _, b, h | .rectangle _ _, b, h
  | .record _, b, h => by
      cases b <;> first | rfl | cases h

theorem allKeyable_eq_of_allSame : ∀ {as bs : List Value}, allSame as bs = true →
    allKeyable as = allKeyable bs
  | [], [], _ => rfl
  | [], _ :: _, h | _ :: _, [], h => by cases h
  | a :: as, b :: bs, h => by
      rw [allSame, Bool.and_eq_true] at h
      rw [allKeyable, allKeyable, keyable_eq_of_same h.1, allKeyable_eq_of_allSame h.2]

end

theorem allKeyable_eq_all : ∀ vs : List Value, allKeyable vs = vs.all keyable
  | [] => rfl
  | v :: vs => by rw [allKeyable, allKeyable_eq_all vs, List.all_cons]

theorem identities_eq_map : ∀ vs : List Value, identities vs = vs.map identity
  | [] => rfl
  | v :: vs => by rw [identities, identities_eq_map vs, List.map_cons]

/-- Lists are compared item by item, whether they stand in a value or by themselves. -/
theorem allSame_eq_beq : ∀ as bs : List Value, allSame as bs = (as == bs)
  | [], [] | [], _ :: _ | _ :: _, [] => rfl
  | a :: as, b :: bs => by
      rw [allSame, allSame_eq_beq as bs]
      rfl

theorem beq_iff {a b : Value} (ha : a.keyable = true) :
    (a == b) = true ↔ a.identity = b.identity :=
  same_iff ha

theorem list_beq_iff {as bs : List Value} (h : as.all keyable = true) :
    (as == bs) = true ↔ identities as = identities bs := by
  rw [← allSame_eq_beq]
  exact allSame_iff (by rw [allKeyable_eq_all, h])

end Value

/-- **Identity of predicates.** They test the same property in the same way with the same value. -/
theorem Predicate.beq_iff {p r : Predicate} (hp : p.keyable = true) :
    (p == r) = true ↔ p.property = r.property ∧ p.test.operator = r.test.operator
      ∧ p.test.value.identity = r.test.value.identity := by
  show Predicate.same p r = true ↔ _
  rw [same, Bool.and_eq_true, Bool.and_eq_true, beq_iff_eq, beq_iff_eq, Value.beq_iff hp, and_assoc]

/-- Values are told apart exactly if a set can hold each of them. -/
theorem Value.distinct_eq_ok {values kept : List Value} :
    distinct values = .ok kept ↔ values.all keyable = true ∧ kept = values.eraseDups :=
  ite_eq_ok

/-- Tests are told apart exactly if a set can hold each of them. -/
theorem Predicate.distinct_eq_ok {ps kept : List Predicate} :
    distinct ps = .ok kept ↔ ps.all keyable = true ∧ kept = ps.eraseDups :=
  ite_eq_ok

end EntityQuery
