import EntityQuery.Index.NormalForm
import EntityQuery.Proofs.Outcome
import EntityQuery.Proofs.Repetition
import EntityQuery.Proofs.Value.Identity

/-!
# Reduction — how a query comes to its normal form

`NormalForm.ofQuery` does several things in a row: it simplifies the tests, drops sorts that change
nothing, strips the key, refuses what the backend has no operator for, and puts the inequality
property in front. `ofQuery_eq_ok` says when all of that goes well and what the normal form then is,
so that nothing after it looks into the computation again.

* **`NormalForm.ofQuery_eq_ok`** — the normal form of a query, step by step.
* **`NormalForm.isGeospatial_eq_false`** — a query without regions has a normal form without them.
-/

namespace EntityQuery

namespace NormalForm

variable {q : Query} {n : NormalForm} {keyProperty : String} {names : List String}
  {sorts anchored : List SortOrder}

/-- The normal form with these tests and sorts, once the inequality property is in front. -/
def assembled (q : Query) (keyProperty : String) (groups : List String)
    (stripped : List Predicate × List SortOrder) (sorts : List SortOrder) : NormalForm where
  kind := q.kind
  hasAncestor := q.hasAncestor
  filters := stripped.1
  sorts := sorts
  equalities := (propertiesWith isEquality stripped.1).eraseDups
  unordered := (propertiesWith Predicate.isPresence stripped.1 ++ groups).eraseDups.filter
    fun name => !sorts.any (·.property == name)
  regions := (propertiesWith isRegion stripped.1).eraseDups
  hasKeyProperty := stripped.1.any (·.property == keyProperty)
    || stripped.2.any (·.property == keyProperty)
  equalityCount := (stripped.1.filter isEquality).length

/-- The normal form with these tests and sorts, or the fault that there is none. -/
def concluded (q : Query) (keyProperty : String) (groups : List String)
    (stripped : List Predicate × List SortOrder) : Except Fault NormalForm :=
  match stripped.1.find? Predicate.isExclusion with
  | some p => .error (.unclassified p.test.operator.word)
  | none => (anchorSorts (propertiesWith Predicate.isInequality stripped.1).eraseDups stripped.2).map
      (assembled q keyProperty groups stripped)

/-- What becomes of a query once its tests are simplified. -/
theorem ofQuery_of_simplified {simplified : List Predicate}
    (hsim : simplifiedFilters q = .ok simplified) :
    ofQuery q keyProperty = concluded q keyProperty (simplifiedGroups simplified q.groupBy)
      (stripKey keyProperty simplified (simplifiedSorts keyProperty simplified q.sorts)) := by
  rw [ofQuery, hsim]
  dsimp only [bind, Except.bind, concluded]
  generalize stripKey keyProperty simplified (simplifiedSorts keyProperty simplified q.sorts)
    = stripped
  obtain ⟨filters, sorts⟩ := stripped
  dsimp only
  cases filters.find? Predicate.isExclusion with
  | some p => rfl
  | none => cases anchorSorts (propertiesWith Predicate.isInequality filters).eraseDups sorts <;> rfl

/-- A query has a normal form exactly if its tests can be told apart, none of those that are left is
    an exclusion, and the inequality property agrees with the sorts. -/
theorem ofQuery_eq_ok :
    ofQuery q keyProperty = .ok n ↔ ∃ simplified stripped sorts,
      simplifiedFilters q = .ok simplified
        ∧ stripped
          = stripKey keyProperty simplified (simplifiedSorts keyProperty simplified q.sorts)
        ∧ stripped.1.find? Predicate.isExclusion = none
        ∧ anchorSorts (propertiesWith Predicate.isInequality stripped.1).eraseDups stripped.2
            = .ok sorts
        ∧ n = assembled q keyProperty (simplifiedGroups simplified q.groupBy) stripped sorts := by
  constructor
  · intro h
    obtain ⟨simplified, hsim, -⟩ := bind_eq_ok.mp h
    rw [ofQuery_of_simplified hsim, concluded] at h
    split at h
    · cases h
    · rename_i hfind
      obtain ⟨sorts, hsorts, rfl⟩ := map_eq_ok.mp h
      exact ⟨simplified, _, sorts, hsim, rfl, hfind, hsorts, rfl⟩
  · rintro ⟨simplified, stripped, sorts, hsim, rfl, hfind, hsorts, rfl⟩
    rw [ofQuery_of_simplified hsim, concluded, hfind]
    exact map_eq_ok.mpr ⟨sorts, hsorts, rfl⟩

/-- Sorts are left as they are if there is no inequality property or they begin with the only one;
    if there is nothing to sort by, it is put there. -/
theorem anchorSorts_eq_ok_iff : anchorSorts names sorts = .ok anchored ↔
    names = [] ∧ anchored = sorts ∨ ∃ name, names = [name]
      ∧ (sorts = [] ∧ anchored = [⟨name, .ascending⟩]
        ∨ sorts.head?.map SortOrder.property = some name ∧ anchored = sorts) := by
  rcases names with _ | ⟨name, _ | ⟨_, _⟩⟩
  · simp [anchorSorts, eq_comm]
  · cases sorts with
    | nil => simp [anchorSorts, eq_comm]
    | cons s rest =>
        rw [anchorSorts, ite_eq_ok]
        simp
  · simp [anchorSorts]

/-- Membership offers its values, each once. -/
theorem choices?_oneOf {p : Predicate} {values : List Value} (htest : p.test = .oneOf values)
    {choices : Option (List Value)} :
    p.choices? = .ok choices ↔ ∃ kept, Value.distinct values = .ok kept ∧ choices = some kept := by
  obtain ⟨property, test⟩ := p
  obtain rfl : test = .oneOf values := htest
  show some <$> Value.distinct values = .ok choices ↔ _
  cases Value.distinct values with
  | ok kept =>
      show Except.ok (some kept) = .ok choices ↔ _
      simp [eq_comm]
  | error f =>
      show Except.error f = .ok choices ↔ _
      simp

/-- Only membership offers choices, its values each once. -/
theorem choices?_eq_ok {p : Predicate} {kept : List Value} :
    p.choices? = .ok (some kept) ↔
      ∃ values, p.test = .oneOf values ∧ Value.distinct values = .ok kept := by
  constructor
  · intro h
    cases htest : p.test with
    | oneOf values =>
        obtain ⟨kept', hkept, hsome⟩ := (choices?_oneOf htest).mp h
        obtain rfl := Option.some.inj hsome
        exact ⟨values, rfl, hkept⟩
    | _ =>
        rw [Predicate.choices?, htest] at h
        cases h
  · rintro ⟨values, htest, hkept⟩
    exact (choices?_oneOf htest).mpr ⟨kept, hkept, rfl⟩

/-- A test is left as it is, or it is membership in values of which there is one. -/
theorem simplify_eq_ok {p p' : Predicate} (h : simplify p = .ok p') :
    p' = p ∨ ∃ values v, p.test = .oneOf values ∧ Value.distinct values = .ok [v]
      ∧ p' = .equals p.property v := by
  obtain ⟨choices, hchoices, h⟩ := bind_eq_ok.mp h
  split at h
  · obtain ⟨values, htest, hkept⟩ := choices?_eq_ok.mp hchoices
    exact .inr ⟨values, _, htest, hkept, (Except.ok.inj h).symm⟩
  · exact .inl (Except.ok.inj h).symm

/-- Membership that is left as it is has no value or several. -/
theorem simplify_oneOf {p p' : Predicate} {values : List Value} (h : simplify p = .ok p')
    (htest : p'.test = .oneOf values) : p' = p ∧ values.eraseDups.length ≠ 1 := by
  obtain ⟨choices, hchoices, h⟩ := bind_eq_ok.mp h
  split at h
  · obtain rfl := Except.ok.inj h
    cases htest
  · rename_i hnone
    obtain rfl := Except.ok.inj h
    obtain ⟨kept, hkept, rfl⟩ := (choices?_oneOf htest).mp hchoices
    obtain ⟨-, rfl⟩ := Value.distinct_eq_ok.mp hkept
    refine ⟨rfl, fun hone => ?_⟩
    obtain ⟨v, hv⟩ := List.length_eq_one_iff.mp hone
    exact hnone v (congrArg some hv)

/-- Two tests of one property that are of one kind, as far as an index goes: membership is a kind of
    equality. -/
structure Alike (p p' : Predicate) : Prop where
  property   : p'.property = p.property
  equality   : isEquality p' = isEquality p
  inequality : p'.isInequality = p.isInequality
  exclusion  : p'.isExclusion = p.isExclusion
  presence   : p'.isPresence = p.isPresence
  region     : isRegion p' = isRegion p

theorem Alike.trans {p r t : Predicate} (h : Alike p r) (h' : Alike r t) : Alike p t where
  property := h'.property.trans h.property
  equality := h'.equality.trans h.equality
  inequality := h'.inequality.trans h.inequality
  exclusion := h'.exclusion.trans h.exclusion
  presence := h'.presence.trans h.presence
  region := h'.region.trans h.region

/-- Simplifying a test keeps its kind. -/
theorem simplify_alike {p p' : Predicate} (h : simplify p = .ok p') : Alike p p' := by
  rcases simplify_eq_ok h with rfl | ⟨values, v, htest, -, rfl⟩
  · exact ⟨rfl, rfl, rfl, rfl, rfl, rfl⟩
  · obtain ⟨property, test⟩ := p
    obtain rfl : test = .oneOf values := htest
    exact ⟨rfl, rfl, rfl, rfl, rfl, rfl⟩

/-- The simplified tests of a query are its tests, simplified one by one, each once. -/
theorem simplifiedFilters_eq_ok {ps simplified : List Predicate}
    (hps : q.predicates = .ok ps) :
    simplifiedFilters q = .ok simplified ↔ ∃ mapped, ps.mapM simplify = .ok mapped
      ∧ (∀ p ∈ mapped, p.keyable = true) ∧ simplified = mapped.eraseDups := by
  have hunfold : simplifiedFilters q = ps.mapM simplify >>= Predicate.distinct := by
    rw [simplifiedFilters, hps]
    rfl
  rw [hunfold, bind_eq_ok]
  simp only [Predicate.distinct_eq_ok, List.all_eq_true]

theorem stripKey_sublist {ps : List Predicate} :
    (stripKey keyProperty ps sorts).1.Sublist ps := by
  unfold stripKey
  split
  · exact List.Sublist.refl ps
  · dsimp only
    split
    · exact List.Sublist.refl ps
    · exact List.filter_sublist

/-- The tests that are left once the key is stripped were there before. -/
theorem mem_of_mem_stripKey {ps : List Predicate} {p : Predicate}
    (h : p ∈ (stripKey keyProperty ps sorts).1) : p ∈ ps :=
  stripKey_sublist.subset h

/-- Each simplified test comes from a test of the query. -/
theorem exists_simplify {ps simplified : List Predicate} {p' : Predicate}
    (hps : q.predicates = .ok ps) (hsim : simplifiedFilters q = .ok simplified)
    (hp' : p' ∈ simplified) : ∃ p ∈ ps, simplify p = .ok p' := by
  obtain ⟨mapped, hmapped, -, rfl⟩ := (simplifiedFilters_eq_ok hps).mp hsim
  exact (mem_of_mapM_eq_ok hmapped).mp (mem_of_mem_eraseDupsBy hp')

/-- Each test of a normal form comes from a test of the query that is of its kind. -/
theorem exists_alike {ps simplified : List Predicate} {sorts : List SortOrder} {p' : Predicate}
    (hps : q.predicates = .ok ps) (hsim : simplifiedFilters q = .ok simplified)
    (hp' : p' ∈ (stripKey keyProperty simplified sorts).1) : ∃ p ∈ ps, Alike p p' := by
  obtain ⟨p, hp, hsimp⟩ := exists_simplify hps hsim (mem_of_mem_stripKey hp')
  exact ⟨p, hp, simplify_alike hsimp⟩

/-- A query that asks for no region has a normal form without regions. -/
theorem isGeospatial_eq_false {ps : List Predicate} (h : ofQuery q keyProperty = .ok n)
    (hps : q.predicates = .ok ps) (hno : ∀ p ∈ ps, isRegion p = false) :
    n.isGeospatial = false := by
  obtain ⟨simplified, stripped, sorts, hsim, rfl, -, -, rfl⟩ := ofQuery_eq_ok.mp h
  show (!(propertiesWith isRegion _).eraseDups.isEmpty) = false
  have hnone : propertiesWith isRegion
      (stripKey keyProperty simplified (simplifiedSorts keyProperty simplified q.sorts)).1 = [] := by
    unfold propertiesWith
    rw [List.map_eq_nil_iff, List.filter_eq_nil_iff]
    intro p' hp'
    obtain ⟨p, hp, halike⟩ := exists_alike hps hsim hp'
    rw [halike.region, hno p hp]
    exact Bool.false_ne_true
  rw [hnone]
  rfl

end NormalForm

end EntityQuery
