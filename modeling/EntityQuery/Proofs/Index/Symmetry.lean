import EntityQuery.Proofs.Index.WellFormed
import EntityQuery.Proofs.Value.Distinct

/-!
# Symmetry — only the set of tests counts

Tests are gone through in their order, the first of equal ones is kept, names are listed as they
come up, and faults are found on the way. None of this shows in the indexes that are asked for. Two
queries that ask the same apart from their tests, and whose tests are the same set however they are
nested, ordered and repeated, have normal forms that agree, or they are refused on the same grounds;
only which two inequality properties a report names may differ.

* **`NormalForm.SameNeeds`** — the same indexes are needed, or there is the same kind of fault.
* **`NormalForm.sameNeeds_of_sameSet`** — queries with the same set of tests are the same in this.
-/

namespace EntityQuery

/-- Faults on the same grounds: they are one fault, or both find two inequality properties. -/
inductive Fault.Kindred : Fault → Fault → Prop
  | refl (f : Fault) : Kindred f f
  | twoInequalities (a b a' b' : String) : Kindred (.twoInequalities a b) (.twoInequalities a' b')

namespace NormalForm

variable {c d : Query} {keyProperty : String} {p r : Predicate}
  {asked asked' ps rs : List Predicate}

/-- Two normal forms for which the same indexes are needed, whatever is declared, or two faults on
    the same grounds. -/
inductive SameNeeds : Except Fault NormalForm → Except Fault NormalForm → Prop
  | forms {m n : NormalForm} (needed : m.neededIndex = n.neededIndex)
      (minimal : ∀ weight declared, m.minimalIndex weight declared = n.minimalIndex weight declared) :
      SameNeeds (.ok m) (.ok n)
  | faults {f g : Fault} (kindred : f.Kindred g) : SameNeeds (.error f) (.error g)

/-! ## Tests that are one -/

/-- Of tests that are one a set can hold both or neither. -/
theorem keyable_eq_of_beq (h : (p == r) = true) : p.keyable = r.keyable := by
  have h : Predicate.same p r = true := h
  rw [Predicate.same, Bool.and_eq_true] at h
  exact Value.keyable_eq_of_same h.2

/-- Of tests that are one both fix one value or neither does. -/
theorem fixes_eq_of_beq (hkeyable : p.keyable = true) (h : (p == r) = true) :
    p.fixes = r.fixes := by
  have h : Predicate.same p r = true := h
  rw [Predicate.same, Bool.and_eq_true, Bool.and_eq_true, beq_iff_eq, beq_iff_eq] at h
  obtain ⟨⟨-, hoperator⟩, hvalue⟩ := h
  obtain ⟨property, t⟩ := p
  obtain ⟨property', t'⟩ := r
  cases t with
  | oneOf vs =>
      cases t' with
      | oneOf ws =>
          have hall : vs.all Value.keyable = true :=
            (Value.allKeyable_eq_all vs).symm.trans hkeyable
          have hsame : (vs == ws) = true := (Value.allSame_eq_beq vs ws).symm.trans hvalue
          show (vs.eraseDups.length == 1) = (ws.eraseDups.length == 1)
          rw [Value.length_eraseDups_of_beq hall hsame]
      | _ => cases hoperator
  | relation s v =>
      cases t' with
      | relation s' v' =>
          obtain rfl := Operator.relation.inj hoperator
          cases s <;> rfl
      | _ => cases hoperator
  | present v | inside v =>
      cases t' <;> first | rfl | cases hoperator

/-- Tests that are one have one shape once they are simplified. -/
theorem SimplifyAlike.of_beq (hkeyable : p.keyable = true) (h : (p == r) = true) :
    SimplifyAlike p r := by
  intro p' r' hp hr
  have hshape := shape_eq_of_beq h
  have hproperty : p.property = r.property := congrArg Prod.fst hshape
  have hequality : p'.isEquality = r'.isEquality := by
    rw [← fixes_of_simplify hp, fixes_eq_of_beq hkeyable h, fixes_of_simplify hr]
  have hmember : ∀ {t : Predicate} {vs}, t.test = .oneOf vs → t.isEquality = false := by
    intro t vs htest
    rw [Predicate.isEquality, htest]
  -- an equality that membership is simplified to is none of the tests that are left as they are
  rcases simplify_eq_ok hp with rfl | ⟨vs, v, hvs, -, rfl⟩
  · rcases simplify_eq_ok hr with rfl | ⟨ws, w, hws, -, rfl⟩
    · exact hshape
    · rw [sees_equality _ _ hshape, hmember hws] at hequality
      cases hequality
  · rcases simplify_eq_ok hr with rfl | ⟨ws, w, hws, -, rfl⟩
    · rw [← sees_equality _ _ hshape, hmember hvs] at hequality
      cases hequality
    · exact congrArg (·, Operator.relation .equal) hproperty

/-- Lists with the same tests have the same shapes, once the tests are simplified. -/
theorem sameShapes_of_sameSet (hc : c.predicates = .ok asked) (hd : d.predicates = .ok asked')
    (h : Clause.sameSet asked asked' = true) (hkeyable : ∀ p ∈ asked, p.keyable = true)
    (hkeyable' : ∀ r ∈ asked', r.keyable = true)
    (hps : simplifiedFilters c = .ok ps) (hrs : simplifiedFilters d = .ok rs) :
    SameShapes ps rs := by
  obtain ⟨hsub, hsub'⟩ := Clause.sameSet_eq_true_iff.mp h
  refine sameShapes_simplified hc hd (fun p hp => ?_) (fun r hr => ?_) hps hrs
  · obtain ⟨r, hr, hpr⟩ := hsub p hp
    exact ⟨r, hr, .of_beq (hkeyable p hp) hpr⟩
  · obtain ⟨p, hp, hrp⟩ := hsub' r hr
    exact ⟨p, hp, .of_beq (hkeyable' r hr) hrp⟩

/-! ## Queries with the same tests -/

theorem ofQuery_of_not_keyable (hc : c.predicates = .ok asked)
    (h : ¬ ∀ p ∈ asked, p.keyable = true) : ofQuery c keyProperty = .error .recordInSet := by
  have hends := simplifiedFilters_ends hc
  cases hsim : simplifiedFilters c with
  | ok ps => exact absurd ((exists_simplifiedFilters_iff hc).mp ⟨ps, hsim⟩) h
  | error f =>
      rw [hsim] at hends
      obtain rfl : f = .recordInSet := hends
      rw [ofQuery, hsim]
      rfl

theorem word_of_isExclusion (h : p.isExclusion = true) : p.test.operator.word = "!=" := by
  obtain ⟨property, t⟩ := p
  cases t with
  | relation s v => cases s <;> first | rfl | cases h
  | _ => cases h

/-- Tests of the same shapes hold an exclusion both or neither. -/
theorem SameShapes.find?_isExclusion (h : SameShapes ps rs) :
    (ps.find? Predicate.isExclusion = none ↔ rs.find? Predicate.isExclusion = none) := by
  have hany := h.any_eq sees_exclusion
  rw [Bool.eq_iff_iff, List.any_eq_true, List.any_eq_true] at hany
  rw [← Option.not_isSome_iff_eq_none, ← Option.not_isSome_iff_eq_none, List.find?_isSome,
    List.find?_isSome]
  exact not_congr hany

/-- Two queries that ask the same, with simplified tests of the same shapes, have the same needs. -/
theorem sameNeeds_of_sameShapes (hframe : c.SameFrame d) (hps : simplifiedFilters c = .ok ps)
    (hrs : simplifiedFilters d = .ok rs) (h : SameShapes ps rs) :
    SameNeeds (ofQuery c keyProperty) (ofQuery d keyProperty) := by
  have hforms : ∀ {m n}, ofQuery c keyProperty = .ok m → ofQuery d keyProperty = .ok n →
      SameNeeds (.ok m) (.ok n) := by
    intro m n hm hn
    have hagrees := agrees_of_sameShapes hframe hps hrs h hm hn
    exact .forms hagrees.neededIndex hagrees.minimalIndex
  obtain ⟨hleft, hfilters⟩ := h.stripKey keyProperty (simplifiedSorts keyProperty rs d.sorts)
  rw [ofQuery_of_simplified hps, ofQuery_of_simplified hrs, h.simplifiedSorts, hframe.sorts]
    at hforms ⊢
  generalize stripKey keyProperty ps (simplifiedSorts keyProperty rs d.sorts) = stripped
    at hforms hleft hfilters ⊢
  generalize stripKey keyProperty rs (simplifiedSorts keyProperty rs d.sorts) = stripped'
    at hforms hleft hfilters ⊢
  rw [concluded, concluded, hleft] at hforms ⊢
  cases hfind : stripped.1.find? Predicate.isExclusion with
  | some p =>
      cases hfind' : stripped'.1.find? Predicate.isExclusion with
      | some r =>
          dsimp only
          rw [word_of_isExclusion (List.find?_some hfind),
            word_of_isExclusion (List.find?_some hfind')]
          exact .faults (.refl _)
      | none =>
          rw [hfilters.find?_isExclusion.mpr hfind'] at hfind
          cases hfind
  | none =>
      rw [hfind, hfilters.find?_isExclusion.mp hfind] at hforms
      rw [hfilters.find?_isExclusion.mp hfind]
      dsimp only at hforms ⊢
      rcases SameShapes.eq_or_twoInequalities (hfilters.names_perm sees_inequality) with
        heq | ⟨a, b, a', b', hfault, hfault'⟩
      · rw [heq] at hforms ⊢
        cases hsorts : anchorSorts (propertiesWith Predicate.isInequality stripped'.1).eraseDups
            stripped'.2 with
        | error f => exact .faults (.refl f)
        | ok sorts =>
            rw [hsorts] at hforms
            exact hforms rfl rfl
      · rw [hfault, hfault']
        exact .faults (.twoInequalities a b a' b')

/-- **Symmetry.** Two queries that ask the same apart from their filters, and whose filters without
    OR hold the same predicates in whatever order and number, are refused on the same grounds, or
    they have normal forms for which the same indexes are needed. -/
theorem sameNeeds_of_sameSet (hframe : c.SameFrame d) (hc : c.predicates = .ok asked)
    (hd : d.predicates = .ok asked') (h : Clause.sameSet asked asked' = true) :
    SameNeeds (ofQuery c keyProperty) (ofQuery d keyProperty) := by
  obtain ⟨hsub, hsub'⟩ := Clause.sameSet_eq_true_iff.mp h
  have hsame : (∀ p ∈ asked, p.keyable = true) ↔ ∀ r ∈ asked', r.keyable = true := by
    constructor
    · intro hkeyable r hr
      obtain ⟨p, hp, hrp⟩ := hsub' r hr
      rw [keyable_eq_of_beq hrp, hkeyable p hp]
    · intro hkeyable p hp
      obtain ⟨r, hr, hpr⟩ := hsub p hp
      rw [keyable_eq_of_beq hpr, hkeyable r hr]
  by_cases hkeyable : ∀ p ∈ asked, p.keyable = true
  · obtain ⟨ps, hps⟩ := (exists_simplifiedFilters_iff hc).mpr hkeyable
    obtain ⟨rs, hrs⟩ := (exists_simplifiedFilters_iff hd).mpr (hsame.mp hkeyable)
    exact sameNeeds_of_sameShapes hframe hps hrs
      (sameShapes_of_sameSet hc hd h hkeyable (hsame.mp hkeyable) hps hrs)
  · rw [ofQuery_of_not_keyable hc hkeyable, ofQuery_of_not_keyable hd (mt hsame.mpr hkeyable)]
    exact .faults (.refl _)

end NormalForm

/-- Shirts of one colour and size that are not too cheap, the dearest ones first. -/
def Query.shirts : Query where
  kind := some "Shirt"
  filter := some (.node .all [.leaf (.above "price" (.int 5)), .leaf (.equals "colour" (.text "red")),
    .leaf (.equals "size" (.int 1))])
  sorts := [⟨"price", .descending⟩]

/-- The same shirts, with two tests as one part and one of these again. -/
def Query.shirtsAgain : Query where
  kind := some "Shirt"
  filter := some (.node .all [.node .all [.leaf (.equals "size" (.int 1)),
    .leaf (.equals "colour" (.text "red"))], .leaf (.above "price" (.int 5)),
    .leaf (.equals "size" (.int 1))])
  sorts := [⟨"price", .descending⟩]

/-- Their equalities are listed in other orders, and the same indexes are needed. -/
theorem NormalForm.sameNeeds_of_sameSet_shirts :
    ∃ m n, ofQuery .shirts defaultKeyProperty = .ok m
      ∧ ofQuery .shirtsAgain defaultKeyProperty = .ok n
      ∧ m.equalities = ["colour", "size"] ∧ n.equalities = ["size", "colour"]
      ∧ ∀ weight declared, m.minimalIndex weight declared = n.minimalIndex weight declared := by
  obtain ⟨m, hm, hequalities⟩ : ∃ m, ofQuery .shirts defaultKeyProperty = .ok m
      ∧ m.equalities = ["colour", "size"] := ⟨_, rfl, rfl⟩
  obtain ⟨n, hn, hequalities'⟩ : ∃ n, ofQuery .shirtsAgain defaultKeyProperty = .ok n
      ∧ n.equalities = ["size", "colour"] := ⟨_, rfl, rfl⟩
  have hneeds : SameNeeds (ofQuery .shirts defaultKeyProperty)
      (ofQuery .shirtsAgain defaultKeyProperty) :=
    sameNeeds_of_sameSet ⟨rfl, rfl, rfl, rfl⟩ rfl rfl (by decide)
  rw [hm, hn] at hneeds
  cases hneeds with
  | forms needed minimal => exact ⟨m, n, hm, hn, hequalities, hequalities', minimal⟩

end EntityQuery
