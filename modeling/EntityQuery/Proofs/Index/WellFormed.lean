import EntityQuery.Proofs.Index.Shape

/-!
# Well-formedness — what holds of every normal form

Tests and sorts pass through several stages, each with guards of its own: sorts are dropped and cut
off after the key, the key is stripped, and a sort is put there for an inequality. What each stage
leaves is described by itself, and from that follows what holds whichever guards were met: the key
is sorted by last, if at all, and in ascending order only beside a presence test; inequalities are
on one property, the first that is sorted by; no property is listed twice in the prefix or in the
postfix.

Nothing that an index has to cover is lost on the way. A test on another property than the key stays
in one of the three places that an index looks at, and so does a group, unless a value fixes it.

* **`NormalForm.WellFormed`**, **`NormalForm.Keeps`** — the conditions.
* **`NormalForm.wellFormed_and_keeps`** — they hold of every normal form.
-/

namespace EntityQuery

/-- Whether a test fixes its property to one value. -/
def Predicate.fixes (p : Predicate) : Bool :=
  match p.test with
  | .relation .equal _ => true
  | .oneOf values => values.eraseDups.length == 1
  | _ => false

namespace NormalForm

variable {q : Query} {n : NormalForm} {keyProperty name : String} {p p' : Predicate}
  {ps simplified : List Predicate} {sorts : List SortOrder}

/-- A normal form in which everything has its place. No name stands twice in the prefix or in the
    postfix. No sort comes after one on the key, and unless there is a presence test the last one is
    not an ascending one on it. All inequalities are on the property that is sorted by first. -/
structure WellFormed (keyProperty : String) (n : NormalForm) : Prop where
  prefixes  : n.equalities.Nodup
  postfixes : n.postfixProperties.Nodup
  keyLast   : n.sorts.Pairwise fun earlier _ => earlier.property ≠ keyProperty
  keyFalls  : (∀ p ∈ n.filters, p.isPresence = false) →
    n.sorts.getLast? ≠ some ⟨keyProperty, .ascending⟩
  first     : ∀ p ∈ n.filters, p.isInequality = true →
    n.sorts.head?.map SortOrder.property = some p.property

/-- What a query asks for has a place in a normal form: the properties of its tests, the key apart,
    and the properties it groups by, unless they are fixed. -/
structure Keeps (q : Query) (keyProperty : String) (n : NormalForm) : Prop where
  tests  : ∀ p ∈ q.allPredicates, p.property ≠ keyProperty →
    p.property ∈ n.equalities ∨ p.property ∈ n.postfixProperties ∨ p.property ∈ n.regions
  groups : ∀ name ∈ q.groupBy,
    (∀ p ∈ q.allPredicates, p.property = name → p.fixes = false) → name ∈ n.postfixProperties

/-! ## Sorts that matter -/

/-- No sort that matters comes after one on the key. -/
theorem key_last_effectiveSorts {fixed : String → Bool} {seen : List String} :
    (effectiveSorts keyProperty fixed seen sorts).Pairwise
      fun earlier _ => earlier.property ≠ keyProperty := by
  induction sorts generalizing seen with
  | nil => exact List.Pairwise.nil
  | cons s rest ih =>
      rw [effectiveSorts]
      split
      · exact ih
      · split
        · exact List.pairwise_singleton _ _
        · rename_i hother
          exact List.pairwise_cons.mpr ⟨fun _ _ => hother, ih⟩

theorem key_last_simplifiedSorts : (simplifiedSorts keyProperty ps sorts).Pairwise
    fun earlier _ => earlier.property ≠ keyProperty := by
  unfold simplifiedSorts
  dsimp only
  split
  · exact List.Pairwise.nil
  · exact key_last_effectiveSorts

/-- An equality on the key leaves nothing to sort. -/
theorem simplifiedSorts_of_key (h : keyProperty ∈ propertiesWith Predicate.isEquality ps) :
    simplifiedSorts keyProperty ps sorts = [] := by
  unfold simplifiedSorts
  exact if_pos (List.contains_iff_mem.mpr h)

/-! ## Stripping the key -/

theorem stripKey_of_presence (h : ps.any Predicate.isPresence = true) :
    stripKey keyProperty ps sorts = (ps, sorts) :=
  if_pos h

/-- Without a presence test the sorts lose the key, and so do the tests if no order needs them. -/
theorem stripKey_of_no_presence (h : ps.any Predicate.isPresence = false) :
    stripKey keyProperty ps sorts
      = (if needsKeyFilters keyProperty ps (withoutKeySort keyProperty sorts) = true then ps
          else ps.filter (·.property != keyProperty), withoutKeySort keyProperty sorts) := by
  rw [stripKey, h, if_neg Bool.false_ne_true]
  dsimp only
  split <;> rfl

/-- Tests on other properties are not stripped. -/
theorem mem_stripKey (hp : p ∈ ps) (hother : p.property ≠ keyProperty) :
    p ∈ (stripKey keyProperty ps sorts).1 := by
  cases hpresence : ps.any Predicate.isPresence with
  | true =>
      rw [stripKey_of_presence hpresence]
      exact hp
  | false =>
      rw [stripKey_of_no_presence hpresence]
      dsimp only
      split
      · exact hp
      · exact List.mem_filter.mpr ⟨hp, bne_iff_ne.mpr hother⟩

/-- Of the properties of tests none but the key is lost. -/
theorem mem_propertiesWith_stripKey {test : Predicate → Bool}
    (hname : name ∈ propertiesWith test ps) (hother : name ≠ keyProperty) :
    name ∈ propertiesWith test (stripKey keyProperty ps sorts).1 := by
  obtain ⟨p, hp, htest, rfl⟩ := mem_propertiesWith.mp hname
  exact mem_propertiesWith.mpr ⟨p, mem_stripKey hp hother, htest, rfl⟩

/-- If no presence test is left, there was none. -/
theorem any_isPresence_of_stripKey
    (h : ∀ p ∈ (stripKey keyProperty ps sorts).1, p.isPresence = false) :
    ps.any Predicate.isPresence = false := by
  cases hpresence : ps.any Predicate.isPresence with
  | false => rfl
  | true =>
      rw [stripKey_of_presence hpresence] at h
      obtain ⟨p, hp, hpresent⟩ := List.any_eq_true.mp hpresence
      rw [h p hp] at hpresent
      cases hpresent

/-- Sorts with the key at most at the end do not end with an ascending one on it, once the key has
    been stripped. -/
theorem getLast?_stripKey
    (hpresence : ∀ p ∈ (stripKey keyProperty ps sorts).1, p.isPresence = false)
    (h : sorts.Pairwise fun earlier _ => earlier.property ≠ keyProperty) :
    (stripKey keyProperty ps sorts).2.getLast? ≠ some ⟨keyProperty, .ascending⟩ := by
  rw [stripKey_of_no_presence (any_isPresence_of_stripKey hpresence)]
  show (withoutKeySort keyProperty sorts).getLast? ≠ _
  unfold withoutKeySort
  split
  · rename_i hkey
    intro hlast
    rw [← List.dropLast_append_getLast? _ hkey, List.pairwise_append] at h
    exact h.2.2 _ (List.mem_of_getLast? hlast) _ List.mem_cons_self rfl
  · assumption

/-- Where the order does not end with a descending sort on the key, it is an inequality on another
    property that needs tests on the key. -/
theorem any_of_needsKeyFilters (h : needsKeyFilters keyProperty ps sorts = true)
    (hlast : sorts.getLast? ≠ some ⟨keyProperty, .descending⟩) :
    ps.any (fun p => p.isInequality && p.property != keyProperty) = true := by
  rcases Bool.or_eq_true_iff.mp h with hother | hfalls
  · exact hother
  · exact absurd (eq_of_beq hfalls) hlast

/-- A test on the key that is left is needed by the order that is left. -/
theorem needsKeyFilters_stripKey
    (hpresence : ∀ p ∈ (stripKey keyProperty ps sorts).1, p.isPresence = false)
    (hp : p ∈ (stripKey keyProperty ps sorts).1) (hkey : p.property = keyProperty) :
    needsKeyFilters keyProperty (stripKey keyProperty ps sorts).1
      (stripKey keyProperty ps sorts).2 = true := by
  rw [stripKey_of_no_presence (any_isPresence_of_stripKey hpresence)] at hp ⊢
  dsimp only at hp ⊢
  split at hp
  · rename_i hneeds
    rw [if_pos hneeds]
    exact hneeds
  · exact absurd hkey (bne_iff_ne.mp (List.mem_filter.mp hp).2)

/-! ## Normal forms -/

/-- The inequality properties of a normal form are one at most, which is sorted by first. -/
theorem first_of_ofQuery (h : ofQuery q keyProperty = .ok n) (hp : p ∈ n.filters)
    (hinequality : p.isInequality = true) :
    n.sorts.head?.map SortOrder.property = some p.property := by
  obtain ⟨simplified, stripped, sorts, -, -, -, hsorts, rfl⟩ := ofQuery_eq_ok.mp h
  have hname : p.property ∈ (propertiesWith Predicate.isInequality stripped.1).eraseDups :=
    List.mem_eraseDups.mpr (mem_propertiesWith.mpr ⟨p, hp, hinequality, rfl⟩)
  rcases anchorSorts_eq_ok_iff.mp hsorts with ⟨hnames, -⟩ | ⟨name, hnames, hsorted⟩
  · rw [hnames] at hname
    cases hname
  · rw [hnames, List.mem_singleton] at hname
    rw [hname]
    rcases hsorted with ⟨-, rfl⟩ | ⟨hfirst, rfl⟩
    · rfl
    · exact hfirst

/-- Tests on the key are left only beside a presence test or where the order needs them. -/
theorem needsKeyFilters_of_ofQuery (h : ofQuery q keyProperty = .ok n)
    (hpresence : ∀ p ∈ n.filters, p.isPresence = false) (hp : p ∈ n.filters)
    (hkey : p.property = keyProperty) : needsKeyFilters keyProperty n.filters n.sorts = true := by
  obtain ⟨simplified, stripped, sorts, -, rfl, -, hsorts, rfl⟩ := ofQuery_eq_ok.mp h
  have hneeds := needsKeyFilters_stripKey hpresence hp hkey
  rcases anchorSorts_eq_ok_iff.mp hsorts with ⟨-, rfl⟩ | ⟨name, -, ⟨hnil, rfl⟩ | ⟨-, rfl⟩⟩
  · exact hneeds
  · -- there was nothing to sort by, so an inequality needs them
    rw [hnil] at hneeds
    exact Bool.or_eq_true_iff.mpr (.inl (any_of_needsKeyFilters hneeds (by simp)))
  · exact hneeds

theorem key_last_of_ofQuery (h : ofQuery q keyProperty = .ok n) :
    n.sorts.Pairwise fun earlier _ => earlier.property ≠ keyProperty := by
  obtain ⟨simplified, stripped, sorts, -, rfl, -, hsorts, rfl⟩ := ofQuery_eq_ok.mp h
  rcases anchorSorts_eq_ok hsorts with rfl | ⟨name, -, rfl⟩
  · exact key_last_simplifiedSorts.sublist stripKey_isPrefix.sublist
  · exact List.pairwise_singleton _ _

/-- Without a presence test the last sort is not an ascending one on the key, for neither is the one
    that is put there: tests on the key alone would have been stripped. -/
theorem key_falls_of_ofQuery (h : ofQuery q keyProperty = .ok n)
    (hpresence : ∀ p ∈ n.filters, p.isPresence = false) :
    n.sorts.getLast? ≠ some ⟨keyProperty, .ascending⟩ := by
  have hfirst := fun p => first_of_ofQuery (p := p) h
  have hneeds := fun p => needsKeyFilters_of_ofQuery (p := p) h hpresence
  obtain ⟨simplified, stripped, sorts, -, rfl, -, hsorts, rfl⟩ := ofQuery_eq_ok.mp h
  rcases anchorSorts_eq_ok hsorts with rfl | ⟨name, hname, rfl⟩
  · exact getLast?_stripKey hpresence key_last_simplifiedSorts
  · intro hlast
    obtain rfl : name = keyProperty := congrArg SortOrder.property (Option.some.inj hlast)
    obtain ⟨p, hp, -, hkey⟩ := mem_propertiesWith.mp (List.mem_eraseDups.mp hname)
    have hother := any_of_needsKeyFilters (hneeds p hp hkey) (by rw [hlast]; simp)
    obtain ⟨r, hr, hboth⟩ := List.any_eq_true.mp hother
    rw [Bool.and_eq_true, bne_iff_ne] at hboth
    exact hboth.2 (Option.some.inj (hfirst r hr hboth.1)).symm

theorem wellFormed_of_ofQuery (h : ofQuery q keyProperty = .ok n) : n.WellFormed keyProperty where
  prefixes := (distinct_of_ofQuery h).equalities
  postfixes := nodup_postfix h
  keyLast := key_last_of_ofQuery h
  keyFalls := key_falls_of_ofQuery h
  first _ := first_of_ofQuery h

/-! ## Places of what is asked for -/

/-- A test is of a kind that normal forms have a place for, or it is an exclusion. -/
theorem kinds (p : Predicate) : isEquality p = true ∨ p.isInequality = true ∨ p.isPresence = true
    ∨ isRegion p = true ∨ p.isExclusion = true := by
  obtain ⟨property, test⟩ := p
  cases test with
  | relation r v => cases r <;> simp [isEquality, Predicate.isInequality, Relation.isInequality,
      Predicate.isExclusion]
  | _ => simp [isEquality, Predicate.isPresence, isRegion]

/-- A test fixes one value exactly if it is an equality once it is simplified. -/
theorem fixes_of_simplify (h : simplify p = .ok p') : p.fixes = p'.isEquality := by
  rcases simplify_eq_ok h with rfl | ⟨values, v, htest, hkept, rfl⟩
  · obtain ⟨property, test⟩ := p'
    cases test with
    | oneOf values => exact beq_eq_false_iff_ne.mpr (simplify_oneOf h rfl).2
    | relation r v => cases r <;> rfl
    | _ => rfl
  · obtain ⟨-, hkept⟩ := Value.distinct_eq_ok.mp hkept
    rw [Predicate.fixes, htest]
    show (values.eraseDups.length == 1) = true
    rw [← hkept]
    rfl

/-- Each test of a query is alike to a simplified one. -/
theorem exists_simplified (hps : q.predicates = .ok ps) (hsim : simplifiedFilters q = .ok simplified)
    (hp : p ∈ ps) : ∃ p' ∈ simplified, Alike p p' := by
  obtain ⟨mapped, hmapped, -, rfl⟩ := (simplifiedFilters_eq_ok hps).mp hsim
  obtain ⟨r, hr, hsimplify⟩ := ok_of_mapM_eq_ok hmapped hp
  have halike := simplify_alike hsimplify
  obtain ⟨p', hp', rfl | hsame⟩ := exists_mem_eraseDupsBy (r := fun a b : Predicate => a == b) hr
  · exact ⟨r, hp', halike⟩
  · exact ⟨p', hp', halike.trans (Alike.of_shape (shape_eq_of_beq hsame))⟩

/-- What presence tests and groups need is sorted by, or it is listed besides. -/
theorem mem_postfixProperties {groups : List String} {stripped : List Predicate × List SortOrder}
    (h : name ∈ propertiesWith Predicate.isPresence stripped.1 ++ groups) :
    name ∈ (assembled q keyProperty groups stripped sorts).postfixProperties := by
  rw [postfixProperties, List.mem_append]
  by_cases hsorted : sorts.any (·.property == name) = true
  · obtain ⟨s, hs, hname⟩ := List.any_eq_true.mp hsorted
    exact .inl (List.mem_map.mpr ⟨s, hs, eq_of_beq hname⟩)
  · refine .inr (List.mem_filter.mpr ⟨List.mem_eraseDups.mpr h, ?_⟩)
    rw [Bool.not_eq_true', ← Bool.not_eq_true]
    exact hsorted

/-- What a query asks for has a place in its normal form. -/
theorem keeps_of_ofQuery (h : ofQuery q keyProperty = .ok n) : n.Keeps q keyProperty := by
  have hfirst := fun p => first_of_ofQuery (p := p) h
  obtain ⟨simplified, stripped, sorts, hsim, rfl, hfind, -, rfl⟩ := ofQuery_eq_ok.mp h
  obtain ⟨ps, hps, -⟩ := bind_eq_ok.mp hsim
  have hall : q.allPredicates = ps := Query.allPredicates_of_predicates hps
  refine ⟨?_, ?_⟩
  · intro p hp hother
    rw [hall] at hp
    obtain ⟨p', hp', halike⟩ := exists_simplified hps hsim hp
    rw [← halike.property] at hother ⊢
    have hleft : p' ∈ (stripKey keyProperty simplified
        (simplifiedSorts keyProperty simplified q.sorts)).1 := mem_stripKey hp' hother
    rcases kinds p' with hkind | hkind | hkind | hkind | hkind
    · exact .inl (List.mem_eraseDups.mpr (mem_propertiesWith.mpr ⟨p', hleft, hkind, rfl⟩))
    · obtain ⟨s, hs, hproperty⟩ := Option.map_eq_some_iff.mp (hfirst p' hleft hkind)
      refine .inr (.inl (List.mem_append_left _ (List.mem_map.mpr ⟨s, ?_, hproperty⟩)))
      exact List.mem_of_head? hs
    · refine .inr (.inl (mem_postfixProperties (List.mem_append_left _ ?_)))
      exact mem_propertiesWith.mpr ⟨p', hleft, hkind, rfl⟩
    · refine .inr (.inr (List.mem_eraseDups.mpr ?_))
      exact mem_propertiesWith.mpr ⟨p', hleft, hkind, rfl⟩
    · exact absurd hkind (List.find?_eq_none.mp hfind p' hleft)
  · intro name hname hfree
    refine mem_postfixProperties (List.mem_append_right _ ?_)
    refine List.mem_filter.mpr ⟨List.mem_eraseDups.mpr hname, ?_⟩
    rw [Bool.not_eq_true', ← Bool.not_eq_true, List.contains_iff_mem]
    -- a simplified equality comes from a test that fixes its property
    intro hequal
    obtain ⟨p', hp', hequality, rfl⟩ := mem_propertiesWith.mp hequal
    obtain ⟨p, hp, hsimplify⟩ := exists_simplify hps hsim hp'
    have hfixes := hfree p (hall ▸ hp) (simplify_alike hsimplify).property.symm
    rw [fixes_of_simplify hsimplify, hequality] at hfixes
    cases hfixes

/-- **Well-formedness.** Every normal form is well-formed, and what its query asks for has a place
    in it. -/
theorem wellFormed_and_keeps (h : ofQuery q keyProperty = .ok n) :
    n.WellFormed keyProperty ∧ n.Keeps q keyProperty :=
  ⟨wellFormed_of_ofQuery h, keeps_of_ofQuery h⟩

end NormalForm

/-- One errand of a person who is named twice, if it is due late enough, the last ones first. -/
def Query.errand : Query where
  kind := some "Errand"
  filter := some (.node .all [.leaf (.equals "__key__" (.key (.root "" "Errand" (.number 5)))),
    .leaf ⟨"owner", .oneOf [.text "Ann", .text "Ann"]⟩, .leaf (.above "due" (.int 3))])
  sorts := [⟨"due", .descending⟩, ⟨"__key__", .ascending⟩]
  groupBy := ["place", "owner"]

/-- What an index must cover of the errand. -/
def NormalForm.errand : NormalForm where
  kind := some "Errand"
  hasAncestor := false
  filters := [.equals "__key__" (.key (.root "" "Errand" (.number 5))),
    .equals "owner" (.text "Ann"), .above "due" (.int 3)]
  sorts := [⟨"due", .ascending⟩]
  equalities := ["__key__", "owner"]
  unordered := ["place"]
  regions := []
  hasKeyProperty := true
  equalityCount := 2

/-- The key leaves nothing to sort, so a sort is put there for the inequality. -/
theorem NormalForm.wellFormed_and_keeps_errand :
    ofQuery .errand defaultKeyProperty = .ok .errand
      ∧ NormalForm.errand.WellFormed defaultKeyProperty
      ∧ NormalForm.errand.Keeps .errand defaultKeyProperty := by
  have hnormal : ofQuery .errand defaultKeyProperty = .ok .errand := by
    rfl
  exact ⟨hnormal, wellFormed_and_keeps hnormal⟩

end EntityQuery
