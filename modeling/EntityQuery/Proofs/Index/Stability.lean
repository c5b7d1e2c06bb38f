import EntityQuery.Proofs.Fanout.Native
import EntityQuery.Proofs.Index.WellFormed

/-!
# Stability — a normal form is its own normal form

A query can be asked again with the tests and sorts of its normal form. Each stage then meets what it
has left itself, though the guards may answer otherwise: tests on the key may be gone, and where
nothing was to be sorted by a sort may stand now. What matters of tests and sorts for all stages to
leave them is that they are *settled*. Those of normal forms are, and a query whose tests and sorts
are settled has these in its normal form.

Groups are not among what a normal form keeps. One by the key would be another matter, for an
equality on the key, which makes the group needless, may be stripped.

* **`NormalForm.Settled`** — what every stage leaves alone.
* **`NormalForm.ofQuery_idempotent`** — to normalise twice is to normalise once.
-/

namespace EntityQuery

namespace NormalForm

variable {q : Query} {n : NormalForm} {keyProperty : String} {p p' : Predicate}
  {ps : List Predicate} {s : SortOrder} {sorts anchored : List SortOrder}

/-- A normal form with whose tests and sorts no stage has anything left to do. The tests are simple,
    each of them is there once, and none is an exclusion. No sort is on a property that is fixed,
    and under an equality on the key there is none but a sort that has been put there. Tests on the
    key are there only if they are needed. -/
structure Settled (keyProperty : String) (n : NormalForm) : Prop
    extends WellFormed keyProperty n where
  simple   : ∀ p ∈ n.filters, simplify p = .ok p ∧ p.keyable = true
  once     : n.filters.Pairwise fun p r => (r == p) = false
  compared : ∀ p ∈ n.filters, p.isExclusion = false
  free     : ∀ s ∈ n.sorts, s.property ∈ propertiesWith Predicate.isEquality n.filters →
    s.property ∈ propertiesWith Predicate.isInequality n.filters
  needed   : (∀ p ∈ n.filters, p.isPresence = false) → ∀ p ∈ n.filters, p.property = keyProperty →
    needsKeyFilters keyProperty n.filters n.sorts = true
  single   : keyProperty ∈ propertiesWith Predicate.isEquality n.filters → n.sorts = []
    ∨ ∃ name ∈ propertiesWith Predicate.isInequality n.filters, n.sorts = [⟨name, .ascending⟩]

/-! ## Stages that leave things alone -/

/-- A simplified test is simple. -/
theorem simplify_simplify (h : simplify p = .ok p') : simplify p' = .ok p' := by
  rcases simplify_eq_ok h with rfl | ⟨values, v, -, -, rfl⟩
  · exact h
  · rfl

theorem simplifiedFilters_eq_self (hps : q.predicates = .ok ps)
    (hsimple : ∀ p ∈ ps, simplify p = .ok p ∧ p.keyable = true)
    (honce : ps.Pairwise fun p r => (r == p) = false) : simplifiedFilters q = .ok ps := by
  have hmapped : ps.mapM simplify = .ok (ps.map id) := mapM_eq_ok_map fun p hp => (hsimple p hp).1
  rw [List.map_id] at hmapped
  refine (simplifiedFilters_eq_ok hps).mpr ⟨ps, hmapped, fun p hp => (hsimple p hp).2, ?_⟩
  exact (eraseDupsBy_eq_self honce).symm

/-- Sorts on different properties that are not fixed, with the key at most at the end, all matter. -/
theorem effectiveSorts_eq_self {fixed : String → Bool} {seen : List String}
    (hnodup : (sorts.map SortOrder.property).Nodup)
    (hkey : sorts.Pairwise fun earlier _ => earlier.property ≠ keyProperty)
    (hfree : ∀ s ∈ sorts, s.property ∉ seen ∧ fixed s.property = false) :
    effectiveSorts keyProperty fixed seen sorts = sorts := by
  induction sorts generalizing seen with
  | nil => rfl
  | cons s rest ih =>
      obtain ⟨hs, hrest⟩ := List.forall_mem_cons.mp hfree
      obtain ⟨hapart, hnodup⟩ := List.nodup_cons.mp hnodup
      obtain ⟨hlast, hkey⟩ := List.pairwise_cons.mp hkey
      have hkept : ¬ (seen.contains s.property || fixed s.property) = true := by
        rw [Bool.or_eq_true, List.contains_iff_mem, hs.2]
        exact fun h => h.elim hs.1 Bool.false_ne_true
      rw [effectiveSorts, if_neg hkept]
      split
      · rename_i hproperty
        cases rest with
        | nil => rfl
        | cons t ts => exact absurd hproperty (hlast t List.mem_cons_self)
      · refine congrArg (s :: ·) (ih hnodup hkey fun t ht => ⟨?_, (hrest t ht).2⟩)
        intro hseen
        rcases List.mem_cons.mp hseen with heq | hseen
        · exact hapart (heq ▸ List.mem_map_of_mem ht)
        · exact (hrest t ht).1 hseen

/-- The key is not stripped from sorts that do not end with it, in ascending order, if they need the
    tests on it. -/
theorem stripKey_eq_self
    (hlast : (∀ p ∈ ps, p.isPresence = false) → sorts.getLast? ≠ some ⟨keyProperty, .ascending⟩)
    (hneeded : (∀ p ∈ ps, p.isPresence = false) → ∀ p ∈ ps, p.property = keyProperty →
      needsKeyFilters keyProperty ps sorts = true) :
    stripKey keyProperty ps sorts = (ps, sorts) := by
  cases hpresence : ps.any Predicate.isPresence with
  | true => exact stripKey_of_presence hpresence
  | false =>
      have hnone : ∀ p ∈ ps, p.isPresence = false := by simpa using hpresence
      have hsorts : withoutKeySort keyProperty sorts = sorts := if_neg (hlast hnone)
      rw [stripKey_of_no_presence hpresence, hsorts]
      split
      · rfl
      · rename_i hneeds
        have hall : ps.filter (·.property != keyProperty) = ps :=
          List.filter_eq_self.mpr fun p hp =>
            bne_iff_ne.mpr fun hkey => hneeds (hneeded hnone p hp hkey)
        rw [hall]

/-- What is sorted by stays as it is, if it begins with the inequality property wherever there is
    one. -/
theorem anchorSorts_eq_self
    (hfirst : ∀ p ∈ ps, p.isInequality = true →
      sorts.head?.map SortOrder.property = some p.property) :
    anchorSorts (propertiesWith Predicate.isInequality ps).eraseDups sorts = .ok sorts := by
  have hnames : ∀ name ∈ (propertiesWith Predicate.isInequality ps).eraseDups,
      sorts.head?.map SortOrder.property = some name := by
    intro name hname
    obtain ⟨p, hp, hinequality, rfl⟩ := mem_propertiesWith.mp (List.mem_eraseDups.mp hname)
    exact hfirst p hp hinequality
  have hexists : ∃ anchored, anchorSorts (propertiesWith Predicate.isInequality ps).eraseDups sorts
      = .ok anchored := by
    refine exists_anchorSorts (nodup_eraseDups _) ?_ ?_
    · intro a ha b hb
      exact Option.some.inj ((hnames a ha).symm.trans (hnames b hb))
    · intro a ha s hs
      have hhead := hnames a ha
      rw [Option.mem_def.mp hs] at hhead
      exact Option.some.inj hhead
  obtain ⟨anchored, hanchored⟩ := hexists
  rcases anchorSorts_eq_ok_iff.mp hanchored with ⟨-, rfl⟩ | ⟨name, hname, ⟨rfl, -⟩ | ⟨-, rfl⟩⟩
  · exact hanchored
  · cases hnames name (hname ▸ List.mem_cons_self)
  · exact hanchored

/-! ## Settled normal forms -/

/-- Whether the key is tested or sorted by shows after an inequality property has been put in front
    as it did before. -/
theorem assembled_anchored {groups : List String} (h : anchorSorts
      (propertiesWith Predicate.isInequality ps).eraseDups sorts = .ok anchored) :
    assembled q keyProperty groups (ps, sorts) anchored
      = assembled q keyProperty groups (ps, anchored) anchored := by
  rcases anchorSorts_eq_ok_iff.mp h with ⟨-, rfl⟩ | ⟨name, hnames, ⟨rfl, rfl⟩ | ⟨-, rfl⟩⟩
  · rfl
  · -- a test bears the property that is put there
    have hname : name ∈ (propertiesWith Predicate.isInequality ps).eraseDups :=
      hnames ▸ List.mem_cons_self
    obtain ⟨p, hp, -, rfl⟩ := mem_propertiesWith.mp (List.mem_eraseDups.mp hname)
    have hkey : (ps.any (·.property == keyProperty) || false)
        = (ps.any (·.property == keyProperty) || (p.property == keyProperty || false)) := by
      rw [Bool.or_false, Bool.or_false]
      cases heq : p.property == keyProperty with
      | false => rw [Bool.or_false]
      | true => rw [List.any_eq_true.mpr ⟨p, hp, heq⟩, Bool.or_true]
    exact congrArg (fun key => { assembled q keyProperty groups (ps, []) [⟨p.property, .ascending⟩]
      with hasKeyProperty := key }) hkey
  · rfl

/-- Where an equality on the key leaves nothing to sort, a settled normal form has no sorts but one
    that is put there. -/
theorem Settled.anchorSorts_nil (hn : n.Settled keyProperty)
    (hkey : keyProperty ∈ propertiesWith Predicate.isEquality n.filters) :
    anchorSorts (propertiesWith Predicate.isInequality n.filters).eraseDups [] = .ok n.sorts := by
  have hself := anchorSorts_eq_self hn.first
  rcases hn.single hkey with hnil | ⟨name, hname, hsorts⟩
  · rwa [hnil] at hself ⊢
  · rw [hsorts] at hself ⊢
    rcases anchorSorts_eq_ok_iff.mp hself with ⟨hnone, -⟩ | ⟨other, hnames, ⟨hnil, -⟩ | ⟨hhead, -⟩⟩
    · rw [← List.mem_eraseDups, hnone] at hname
      cases hname
    · cases hnil
    · obtain rfl : name = other := Option.some.inj hhead
      rw [hnames]
      rfl

/-- The sorts that matter under the tests of a settled normal form, and what becomes of them. -/
theorem Settled.stages (hn : n.Settled keyProperty) :
    ∃ left, simplifiedSorts keyProperty n.filters n.sorts = left
      ∧ stripKey keyProperty n.filters left = (n.filters, left)
      ∧ anchorSorts (propertiesWith Predicate.isInequality n.filters).eraseDups left
        = .ok n.sorts := by
  by_cases hkey : keyProperty ∈ propertiesWith Predicate.isEquality n.filters
  · refine ⟨[], simplifiedSorts_of_key hkey, ?_, hn.anchorSorts_nil hkey⟩
    refine stripKey_eq_self (fun _ h => by cases h) fun hnone p hp hproperty => ?_
    have hlast : n.sorts.getLast? ≠ some ⟨keyProperty, .descending⟩ := by
      rcases hn.single hkey with hnil | ⟨name, -, hsorts⟩
      · simp [hnil]
      · simp [hsorts]
    have hother := any_of_needsKeyFilters (hn.needed hnone p hp hproperty) hlast
    exact Bool.or_eq_true_iff.mpr (.inl hother)
  · refine ⟨n.sorts, ?_, stripKey_eq_self hn.keyFalls hn.needed, anchorSorts_eq_self hn.first⟩
    unfold simplifiedSorts
    dsimp only
    rw [if_neg (mt List.contains_iff_mem.mp hkey)]
    refine effectiveSorts_eq_self (List.nodup_append.mp hn.postfixes).1 hn.keyLast fun s hs => ?_
    refine ⟨List.not_mem_nil, ?_⟩
    cases hequal : (propertiesWith Predicate.isEquality n.filters).contains s.property with
    | false => rfl
    | true => rw [List.contains_iff_mem.mpr (hn.free s hs (List.contains_iff_mem.mp hequal))]; rfl

/-- **Settled tests and sorts** stay, in the normal form of a query that has them. -/
theorem Settled.ofQuery_eq (hn : n.Settled keyProperty) (hps : q.predicates = .ok n.filters)
    (hsorts : q.sorts = n.sorts) :
    ofQuery q keyProperty = .ok (assembled q keyProperty (simplifiedGroups n.filters q.groupBy)
      (n.filters, n.sorts) n.sorts) := by
  obtain ⟨left, hleft, hstripped, hanchored⟩ := hn.stages
  have hnone : n.filters.find? Predicate.isExclusion = none := by
    rw [List.find?_eq_none]
    intro p hp
    rw [hn.compared p hp]
    exact Bool.false_ne_true
  rw [← assembled_anchored hanchored]
  refine ofQuery_eq_ok.mpr ⟨n.filters, (n.filters, left), n.sorts,
    simplifiedFilters_eq_self hps hn.simple hn.once, ?_, hnone, hanchored, rfl⟩
  rw [hsorts, hleft, hstripped]

/-! ## Normal forms are settled -/

/-- A sort of a normal form is on a property with an equality only if there is an inequality too. -/
theorem free_of_ofQuery (h : ofQuery q keyProperty = .ok n) (hs : s ∈ n.sorts)
    (hequal : s.property ∈ propertiesWith Predicate.isEquality n.filters) :
    s.property ∈ propertiesWith Predicate.isInequality n.filters := by
  obtain ⟨simplified, stripped, sorts, -, rfl, -, hsorts, rfl⟩ := ofQuery_eq_ok.mp h
  rcases anchorSorts_eq_ok hsorts with rfl | ⟨name, hname, rfl⟩
  · have hmatters := stripKey_isPrefix.subset hs
    have hasked := propertiesWith_stripKey_subset hequal
    refine mem_propertiesWith_stripKey (mem_simplifiedSorts hmatters hasked) fun hkey => ?_
    -- an equality on the key would have left nothing to sort
    rw [hkey] at hasked
    rw [simplifiedSorts_of_key hasked] at hmatters
    cases hmatters
  · obtain rfl := List.mem_singleton.mp hs
    exact List.mem_eraseDups.mp hname

/-- **Normal forms are settled.** -/
theorem settled_of_ofQuery (h : ofQuery q keyProperty = .ok n) : n.Settled keyProperty := by
  refine { wellFormed_of_ofQuery h with
    simple := ?_, once := ?_, compared := ?_, free := fun s => free_of_ofQuery h,
    needed := fun hnone p => needsKeyFilters_of_ofQuery h hnone, single := ?_ }
  all_goals
    obtain ⟨simplified, stripped, sorts, hsim, rfl, hfind, hsorts, rfl⟩ := ofQuery_eq_ok.mp h
    obtain ⟨ps, hps, -⟩ := bind_eq_ok.mp hsim
    obtain ⟨mapped, hmapped, hkeyable, rfl⟩ := (simplifiedFilters_eq_ok hps).mp hsim
  · intro p hp
    have hmem := mem_of_mem_eraseDupsBy (mem_of_mem_stripKey hp)
    obtain ⟨r, -, hsimplify⟩ := (mem_of_mapM_eq_ok hmapped).mp hmem
    exact ⟨simplify_simplify hsimplify, hkeyable p hmem⟩
  · exact (pairwise_eraseDupsBy mapped).sublist stripKey_sublist
  · intro p hp
    rw [← Bool.not_eq_true]
    exact List.find?_eq_none.mp hfind p hp
  · intro hkey
    rcases anchorSorts_eq_ok hsorts with rfl | ⟨name, hname, rfl⟩
    · refine .inl (List.prefix_nil.mp ?_)
      rw [← simplifiedSorts_of_key (propertiesWith_stripKey_subset hkey)]
      exact stripKey_isPrefix
    · exact .inr ⟨name, List.mem_eraseDups.mp hname, rfl⟩

/-- A normal form is made of its own tests and sorts, if there is no group by the key. -/
theorem eq_assembled (h : ofQuery q keyProperty = .ok n) (hgroups : keyProperty ∉ q.groupBy) :
    n = assembled q keyProperty (simplifiedGroups n.filters q.groupBy) (n.filters, n.sorts)
      n.sorts := by
  obtain ⟨simplified, stripped, sorts, -, rfl, -, hsorts, rfl⟩ := ofQuery_eq_ok.mp h
  have hsame : simplifiedGroups simplified q.groupBy = simplifiedGroups (stripKey keyProperty
      simplified (simplifiedSorts keyProperty simplified q.sorts)).1 q.groupBy := by
    refine List.filter_congr fun name hname => congrArg _ (Bool.eq_iff_iff.mpr ?_)
    have hother : name ≠ keyProperty := fun hkey => hgroups (hkey ▸ List.mem_eraseDups.mp hname)
    rw [List.contains_iff_mem, List.contains_iff_mem]
    exact ⟨fun h => mem_propertiesWith_stripKey h hother, fun h => propertiesWith_stripKey_subset h⟩
  rw [hsame]
  exact assembled_anchored hsorts

/-- **Idempotence.** A query that does not group by the key has the same normal form, if it has one,
    once its filter and its sorts are replaced by the tests and sorts of the normal form. -/
theorem ofQuery_idempotent (h : ofQuery q keyProperty = .ok n) (hgroups : keyProperty ∉ q.groupBy) :
    ofQuery ((q.withPredicates n.filters).withSorts n.sorts) keyProperty = .ok n := by
  have hpredicates : ((q.withPredicates n.filters).withSorts n.sorts).predicates = .ok n.filters :=
    Query.predicates_withPredicates q n.filters
  rw [(settled_of_ofQuery h).ofQuery_eq hpredicates rfl]
  exact congrArg Except.ok (eq_assembled h hgroups).symm

/-- The sort that was put there for the errand is dropped again, and put there again. -/
theorem ofQuery_idempotent_errand : ofQuery .errand defaultKeyProperty = .ok .errand
    ∧ defaultKeyProperty ∉ Query.errand.groupBy
    ∧ simplifiedSorts defaultKeyProperty errand.filters errand.sorts = []
    ∧ ofQuery ((Query.errand.withPredicates errand.filters).withSorts errand.sorts)
        defaultKeyProperty = .ok .errand := by
  have hnormal : ofQuery .errand defaultKeyProperty = .ok .errand := by
    rfl
  have hgroups : defaultKeyProperty ∉ Query.errand.groupBy := by
    decide
  exact ⟨hnormal, hgroups, rfl, ofQuery_idempotent hnormal hgroups⟩

end NormalForm

end EntityQuery
