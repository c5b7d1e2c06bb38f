import EntityQuery.Proofs.Index.Agreement
import EntityQuery.Proofs.Index.Shortcut

/-!
# Shapes — what a normal form sees of tests

Bringing a query to its normal form looks at the property and the kind of each test. It does not
look at values, once membership tests are simplified, nor at which side a bound of a range is on,
nor at how often there is a test of one kind on a property. So two queries whose simplified tests
have the same *shapes* have normal forms that agree, if they ask the same apart from their tests.

* **`Predicate.shape`** — the property of a test, and its kind.
* **`NormalForm.agrees_of_sameShapes`** — tests of the same shapes give normal forms that agree.
-/

namespace EntityQuery

/-- The kind of a test. All bounds of ranges are of one kind. -/
def Operator.kind : Operator → Operator
  | .relation r => .relation (if r.isInequality then .less else r)
  | op => op

/-- The property of a test, and its kind. -/
def Predicate.shape (p : Predicate) : String × Operator := (p.property, p.test.operator.kind)

/-- Two queries that ask the same, as far as an index goes, apart from their tests. -/
structure Query.SameFrame (c d : Query) : Prop where
  kind     : c.kind = d.kind
  ancestor : c.ancestor = d.ancestor
  sorts    : c.sorts = d.sorts
  groupBy  : c.groupBy = d.groupBy

namespace NormalForm

variable {p r : Predicate} {ps rs : List Predicate} {test test' : Predicate → Bool}

/-! ## What shapes tell -/

/-- A question about tests that tests of one shape answer alike. -/
def Sees (test : Predicate → Bool) : Prop := ∀ p r : Predicate, p.shape = r.shape → test p = test r

theorem sees_of_shape (answer : String × Operator → Bool) (h : ∀ p, test p = answer p.shape) :
    Sees test := by
  intro p r hshape
  rw [h, h, hshape]

theorem sees_property (name : String) : Sees (·.property == name) :=
  sees_of_shape (·.1 == name) fun _ => rfl

theorem sees_equality : Sees Predicate.isEquality := by
  refine sees_of_shape (·.2 == .relation .equal) fun ⟨property, t⟩ => ?_
  cases t with
  | relation r v => cases r <;> rfl
  | _ => rfl

theorem sees_inequality : Sees Predicate.isInequality := by
  refine sees_of_shape (·.2 == .relation .less) fun ⟨property, t⟩ => ?_
  cases t with
  | relation r v => cases r <;> rfl
  | _ => rfl

theorem sees_exclusion : Sees Predicate.isExclusion := by
  refine sees_of_shape (·.2 == .relation .notEqual) fun ⟨property, t⟩ => ?_
  cases t with
  | relation r v => cases r <;> rfl
  | _ => rfl

theorem sees_presence : Sees Predicate.isPresence := by
  refine sees_of_shape (·.2 == .present) fun ⟨property, t⟩ => ?_
  cases t <;> rfl

theorem sees_region : Sees isRegion := by
  refine sees_of_shape (·.2 == .inside) fun ⟨property, t⟩ => ?_
  cases t <;> rfl

/-- Membership counts as an equality here, whatever is left of its values. -/
theorem sees_isEquality : Sees isEquality := by
  refine sees_of_shape (fun s => s.2 == .relation .equal || s.2 == .oneOf) fun ⟨property, t⟩ => ?_
  cases t with
  | relation r v => cases r <;> rfl
  | _ => rfl

theorem Sees.not (h : Sees test) : Sees (fun p => !test p) :=
  fun p r hshape => congrArg _ (h p r hshape)

theorem Sees.and (h : Sees test) (h' : Sees test') : Sees (fun p => test p && test' p) :=
  fun p r hshape => congrArg₂ _ (h p r hshape) (h' p r hshape)

/-- Tests of one shape are alike. -/
theorem Alike.of_shape (h : p.shape = r.shape) : Alike p r where
  property := congrArg Prod.fst h.symm
  equality := sees_isEquality r p h.symm
  inequality := sees_inequality r p h.symm
  exclusion := sees_exclusion r p h.symm
  presence := sees_presence r p h.symm
  region := sees_region r p h.symm

/-- Tests that are one have one shape, for equal values do not show in it. -/
theorem shape_eq_of_beq (h : (p == r) = true) : p.shape = r.shape := by
  have h : Predicate.same p r = true := h
  rw [Predicate.same, Bool.and_eq_true, Bool.and_eq_true, beq_iff_eq, beq_iff_eq] at h
  rw [Predicate.shape, Predicate.shape, h.1.1, h.1.2]

/-! ## Tests of the same shapes -/

/-- The tests of two lists have the same shapes, each of them once or more. -/
def SameShapes (ps rs : List Predicate) : Prop :=
  ∀ s, s ∈ ps.map Predicate.shape ↔ s ∈ rs.map Predicate.shape

namespace SameShapes

theorem symm (h : SameShapes ps rs) : SameShapes rs ps := fun s => (h s).symm

theorem trans {ts : List Predicate} (h : SameShapes ps rs) (h' : SameShapes rs ts) :
    SameShapes ps ts := fun s => (h s).trans (h' s)

theorem exists_mem (h : SameShapes ps rs) (hp : p ∈ ps) : ∃ r ∈ rs, r.shape = p.shape :=
  List.mem_map.mp ((h p.shape).mp (List.mem_map_of_mem hp))

theorem of_exists (h : ∀ p ∈ ps, ∃ r ∈ rs, r.shape = p.shape)
    (h' : ∀ r ∈ rs, ∃ p ∈ ps, p.shape = r.shape) : SameShapes ps rs := by
  intro s
  simp only [List.mem_map]
  constructor
  · rintro ⟨p, hp, rfl⟩
    exact h p hp
  · rintro ⟨r, hr, rfl⟩
    exact h' r hr

/-- To leave out repetitions leaves no shape out. -/
theorem eraseDups (ps : List Predicate) : SameShapes ps ps.eraseDups := by
  refine of_exists (fun p hp => ?_) fun r hr => ⟨r, mem_of_mem_eraseDupsBy hr, rfl⟩
  obtain ⟨r, hr, rfl | hpr⟩ := exists_mem_eraseDupsBy (r := fun a b : Predicate => a == b) hp
  · exact ⟨p, hr, rfl⟩
  · exact ⟨r, hr, (shape_eq_of_beq hpr).symm⟩

theorem filter (h : SameShapes ps rs) (hsees : Sees test) :
    SameShapes (ps.filter test) (rs.filter test) := by
  have hhalf : ∀ {ps rs : List Predicate}, SameShapes ps rs →
      ∀ p ∈ ps.filter test, ∃ r ∈ rs.filter test, r.shape = p.shape := by
    intro ps rs h p hp
    obtain ⟨hp, htest⟩ := List.mem_filter.mp hp
    obtain ⟨r, hr, hshape⟩ := h.exists_mem hp
    exact ⟨r, List.mem_filter.mpr ⟨hr, by rw [hsees r p hshape, htest]⟩, hshape⟩
  exact of_exists (hhalf h) (hhalf h.symm)

theorem any_eq (h : SameShapes ps rs) (hsees : Sees test) : ps.any test = rs.any test := by
  have hhalf : ∀ {ps rs : List Predicate}, SameShapes ps rs → ps.any test = true →
      rs.any test = true := by
    intro ps rs h hany
    obtain ⟨p, hp, htest⟩ := List.any_eq_true.mp hany
    obtain ⟨r, hr, hshape⟩ := h.exists_mem hp
    exact List.any_eq_true.mpr ⟨r, hr, by rw [hsees r p hshape, htest]⟩
  exact Bool.eq_iff_iff.mpr ⟨hhalf h, hhalf h.symm⟩

theorem all_iff (h : SameShapes ps rs) (hsees : Sees test) :
    (∀ p ∈ ps, test p = true) ↔ ∀ r ∈ rs, test r = true := by
  have hhalf : ∀ {ps rs : List Predicate}, SameShapes ps rs → (∀ p ∈ ps, test p = true) →
      ∀ r ∈ rs, test r = true := by
    intro ps rs h hall r hr
    obtain ⟨p, hp, hshape⟩ := h.symm.exists_mem hr
    rw [← hsees p r hshape, hall p hp]
  exact ⟨hhalf h, hhalf h.symm⟩

theorem isEmpty_eq (h : SameShapes ps rs) : ps.isEmpty = rs.isEmpty := by
  have hall := h.any_eq (sees_of_shape (fun _ => true) fun _ => rfl)
  cases ps <;> cases rs <;> simp_all

theorem mem_names_iff (h : SameShapes ps rs) (hsees : Sees test) {name : String} :
    name ∈ propertiesWith test ps ↔ name ∈ propertiesWith test rs := by
  have hany := h.any_eq (hsees.and (sees_property name))
  rw [Bool.eq_iff_iff, List.any_eq_true, List.any_eq_true] at hany
  simpa only [mem_propertiesWith, Bool.and_eq_true, beq_iff_eq] using hany

theorem contains_names (h : SameShapes ps rs) (hsees : Sees test) (name : String) :
    (propertiesWith test ps).contains name = (propertiesWith test rs).contains name := by
  rw [Bool.eq_iff_iff, List.contains_iff_mem, List.contains_iff_mem, h.mem_names_iff hsees]

theorem names_perm (h : SameShapes ps rs) (hsees : Sees test) :
    (propertiesWith test ps).eraseDups.Perm (propertiesWith test rs).eraseDups := by
  rw [List.perm_ext_iff_of_nodup (nodup_eraseDups _) (nodup_eraseDups _)]
  intro name
  rw [List.mem_eraseDups, List.mem_eraseDups, h.mem_names_iff hsees]

/-! ## The steps to a normal form -/

variable {c d : Query} {m n : NormalForm} {keyProperty : String} {sorts : List SortOrder}

theorem simplifiedSorts (h : SameShapes ps rs) :
    NormalForm.simplifiedSorts keyProperty ps sorts
      = NormalForm.simplifiedSorts keyProperty rs sorts := by
  simp only [NormalForm.simplifiedSorts, h.contains_names sees_equality,
    h.contains_names sees_inequality]

theorem simplifiedGroups (h : SameShapes ps rs) (groupBy : List String) :
    NormalForm.simplifiedGroups ps groupBy = NormalForm.simplifiedGroups rs groupBy := by
  simp only [NormalForm.simplifiedGroups, h.contains_names sees_equality]

/-- Stripping the key leaves the same sorts, and tests of the same shapes. -/
theorem stripKey (h : SameShapes ps rs) (keyProperty : String) (sorts : List SortOrder) :
    (NormalForm.stripKey keyProperty ps sorts).2 = (NormalForm.stripKey keyProperty rs sorts).2
      ∧ SameShapes (NormalForm.stripKey keyProperty ps sorts).1
        (NormalForm.stripKey keyProperty rs sorts).1 := by
  have hother : Sees (·.property != keyProperty) := (sees_property keyProperty).not
  have hneeds : ∀ left, needsKeyFilters keyProperty ps left = needsKeyFilters keyProperty rs left :=
    fun left => by rw [needsKeyFilters, needsKeyFilters, h.any_eq (sees_inequality.and hother)]
  simp only [NormalForm.stripKey, h.any_eq sees_presence, hneeds]
  split
  · exact ⟨rfl, h⟩
  · split
    · exact ⟨rfl, h⟩
    · exact ⟨rfl, h.filter hother⟩

/-- The same inequality properties are one list, or there are two of them at least. -/
theorem eq_or_twoInequalities {names others : List String} (h : names.Perm others) :
    names = others ∨ ∃ a b a' b', NormalForm.anchorSorts names sorts = .error (.twoInequalities a b)
      ∧ NormalForm.anchorSorts others sorts = .error (.twoInequalities a' b') := by
  rcases names with _ | ⟨name, _ | ⟨second, rest⟩⟩
  · exact .inl (List.nil_perm.mp h).symm
  · exact .inl (List.singleton_perm.mp h)
  · right
    rcases others with _ | ⟨name', _ | ⟨second', rest'⟩⟩
    · cases h.length_eq
    · cases h.length_eq
    · exact ⟨name, second, name', second', rfl, rfl⟩

/-- There is one inequality property at most, so it is the same one. -/
theorem anchorSorts {names others : List String} {anchored anchored' : List SortOrder}
    (h : names.Perm others) (hnames : NormalForm.anchorSorts names sorts = .ok anchored)
    (hothers : NormalForm.anchorSorts others sorts = .ok anchored') : anchored = anchored' := by
  rcases eq_or_twoInequalities h with rfl | ⟨a, b, _, _, hfault, -⟩
  · exact Except.ok.inj (hnames.symm.trans hothers)
  · cases hnames.symm.trans hfault

end SameShapes

/-- Two tests that are of one shape once they are simplified. -/
def SimplifyAlike (p r : Predicate) : Prop :=
  ∀ p' r', simplify p = .ok p' → simplify r = .ok r' → p'.shape = r'.shape

theorem SimplifyAlike.refl (p : Predicate) : SimplifyAlike p p := by
  intro p' r' hp hr
  rw [Except.ok.inj (hp.symm.trans hr)]

theorem SimplifyAlike.symm (h : SimplifyAlike p r) : SimplifyAlike r p :=
  fun r' p' hr hp => (h p' r' hp hr).symm

/-- Comparisons are left as they are. -/
theorem SimplifyAlike.of_relations {relation relation' : Relation} {v w : Value} {name : String}
    (h : Operator.kind (.relation relation) = Operator.kind (.relation relation')) :
    SimplifyAlike ⟨name, .relation relation v⟩ ⟨name, .relation relation' w⟩ := by
  intro p' r' hp hr
  obtain rfl := Except.ok.inj hp
  obtain rfl := Except.ok.inj hr
  exact congrArg (Prod.mk name) h

/-- Tests that have partners have the same shapes as these, once all are simplified. -/
theorem sameShapes_simplified {c d : Query} {asked asked' : List Predicate}
    (hc : c.predicates = .ok asked) (hd : d.predicates = .ok asked')
    (h : ∀ p ∈ asked, ∃ r ∈ asked', SimplifyAlike p r)
    (h' : ∀ r ∈ asked', ∃ p ∈ asked, SimplifyAlike r p)
    (hps : simplifiedFilters c = .ok ps) (hrs : simplifiedFilters d = .ok rs) :
    SameShapes ps rs := by
  obtain ⟨mapped, hmapped, -, rfl⟩ := (simplifiedFilters_eq_ok hc).mp hps
  obtain ⟨mapped', hmapped', -, rfl⟩ := (simplifiedFilters_eq_ok hd).mp hrs
  have hsame : SameShapes mapped mapped' := by
    refine SameShapes.of_exists (fun p' hp' => ?_) fun r' hr' => ?_
    · obtain ⟨p, hp, hsimp⟩ := (mem_of_mapM_eq_ok hmapped).mp hp'
      obtain ⟨r, hr, halike⟩ := h p hp
      obtain ⟨r', hr', hsimp'⟩ := ok_of_mapM_eq_ok hmapped' hr
      exact ⟨r', hr', (halike p' r' hsimp hsimp').symm⟩
    · obtain ⟨r, hr, hsimp'⟩ := (mem_of_mapM_eq_ok hmapped').mp hr'
      obtain ⟨p, hp, halike⟩ := h' r hr
      obtain ⟨p', hp', hsimp⟩ := ok_of_mapM_eq_ok hmapped hp
      exact ⟨p', hp', halike.symm p' r' hsimp hsimp'⟩
  exact ((SameShapes.eraseDups mapped).symm.trans hsame).trans (SameShapes.eraseDups mapped')

/-- **Shapes.** Two queries that ask the same, with simplified tests of the same shapes, have normal
    forms that agree, if they have normal forms. -/
theorem agrees_of_sameShapes {c d : Query} {m n : NormalForm} {keyProperty : String}
    (hframe : c.SameFrame d) (hps : simplifiedFilters c = .ok ps)
    (hrs : simplifiedFilters d = .ok rs) (h : SameShapes ps rs)
    (hm : ofQuery c keyProperty = .ok m) (hn : ofQuery d keyProperty = .ok n) : m.Agrees n := by
  have hjoin := isJoin_eq_true_iff hm
  have hjoin' := isJoin_eq_true_iff hn
  obtain ⟨ps', stripped, sorts, hps', hstripped, -, hsorts, rfl⟩ := ofQuery_eq_ok.mp hm
  obtain ⟨rs', stripped', sorts', hrs', hstripped', -, hsorts', rfl⟩ := ofQuery_eq_ok.mp hn
  obtain rfl := Except.ok.inj (hps.symm.trans hps')
  obtain rfl := Except.ok.inj (hrs.symm.trans hrs')
  rw [h.simplifiedSorts, hframe.sorts] at hstripped
  obtain ⟨hleft, hfilters⟩ := h.stripKey keyProperty
    (simplifiedSorts keyProperty rs d.sorts)
  rw [← hstripped, ← hstripped'] at hleft hfilters
  rw [hleft] at hsorts
  obtain rfl := SameShapes.anchorSorts (hfilters.names_perm sees_inequality) hsorts hsorts'
  have hothers : (propertiesWith Predicate.isPresence stripped.1
        ++ simplifiedGroups ps c.groupBy).eraseDups.Perm
      (propertiesWith Predicate.isPresence stripped'.1
        ++ simplifiedGroups rs d.groupBy).eraseDups := by
    rw [List.perm_ext_iff_of_nodup (nodup_eraseDups _) (nodup_eraseDups _),
      h.simplifiedGroups, hframe.groupBy]
    intro name
    simp only [List.mem_eraseDups, List.mem_append, hfilters.mem_names_iff sees_presence]
  have hkey : (stripped.1.any (·.property == keyProperty)
        || stripped.2.any (·.property == keyProperty))
      = (stripped'.1.any (·.property == keyProperty)
        || stripped'.2.any (·.property == keyProperty)) := by
    rw [hfilters.any_eq (sees_property keyProperty), hleft]
  have hempty := hfilters.isEmpty_eq
  refine ⟨hframe.kind, congrArg Option.isSome hframe.ancestor, rfl,
    hfilters.names_perm sees_isEquality, hothers.filter _, hfilters.names_perm sees_region,
    hkey, hempty, ?_⟩
  rw [Bool.eq_iff_iff, hjoin, hjoin']
  have hkind : (assembled c keyProperty (simplifiedGroups ps c.groupBy) stripped sorts).hasKind
      = (assembled d keyProperty (simplifiedGroups rs d.groupBy) stripped' sorts).hasKind :=
    congrArg Option.isSome hframe.kind
  have hnil : stripped.1 = [] ↔ stripped'.1 = [] := by
    rw [← List.isEmpty_iff, ← List.isEmpty_iff, hempty]
  rw [hkind]
  refine and_congr_right' (and_congr (not_congr hnil)
    (and_congr (hfilters.all_iff sees_isEquality) (and_congr ?_ Iff.rfl)))
  show (_ || _) = false ↔ (_ || _) = false
  rw [hkey]

end NormalForm

end EntityQuery
