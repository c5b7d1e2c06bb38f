import EntityQuery.Proofs.Fanout.Meaning
import EntityQuery.Proofs.Index.Simplification
import EntityQuery.Proofs.Query.Legality

/-!
# Existence — legal queries have normal forms

The rules look at the tests and sorts of a query as they stand, while the normal form refuses tests
and sorts after most of them have been rewritten or dropped. Nothing that is done to them can make
a legal query fail: tests keep their kind, so no exclusion comes up and the inequalities stay on
one property; and if inequalities are left at all, the first sort of the query is among what is
left, or nothing is.

* **`Filter.conjuncts_eq`** — the one thing that keeps a filter from being a conjunction.
* **`NormalForm.head?_stripped`** — what the query sorts by first stays first under an inequality.
* **`NormalForm.exists_ofQuery_iff`** — a legal query has a normal form exactly if sets can hold its
  tests.
-/

namespace EntityQuery

variable {q : Query} {keyProperty name : String} {ps : List Predicate} {sorts : List SortOrder}

namespace Filter

mutual

/-- Whether an OR stands anywhere in a filter. -/
def hasOr : Filter → Bool
  | .leaf _ => false
  | .node .all parts => anyHasOr parts
  | .node .any _ => true
termination_by structural f => f

def anyHasOr : List Filter → Bool
  | [] => false
  | f :: fs => hasOr f || anyHasOr fs
termination_by structural fs => fs

end

mutual

/-- A filter is the conjunction of all its predicates unless an OR stands in it. -/
theorem conjuncts_eq : ∀ f : Filter,
    f.conjuncts = if f.hasOr then .error .disjunction else .ok f.predicates
  | .leaf _ => rfl
  | .node .all parts => conjunctsAll_eq parts
  | .node .any _ => rfl

theorem conjunctsAll_eq : ∀ fs : List Filter,
    conjunctsAll fs = if anyHasOr fs then .error .disjunction else .ok (allPredicates fs)
  | [] => rfl
  | f :: fs => by
      rw [conjunctsAll, conjuncts_eq f, conjunctsAll_eq fs, anyHasOr, allPredicates]
      cases f.hasOr <;> cases anyHasOr fs <;> rfl

end

end Filter

namespace Query

/-- Whether an OR stands anywhere in a query's filter. -/
def hasOr (q : Query) : Bool := q.filter.elim false Filter.hasOr

theorem predicates_eq (q : Query) :
    q.predicates = if q.hasOr then .error .disjunction else .ok q.allPredicates := by
  rw [predicates, hasOr, allPredicates]
  cases q.filter with
  | none => rfl
  | some f => exact f.conjuncts_eq

theorem allPredicates_of_predicates (h : q.predicates = .ok ps) : q.allPredicates = ps := by
  rw [predicates_eq] at h
  split at h
  · cases h
  · exact Except.ok.inj h

end Query

namespace NormalForm

theorem mem_propertiesWith {test : Predicate → Bool} :
    name ∈ propertiesWith test ps ↔ ∃ p ∈ ps, test p = true ∧ p.property = name := by
  simp [propertiesWith, and_assoc]

/-- The properties of tests that are left are among those there were. -/
theorem propertiesWith_stripKey_subset {test : Predicate → Bool} :
    propertiesWith test (stripKey keyProperty ps sorts).1 ⊆ propertiesWith test ps := by
  intro name hname
  obtain ⟨p, hp, htest, hproperty⟩ := mem_propertiesWith.mp hname
  exact mem_propertiesWith.mpr ⟨p, mem_of_mem_stripKey hp, htest, hproperty⟩

/-! ## The first sort -/

/-- Sorts lose nothing at their head to the key. -/
theorem stripKey_isPrefix : (stripKey keyProperty ps sorts).2 <+: sorts := by
  have hkey : withoutKeySort keyProperty sorts <+: sorts := by
    unfold withoutKeySort
    split
    · exact List.dropLast_prefix sorts
    · exact List.prefix_refl sorts
  unfold stripKey
  split
  · exact List.prefix_refl sorts
  · dsimp only
    split
    · exact hkey
    · exact hkey

/-- A sort on the inequality property that comes first is not dropped, unless all sorts are. -/
theorem head?_simplifiedSorts (hname : name ∈ propertiesWith Predicate.isInequality ps)
    (hfirst : ∀ s ∈ sorts.head?, s.property = name) :
    ∀ s ∈ (simplifiedSorts keyProperty ps sorts).head?, s.property = name := by
  unfold simplifiedSorts
  dsimp only
  split
  · exact fun s hs => by cases hs
  · cases sorts with
    | nil => exact fun s hs => by cases hs
    | cons first rest =>
        have hproperty : first.property = name := hfirst first rfl
        have hkept : (([] : List String).contains first.property
            || ((propertiesWith Predicate.isEquality ps).contains first.property
              && !(propertiesWith Predicate.isInequality ps).contains first.property)) = false := by
          rw [hproperty, List.contains_iff_mem.mpr hname]
          simp
        rw [effectiveSorts, hkept, if_neg Bool.false_ne_true]
        intro s hs
        split at hs
        all_goals
          obtain rfl := Option.some.inj hs
          exact hproperty

/-- What is sorted by first, if anything, is the inequality property as it was before. -/
theorem head?_stripped {filters : List Predicate}
    (hname : name ∈ propertiesWith Predicate.isInequality ps)
    (hfirst : ∀ s ∈ sorts.head?, s.property = name) :
    ∀ s ∈ (stripKey keyProperty filters (simplifiedSorts keyProperty ps sorts)).2.head?,
      s.property = name := by
  intro s hs
  have hleading : (stripKey keyProperty filters (simplifiedSorts keyProperty ps sorts)).2
      <+: simplifiedSorts keyProperty ps sorts := stripKey_isPrefix
  obtain ⟨rest, hrest⟩ := List.head?_eq_some_iff.mp hs
  obtain ⟨dropped, hdropped⟩ := hleading
  have hfound : s ∈ (simplifiedSorts keyProperty ps sorts).head? := by
    rw [← hdropped, hrest]
    exact rfl
  exact head?_simplifiedSorts hname hfirst s hfound

/-! ## The normal form -/

/-- The inequality property can be put in front if it is one and is sorted by first, if anything
    is. -/
theorem exists_anchorSorts {names : List String} (hnodup : names.Nodup)
    (hone : ∀ a ∈ names, ∀ b ∈ names, a = b)
    (hfirst : ∀ a ∈ names, ∀ s ∈ sorts.head?, s.property = a) :
    ∃ anchored, anchorSorts names sorts = .ok anchored := by
  rcases names with _ | ⟨name, _ | ⟨second, names⟩⟩
  · exact ⟨sorts, rfl⟩
  · cases sorts with
    | nil => exact ⟨_, rfl⟩
    | cons s rest =>
        rw [anchorSorts, if_pos (hfirst name List.mem_cons_self s rfl)]
        exact ⟨_, rfl⟩
  · obtain rfl := hone name List.mem_cons_self second (List.mem_cons_of_mem _ List.mem_cons_self)
    exact absurd List.mem_cons_self (List.nodup_cons.mp hnodup).1

/-- Without exclusions none comes up. -/
theorem find?_isExclusion {simplified : List Predicate} (hps : q.predicates = .ok ps)
    (hno : ∀ p ∈ ps, p.isExclusion = false) (hsim : simplifiedFilters q = .ok simplified) :
    (stripKey keyProperty simplified sorts).1.find? Predicate.isExclusion = none := by
  rw [List.find?_eq_none]
  intro p' hp'
  obtain ⟨p, hp, halike⟩ := exists_alike hps hsim hp'
  rw [halike.exclusion, hno p hp]
  exact Bool.false_ne_true

/-- Tests are not simplified only because a set cannot hold one of them. -/
theorem simplifiedFilters_ends (hps : q.predicates = .ok ps) :
    Ends (· = Fault.recordInSet) (fun _ => True) (simplifiedFilters q) := by
  have hvalues : ∀ values, Ends (· = Fault.recordInSet) (fun _ => True)
      (Value.distinct values) := by
    intro values
    unfold Value.distinct
    split
    · exact Ends.ok trivial
    · exact rfl
  unfold simplifiedFilters
  rw [hps]
  show Ends _ _ (ps.mapM simplify >>= Predicate.distinct)
  refine Ends.bind (Ends.mapM fun p _ => ?_) fun mapped _ => ?_
  · unfold simplify
    refine Ends.bind (P := fun _ => True) ?_ fun choices _ => ?_
    · unfold Predicate.choices?
      split
      · exact Ends.bind (hvalues _) fun _ _ => Ends.ok trivial
      · exact Ends.ok trivial
    · split <;> exact Ends.ok trivial
  · unfold Predicate.distinct
    split
    · exact Ends.ok trivial
    · exact rfl

/-- A fault other than that an operator is not classified. -/
def Classified (f : Fault) : Prop := ∀ word, f ≠ .unclassified word

theorem anchorSorts_ends {names : List String} :
    Ends Classified (fun _ => True) (anchorSorts names sorts) := by
  unfold anchorSorts
  split
  · exact fun word h => by cases h
  · exact Ends.ok trivial
  · exact Ends.ok trivial
  · split
    · exact Ends.ok trivial
    · exact fun word h => by cases h

/-- A conjunction without exclusions holds no operator that is not classified. -/
theorem ofQuery_classified (hps : q.predicates = .ok ps)
    (hno : ∀ p ∈ ps, p.isExclusion = false) :
    Ends Classified (fun _ => True) (ofQuery q keyProperty) := by
  unfold ofQuery
  have hsimplified : Ends Classified (fun _ => True) (simplifiedFilters q) :=
    (simplifiedFilters_ends hps).weaken fun f hf word hword => by cases hf.symm.trans hword
  refine Ends.bind hsimplified.result fun simplified hsim => ?_
  dsimp only
  rw [find?_isExclusion hps hno hsim]
  dsimp only
  exact Ends.bind anchorSorts_ends fun _ _ => Ends.ok trivial

/-- **Existence.** A legal query has a normal form exactly if sets can hold its tests: neither an
    operator that is not classified, nor an inequality that does not agree with the sorts, nor an OR
    can come up. -/
theorem exists_ofQuery_iff (h : q.check keyProperty = .ok ()) :
    (∃ n, ofQuery q keyProperty = .ok n) ↔ ∀ p ∈ q.allPredicates, p.keyable = true := by
  obtain ⟨ps, hps, hlegal⟩ := Query.legal_of_check h
  rw [Query.allPredicates_of_predicates hps, ← exists_simplifiedFilters_iff hps]
  constructor
  · rintro ⟨n, hn⟩
    obtain ⟨simplified, -, -, hsim, -⟩ := ofQuery_eq_ok.mp hn
    exact ⟨simplified, hsim⟩
  rintro ⟨simplified, hsim⟩
  have hexclusion := fun p hp => (hlegal.admits p hp).native.compared
  suffices hanchored : ∃ anchored, anchorSorts
      (propertiesWith Predicate.isInequality (stripKey keyProperty simplified
        (simplifiedSorts keyProperty simplified q.sorts)).1).eraseDups
      (stripKey keyProperty simplified (simplifiedSorts keyProperty simplified q.sorts)).2
        = .ok anchored by
    obtain ⟨anchored, hanchored⟩ := hanchored
    exact ⟨_, ofQuery_eq_ok.mpr ⟨simplified, _, anchored, hsim, rfl,
      find?_isExclusion hps hexclusion hsim, hanchored, rfl⟩⟩
  -- an inequality that is left comes from one of the query, and so does its property
  have hbears : ∀ a ∈ (propertiesWith Predicate.isInequality (stripKey keyProperty simplified
      (simplifiedSorts keyProperty simplified q.sorts)).1).eraseDups,
      a ∈ propertiesWith Predicate.isInequality simplified
        ∧ ∃ p ∈ ps, p.isInequality = true ∧ p.property = a := by
    intro a ha
    obtain ⟨p', hp', hinequality, rfl⟩ := mem_propertiesWith.mp (List.mem_eraseDups.mp ha)
    obtain ⟨p, hp, halike⟩ := exists_alike hps hsim hp'
    exact ⟨mem_propertiesWith.mpr ⟨p', mem_of_mem_stripKey hp', hinequality, rfl⟩,
      p, hp, halike.inequality.symm.trans hinequality, halike.property.symm⟩
  refine exists_anchorSorts (nodup_eraseDups _) ?_ ?_
  · intro a ha b hb
    obtain ⟨-, p, hp, hpBears, rfl⟩ := hbears a ha
    obtain ⟨-, r, hr, hrBears, rfl⟩ := hbears b hb
    exact hlegal.one p hp r hr hpBears hrBears
  · intro a ha
    obtain ⟨hname, p, hp, hpBears, rfl⟩ := hbears a ha
    exact head?_stripped hname (hlegal.first p hp hpBears)

/-- Tasks from a key on that have a deadline, of one owner who is named twice. -/
def tasksFrom : Query where
  kind := some "Task"
  filter := some (.node .all [
    .leaf ⟨"__key__", .relation .greaterEqual (.key (.root "" "Task" (.number 5)))⟩,
    .leaf ⟨"deadline", .present .null⟩, .leaf ⟨"owner", .oneOf [.text "Ann", .text "Ann"]⟩])
  sorts := [⟨"__key__", .ascending⟩, ⟨"owner", .descending⟩]

/-- The presence test keeps the inequality on the key and its sort, of which nothing is dropped. -/
theorem exists_ofQuery_tasksFrom : tasksFrom.check defaultKeyProperty = .ok ()
    ∧ ∃ n, ofQuery tasksFrom defaultKeyProperty = .ok n := by
  have hcheck : tasksFrom.check defaultKeyProperty = .ok () := by
    rfl
  refine ⟨hcheck, (exists_ofQuery_iff hcheck).mpr ?_⟩
  decide

end NormalForm

end EntityQuery
