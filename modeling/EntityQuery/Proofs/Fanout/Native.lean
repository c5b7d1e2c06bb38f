import Mathlib.Algebra.Order.BigOperators.Group.List
import Mathlib.Algebra.Order.Group.Nat
import EntityQuery.Proofs.Filter.Family
import EntityQuery.Proofs.Execution.Sorted
import EntityQuery.Proofs.Index.Existence

/-!
# Native queries — splitting ends with tests that the backend has

A splitter replaces the tests of its kind and puts tests in their place that no splitter replaces.
So once both have looked at a clause, what is left of it and what the pieces ask for are tests that
the backend has. A concrete query holds nothing else, and it is *settled*: when it is fanned out
again, it is one plan without components, of the same tests.

Two things are needed to see this that have nothing to do with the kinds of tests. A test that has
been replaced must be found again in the clause, by its identity, to be left out; and a concrete
clause must be a clause again when it is written as a filter, for which sets have to hold its tests
as soon as there are two of them.

* **`Splitter.splitAll_standard`** — what is left of a clause, and what the pieces ask for.
* **`Query.clauses_withPredicates`** — a clause that is written as a filter.
* **`Query.fanOut_settles`** — the concrete queries of a query are settled.
-/

namespace EntityQuery

variable {cmp : Comparator} {sorts : List SortOrder} {c left : Clause} {s : Splitting}
  {q : Query} {settings : Settings} {plans : List Plan}

/-! ## Clauses as filters -/

/-- A clause that can be written as a filter: sets can hold its tests, or there is one at most. -/
def Clause.Writable (c : Clause) : Prop := c.Keyable ∨ c.length ≤ 1

namespace Filter

@[simp] theorem conjunctsAll_leaves (ps : List Predicate) : conjunctsAll (ps.map leaf) = .ok ps := by
  induction ps with
  | nil => rfl
  | cons p ps ih =>
      rw [List.map_cons, conjunctsAll, ih]
      rfl

end Filter

namespace Query

@[simp] theorem predicates_withPredicates (q : Query) (c : Clause) :
    (q.withPredicates c).predicates = .ok c := by
  rcases c with _ | ⟨p, _ | ⟨r, ps⟩⟩
  · rfl
  · rfl
  · exact Filter.conjunctsAll_leaves (p :: r :: ps)

/-- A clause that is written as a filter is the clause of this filter, each of its tests once. -/
theorem clauses_withPredicates (hc : c.Writable) (maxDepth : Nat) :
    (q.withPredicates c).clauses maxDepth = .ok [c.eraseDups] := by
  rcases c with _ | ⟨p, _ | ⟨r, ps⟩⟩
  · rfl
  · rfl
  · have hkeyable : Clause.Keyable (p :: r :: ps) := by
      rcases hc with hc | hc
      · exact hc
      · simp at hc
    exact Filter.clausesAt_leaves (Int.natCast_nonneg maxDepth) hkeyable

/-- The clauses of a query can be written as filters. -/
theorem writable_of_clauses {maxDepth : Nat} {cs : List Clause}
    (h : q.clauses maxDepth = .ok cs) : ∀ c ∈ cs, c.Writable := by
  rw [clauses] at h
  split at h
  · obtain rfl := Except.ok.inj h
    exact List.forall_mem_singleton.mpr (.inr (Nat.zero_le 1))
  · obtain rfl := Except.ok.inj h
    exact List.forall_mem_singleton.mpr (.inr (Nat.le_refl 1))
  · exact fun c hc => .inl ((Filter.clausesAt_presents h).keyable c hc)

end Query

/-! ## What splitters leave and make -/

/-- The pieces of a component ask for tests that the backend has and that sets can hold. -/
def Component.IsNative (c : Component) : Prop :=
  ∀ piece ∈ c.pieces, ∀ r ∈ piece, r.IsNative ∧ r.keyable = true

namespace Predicate

variable {property : String} {v : Value}

theorem isNative_of_relation {r : Relation} (h : r ≠ .notEqual) :
    IsNative ⟨property, .relation r v⟩ where
  compared := by
    cases r with
    | notEqual => exact absurd rfl h
    | _ => rfl
  settled := ⟨none, rfl, by simp⟩

end Predicate

namespace Splitter

/-- What is left of a clause: none of the tests that are replaced. -/
theorem remainder_spec (h : s.remainder c = .ok left) :
    left.Sublist c ∧ (∀ p ∈ left, p ∉ s.consumed) ∧ (s.consumed = [] ∨ c.Keyable) := by
  rw [Splitting.remainder] at h
  split at h
  · rename_i hnil
    obtain rfl := Except.ok.inj h
    have hnil := List.isEmpty_iff.mp hnil
    refine ⟨List.Sublist.refl _, fun p _ => ?_, .inl hnil⟩
    rw [hnil]
    exact List.not_mem_nil
  · split at h
    · rename_i hkeyable
      obtain rfl := Except.ok.inj h
      have hkeyable := List.all_eq_true.mp hkeyable
      refine ⟨List.filter_sublist, fun p hp hconsumed => ?_, .inr hkeyable⟩
      obtain ⟨hp, hleft⟩ := List.mem_filter.mp hp
      rw [(Clause.contains_iff (hkeyable p hp)).mpr
        (Clause.mem_identities.mpr ⟨p, hconsumed, rfl⟩)] at hleft
      cases hleft
    · cases h

theorem keyable_of_distinct {asked values : List Value} (h : Value.distinct asked = .ok values) :
    ∀ v ∈ values, v.keyable = true := by
  intro v hv
  exact List.all_eq_true.mp (Value.distinct_eq_ok.mp h).1 v ((mem_of_distinct h).1 hv)

/-- All exclusions are replaced, by ranges. -/
theorem splitExclusions_settles (h : splitExclusions cmp sorts c = .ok s) :
    (∀ p ∈ c, p ∉ s.consumed → p.isExclusion = false) ∧ (s.consumed = [] → s.components = [])
      ∧ ∀ component ∈ s.components, component.IsNative := by
  rcases splitExclusions_eq_ok h with ⟨hnone, rfl⟩ | ⟨property, values, hsplit⟩
  · refine ⟨fun p hp _ => ?_, fun _ => rfl, List.forall_mem_nil _⟩
    simpa using List.filter_eq_nil_iff.mp hnone p hp
  · refine ⟨fun p hp hleft => ?_, fun hnil => absurd hnil hsplit.nonempty, ?_⟩
    · rw [hsplit.consumed] at hleft
      rw [← Bool.not_eq_true]
      exact fun hexclusion => hleft (List.mem_filter.mpr ⟨hp, hexclusion⟩)
    · obtain ⟨asked, hdistinct, hsorted⟩ := hsplit.distinct
      intro component hcomponent piece hpiece r hr
      rw [hsplit.components] at hcomponent
      obtain rfl := List.mem_singleton.mp hcomponent
      obtain ⟨v, hv, hr⟩ := mem_rangesAround (mem_inReadingOrder.mp hpiece) hr
      have hkeyable := keyable_of_distinct hdistinct v ((Value.sorted_perm hsorted).mem_iff.mp hv)
      rcases hr with rfl | rfl
      · exact ⟨Predicate.isNative_of_relation (by decide), hkeyable⟩
      · exact ⟨Predicate.isNative_of_relation (by decide), hkeyable⟩

/-- Membership in two values or more is replaced. -/
theorem settled_of_splitChoices (h : splitChoices cmp sorts c = .ok s) :
    ∀ p ∈ c, p ∉ s.consumed →
      ∃ choices, p.choices? = .ok choices ∧ ∀ values ∈ choices, values.length ≤ 1 := by
  induction c generalizing s with
  | nil => exact List.forall_mem_nil _
  | cons p ps ih =>
      rw [splitChoices] at h
      obtain ⟨found, hfound, h⟩ := bind_eq_ok.mp h
      rw [List.forall_mem_cons]
      split at h
      · obtain ⟨ordered, -, h⟩ := bind_eq_ok.mp h
        obtain ⟨others, hothers, h⟩ := bind_eq_ok.mp h
        obtain rfl := Except.ok.inj h
        refine ⟨fun hleft => absurd List.mem_cons_self hleft, fun r hr hleft => ?_⟩
        exact ih hothers r hr fun hr => hleft (List.mem_cons_of_mem p hr)
      · rename_i hfew
        refine ⟨fun _ => ⟨found, hfound, ?_⟩, ih h⟩
        rintro (_ | ⟨v, _ | ⟨w, vs⟩⟩) hvalues
        · exact Nat.zero_le 1
        · exact Nat.le_refl 1
        · exact absurd hvalues (hfew v w vs)

/-- Membership tests are replaced by equalities. -/
theorem splitChoices_settles (h : splitChoices cmp sorts c = .ok s) :
    (s.consumed = [] → s.components = []) ∧ ∀ component ∈ s.components, component.IsNative := by
  obtain ⟨-, hcomponents⟩ := splitChoices_eq_ok h
  constructor
  · intro hnil
    rw [hnil] at hcomponents
    exact List.forall₂_nil_left_iff.mp hcomponents
  · intro component hcomponent piece hpiece r hr
    obtain ⟨p, -, asked, hsplit⟩ := exists_left_of_forall₂ hcomponents hcomponent
    obtain ⟨values, ordered, hdistinct, hordered, rfl⟩ := hsplit.pieces
    obtain ⟨v, hv, rfl⟩ := List.mem_map.mp hpiece
    obtain rfl := List.mem_singleton.mp hr
    exact ⟨Predicate.isNative_of_relation (by decide),
      keyable_of_distinct hdistinct v ((orderedChoices_perm hordered).mem_iff.mp hv)⟩

/-- **Splitting** by both splitters leaves tests that the backend has, and makes such tests. -/
theorem splitAll_standard {components : List Component}
    (h : splitAll cmp sorts standard c = .ok (left, components)) :
    left.Sublist c ∧ (∀ p ∈ left, p.IsNative) ∧ (∀ component ∈ components, component.IsNative)
      ∧ (components = [] ∨ c.Keyable) := by
  obtain ⟨first, hfirst, h⟩ := bind_eq_ok.mp h
  obtain ⟨c', hc', h⟩ := bind_eq_ok.mp h
  obtain ⟨⟨left', components'⟩, hrest, h⟩ := bind_eq_ok.mp h
  obtain ⟨rfl, rfl⟩ := Prod.mk.inj (Except.ok.inj h)
  obtain ⟨second, hsecond, hrest⟩ := bind_eq_ok.mp hrest
  obtain ⟨c'', hc'', hrest⟩ := bind_eq_ok.mp hrest
  obtain ⟨rfl, rfl⟩ := Prod.mk.inj (Except.ok.inj hrest)
  obtain ⟨hsub, hunconsumed, hfirstKeyable⟩ := remainder_spec hc'
  obtain ⟨hsub', hunconsumed', hsecondKeyable⟩ := remainder_spec hc''
  obtain ⟨hexclusions, hfirstNil, hfirstNative⟩ := splitExclusions_settles hfirst
  obtain ⟨hsecondNil, hsecondNative⟩ := splitChoices_settles hsecond
  have hsettled := settled_of_splitChoices hsecond
  rw [List.append_nil]
  refine ⟨hsub'.trans hsub, fun p hp => ⟨?_, ?_⟩, List.forall_mem_append.mpr
    ⟨hfirstNative, hsecondNative⟩, ?_⟩
  · have hp' := hsub'.subset hp
    exact hexclusions p (hsub.subset hp') (hunconsumed p hp')
  · exact hsettled p (hsub'.subset hp) (hunconsumed' p hp)
  · rcases hfirstKeyable with hnil | hkeyable
    · -- nothing has been replaced at first, so the second splitter looks at the whole clause
      rw [hfirstNil hnil, List.nil_append]
      rw [Splitting.remainder, hnil] at hc'
      obtain rfl := Except.ok.inj hc'
      exact hsecondKeyable.imp hsecondNil id
    · exact .inr hkeyable

/-- A clause of tests that the backend has is left as it is. -/
theorem splitAll_of_native (hc : ∀ p ∈ c, p.IsNative) :
    splitAll cmp sorts standard c = .ok (c, []) := by
  have hexclusions : splitExclusions cmp sorts c = .ok {} := by
    rw [splitExclusions, List.filter_eq_nil_iff.mpr]
    · rfl
    · intro p hp
      rw [(hc p hp).compared]
      exact Bool.false_ne_true
  have hchoices : splitChoices cmp sorts c = .ok {} := by
    clear hexclusions
    induction c with
    | nil => rfl
    | cons p ps ih =>
        obtain ⟨hp, hps⟩ := List.forall_mem_cons.mp hc
        obtain ⟨choices, hchoices, hfew⟩ := hp.settled
        rw [splitChoices, hchoices]
        rcases choices with _ | _ | ⟨v, _ | ⟨w, vs⟩⟩
        · exact ih hps
        · exact ih hps
        · exact ih hps
        · have hshort := hfew _ rfl
          simp at hshort
  have hrest : splitAll cmp sorts [choice] c = .ok (c, []) :=
    bind_eq_ok.mpr ⟨{}, hchoices, rfl⟩
  exact bind_eq_ok.mpr ⟨{}, hexclusions, bind_eq_ok.mpr ⟨c, rfl, bind_eq_ok.mpr ⟨_, hrest, rfl⟩⟩⟩

end Splitter

/-! ## Plans -/

namespace Plan

variable {p : Plan} {d : Clause}

/-- A plan with a concrete clause merges one stream at least. -/
theorem parallelSize_pos (hd : d ∈ p.groups.flatten) : 0 < p.parallelSize := by
  obtain ⟨group, hgroup, hd⟩ := List.mem_flatten.mp hd
  obtain ⟨first, -, rfl⟩ := List.mem_map.mp hgroup
  have hpos := List.length_pos_of_mem hd
  rwa [List.length_map, length_choices] at hpos

theorem parallelSize_le_totalSize (hp : p ∈ plans) : p.parallelSize ≤ totalSize plans :=
  List.single_le_sum (fun _ _ => Nat.zero_le _) _ (List.mem_map_of_mem hp)

/-- The concrete clauses of a plan ask for tests that the backend has, and can be written as
    filters. -/
theorem native_of_ofClause (hp : ofClause cmp Splitter.standard q c = .ok p) (hc : c.Writable)
    (hd : d ∈ p.groups.flatten) : (∀ r ∈ d, r.IsNative) ∧ d.Writable := by
  obtain ⟨⟨left, components⟩, hsplit, hp⟩ := bind_eq_ok.mp hp
  obtain rfl := Except.ok.inj hp
  obtain ⟨hsub, hleft, hcomponents, hkeyable⟩ := Splitter.splitAll_standard hsplit
  obtain ⟨pieces, hpieces, rfl⟩ := mem_groups.mp hd
  have hpiece : ∀ r ∈ pieces.flatten, r.IsNative ∧ r.keyable = true := by
    intro r hr
    obtain ⟨piece, hpiece, hr⟩ := List.mem_flatten.mp hr
    obtain ⟨_, hlist, hpiece⟩ := mem_of_mem_choices hpieces hpiece
    obtain ⟨component, hcomponent, rfl⟩ := List.mem_map.mp hlist
    exact hcomponents component (List.mem_mergeSort.mp hcomponent) piece hpiece r hr
  constructor
  · exact List.forall_mem_append.mpr ⟨hleft, fun r hr => (hpiece r hr).1⟩
  · have hall : c.Keyable → Clause.Keyable (left ++ pieces.flatten) := fun hc =>
      Clause.Keyable.append (fun r hr => hc r (hsub.subset hr)) fun r hr => (hpiece r hr).2
    rcases hkeyable with rfl | hkeyable
    · -- without components, what is left of the clause is its only concrete clause
      rcases hc with hc | hc
      · exact .inl (hall hc)
      · rw [of_ordered List.Pairwise.nil] at hpieces
        obtain rfl : pieces = [] := List.mem_singleton.mp hpieces
        refine .inr ?_
        show (left ++ []).length ≤ 1
        rw [List.append_nil]
        exact Nat.le_trans hsub.length_le hc
    · exact .inl (hall hkeyable)

end Plan

/-! ## Queries -/

namespace Query

/-- A query of tests that the backend has is one plan without components. -/
theorem fanOut_of_native (hc : ∀ r ∈ c, r.IsNative) (hwritable : c.Writable)
    (hone : 1 ≤ settings.maxParallelQueries) :
    (q.withPredicates c).fanOut Splitter.standard settings cmp
      = .ok [⟨q.withPredicates c, c.eraseDups, [], q.hasSort⟩] := by
  have hplan : Plan.ofClause cmp Splitter.standard (q.withPredicates c) c.eraseDups
      = .ok ⟨q.withPredicates c, c.eraseDups, [], q.hasSort⟩ :=
    Plan.ofClause_ordered (Splitter.splitAll_of_native fun r hr =>
      hc r (mem_of_mem_eraseDupsBy hr)) List.Pairwise.nil
  have hsize : ∀ p : Plan, p.components = [] → p.parallelSize = 1 := by
    intro p hp
    simp [Plan.parallelSize, Plan.parallel, hp, choiceCount]
  refine fanOut_single (clauses_withPredicates hwritable _) hplan ?_
  rwa [hsize _ rfl]

/-- **Concrete queries are settled.** They are the query itself with another filter, which is a
    conjunction of tests that the backend has. Fanned out again, such a query is one plan without
    components, of its tests, each once; and however it is brought to a normal form, no operator is
    left that is not classified. -/
theorem fanOut_settles (h : q.fanOut Splitter.standard settings cmp = .ok plans) {p : Plan}
    (hp : p ∈ plans) {concrete : Query} (hconcrete : concrete ∈ p.queries) :
    { concrete with filter := q.filter } = q
      ∧ ∃ ps, concrete.predicates = .ok ps ∧ (∀ r ∈ ps, r.IsNative)
        ∧ concrete.fanOut Splitter.standard settings cmp
          = .ok [⟨concrete, ps.eraseDups, [], concrete.hasSort⟩]
        ∧ ∀ keyProperty word,
          NormalForm.ofQuery concrete keyProperty ≠ .error (.unclassified word) := by
  obtain ⟨c, hc, rfl⟩ := Plan.mem_queries.mp hconcrete
  obtain ⟨hquery, -⟩ := fanOut_query h p hp
  obtain ⟨cs, hcs, hplans, hfew⟩ := fanOut_eq_ok_iff.mp h
  obtain ⟨clause, hclause, hof⟩ := (mem_of_mapM_eq_ok hplans).mp hp
  have hclauseWritable := writable_of_clauses hcs clause hclause
  obtain ⟨hnative, hwritable⟩ := Plan.native_of_ofClause hof hclauseWritable hc
  -- the plan merges a stream for it, so the limit that admits the plan admits one stream
  have hone : 1 ≤ settings.maxParallelQueries :=
    ((Plan.parallelSize_pos hc).trans_le (Plan.parallelSize_le_totalSize hp)).trans_le hfew
  have hpredicates := predicates_withPredicates q c
  rw [hquery]
  refine ⟨rfl, c, hpredicates, hnative, fanOut_of_native hnative hwritable hone, ?_⟩
  intro keyProperty word herror
  have hends : Ends NormalForm.Classified (fun _ => True)
      (NormalForm.ofQuery (q.withPredicates c) keyProperty) :=
    NormalForm.ofQuery_classified hpredicates fun r hr => (hnative r hr).compared
  rw [herror] at hends
  exact hends word rfl

/-- The things of colour 1 that have colour 1 or 2 and are not of size 5, from the largest on. -/
def tinted : Query where
  kind := some "Thing"
  filter := some (.node .all [.leaf (.equals "colour" (.int 1)),
    .leaf ⟨"colour", .oneOf [.int 1, .int 2]⟩, .leaf ⟨"size", .relation .notEqual (.int 5)⟩])
  sorts := [⟨"size", .descending⟩]

def tintedPlan : Plan :=
  ⟨tinted, [.equals "colour" (.int 1)],
    [⟨"size", some 0, some .descending, [[.above "size" (.int 5)], [.below "size" (.int 5)]]⟩,
      ⟨"colour", none, none, [[.equals "colour" (.int 1)], [.equals "colour" (.int 2)]]⟩], true⟩

theorem ofClause_tinted : Plan.ofClause Value.compare Splitter.standard tinted
    [.equals "colour" (.int 1), ⟨"colour", .oneOf [.int 1, .int 2]⟩,
      ⟨"size", .relation .notEqual (.int 5)⟩] = .ok tintedPlan :=
  Plan.ofClause_ordered (by with_unfolding_all rfl) (by decide)

/-- The first concrete query asks for the colour twice, and its plan once. -/
theorem fanOut_settles_tinted :
    tinted.fanOut Splitter.standard {} Value.compare = .ok [tintedPlan]
      ∧ ∃ concrete ∈ tintedPlan.queries, ∃ ps, concrete.predicates = .ok ps ∧ ps.length = 3
        ∧ concrete.fanOut Splitter.standard {} Value.compare = .ok [⟨concrete,
            [.equals "colour" (.int 1), .above "size" (.int 5)], [], concrete.hasSort⟩] := by
  have hplans : tinted.fanOut Splitter.standard {} Value.compare = .ok [tintedPlan] :=
    fanOut_single rfl ofClause_tinted (by decide)
  have hmem : tinted.withPredicates [.equals "colour" (.int 1), .above "size" (.int 5),
      .equals "colour" (.int 1)] ∈ tintedPlan.queries :=
    Plan.mem_queries.mpr ⟨_, List.mem_cons_self, rfl⟩
  obtain ⟨-, ps, hps, -, hagain, -⟩ := fanOut_settles hplans List.mem_cons_self hmem
  obtain rfl := Except.ok.inj hps
  exact ⟨hplans, _, hmem, _, rfl, rfl, hagain⟩

end Query

end EntityQuery
