import Mathlib.Data.List.Forall2
import EntityQuery.Proofs.Fanout.Splitting

/-!
# Fanning out keeps the meaning of a query

A query is fanned out in three steps: its filter becomes clauses, every clause is split, and every
way to choose a piece of each component gives a concrete clause. The first two steps are looked at
in the theory of clauses and of splitting. The last one is the distributive law once more: some
concrete clause is true exactly when what is left of the clause is and each component has a true
piece, however the components are ordered and divided into serial and parallel ones.

* **`Plan.mem_groups`** — the concrete clauses of a plan.
* **`Query.fanOut_means`** — an entity satisfies the filter exactly when it satisfies a concrete
  clause.
-/

namespace EntityQuery

/-! ## Choices -/

/-- To choose from lists and from further ones is to choose from both. -/
theorem choices_append {α : Type} (lists lists' : List (List α)) :
    choices (lists ++ lists')
      = (choices lists).flatMap fun first => (choices lists').map (first ++ ·) := by
  induction lists with
  | nil =>
      show choices lists' = ((choices lists').map fun second => second) ++ []
      rw [List.map_id', List.append_nil]
  | cons xs lists ih =>
      simp only [List.cons_append, choices, ih, List.map_flatMap, List.flatMap_assoc,
        List.flatMap_map, List.map_map]
      rfl

@[simp] theorem length_choices {α : Type} (lists : List (List α)) :
    (choices lists).length = choiceCount lists := by
  induction lists with
  | nil => rfl
  | cons xs lists ih =>
      rw [choices, List.length_flatMap]
      simp only [List.length_map, ih]
      rw [List.map_const', List.sum_replicate_nat]
      rfl

/-- A choice takes one element of each list. -/
@[simp] theorem mem_choices_iff {α : Type} {lists : List (List α)} {chosen : List α} :
    chosen ∈ choices lists ↔ List.Forall₂ (fun xs x => x ∈ xs) lists chosen := by
  induction lists generalizing chosen with
  | nil =>
      rw [List.forall₂_nil_left_iff]
      exact List.mem_singleton
  | cons xs lists ih =>
      simp only [choices, List.mem_flatMap, List.mem_map, List.forall₂_cons_left_iff, ih]
      constructor
      · rintro ⟨x, hx, rest, hrest, rfl⟩
        exact ⟨x, rest, hx, hrest, rfl⟩
      · rintro ⟨x, rest, hx, hrest, rfl⟩
        exact ⟨x, hx, rest, hrest, rfl⟩

/-- What is chosen is from the lists. -/
theorem mem_of_mem_choices {α : Type} {lists : List (List α)} {chosen : List α}
    (h : chosen ∈ choices lists) {x : α} (hx : x ∈ chosen) : ∃ xs ∈ lists, x ∈ xs :=
  exists_left_of_forall₂ (mem_choices_iff.mp h) hx

/-- Some choice of pieces is true when each component has a true piece. -/
theorem exists_choice {pass : Predicate → Bool} {components : List Component} :
    (∃ pieces ∈ choices (components.map Component.pieces), pieces.flatten.all pass = true)
      ↔ ∀ c ∈ components, c.holds pass = true := by
  induction components with
  | nil =>
      constructor
      · intro _ c hc
        cases hc
      · intro _
        exact ⟨[], List.mem_singleton_self [], rfl⟩
  | cons component components ih =>
      rw [List.forall_mem_cons, ← ih, List.map_cons]
      simp only [choices, List.mem_flatMap, List.mem_map]
      constructor
      · rintro ⟨_, ⟨piece, hpiece, others, hothers, rfl⟩, hpass⟩
        rw [List.flatten_cons, List.all_append, Bool.and_eq_true] at hpass
        exact ⟨List.any_eq_true.mpr ⟨piece, hpiece, hpass.1⟩, others, hothers, hpass.2⟩
      · rintro ⟨hholds, others, hothers, hpass⟩
        obtain ⟨piece, hpiece, hpiecePass⟩ := List.any_eq_true.mp hholds
        refine ⟨piece :: others, ⟨piece, hpiece, others, hothers, rfl⟩, ?_⟩
        rw [List.flatten_cons, List.all_append, hpiecePass, hpass]
        rfl

/-! ## Plans -/

namespace Plan

variable {pass : Predicate → Bool}

/-- However the components are divided, each way to choose one piece of each gives one concrete
    clause. -/
theorem flatten_groups (p : Plan) :
    p.groups.flatten = (choices (p.components.map Component.pieces)).map p.concrete := by
  have hsplit : p.components = p.serial ++ p.parallel := (List.take_append_drop ..).symm
  rw [hsplit, List.map_append, choices_append, List.map_flatMap, groups, ← List.flatMap_def]
  simp only [List.map_map]
  rfl

/-- Every group has the size that is counted for the plan. -/
theorem length_of_mem_groups {p : Plan} {group : List Clause} (h : group ∈ p.groups) :
    group.length = p.parallelSize := by
  obtain ⟨first, -, rfl⟩ := List.mem_map.mp h
  rw [List.length_map, length_choices]
  rfl

theorem queries_eq_map (p : Plan) : p.queries = p.groups.flatten.map p.query.withPredicates :=
  List.map_flatten.symm

/-- The concrete clauses of a plan choose one piece of each component. -/
theorem mem_groups {p : Plan} {c : Clause} :
    c ∈ p.groups.flatten ↔
      ∃ pieces ∈ choices (p.components.map Component.pieces), c = p.concrete pieces := by
  rw [flatten_groups, List.mem_map]
  exact exists_congr fun pieces => and_congr_right' eq_comm

@[simp] theorem all_concrete (p : Plan) (pieces : List Clause) :
    (p.concrete pieces).all pass = (p.filters.all pass && pieces.flatten.all pass) := by
  rw [concrete, List.all_append]

/-- Some concrete clause is true when what was left is and each component has a true piece. -/
theorem any_groups (p : Plan) :
    p.groups.flatten.any (·.all pass)
      = (p.filters.all pass && p.components.all (Component.holds pass)) := by
  rw [Bool.eq_iff_iff, Bool.and_eq_true, List.any_eq_true, @List.all_eq_true Component,
    ← exists_choice]
  constructor
  · rintro ⟨c, hc, hpass⟩
    obtain ⟨pieces, hpieces, rfl⟩ := mem_groups.mp hc
    rw [all_concrete, Bool.and_eq_true] at hpass
    exact ⟨hpass.1, pieces, hpieces, hpass.2⟩
  · rintro ⟨hfilters, pieces, hpieces, hpass⟩
    refine ⟨p.concrete pieces, mem_groups.mpr ⟨pieces, hpieces, rfl⟩, ?_⟩
    rw [all_concrete, hfilters, hpass]
    rfl

variable {cmp : Comparator} {occurs : Value → Prop} {view : View} {splitters : List Splitter}
  {q : Query} {c left : Clause} {components : List Component}

/-- Components that are in order stay as they are. -/
theorem of_ordered (h : components.Pairwise fun a b => a.notAfter b = true) (hasSort : Bool) :
    Plan.of q left components hasSort = ⟨q, left, components, hasSort⟩ := by
  rw [Plan.of, List.mergeSort_of_pairwise h]

theorem ofClause_ordered (hsplit : Splitter.splitAll cmp q.sorts splitters c
      = .ok (left, components)) (h : components.Pairwise fun a b => a.notAfter b = true) :
    ofClause cmp splitters q c = .ok ⟨q, left, components, q.hasSort⟩ := by
  rw [← of_ordered h]
  exact bind_eq_ok.mpr ⟨_, hsplit, rfl⟩

/-- A clause is true when some concrete clause of its plan is. -/
theorem ofClause_means {p : Plan} (h : cmp.Consistent occurs)
    (hp : ofClause cmp splitters q c = .ok p) (hc : ∀ r ∈ c, r.Occurs occurs view) :
    c.all (Predicate.passes cmp view)
      = p.groups.flatten.any (·.all (Predicate.passes cmp view)) := by
  obtain ⟨⟨left, components⟩, hsplit, hp⟩ := bind_eq_ok.mp hp
  obtain rfl := Except.ok.inj hp
  rw [any_groups, Splitter.splitAll_means h hsplit hc]
  show (left.all _ && components.all _) = (left.all _ && (components.mergeSort _).all _)
  rw [(List.mergeSort_perm components _).all_eq]

end Plan

/-! ## Queries -/

namespace Query

/-- Whether a query's filter, if it has one, is satisfied. -/
def satisfied (pass : Predicate → Bool) (q : Query) : Bool :=
  q.filter.all (Filter.satisfied pass)

/-- The predicates of a query's filter, at any depth. -/
def allPredicates (q : Query) : List Predicate :=
  q.filter.elim [] Filter.predicates

theorem satisfied_withPredicates (pass : Predicate → Bool) (q : Query) (c : Clause) :
    (q.withPredicates c).satisfied pass = c.all pass := by
  have hall (ps : List Predicate) :
      Filter.allSatisfied pass (ps.map Filter.leaf) = ps.all pass := by
    rw [Filter.allSatisfied_eq_all, List.all_map]
    rfl
  rcases c with _ | ⟨p, _ | ⟨r, ps⟩⟩
  · rfl
  · exact (Bool.and_true _).symm
  · exact hall (p :: r :: ps)

theorem clauses_means {q : Query} {maxDepth : Nat} {cs : List Clause}
    (h : q.clauses maxDepth = .ok cs) :
    Means q.allPredicates (fun pass => q.satisfied pass) cs := by
  rw [clauses] at h
  rw [allPredicates]
  simp only [satisfied]
  split at h
  · rename_i hnone
    obtain rfl := Except.ok.inj h
    rw [hnone]
    exact Means.unit
  · rename_i p hleaf
    obtain rfl := Except.ok.inj h
    rw [hleaf]
    exact Means.leaf p
  · rename_i f _ hsome
    rw [hsome]
    exact Filter.clauses_means h

variable {cmp : Comparator} {occurs : Value → Prop} {view : View} {settings : Settings}
  {splitters : List Splitter} {q : Query} {plans : List Plan}

/-- A query is fanned out exactly if all of its clauses can be split and the plans do not merge too
    many streams. -/
theorem fanOut_eq_ok_iff : q.fanOut splitters settings cmp = .ok plans ↔
    ∃ cs, q.clauses settings.maxFilterDepth = .ok cs
      ∧ cs.mapM (Plan.ofClause cmp splitters q) = .ok plans
      ∧ Plan.totalSize plans ≤ settings.maxParallelQueries := by
  unfold fanOut
  rw [bind_eq_ok]
  refine exists_congr fun cs => and_congr_right fun _ => ?_
  rw [bind_eq_ok]
  constructor
  · rintro ⟨plans', hplans, h⟩
    obtain ⟨hfew, h⟩ := guard_eq_ok.mp h
    obtain rfl := Except.ok.inj h
    exact ⟨hplans, Nat.not_lt.mp hfew⟩
  · rintro ⟨hplans, hfew⟩
    exact ⟨plans, hplans, guard_eq_ok.mpr ⟨Nat.not_lt.mpr hfew, rfl⟩⟩

theorem fanOut_eq_ok (h : q.fanOut splitters settings cmp = .ok plans) :
    ∃ cs, q.clauses settings.maxFilterDepth = .ok cs
      ∧ cs.mapM (Plan.ofClause cmp splitters q) = .ok plans := by
  obtain ⟨cs, hcs, hplans, -⟩ := fanOut_eq_ok_iff.mp h
  exact ⟨cs, hcs, hplans⟩

/-- A filter of one clause gives one plan. -/
theorem fanOut_single {c : Clause} {p : Plan}
    (hclause : q.clauses settings.maxFilterDepth = .ok [c])
    (hplan : Plan.ofClause cmp splitters q c = .ok p)
    (hfew : p.parallelSize ≤ settings.maxParallelQueries) :
    q.fanOut splitters settings cmp = .ok [p] :=
  fanOut_eq_ok_iff.mpr ⟨_, hclause, mapM_cons_eq_ok.mpr ⟨p, [], hplan, rfl, rfl⟩, hfew⟩

/-- The filter of a query is satisfied when some concrete clause of a plan is true. -/
theorem satisfied_eq_any (h : cmp.Consistent occurs)
    (hview : ∀ p ∈ q.allPredicates, p.Occurs occurs view)
    (hplans : q.fanOut splitters settings cmp = .ok plans) :
    q.satisfied (Predicate.passes cmp view)
      = plans.any fun p => p.groups.flatten.any (·.all (Predicate.passes cmp view)) := by
  obtain ⟨cs, hcs, hplans⟩ := fanOut_eq_ok hplans
  have hmeans := clauses_means hcs
  have hoccurs : ∀ c ∈ cs, ∀ r ∈ c, r.Occurs occurs view :=
    fun c hc r hr => hview r (hmeans.mem c hc r hr)
  rw [← hmeans.any (Predicate.passes_respects h) hview, Bool.eq_iff_iff, List.any_eq_true,
    List.any_eq_true]
  constructor
  · rintro ⟨c, hc, hpass⟩
    obtain ⟨p, hp, hof⟩ := ok_of_mapM_eq_ok hplans hc
    rw [Plan.ofClause_means h hof (hoccurs c hc)] at hpass
    exact ⟨p, hp, hpass⟩
  · rintro ⟨p, hp, hpass⟩
    obtain ⟨c, hc, hof⟩ := (mem_of_mapM_eq_ok hplans).mp hp
    refine ⟨c, hc, ?_⟩
    rwa [Plan.ofClause_means h hof (hoccurs c hc)]

/-- **Fanning out keeps the meaning.** An entity satisfies the filter of a query exactly when it
    passes all predicates of a concrete clause of one of the query's plans. -/
theorem fanOut_means (h : cmp.Consistent occurs)
    (hview : ∀ p ∈ q.allPredicates, p.Occurs occurs view)
    (hplans : q.fanOut splitters settings cmp = .ok plans) :
    q.satisfied (Predicate.passes cmp view) = true ↔
      ∃ p ∈ plans, ∃ c ∈ p.groups.flatten, ∀ r ∈ c, r.passes cmp view = true := by
  simp only [satisfied_eq_any h hview hplans, List.any_eq_true, List.all_eq_true]

/-- The things of two colours that are not of size 5 and are light or have a note. -/
def things : Query where
  filter := some (.node .all [.leaf ⟨"size", .relation .notEqual (.int 5)⟩,
    .leaf ⟨"colour", .oneOf [.int 1, .int 2]⟩,
    .node .any [.leaf (.below "weight" (.int 3)), .leaf ⟨"note", .present .null⟩]])

/-- The plans for things differ in the predicate that is left. -/
def thingPlans : List Plan :=
  [Predicate.below "weight" (.int 3), ⟨"note", .present .null⟩].map fun r =>
    ⟨things, [r], [⟨"size", none, none, [[.below "size" (.int 5)], [.above "size" (.int 5)]]⟩,
      ⟨"colour", none, none, [[.equals "colour" (.int 1)], [.equals "colour" (.int 2)]]⟩], false⟩

/-- Of a heavy thing that has a note, one of the eight concrete clauses is true. -/
theorem fanOut_means_things : things.fanOut Splitter.standard {} Value.compare = .ok thingPlans
    ∧ ∃ p ∈ thingPlans, ∃ c ∈ p.groups.flatten, ∀ r ∈ c, r.passes Value.compare (.ofFields
        [("size", .int 7), ("colour", .int 2), ("weight", .int 9), ("note", .int 0)]) = true := by
  have hplans : things.fanOut Splitter.standard {} Value.compare = .ok thingPlans := by
    refine fanOut_eq_ok_iff.mpr ⟨_, rfl, mapM_cons_eq_ok.mpr ⟨_, _, ?_,
      mapM_cons_eq_ok.mpr ⟨_, _, ?_, rfl, rfl⟩, rfl⟩, by decide⟩
    -- the sort of the excluded values is opened, and there is a single one
    · exact Plan.ofClause_ordered (by with_unfolding_all rfl) (by decide)
    · exact Plan.ofClause_ordered (by with_unfolding_all rfl) (by decide)
  refine ⟨hplans, (fanOut_means Value.compare_consistent_int ?_ hplans).mp ?_⟩
  · intro p hp
    have hall : things.allPredicates = [⟨"size", .relation .notEqual (.int 5)⟩,
      ⟨"colour", .oneOf [.int 1, .int 2]⟩, .below "weight" (.int 3),
      ⟨"note", .present .null⟩] := rfl
    rw [hall] at hp
    simp only [List.mem_cons, List.not_mem_nil, or_false] at hp
    rcases hp with rfl | rfl | rfl | rfl <;> intro v hv
    · obtain rfl := List.mem_singleton.mp hv
      exact ⟨⟨5, rfl⟩, 7, rfl⟩
    · rcases List.mem_pair.mp hv with rfl | rfl
      · exact ⟨⟨1, rfl⟩, 2, rfl⟩
      · exact ⟨⟨2, rfl⟩, 2, rfl⟩
    · obtain rfl := List.mem_singleton.mp hv
      exact ⟨⟨3, rfl⟩, 9, rfl⟩
    · cases hv
  · rfl

end Query

end EntityQuery
