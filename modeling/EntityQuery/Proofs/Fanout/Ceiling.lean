import Mathlib.Algebra.Order.BigOperators.GroupWithZero.List
import Mathlib.Algebra.Order.Ring.Nat
import EntityQuery.Proofs.Fanout.Native

/-!
# The limit on merging — what is counted and what is merged

A query is refused when its plans together merge too many streams. What is counted is the number of
ways to choose pieces of the parallel components of each plan; what is merged is a group of concrete
queries of each plan. The two agree, because a group is made by such choices while the pieces of the
serial components stand still, so all groups of a plan have the same size.

A splitter never makes a component without pieces, so every plan merges one stream at least, and the
limit bounds the number of plans as well.

* **`Plan.length_of_chosen`** — one group of each plan, however they are chosen, holds as many
  queries as are counted.
* **`Splitter.pieces_of_splitAll`** — components have pieces.
* **`Query.fanOut_ceiling`** — when a query is refused, and what is known when it is not.
-/

namespace EntityQuery

variable {cmp : Comparator} {sorts : List SortOrder} {splitters : List Splitter} {c : Clause}
  {s : Splitting} {q : Query} {settings : Settings} {plans : List Plan} {p : Plan}

/-! ## Groups -/

theorem choiceCount_pos {α : Type} {lists : List (List α)} (h : ∀ xs ∈ lists, xs ≠ []) :
    0 < choiceCount lists := by
  refine List.prod_pos fun n hn => ?_
  obtain ⟨xs, hxs, rfl⟩ := List.mem_map.mp hn
  exact List.length_pos_of_ne_nil (h xs hxs)

namespace Plan

/-- Every group of a plan has the size that is counted. -/
theorem length_of_mem_queryGroups {group : List Query} (h : group ∈ p.queryGroups) :
    group.length = p.parallelSize := by
  obtain ⟨concrete, hconcrete, rfl⟩ := List.mem_map.mp h
  rw [List.length_map, length_of_mem_groups hconcrete]

/-- Groups that are merged at one time hold together as many queries as are counted. -/
theorem length_of_chosen {chosen : List (List Query)}
    (h : List.Forall₂ (fun p group => group ∈ p.queryGroups) plans chosen) :
    chosen.flatten.length = totalSize plans := by
  induction h with
  | nil => rfl
  | cons hgroup _ ih =>
      rw [List.flatten_cons, List.length_append, ih, length_of_mem_queryGroups hgroup]
      rfl

/-- Where every plan merges a stream at least, there are no more plans than streams. -/
theorem length_le_totalSize (h : ∀ p ∈ plans, 0 < p.parallelSize) :
    plans.length ≤ totalSize plans := by
  rw [← List.length_map Plan.parallelSize]
  refine List.length_le_sum_of_one_le _ fun n hn => ?_
  obtain ⟨p, hp, rfl⟩ := List.mem_map.mp hn
  exact h p hp

end Plan

/-! ## Pieces -/

namespace Splitter

theorem rangesAround_ne_nil {property : String} {values : List Value} (h : values ≠ []) :
    inReadingOrder sorts (rangesAround property values) ≠ [] := by
  obtain ⟨v, vs, rfl⟩ := List.exists_cons_of_ne_nil h
  exact List.ne_nil_of_mem (mem_inReadingOrder.mpr List.mem_cons_self)

theorem pieces_of_splitChoices (h : splitChoices cmp sorts c = .ok s) :
    ∀ component ∈ s.components, component.pieces ≠ [] := by
  induction c generalizing s with
  | nil =>
      obtain rfl := Except.ok.inj h
      exact List.forall_mem_nil _
  | cons p ps ih =>
      rw [splitChoices] at h
      obtain ⟨found, -, h⟩ := bind_eq_ok.mp h
      split at h
      · obtain ⟨ordered, hordered, h⟩ := bind_eq_ok.mp h
        obtain ⟨others, hothers, h⟩ := bind_eq_ok.mp h
        obtain rfl := Except.ok.inj h
        refine List.forall_mem_cons.mpr ⟨?_, ih hothers⟩
        have hv := (orderedChoices_perm hordered).mem_iff.mpr List.mem_cons_self
        exact List.ne_nil_of_mem (List.mem_map_of_mem hv)
      · exact ih h

theorem pieces_of_split {splitter : Splitter} (h : splitter.split cmp sorts c = .ok s) :
    ∀ component ∈ s.components, component.pieces ≠ [] := by
  cases splitter with
  | exclusion =>
      rcases splitExclusions_eq_ok h with ⟨-, rfl⟩ | ⟨property, values, hsplit⟩
      · exact List.forall_mem_nil _
      · rw [hsplit.components]
        exact List.forall_mem_singleton.mpr (rangesAround_ne_nil hsplit.values_ne_nil)
  | choice => exact pieces_of_splitChoices h

/-- **Components have pieces**, whichever splitters make them. -/
theorem pieces_of_splitAll {left : Clause} {components : List Component}
    (h : splitAll cmp sorts splitters c = .ok (left, components)) :
    ∀ component ∈ components, component.pieces ≠ [] := by
  induction splitters generalizing c left components with
  | nil =>
      obtain ⟨-, rfl⟩ := Prod.mk.inj (Except.ok.inj h)
      exact List.forall_mem_nil _
  | cons splitter splitters ih =>
      obtain ⟨s, hsplit, h⟩ := bind_eq_ok.mp h
      obtain ⟨rest, -, h⟩ := bind_eq_ok.mp h
      obtain ⟨⟨left', components'⟩, hlater, h⟩ := bind_eq_ok.mp h
      obtain ⟨-, rfl⟩ := Prod.mk.inj (Except.ok.inj h)
      exact List.forall_mem_append.mpr ⟨pieces_of_split hsplit, ih hlater⟩

end Splitter

theorem Plan.parallelSize_pos_of_ofClause (h : Plan.ofClause cmp splitters q c = .ok p) :
    0 < p.parallelSize := by
  obtain ⟨⟨left, components⟩, hsplit, h⟩ := bind_eq_ok.mp h
  obtain rfl := Except.ok.inj h
  refine choiceCount_pos fun pieces hpieces => ?_
  obtain ⟨component, hcomponent, rfl⟩ := List.mem_map.mp hpieces
  have hmem := List.mem_mergeSort.mp (List.mem_of_mem_drop hcomponent)
  exact Splitter.pieces_of_splitAll hsplit component hmem

/-! ## The limit -/

namespace Query

/-- **The limit on merging.** A query whose clauses can all be split is refused exactly when its
    plans count more streams than the limit allows, with this count and the limit; and so many
    streams are merged whichever group of each plan is read. When the query is not refused, there
    are thus no more queries in these groups than the limit allows, and there are no more plans. -/
theorem fanOut_ceiling (q : Query) (splitters : List Splitter) (settings : Settings)
    (cmp : Comparator) :
    (∀ cs plans, q.clauses settings.maxFilterDepth = .ok cs →
        cs.mapM (Plan.ofClause cmp splitters q) = .ok plans →
        q.fanOut splitters settings cmp
            = (if settings.maxParallelQueries < (plans.map Plan.parallelSize).sum then
                .error (.fanOut (plans.map Plan.parallelSize).sum settings.maxParallelQueries)
              else .ok plans)
          ∧ ∀ chosen, List.Forall₂ (fun p group => group ∈ p.queryGroups) plans chosen →
            chosen.flatten.length = (plans.map Plan.parallelSize).sum)
      ∧ ∀ plans, q.fanOut splitters settings cmp = .ok plans →
        (∀ chosen, List.Forall₂ (fun p group => group ∈ p.queryGroups) plans chosen →
            chosen.flatten.length ≤ settings.maxParallelQueries)
          ∧ plans.length ≤ settings.maxParallelQueries := by
  constructor
  · intro cs plans hcs hplans
    refine ⟨?_, fun chosen hchosen => Plan.length_of_chosen hchosen⟩
    rw [fanOut, hcs]
    show (cs.mapM (Plan.ofClause cmp splitters q) >>= _) = _
    rw [hplans]
    show (if settings.maxParallelQueries < Plan.totalSize plans then _ else _) = _
    rfl
  · intro plans h
    obtain ⟨cs, -, hplans, hfew⟩ := fanOut_eq_ok_iff.mp h
    refine ⟨fun chosen hchosen => ?_, ?_⟩
    · rw [Plan.length_of_chosen hchosen]
      exact hfew
    · refine (Plan.length_le_totalSize fun p hp => ?_).trans hfew
      obtain ⟨clause, -, hof⟩ := (mem_of_mapM_eq_ok hplans).mp hp
      exact Plan.parallelSize_pos_of_ofClause hof

/-- The range of the sizes is serial and the choice of the colours is parallel, so each of two
    groups has two queries: too many for one stream, and not for two. -/
theorem fanOut_ceiling_tinted :
    tinted.clauses 64 = .ok [[.equals "colour" (.int 1),
        ⟨"colour", .oneOf [.int 1, .int 2]⟩, ⟨"size", .relation .notEqual (.int 5)⟩]]
      ∧ tinted.fanOut Splitter.standard { maxParallelQueries := 1 } Value.compare
        = .error (.fanOut 2 1)
      ∧ tinted.fanOut Splitter.standard { maxParallelQueries := 2 } Value.compare
        = .ok [tintedPlan]
      ∧ ∀ group ∈ tintedPlan.queryGroups, group.length ≤ 2 := by
  have hclauses : tinted.clauses 64 = .ok [[.equals "colour" (.int 1),
      ⟨"colour", .oneOf [.int 1, .int 2]⟩, ⟨"size", .relation .notEqual (.int 5)⟩]] := rfl
  have hplans : [[.equals "colour" (.int 1), ⟨"colour", .oneOf [.int 1, .int 2]⟩,
      ⟨"size", .relation .notEqual (.int 5)⟩]].mapM
        (Plan.ofClause Value.compare Splitter.standard tinted) = .ok [tintedPlan] :=
    mapM_cons_eq_ok.mpr ⟨_, [], ofClause_tinted, rfl, rfl⟩
  have hone := ((fanOut_ceiling tinted Splitter.standard { maxParallelQueries := 1 }
    Value.compare).1 _ _ hclauses hplans).1
  obtain ⟨htwo, hchosen⟩ := fanOut_ceiling tinted Splitter.standard { maxParallelQueries := 2 }
    Value.compare
  have hadmitted := (htwo _ _ hclauses hplans).1
  refine ⟨hclauses, hone, hadmitted, fun group hgroup => ?_⟩
  have hfew := (hchosen _ hadmitted).1 [group] (.cons hgroup .nil)
  rwa [List.flatten_cons, List.flatten_nil, List.append_nil] at hfew

end Query

end EntityQuery
