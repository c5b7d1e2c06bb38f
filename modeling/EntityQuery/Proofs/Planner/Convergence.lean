import EntityQuery.Planner
import EntityQuery.Proofs.Catalog.Growth
import EntityQuery.Proofs.Index.Addition
import EntityQuery.Proofs.Index.Names
import EntityQuery.Proofs.Index.Reduction

/-!
# Convergence — advice that is taken is not given again

Planning a query against declared indexes gives the indexes that its concrete queries still need.
When these are declared too, in whatever place and next to whatever else, planning the query again
asks for nothing. The concrete queries are the same in both runs, as they do not depend on the
declared indexes, so this comes down to each concrete query by itself: its least index, once
declared, is enough (`NormalForm.minimalIndex_of_declared`).

Queries that ask for containment in a region are left out. For these the declared indexes are not
looked at, and the full index is asked for every time.

* **`Query.plan_converges`** — the second plan needs no index and reports nothing.
-/

namespace EntityQuery

/-! ## One concrete query -/

variable {q : Query} {settings : Settings} {checked : Bool} {declared more : List Index}

/-- What a concrete query needs is the least index of its normal form, with a report on it. -/
theorem Query.indexNeed_eq_ok {need : Option Index × Option String} :
    q.indexNeed settings (some declared) checked = .ok need ↔
      (checked = true → q.check settings.keyProperty = .ok ())
        ∧ ∃ n, NormalForm.ofQuery q settings.keyProperty = .ok n
          ∧ need = (n.minimalIndex settings.ancestorCost declared,
              (n.minimalIndex settings.ancestorCost declared).map n.advice) := by
  rw [indexNeed]
  cases checked with
  | false =>
      rw [if_neg Bool.false_ne_true, bind_eq_ok]
      constructor
      · rintro ⟨n, hn, h⟩
        exact ⟨fun h => absurd h Bool.false_ne_true, n, hn, (Except.ok.inj h).symm⟩
      · rintro ⟨-, n, hn, rfl⟩
        exact ⟨n, hn, rfl⟩
  | true =>
      rw [if_pos rfl, bind_eq_ok]
      constructor
      · rintro ⟨_, hcheck, h⟩
        obtain ⟨n, hn, h⟩ := bind_eq_ok.mp h
        exact ⟨fun _ => hcheck, n, hn, (Except.ok.inj h).symm⟩
      · rintro ⟨hcheck, n, hn, rfl⟩
        exact ⟨(), hcheck rfl, bind_eq_ok.mpr ⟨n, hn, rfl⟩⟩

/-- A concrete query without regions, whose least index is declared, needs no other index. -/
theorem Query.indexNeed_of_declared {need : Option Index × Option String}
    (h : q.indexNeed settings (some declared) checked = .ok need)
    (hno : ∀ ps, q.predicates = .ok ps → ∀ p ∈ ps, NormalForm.isRegion p = false)
    (hsub : declared ⊆ more) (hmem : ∀ index, need.1 = some index → index ∈ more) :
    q.indexNeed settings (some more) checked = .ok (none, none) := by
  obtain ⟨hcheck, n, hn, rfl⟩ := indexNeed_eq_ok.mp h
  obtain ⟨ps, hps⟩ : ∃ ps, q.predicates = .ok ps := by
    obtain ⟨simplified, _, _, hsim, -⟩ := NormalForm.ofQuery_eq_ok.mp hn
    obtain ⟨ps, hps, -⟩ := bind_eq_ok.mp hsim
    exact ⟨ps, hps⟩
  have hgeo := NormalForm.isGeospatial_eq_false hn hps (hno ps hps)
  have hnone := NormalForm.minimalIndex_of_declared hgeo hsub hmem
  rw [indexNeed_eq_ok]
  exact ⟨hcheck, n, hn, by rw [hnone]; rfl⟩

/-! ## The plan -/

variable {splitters : List Splitter} {cmp : Comparator}

/-- A plan consists of the concrete queries and, of each, what it needs. -/
theorem Query.plan_eq_ok {known : Option (List Index)} {p : QueryPlan} :
    q.plan known settings splitters cmp checked = .ok p ↔ ∃ plans needs,
      q.fanOut splitters settings cmp = .ok plans
        ∧ (plans.flatMap Plan.queries).mapM (·.indexNeed settings known checked) = .ok needs
        ∧ p = ⟨plans, plans.flatMap Plan.queries, (needs.filterMap (·.1)).eraseDups,
            (needs.filterMap (·.2)).eraseDups⟩ := by
  rw [plan, bind_eq_ok]
  constructor
  · rintro ⟨plans, hplans, h⟩
    obtain ⟨needs, hneeds, h⟩ := bind_eq_ok.mp h
    exact ⟨plans, needs, hplans, hneeds, (Except.ok.inj h).symm⟩
  · rintro ⟨plans, needs, hplans, hneeds, rfl⟩
    exact ⟨plans, hplans, bind_eq_ok.mpr ⟨needs, hneeds, rfl⟩⟩

/-- Planning again next to all that was declared and all that was asked for asks for nothing. -/
theorem Query.plan_of_declared {p : QueryPlan}
    (h : q.plan (some declared) settings splitters cmp checked = .ok p)
    (hno : ∀ c ∈ p.queries, ∀ ps, c.predicates = .ok ps →
      ∀ t ∈ ps, NormalForm.isRegion t = false)
    (hsub : declared ⊆ more) (hreq : p.required ⊆ more) :
    q.plan (some more) settings splitters cmp checked
      = .ok { p with required := [], reports := [] } := by
  obtain ⟨plans, needs, hplans, hneeds, rfl⟩ := plan_eq_ok.mp h
  -- fanning out does not look at the declared indexes, so the concrete queries are the same
  have hnothing : (plans.flatMap Plan.queries).mapM (·.indexNeed settings (some more) checked)
      = .ok ((plans.flatMap Plan.queries).map fun _ => (none, none)) := by
    apply mapM_eq_ok_map
    intro c hc
    obtain ⟨need, hneed, hc'⟩ := ok_of_mapM_eq_ok hneeds hc
    refine indexNeed_of_declared hc' (hno c hc) hsub ?_
    intro index hindex
    apply hreq
    rw [List.mem_eraseDups]
    exact List.mem_filterMap.mpr ⟨need, hneed, hindex⟩
  have hnil : ∀ {α β : Type} (cs : List α), cs.filterMap (fun _ => (none : Option β)) = [] :=
    fun cs => List.filterMap_eq_nil_iff.mpr fun _ _ => rfl
  rw [plan_eq_ok]
  refine ⟨plans, _, hplans, hnothing, ?_⟩
  rw [List.filterMap_map, List.filterMap_map]
  show _ = QueryPlan.mk plans _ (List.filterMap (fun _ => none) _).eraseDups
    (List.filterMap (fun _ => none) _).eraseDups
  rw [hnil, hnil]
  rfl

/-- **Advice converges.** When the concrete queries of a plan ask for no region, planning the query
    again with the required indexes added to the catalog, or declared anywhere in any list that
    holds the declared ones, gives the same plans and concrete queries, and asks for nothing. -/
theorem Query.plan_converges {catalog : Catalog} {p : QueryPlan}
    (h : q.plan (some catalog.indexes) settings splitters cmp checked = .ok p)
    (hno : ∀ c ∈ p.queries, ∀ ps, c.predicates = .ok ps →
      ∀ t ∈ ps, NormalForm.isRegion t = false) :
    q.plan (some (catalog.withGenerated p.required).indexes) settings splitters cmp checked
        = .ok { p with required := [], reports := [] }
      ∧ ∀ more, catalog.indexes ⊆ more → p.required ⊆ more →
          q.plan (some more) settings splitters cmp checked
            = .ok { p with required := [], reports := [] } :=
  ⟨plan_of_declared h hno (catalog.indexes_subset_withGenerated p.required)
      (catalog.subset_withGenerated p.required),
    fun _ hsub hreq => plan_of_declared h hno hsub hreq⟩

/-! ## A plan whose advice is taken -/

/-- Members of a firm, of one city and team and of either of two ranks, by age. -/
def Query.members : Query where
  kind := some "Member"
  filter := some (.node .all [.leaf (.equals "city" (.int 1)), .leaf (.equals "team" (.int 2)),
    .leaf ⟨"rank", .oneOf [.int 1, .int 2]⟩])
  sorts := [⟨"age", .ascending⟩]
  ancestor := some (.root "" "Firm" (.number 1))

/-- The members of one rank. -/
def Query.membersOfRank (rank : Int) : Query :=
  members.withPredicates
    [.equals "city" (.int 1), .equals "team" (.int 2), .equals "rank" (.int rank)]

/-- What an index must cover of the members of one rank. -/
def NormalForm.membersOfRank (rank : Int) : NormalForm where
  kind := some "Member"
  hasAncestor := true
  filters := [.equals "city" (.int 1), .equals "team" (.int 2), .equals "rank" (.int rank)]
  sorts := [⟨"age", .ascending⟩]
  equalities := ["city", "team", "rank"]
  unordered := []
  regions := []
  hasKeyProperty := false
  equalityCount := 3

/-- A catalog that declares one index, by city and age. -/
def Catalog.byCity : Catalog where
  manual := [⟨some "Member", false, [.ascending "city", .ascending "age"]⟩]

/-- What the declared index leaves to be indexed for the members of one rank. -/
def Index.byTeamAndRank : Index :=
  ⟨some "Member", true, [.ascending "rank", .ascending "team", .ascending "age"]⟩

/-- Whatever the rank, the members of one need the same index. -/
theorem NormalForm.minimalIndex_membersOfRank (rank : Int) :
    (membersOfRank rank).minimalIndex 2 Catalog.byCity.indexes = some Index.byTeamAndRank := by
  have hperm : ["team", "rank"].Perm ["rank", "team"] := .swap "rank" "team" []
  have hlisted : (membersOfRank rank).neededProperties = _ :=
    neededProperties_eq rfl (hperm.cons "city") (by decide) (List.Perm.refl []) (by decide)
  have hneeded := neededIndex_eq hlisted (show 1 < 4 by decide) (List.cons_ne_nil _ _) rfl
  exact minimalIndex_eq (r := ⟨["team", "rank"], true⟩) hneeded rfl rfl rfl hperm (by decide)

/-- The two concrete queries for members need one index next to the declared one, which covers the
    city; once it is added, they need none. -/
theorem Query.plan_converges_members :
    ∃ p, members.plan (some Catalog.byCity.indexes) {} Splitter.standard Value.compare true = .ok p
      ∧ p.queries = [membersOfRank 1, membersOfRank 2]
      ∧ p.required = [Index.byTeamAndRank]
      ∧ (∀ c ∈ p.queries, ∀ ps, c.predicates = .ok ps → ∀ t ∈ ps, NormalForm.isRegion t = false)
      ∧ members.plan (some (Catalog.byCity.withGenerated p.required).indexes) {}
          Splitter.standard Value.compare true = .ok { p with required := [], reports := [] } := by
  have hfan : members.fanOut Splitter.standard {} Value.compare
      = .ok [⟨members, [.equals "city" (.int 1), .equals "team" (.int 2)],
          [Component.of "rank" members.sorts
            [[.equals "rank" (.int 1)], [.equals "rank" (.int 2)]]],
          true⟩] :=
    fanOut_single rfl (Plan.ofClause_ordered (by with_unfolding_all rfl) (by decide)) (by decide)
  have hneed : ∀ rank, ∃ report, (membersOfRank rank).indexNeed {}
      (some Catalog.byCity.indexes) true = .ok (some Index.byTeamAndRank, some report) := by
    intro rank
    refine ⟨(NormalForm.membersOfRank rank).advice Index.byTeamAndRank,
      indexNeed_eq_ok.mpr ⟨fun _ => rfl, _, rfl, ?_⟩⟩
    show _ = ((NormalForm.membersOfRank rank).minimalIndex 2 Catalog.byCity.indexes,
      ((NormalForm.membersOfRank rank).minimalIndex 2 Catalog.byCity.indexes).map _)
    rw [NormalForm.minimalIndex_membersOfRank]
    rfl
  obtain ⟨report₁, h₁⟩ := hneed 1
  obtain ⟨report₂, h₂⟩ := hneed 2
  have hplan := plan_eq_ok.mpr ⟨_, _, hfan,
    mapM_cons_eq_ok.mpr ⟨_, _, h₁, mapM_cons_eq_ok.mpr ⟨_, _, h₂, rfl, rfl⟩, rfl⟩, rfl⟩
  have hno : ∀ c ∈ [membersOfRank 1, membersOfRank 2], ∀ ps, c.predicates = .ok ps →
      ∀ t ∈ ps, NormalForm.isRegion t = false := by
    intro c hc ps hps
    rcases List.mem_cons.mp hc with rfl | hc
    · obtain rfl := Except.ok.inj hps
      decide
    · obtain rfl := List.mem_singleton.mp hc
      obtain rfl := Except.ok.inj hps
      decide
  have hrequired :
      [Index.byTeamAndRank, Index.byTeamAndRank].eraseDups = [Index.byTeamAndRank] := by
    decide
  exact ⟨_, hplan, rfl, hrequired, hno, (plan_converges hplan hno).1⟩

end EntityQuery
