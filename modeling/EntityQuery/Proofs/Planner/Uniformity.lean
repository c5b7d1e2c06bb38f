import EntityQuery.Proofs.Fanout.Native
import EntityQuery.Proofs.Index.Shape
import EntityQuery.Proofs.Planner.Convergence

/-!
# Uniformity — the concrete queries of one plan need the same index

The concrete queries of a plan ask for what was left of its clause and for one piece of each
component. The pieces of a component differ in their values, and some ranges have two bounds where
others have one, but all tests in them have the same shape. So the normal forms of the concrete
queries agree, and each plan asks for one index at most.

* **`Splitter.splitAll_uniform`** — the pieces of a component ask for tests of one shape.
* **`Query.plan_uniform`** — what the concrete queries of one plan have in common.
-/

namespace EntityQuery

/-- Different elements that come from different places are no more than the places. -/
theorem length_le_of_sources {α β : Type} {R : β → α → Prop} {xs : List α} {ys : List β}
    (hxs : xs.Nodup) (hsource : ∀ x ∈ xs, ∃ y ∈ ys, R y x)
    (hone : ∀ y x x', R y x → R y x' → x = x') : xs.length ≤ ys.length := by
  -- without elements there may be no places to choose from
  rcases xs.eq_nil_or_concat with rfl | ⟨_, last, rfl⟩
  · exact Nat.zero_le _
  obtain ⟨y, -, -⟩ := hsource last (by simp)
  have : Nonempty β := ⟨y⟩
  choose! place hplace hfrom using hsource
  rw [← List.length_map (f := place)]
  refine (List.subperm_of_subset (List.Nodup.map_on ?_ hxs) ?_).length_le
  · intro x hx x' hx' heq
    exact hone (place x) x x' (hfrom x hx) (heq ▸ hfrom x' hx')
  · intro y hy
    obtain ⟨x, hx, rfl⟩ := List.mem_map.mp hy
    exact hplace x hx

/-! ## Pieces -/

open NormalForm (SimplifyAlike)

/-- The tests of each clause have partners in each other one. -/
def Uniform (clauses : List Clause) : Prop :=
  ∀ a ∈ clauses, ∀ b ∈ clauses, ∀ p ∈ a, ∃ r ∈ b, SimplifyAlike p r

variable {cmp : Comparator} {sorts : List SortOrder} {splitters : List Splitter} {c : Clause}
  {s : Splitting}

namespace Splitter

/-- No range is without bounds. -/
theorem ne_nil_of_mem_rangesAround {property : String} {values : List Value} {range : Clause}
    (h : range ∈ rangesAround property values) : range ≠ [] := by
  cases values with
  | nil => cases h
  | cons v vs =>
      rcases List.mem_cons.mp h with rfl | h
      · exact List.cons_ne_nil _ _
      · obtain ⟨w, -, hw⟩ := exists_above_of_mem_rangesFrom h
        exact List.ne_nil_of_mem hw

/-- The ranges around excluded values have bounds on one property. -/
theorem splitExclusions_uniform (h : splitExclusions cmp sorts c = .ok s) :
    ∀ component ∈ s.components, Uniform component.pieces := by
  rcases splitExclusions_eq_ok h with ⟨-, rfl⟩ | ⟨property, values, hsplit⟩
  · exact List.forall_mem_nil _
  · rw [hsplit.components]
    refine List.forall_mem_singleton.mpr fun a ha b hb p hp => ?_
    have ha := mem_inReadingOrder.mp ha
    have hb := mem_inReadingOrder.mp hb
    obtain ⟨r, hr⟩ := List.exists_mem_of_ne_nil b (ne_nil_of_mem_rangesAround hb)
    refine ⟨r, hr, ?_⟩
    obtain ⟨v, -, rfl | rfl⟩ := mem_rangesAround ha hp <;>
      obtain ⟨w, -, rfl | rfl⟩ := mem_rangesAround hb hr <;> exact .of_relations rfl

/-- The values of a membership test become equalities on its property. -/
theorem splitChoices_uniform (h : splitChoices cmp sorts c = .ok s) :
    ∀ component ∈ s.components, Uniform component.pieces := by
  obtain ⟨-, hcomponents⟩ := splitChoices_eq_ok h
  intro component hcomponent
  obtain ⟨p, -, asked, hsplit⟩ := exists_left_of_forall₂ hcomponents hcomponent
  obtain ⟨values, ordered, -, -, rfl⟩ := hsplit.pieces
  intro a ha b hb r hr
  obtain ⟨v, -, rfl⟩ := List.mem_map.mp ha
  obtain ⟨w, -, rfl⟩ := List.mem_map.mp hb
  obtain rfl := List.mem_singleton.mp hr
  exact ⟨_, List.mem_cons_self, .of_relations rfl⟩

/-- **Pieces.** Whatever splitters look at a clause, the pieces of each component are uniform. -/
theorem splitAll_uniform {left : Clause} {components : List Component}
    (h : splitAll cmp sorts splitters c = .ok (left, components)) :
    ∀ component ∈ components, Uniform component.pieces := by
  induction splitters generalizing c components with
  | nil =>
      obtain ⟨-, rfl⟩ := Prod.mk.inj (Except.ok.inj h)
      exact List.forall_mem_nil _
  | cons splitter rest ih =>
      obtain ⟨s, hs, h⟩ := bind_eq_ok.mp h
      obtain ⟨c', -, h⟩ := bind_eq_ok.mp h
      obtain ⟨⟨left', components'⟩, hrest, h⟩ := bind_eq_ok.mp h
      obtain ⟨rfl, rfl⟩ := Prod.mk.inj (Except.ok.inj h)
      refine List.forall_mem_append.mpr ⟨?_, ih hrest⟩
      cases splitter with
      | exclusion => exact splitExclusions_uniform hs
      | choice => exact splitChoices_uniform hs

end Splitter

/-- What is chosen from uniform lists of clauses is uniform. -/
theorem uniform_choices {lists : List (List Clause)} (h : ∀ clauses ∈ lists, Uniform clauses) :
    Uniform ((choices lists).map List.flatten) := by
  induction lists with
  | nil =>
      intro a ha b _ p hp
      obtain rfl := List.mem_singleton.mp ha
      cases hp
  | cons clauses lists ih =>
      obtain ⟨hclauses, hlists⟩ := List.forall_mem_cons.mp h
      have hmem : ∀ chosen ∈ (choices (clauses :: lists)).map List.flatten, ∃ a ∈ clauses,
          ∃ rest ∈ (choices lists).map List.flatten, chosen = a ++ rest := by
        intro chosen hchosen
        obtain ⟨pieces, hpieces, rfl⟩ := List.mem_map.mp hchosen
        obtain ⟨a, ha, hpieces⟩ := List.mem_flatMap.mp hpieces
        obtain ⟨rest, hrest, rfl⟩ := List.mem_map.mp hpieces
        exact ⟨a, ha, rest.flatten, List.mem_map_of_mem hrest, List.flatten_cons⟩
      intro chosen hchosen chosen' hchosen' p hp
      obtain ⟨a, ha, rest, hrest, rfl⟩ := hmem chosen hchosen
      obtain ⟨b, hb, rest', hrest', rfl⟩ := hmem chosen' hchosen'
      rcases List.mem_append.mp hp with hp | hp
      · obtain ⟨r, hr, halike⟩ := hclauses a ha b hb p hp
        exact ⟨r, List.mem_append_left _ hr, halike⟩
      · obtain ⟨r, hr, halike⟩ := ih hlists rest hrest rest' hrest' p hp
        exact ⟨r, List.mem_append_right _ hr, halike⟩

/-! ## Concrete queries -/

namespace Plan

variable {q : Query} {p : Plan}

/-- The concrete clauses of a plan are uniform: what was left is in all of them. -/
theorem uniform_groups (hp : ofClause cmp splitters q c = .ok p) : Uniform p.groups.flatten := by
  obtain ⟨⟨left, components⟩, hsplit, hp⟩ := bind_eq_ok.mp hp
  obtain rfl := Except.ok.inj hp
  have huniform : Uniform ((choices ((Plan.of q left components q.hasSort).components.map
      Component.pieces)).map List.flatten) := by
    refine uniform_choices fun clauses hclauses => ?_
    obtain ⟨component, hcomponent, rfl⟩ := List.mem_map.mp hclauses
    exact Splitter.splitAll_uniform hsplit component (List.mem_mergeSort.mp hcomponent)
  intro a ha b hb r hr
  obtain ⟨pieces, hpieces, rfl⟩ := mem_groups.mp ha
  obtain ⟨pieces', hpieces', rfl⟩ := mem_groups.mp hb
  rcases List.mem_append.mp hr with hr | hr
  · exact ⟨r, List.mem_append_left _ hr, .refl r⟩
  · obtain ⟨r', hr', halike⟩ := huniform _ (List.mem_map_of_mem hpieces) _
      (List.mem_map_of_mem hpieces') r hr
    exact ⟨r', List.mem_append_right _ hr', halike⟩

/-- The normal forms of the concrete queries of one plan agree. -/
theorem agrees (hp : ofClause cmp splitters q c = .ok p) {concrete concrete' : Query}
    (h : concrete ∈ p.queries) (h' : concrete' ∈ p.queries) {keyProperty : String}
    {m n : NormalForm} (hm : NormalForm.ofQuery concrete keyProperty = .ok m)
    (hn : NormalForm.ofQuery concrete' keyProperty = .ok n) : m.Agrees n := by
  obtain ⟨a, ha, rfl⟩ := mem_queries.mp h
  obtain ⟨b, hb, rfl⟩ := mem_queries.mp h'
  obtain ⟨ps, -, -, hps, -⟩ := NormalForm.ofQuery_eq_ok.mp hm
  obtain ⟨rs, -, -, hrs, -⟩ := NormalForm.ofQuery_eq_ok.mp hn
  have hshapes := NormalForm.sameShapes_simplified (Query.predicates_withPredicates _ _)
    (Query.predicates_withPredicates _ _) (uniform_groups hp a ha b hb)
    (uniform_groups hp b hb a ha) hps hrs
  have hframe : (p.query.withPredicates a).SameFrame (p.query.withPredicates b) :=
    ⟨rfl, rfl, rfl, rfl⟩
  exact NormalForm.agrees_of_sameShapes hframe hps hrs hshapes hm hn

end Plan

/-! ## Plans -/

namespace Query

variable {q : Query} {settings : Settings} {known : Option (List Index)} {checked : Bool}

/-- The index that is asked for when a query has been brought to its normal form: the full one, or
    the least one next to those declared. -/
def askedIndex (settings : Settings) (n : NormalForm) : Option (List Index) → Option Index
  | none => n.neededIndex
  | some declared => n.minimalIndex settings.ancestorCost declared

/-- A concrete query of which the need is known has a normal form, which tells the index. -/
theorem ofQuery_of_indexNeed {need : Option Index × Option String}
    (h : q.indexNeed settings known checked = .ok need) :
    ∃ n, NormalForm.ofQuery q settings.keyProperty = .ok n
      ∧ need.1 = askedIndex settings n known := by
  cases known with
  | some declared =>
      obtain ⟨-, n, hn, rfl⟩ := indexNeed_eq_ok.mp h
      exact ⟨n, hn, rfl⟩
  | none =>
      rw [indexNeed] at h
      cases checked with
      | false =>
          obtain ⟨n, hn, h⟩ := bind_eq_ok.mp h
          obtain rfl := Except.ok.inj h
          exact ⟨n, hn, rfl⟩
      | true =>
          obtain ⟨_, -, h⟩ := bind_eq_ok.mp h
          obtain ⟨n, hn, h⟩ := bind_eq_ok.mp h
          obtain rfl := Except.ok.inj h
          exact ⟨n, hn, rfl⟩

/-- Normal forms that agree ask for the same index. -/
theorem askedIndex_congr {m n : NormalForm} (h : m.Agrees n) :
    askedIndex settings m known = askedIndex settings n known := by
  cases known with
  | none => exact h.neededIndex
  | some declared => exact h.minimalIndex _ declared

variable {splitters : List Splitter} {p : QueryPlan}

/-- The concrete queries of one plan have normal forms, which agree. -/
theorem agrees_of_plan (h : q.plan known settings splitters cmp checked = .ok p) {plan : Plan}
    (hplan : plan ∈ p.plans) {c d : Query} (hc : c ∈ plan.queries) (hd : d ∈ plan.queries) :
    ∃ m n, NormalForm.ofQuery c settings.keyProperty = .ok m
      ∧ NormalForm.ofQuery d settings.keyProperty = .ok n ∧ m.Agrees n := by
  obtain ⟨plans, needs, hfan, hneeds, rfl⟩ := plan_eq_ok.mp h
  have hnormal : ∀ c ∈ plan.queries, ∃ n, NormalForm.ofQuery c settings.keyProperty = .ok n := by
    intro c hc
    obtain ⟨need, -, hneed⟩ := ok_of_mapM_eq_ok hneeds (List.mem_flatMap.mpr ⟨plan, hplan, hc⟩)
    obtain ⟨n, hn, -⟩ := ofQuery_of_indexNeed hneed
    exact ⟨n, hn⟩
  obtain ⟨clauses, -, hplans⟩ := fanOut_eq_ok hfan
  obtain ⟨clause, -, hof⟩ := (mem_of_mapM_eq_ok hplans).mp hplan
  obtain ⟨m, hm⟩ := hnormal c hc
  obtain ⟨n, hn⟩ := hnormal d hd
  exact ⟨m, n, hm, hn, Plan.agrees hof hc hd hm hn⟩

/-- A plan is where an index comes from if one of its concrete queries asks for it. -/
def AsksFor (settings : Settings) (known : Option (List Index)) (plan : Plan) (index : Index) :
    Prop :=
  ∃ c ∈ plan.queries, ∃ n, NormalForm.ofQuery c settings.keyProperty = .ok n
    ∧ askedIndex settings n known = some index

/-- No more indexes are required than there are plans. -/
theorem length_required_le (h : q.plan known settings splitters cmp checked = .ok p) :
    p.required.length ≤ p.plans.length := by
  have hagrees := @agrees_of_plan cmp q settings known checked splitters p h
  obtain ⟨plans, needs, hfan, hneeds, rfl⟩ := plan_eq_ok.mp h
  -- every index is asked for by a concrete query, and those of one plan ask for no other
  refine length_le_of_sources (R := fun plan index => plan ∈ plans
    ∧ AsksFor settings known plan index) (nodup_eraseDups _) ?_ ?_
  · intro index hindex
    obtain ⟨need, hneed, hsome⟩ := List.mem_filterMap.mp (List.mem_eraseDups.mp hindex)
    obtain ⟨c, hc, hindexNeed⟩ := (mem_of_mapM_eq_ok hneeds).mp hneed
    obtain ⟨plan, hplan, hc⟩ := List.mem_flatMap.mp hc
    obtain ⟨n, hn, hasked⟩ := ofQuery_of_indexNeed hindexNeed
    exact ⟨plan, hplan, hplan, c, hc, n, hn, hasked.symm.trans hsome⟩
  · rintro plan index index' ⟨hplan, c, hc, m, hm, hindex⟩ ⟨-, d, hd, n, hn, hindex'⟩
    obtain ⟨m', n', hm', hn', hsame⟩ := hagrees hplan hc hd
    obtain rfl := Except.ok.inj (hm.symm.trans hm')
    obtain rfl := Except.ok.inj (hn.symm.trans hn')
    have hasked : askedIndex settings m known = askedIndex settings n known :=
      askedIndex_congr hsame
    rw [hindex, hindex'] at hasked
    exact Option.some.inj hasked

/-- **One index for each plan.** When a query is planned, all concrete queries of one plan have
    normal forms with the same sorts, the same equality properties and the same other properties,
    which need the same index by themselves, and next to any declared ones. So no more indexes are
    required than there are plans, and there is one plan for each clause. -/
theorem plan_uniform (h : q.plan known settings splitters cmp checked = .ok p) :
    (∀ plan ∈ p.plans, ∀ c ∈ plan.queries, ∀ d ∈ plan.queries, ∃ m n,
      NormalForm.ofQuery c settings.keyProperty = .ok m
        ∧ NormalForm.ofQuery d settings.keyProperty = .ok n
        ∧ m.sorts = n.sorts ∧ (∀ name, name ∈ m.equalities ↔ name ∈ n.equalities)
        ∧ (∀ name, name ∈ m.unordered ↔ name ∈ n.unordered)
        ∧ m.neededIndex = n.neededIndex
        ∧ ∀ weight declared, m.minimalIndex weight declared = n.minimalIndex weight declared)
      ∧ p.required.length ≤ p.plans.length
      ∧ ∃ clauses, q.clauses settings.maxFilterDepth = .ok clauses
        ∧ p.plans.length = clauses.length := by
  refine ⟨fun plan hplan c hc d hd => ?_, length_required_le h, ?_⟩
  · obtain ⟨m, n, hm, hn, hsame⟩ := agrees_of_plan h hplan hc hd
    exact ⟨m, n, hm, hn, hsame.sorts, fun _ => hsame.equalities.mem_iff,
      fun _ => hsame.unordered.mem_iff, hsame.neededIndex, hsame.minimalIndex⟩
  · obtain ⟨plans, needs, hfan, -, rfl⟩ := plan_eq_ok.mp h
    obtain ⟨clauses, hclauses, hplans⟩ := fanOut_eq_ok hfan
    exact ⟨clauses, hclauses, length_of_mapM_eq_ok hplans⟩

end Query

/-- The index by colour and by size, from the largest on. -/
def Index.byColourAndSize : Index :=
  ⟨some "Thing", false, [.ascending "colour", ⟨"size", some .descending, none⟩]⟩

/-- The four concrete queries for tinted things need one index, though some of them ask for two
    colours at once. -/
theorem Query.plan_uniform_tinted : ∃ p,
    tinted.plan none {} Splitter.standard Value.compare true = .ok p
      ∧ p.queries.length = 4 ∧ p.required = [Index.byColourAndSize]
      ∧ p.required.length ≤ p.plans.length := by
  have hneeds : tintedPlan.queries.mapM (·.indexNeed {} none true)
      = .ok (List.replicate 4 (some Index.byColourAndSize, none)) := by
    with_unfolding_all rfl
  have hplan : tinted.plan none {} Splitter.standard Value.compare true
      = .ok ⟨[tintedPlan], tintedPlan.queries, [Index.byColourAndSize], []⟩ :=
    plan_eq_ok.mpr ⟨[tintedPlan], _, fanOut_single rfl ofClause_tinted (by decide), hneeds, rfl⟩
  exact ⟨_, hplan, rfl, rfl, (plan_uniform hplan).2.1⟩

end EntityQuery
