import EntityQuery.Proofs.Execution.Order
import EntityQuery.Proofs.Fanout.Order

/-!
# Sorted runs — when the combined results are in order

A query is fanned out, every concrete query is answered with the entities that satisfy it, sorted,
and the plans are run. The rows come out sorted exactly when every entity that satisfies the query
is in place in some plan. In a pinned plan every entity that the plan finds is, so if all plans are
pinned the rows are sorted whatever the entities are.

A plan need not be pinned. If the values of the first sort are cut into ranges, and the pieces of
another serial component follow a later sort, the groups run through all of these pieces in one
range before they come to the next range. Inside a range the first sort is not constant, so the
later sort takes precedence of it.

* **`Plan.inPlace`** — a pinned plan has all it finds in place.
* **`run_sorted`** — what has to be in place for the rows to be sorted.
* **`run_unsorted`** — two tasks that come out in the wrong order.
-/

namespace EntityQuery

variable {α : Type} {access : Access α} {cmp : Comparator} {occurs : Value → Prop}
  {view : α → View} {q : Query} {entities : List α} {plans : List Plan} {answer : Query → List α}

/-! ## Collections and answers -/

/-- Entities with distinct keys, whose values in sorts are those that a filter looks at. All values
    that are compared occur. -/
structure Collection (access : Access α) (occurs : Value → Prop) (view : α → View) (q : Query)
    (entities : List α) : Prop where
  keys     : ∀ a ∈ entities, ∃ k, access.keyOf a = .ok k ∧ occurs k
  distinct : entities.Pairwise fun a b =>
    ∀ k l, access.keyOf a = .ok k → access.keyOf b = .ok l → (k == l) = false
  values   : ∀ a ∈ entities, ∀ s ∈ q.sorts,
    access.valueOf a s.property = .ok ((view a).value s.property)
      ∧ occurs ((view a).value s.property)
  operands : ∀ a ∈ entities, ∀ p ∈ q.allPredicates, p.Occurs occurs (view a)

/-- Each concrete query is answered with the entities that satisfy it, in the order of the query. -/
structure Answers (access : Access α) (cmp : Comparator) (view : α → View) (q : Query)
    (entities : List α) (plans : List Plan) (answer : Query → List α) : Prop where
  perm   : ∀ p ∈ plans, ∀ c ∈ p.queries,
    (answer c).Perm (entities.filter fun a => c.satisfied (Predicate.passes cmp (view a)))
  sorted : ∀ p ∈ plans, ∀ c ∈ p.queries, (answer c).Pairwise (access.NotAfter cmp q.sorts)

theorem Answers.mem_iff (h : Answers access cmp view q entities plans answer) {p : Plan}
    (hp : p ∈ plans) {c : Query} (hc : c ∈ p.queries) {a : α} :
    a ∈ answer c ↔ a ∈ entities ∧ c.satisfied (Predicate.passes cmp (view a)) = true := by
  rw [(h.perm p hp c hc).mem_iff, List.mem_filter]

/-- Two elements of a list are one, or what holds pairwise holds of them in some order. -/
theorem eq_or_of_pairwise {R : α → α → Prop} {l : List α} (h : l.Pairwise R) {a b : α}
    (ha : a ∈ l) (hb : b ∈ l) : a = b ∨ R a b ∨ R b a := by
  have hsymm : l.Pairwise fun a b => a = b ∨ R a b ∨ R b a := h.imp fun hab => .inr (.inl hab)
  have hflip : l.Pairwise (flip fun a b => a = b ∨ R a b ∨ R b a) :=
    h.imp fun hab => .inr (.inr hab)
  exact List.Pairwise.forall_of_forall_of_flip (fun _ _ => .inl rfl) hsymm hflip ha hb

namespace Collection

theorem comparable (h : Collection access occurs view q entities) {a : α} (ha : a ∈ entities) :
    access.Comparable occurs q.sorts a where
  key := h.keys a ha
  values s hs := ⟨_, h.values a ha s hs⟩

/-- Comparing entities of a collection decides their order. -/
theorem orders {E : Fault → Prop} (h : Collection access occurs view q entities)
    (hcmp : cmp.Consistent occurs) :
    Orders E (access.compare cmp q.sorts) (access.NotAfter cmp q.sorts) (· ∈ entities) where
  compare ha hb := (Access.orders hcmp).compare (h.comparable ha) (h.comparable hb)
  refl ha := (Access.orders (E := E) hcmp).refl (h.comparable ha)
  trans ha hb hc :=
    (Access.orders (E := E) hcmp).trans (h.comparable ha) (h.comparable hb) (h.comparable hc)

/-- The identity of a result begins with its key. -/
theorem key_of_identify {a : α} {values : List Value}
    (h : Sifted.identify (q.identity access) a = .ok values) :
    ∃ k rest, values = k :: rest ∧ access.keyOf a = .ok k := by
  obtain ⟨vs, hvs, h⟩ := bind_eq_ok.mp h
  by_cases hkeyable : vs.all Value.keyable = true
  · rw [if_pos hkeyable] at h
    obtain rfl := Except.ok.inj h
    rw [Query.identity] at hvs
    by_cases hprojection : q.projection.isEmpty = true
    · rw [if_pos hprojection] at hvs
      obtain ⟨k, hk, hvs⟩ := bind_eq_ok.mp hvs
      exact ⟨k, [], (Except.ok.inj hvs).symm, hk⟩
    · rw [if_neg hprojection] at hvs
      obtain ⟨others, -, hvs⟩ := bind_eq_ok.mp hvs
      obtain ⟨k, hk, hvs⟩ := bind_eq_ok.mp hvs
      exact ⟨k, others, (Except.ok.inj hvs).symm, hk⟩
  · rw [if_neg hkeyable] at h
    cases h

/-- Entities of a collection are told apart by their identities. -/
theorem distinguishes (h : Collection access occurs view q entities) :
    Sifts.Distinguishes (q.identity access) (· ∈ entities) := by
  intro a b v w ha hb hv hw hvw
  obtain ⟨k, ks, rfl, hk⟩ := key_of_identify hv
  obtain ⟨l, ls, rfl, hl⟩ := key_of_identify hw
  rw [List.cons_beq_cons, Bool.and_eq_true] at hvw
  have hkey : k.keyable = true :=
    List.all_eq_true.mp (keyable_of_identify hv) k List.mem_cons_self
  have hlkey : l.keyable = true :=
    List.all_eq_true.mp (keyable_of_identify hw) l List.mem_cons_self
  have hlk : (l == k) = true :=
    (Value.beq_iff hlkey).mpr ((Value.beq_iff hkey).mp hvw.1).symm
  rcases eq_or_of_pairwise h.distinct ha hb with rfl | hab | hba
  · rfl
  · cases hvw.1.symm.trans (hab k l hk hl)
  · cases hlk.symm.trans (hba l k hl hk)

end Collection

/-! ## Groups in place -/

/-- The queries of the group for one choice of serial pieces. -/
def Plan.queryGroup (p : Plan) (first : List Clause) : List Query :=
  (choices (p.parallel.map Component.pieces)).map fun second =>
    p.query.withPredicates (p.concrete (first ++ second))

theorem Plan.queryGroups_eq (p : Plan) :
    p.queryGroups = (choices (p.serial.map Component.pieces)).map p.queryGroup := by
  rw [queryGroups, groups, List.map_map]
  refine List.map_congr_left fun first _ => ?_
  rw [queryGroup, Function.comp, List.map_map]
  rfl

theorem Plan.mem_queries {p : Plan} {c : Query} :
    c ∈ p.queries ↔ ∃ clause ∈ p.groups.flatten, p.query.withPredicates clause = c := by
  rw [queries_eq_map, List.mem_map]

/-- **In place.** A pinned plan has every entity that it finds in place. -/
theorem Plan.inPlace {p : Plan} (hcmp : cmp.Consistent occurs)
    (hcoll : Collection access occurs view q entities)
    (hanswers : Answers access cmp view q entities plans answer) (hp : p ∈ plans)
    (hquery : p.query = q) (horder : p.InOrder cmp occurs) (hsort : p.hasSort = true)
    (hpinned : p.isPinned = true) {a : α} (ha : a ∈ entities)
    (hfound : p.groups.flatten.any (·.all (Predicate.passes cmp (view a))) = true) :
    InPlace (access.NotAfter cmp q.sorts) answer p.queryGroups a := by
  subst hquery
  rw [any_groups, Bool.and_eq_true, @List.all_eq_true Component] at hfound
  obtain ⟨hfilters, hholds⟩ := hfound
  have hmem : ∀ {first}, first ∈ choices (p.serial.map Component.pieces) →
      ∀ c ∈ p.queryGroup first, c ∈ p.queries := by
    intro first hfirst c hc
    rw [queries, queryGroups_eq, List.mem_flatten]
    exact ⟨_, List.mem_map.mpr ⟨first, hfirst, rfl⟩, hc⟩
  have hsatisfied : ∀ {first second} (b : α),
      (p.query.withPredicates (p.concrete (first ++ second))).satisfied
          (Predicate.passes cmp (view b)) = true
        ↔ p.filters.all (Predicate.passes cmp (view b)) = true
          ∧ first.flatten.all (Predicate.passes cmp (view b)) = true
          ∧ second.flatten.all (Predicate.passes cmp (view b)) = true := by
    intro first second b
    rw [Query.satisfied_withPredicates, all_concrete, List.flatten_append, List.all_append,
      Bool.and_eq_true, Bool.and_eq_true]
  have hserial : ∀ c ∈ p.serial, c.holds (Predicate.passes cmp (view a)) = true :=
    fun c hc => hholds c (List.mem_of_mem_take hc)
  have hparallel : ∀ c ∈ p.parallel, c.holds (Predicate.passes cmp (view a)) = true :=
    fun c hc => hholds c (List.mem_of_mem_drop hc)
  -- the first serial choice that `a` passes: what is found for an earlier one precedes `a`
  obtain ⟨before, first, after, hchoices, hfirst, hbefore⟩ := choices_first hserial
  obtain ⟨second, hsecond, hsecondPass⟩ := exists_choice.mpr hparallel
  rw [queryGroups_eq]
  have hin : ∀ {x}, x ∈ before ++ first :: after → x ∈ choices (p.serial.map Component.pieces) :=
    fun hx => hchoices ▸ hx
  rw [hchoices, List.map_append, List.map_cons]
  refine InPlace.of_append ?_ ?_
  · intro group hgroup c hc b hb
    obtain ⟨other, hother, rfl⟩ := List.mem_map.mp hgroup
    rw [hanswers.mem_iff hp (hmem (hin (List.mem_append_left _ hother)) c hc)] at hb
    obtain ⟨hbmem, hb⟩ := hb
    obtain ⟨second', -, rfl⟩ := List.mem_map.mp hc
    have hprecedes := hbefore other hother _ ((hsatisfied b).mp hb).2.1
    have hlt := order_eq_lt hcmp horder hsort hpinned (hcoll.values b hbmem) (hcoll.values a ha)
      hprecedes
    rw [Access.NotAfter, hlt]
    decide
  · have hc : p.query.withPredicates (p.concrete (first ++ second)) ∈ p.queryGroup first :=
      List.mem_map.mpr ⟨second, hsecond, rfl⟩
    refine ⟨_, hc, ?_⟩
    rw [hanswers.mem_iff hp (hmem (hin (List.mem_append_right _ List.mem_cons_self)) _ hc)]
    exact ⟨ha, (hsatisfied a).mpr ⟨hfilters, hfirst, hsecondPass⟩⟩

/-! ## The run -/

variable {splitters : List Splitter} {settings : Settings} {keyProperty : String}

/-- What answers a query is what satisfies it. -/
theorem Answers.mem_answers_iff (hcmp : cmp.Consistent occurs)
    (hcoll : Collection access occurs view q entities)
    (hplans : q.fanOut splitters settings cmp = .ok plans)
    (hanswers : Answers access cmp view q entities plans answer) {a : α} :
    a ∈ Plan.answers plans answer ↔
      a ∈ entities ∧ q.satisfied (Predicate.passes cmp (view a)) = true := by
  rw [Plan.mem_answers]
  constructor
  · rintro ⟨p, hp, c, hc, ha⟩
    obtain ⟨hmem, hpass⟩ := (hanswers.mem_iff hp hc).mp ha
    obtain ⟨clause, hclause, rfl⟩ := Plan.mem_queries.mp hc
    rw [Query.satisfied_withPredicates] at hpass
    rw [Query.satisfied_eq_any hcmp (hcoll.operands a hmem) hplans]
    exact ⟨hmem, List.any_eq_true.mpr ⟨p, hp, List.any_eq_true.mpr ⟨clause, hclause, hpass⟩⟩⟩
  · rintro ⟨hmem, hpass⟩
    rw [Query.satisfied_eq_any hcmp (hcoll.operands a hmem) hplans] at hpass
    obtain ⟨p, hp, hpass⟩ := List.any_eq_true.mp hpass
    obtain ⟨clause, hclause, hpass⟩ := List.any_eq_true.mp hpass
    have hc : p.query.withPredicates clause ∈ p.queries :=
      Plan.mem_queries.mpr ⟨clause, hclause, rfl⟩
    refine ⟨p, hp, _, hc, (hanswers.mem_iff hp hc).mpr ⟨hmem, ?_⟩⟩
    rwa [Query.satisfied_withPredicates]

/-- The rows of a run are sorted exactly when every answer is in place. -/
theorem rows_pairwise_iff (hcmp : cmp.Consistent occurs)
    (hcoll : Collection access occurs view q entities) (hq : ∀ p ∈ plans, p.query = q)
    (hanswers : Answers access cmp view q entities plans answer) {rows : List α} {log : Log}
    (hrun : run plans (Executor.constant answer) access cmp keyProperty none
      = .ok (⟨rows, .exhausted⟩, log)) :
    rows.Pairwise (access.NotAfter cmp q.sorts) ↔ ∀ a ∈ Plan.answers plans answer,
      ∃ p ∈ plans, InPlace (access.NotAfter cmp q.sorts) answer p.queryGroups a := by
  have hmem : ∀ p ∈ plans, ∀ c ∈ p.queries, ∀ a ∈ answer c, a ∈ entities :=
    fun p hp c hc a ha => ((hanswers.mem_iff hp hc).mp ha).1
  have horders : Orders (fun _ : Fault => True) (access.compare cmp q.sorts)
      (access.NotAfter cmp q.sorts) (· ∈ entities) := hcoll.orders hcmp
  obtain ⟨c, log', hrun', hc⟩ := run_spec hq (unsortable?_of_run_eq_ok hq hrun) horders hmem
    fun _ _ _ _ => trivial
  obtain ⟨rfl, rfl⟩ := Prod.mk.inj (Except.ok.inj (hrun'.symm.trans hrun))
  obtain ⟨streams, merged, hstreams, hmerged, hsifts⟩ := hc.exhausted rfl
  refine pairwise_iff_inPlace hstreams hmerged hsifts hcoll.distinguishes horders.trans ?_
    hanswers.sorted
  intro a ha
  obtain ⟨p, hp, c, hc, ha⟩ := Plan.mem_answers.mp ha
  exact hmem p hp c hc a ha

/-- A run has rows if results can be identified and their order can be kept. -/
theorem exists_rows (hcmp : cmp.Consistent occurs)
    (hcoll : Collection access occurs view q entities) (hq : ∀ p ∈ plans, p.query = q)
    (hanswers : Answers access cmp view q entities plans answer)
    (hid : ∀ a ∈ entities, ∃ values, Sifted.identify (q.identity access) a = .ok values)
    (hsort : unsortable? keyProperty plans q = none) :
    ∃ rows log, run plans (Executor.constant answer) access cmp keyProperty none
      = .ok (⟨rows, .exhausted⟩, log) := by
  obtain ⟨c, log, hrun, hc⟩ := run_spec hq hsort (hcoll.orders (E := fun _ => False) hcmp)
    (fun p hp c hc a ha => ((hanswers.mem_iff hp hc).mp ha).1)
    (fun a ha f hf => by
      obtain ⟨values, hvalues⟩ := hid a ha
      cases hvalues.symm.trans hf)
  rw [hc.ending_eq] at hrun
  exact ⟨c.rows, log, hrun⟩

/-- **Sorted runs.** The rows of a run are sorted exactly when every entity that satisfies the query
    is in place in some plan, and so they are if all plans are pinned. A run has rows if results can
    be identified and their order can be kept. -/
theorem run_sorted (hcmp : cmp.Consistent occurs)
    (hcoll : Collection access occurs view q entities) (hsorts : q.sorts ≠ [])
    (hplans : q.fanOut Splitter.standard settings cmp = .ok plans)
    (hanswers : Answers access cmp view q entities plans answer) :
    (∀ rows log, run plans (Executor.constant answer) access cmp keyProperty none
        = .ok (⟨rows, .exhausted⟩, log) →
      (rows.Pairwise (access.NotAfter cmp q.sorts) ↔
        ∀ a ∈ entities, q.satisfied (Predicate.passes cmp (view a)) = true →
          ∃ p ∈ plans, InPlace (access.NotAfter cmp q.sorts) answer p.queryGroups a)
      ∧ ((∀ p ∈ plans, p.isPinned = true) → rows.Pairwise (access.NotAfter cmp q.sorts)))
    ∧ ((∀ a ∈ entities, ∃ values, Sifted.identify (q.identity access) a = .ok values) →
        unsortable? keyProperty plans q = none →
        ∃ rows log, run plans (Executor.constant answer) access cmp keyProperty none
          = .ok (⟨rows, .exhausted⟩, log)) := by
  have hquery := Query.fanOut_query hplans
  have hq : ∀ p ∈ plans, p.query = q := fun p hp => (hquery p hp).1
  have hplace : (∀ p ∈ plans, p.isPinned = true) → ∀ a ∈ entities,
      q.satisfied (Predicate.passes cmp (view a)) = true →
        ∃ p ∈ plans, InPlace (access.NotAfter cmp q.sorts) answer p.queryGroups a := by
    intro hpinned a ha hpass
    rw [Query.satisfied_eq_any hcmp (hcoll.operands a ha) hplans] at hpass
    obtain ⟨p, hp, hfound⟩ := List.any_eq_true.mp hpass
    have horder : p.InOrder cmp occurs :=
      Query.fanOut_inOrder hcmp hplans (fun r hr v hv => (hcoll.operands a ha r hr v hv).1) hp
    have hsort : p.hasSort = true := by
      rw [(hquery p hp).2, Query.hasSort, Bool.not_eq_true', List.isEmpty_eq_false_iff]
      exact hsorts
    exact ⟨p, hp, Plan.inPlace hcmp hcoll hanswers hp (hq p hp) horder hsort (hpinned p hp) ha
      hfound⟩
  constructor
  · intro rows log hrun
    rw [rows_pairwise_iff hcmp hcoll hq hanswers hrun]
    simp only [hanswers.mem_answers_iff hcmp hcoll hplans, and_imp, true_and]
    exact hplace
  · exact exists_rows hcmp hcoll hq hanswers

/-! ## Two tasks -/

/-- Tasks of rank 1 or 2 that pass another test, by age and then by rank. -/
def Query.ranked (p : Predicate) : Query where
  kind := some "Task"
  filter := some (.node .all [.leaf p, .leaf ⟨"rank", .oneOf [.int 1, .int 2]⟩])
  sorts := [⟨"age", .ascending⟩, ⟨"rank", .ascending⟩]

def Fields.ranked (id age rank : Int) : Fields :=
  [("__key__", .int id), ("age", .int age), ("rank", .int rank)]

/-- Two tasks, the younger one first. -/
def Fields.pair : List Fields := [.ranked 1 1 2, .ranked 2 2 1]

/-- The tasks that satisfy a query, as they stand. -/
def Fields.pairAnswer (q : Query) : List Fields :=
  pair.filter fun a => q.satisfied (Predicate.passes Value.compare (View.ofFields a))

/-- Among integers, the two tasks are a collection for any test of their ages. -/
theorem Collection.pair {p : Predicate} (hproperty : p.property = "age")
    (hp : ∀ v ∈ p.operands, ∃ i, v = .int i) :
    Collection (Access.fields defaultKeyProperty) (fun v => ∃ i, v = .int i) View.ofFields
      (Query.ranked p) Fields.pair := by
  have htask : ∀ a ∈ Fields.pair, ∃ id age rank, a = Fields.ranked id age rank := by
    intro a ha
    rcases List.mem_pair.mp ha with rfl | rfl
    · exact ⟨1, 1, 2, rfl⟩
    · exact ⟨2, 2, 1, rfl⟩
  constructor
  · intro a ha
    obtain ⟨id, age, rank, rfl⟩ := htask a ha
    exact ⟨.int id, rfl, id, rfl⟩
  · refine List.pairwise_pair.mpr ?_
    intro k l hk hl
    obtain rfl := Except.ok.inj hk
    obtain rfl := Except.ok.inj hl
    rfl
  · intro a ha s hs
    obtain ⟨id, age, rank, rfl⟩ := htask a ha
    rcases List.mem_pair.mp hs with rfl | rfl
    · exact ⟨rfl, age, rfl⟩
    · exact ⟨rfl, rank, rfl⟩
  · intro a ha r hr v hv
    obtain ⟨id, age, rank, rfl⟩ := htask a ha
    rcases List.mem_pair.mp hr with rfl | rfl
    · refine ⟨hp v hv, ?_⟩
      rw [hproperty]
      exact ⟨age, rfl⟩
    · refine ⟨?_, rank, rfl⟩
      rcases List.mem_pair.mp hv with rfl | rfl
      · exact ⟨1, rfl⟩
      · exact ⟨2, rfl⟩

/-- The tasks stand in the order of the query, and so do those that are selected. -/
theorem Answers.pair (p : Predicate) (plans : List Plan) :
    Answers (Access.fields defaultKeyProperty) Value.compare View.ofFields (Query.ranked p)
      Fields.pair plans Fields.pairAnswer where
  perm _ _ _ _ := List.Perm.refl _
  sorted _ _ _ _ := by
    have hpair : Fields.pair.Pairwise ((Access.fields defaultKeyProperty).NotAfter Value.compare
        (Query.ranked p).sorts) := by
      have hlt : (Access.fields defaultKeyProperty).order Value.compare (Query.ranked p).sorts
          (.ranked 1 1 2) (.ranked 2 2 1) = .lt := rfl
      refine List.pairwise_pair.mpr ?_
      rw [Access.NotAfter, hlt]
      decide
    exact hpair.filter _

theorem Fields.identify_pair (p : Predicate) : ∀ a ∈ pair, ∃ values, Sifted.identify
    ((Query.ranked p).identity (Access.fields defaultKeyProperty)) a = .ok values := by
  intro a ha
  rcases List.mem_pair.mp ha with rfl | rfl
  · exact ⟨[.int 1], rfl⟩
  · exact ⟨[.int 2], rfl⟩

/-- The tasks of rank 1 or 2 and of age 1 or 2. -/
def Query.rankedOneOrTwo : Query := ranked ⟨"age", .oneOf [.int 1, .int 2]⟩

/-- Their plan, in which equalities pin the age. -/
def Plan.rankedOneOrTwo : Plan :=
  ⟨.rankedOneOrTwo, [],
    [Component.of "age" Query.rankedOneOrTwo.sorts
        [[.equals "age" (.int 1)], [.equals "age" (.int 2)]],
      Component.of "rank" Query.rankedOneOrTwo.sorts
        [[.equals "rank" (.int 1)], [.equals "rank" (.int 2)]]], true⟩

/-- The two tasks come out in order, as their ages are pinned. -/
theorem run_sorted_pair :
    Query.rankedOneOrTwo.fanOut Splitter.standard {} Value.compare = .ok [.rankedOneOrTwo]
      ∧ ∃ rows log, run [.rankedOneOrTwo] (Executor.constant Fields.pairAnswer)
          (Access.fields defaultKeyProperty) Value.compare defaultKeyProperty none
          = .ok (⟨rows, .exhausted⟩, log)
        ∧ rows.Pairwise ((Access.fields defaultKeyProperty).NotAfter Value.compare
          Query.rankedOneOrTwo.sorts) := by
  have hplans : Query.rankedOneOrTwo.fanOut Splitter.standard {} Value.compare
      = .ok [.rankedOneOrTwo] :=
    Query.fanOut_single rfl (Plan.ofClause_ordered (by with_unfolding_all rfl) (by decide))
      (by decide)
  have hcoll : Collection (Access.fields defaultKeyProperty) (fun v => ∃ i, v = .int i)
      View.ofFields .rankedOneOrTwo Fields.pair := by
    refine Collection.pair rfl ?_
    intro v hv
    rcases List.mem_pair.mp hv with rfl | rfl
    · exact ⟨1, rfl⟩
    · exact ⟨2, rfl⟩
  have hanswers := Answers.pair ⟨"age", .oneOf [.int 1, .int 2]⟩ [.rankedOneOrTwo]
  have hsort : unsortable? defaultKeyProperty [.rankedOneOrTwo] .rankedOneOrTwo = none := rfl
  have hpinned : ∀ p ∈ [Plan.rankedOneOrTwo], p.isPinned = true := by
    intro p hp
    rw [List.mem_singleton.mp hp]
    rfl
  obtain ⟨hrows, hends⟩ :=
    run_sorted Value.compare_consistent_int hcoll (List.cons_ne_nil _ _) hplans hanswers
  obtain ⟨rows, log, hrun⟩ := hends (Fields.identify_pair _) hsort
  exact ⟨hplans, rows, log, hrun, (hrows rows log hrun).2 hpinned⟩

/-- The tasks of rank 1 or 2 whose age is not 5. -/
def Query.rankedNotFive : Query := ranked ⟨"age", .relation .notEqual (.int 5)⟩

/-- Their plan, which goes through the ranks inside each range of ages. -/
def Plan.rankedNotFive : Plan :=
  ⟨.rankedNotFive, [],
    [Component.of "age" Query.rankedNotFive.sorts
        [[.below "age" (.int 5)], [.above "age" (.int 5)]],
      Component.of "rank" Query.rankedNotFive.sorts
        [[.equals "rank" (.int 1)], [.equals "rank" (.int 2)]]], true⟩

/-- The two tasks come out in the wrong order, as the older one has the lesser rank and their ages
    are in one range. -/
theorem run_unsorted :
    Comparator.Consistent Value.compare (fun v => ∃ i, v = .int i)
      ∧ Collection (Access.fields defaultKeyProperty) (fun v => ∃ i, v = .int i) View.ofFields
        .rankedNotFive Fields.pair
      ∧ Query.rankedNotFive.fanOut Splitter.standard {} Value.compare = .ok [.rankedNotFive]
      ∧ Answers (Access.fields defaultKeyProperty) Value.compare View.ofFields .rankedNotFive
        Fields.pair [.rankedNotFive] Fields.pairAnswer
      ∧ ∃ rows log, run [.rankedNotFive] (Executor.constant Fields.pairAnswer)
          (Access.fields defaultKeyProperty) Value.compare defaultKeyProperty none
          = .ok (⟨rows, .exhausted⟩, log)
        ∧ ¬ rows.Pairwise ((Access.fields defaultKeyProperty).NotAfter Value.compare
          Query.rankedNotFive.sorts) := by
  have hcmp := Value.compare_consistent_int
  have hcoll : Collection (Access.fields defaultKeyProperty) (fun v => ∃ i, v = .int i)
      View.ofFields .rankedNotFive Fields.pair := by
    refine Collection.pair rfl ?_
    intro v hv
    exact ⟨5, List.mem_singleton.mp hv⟩
  have hplans : Query.rankedNotFive.fanOut Splitter.standard {} Value.compare
      = .ok [.rankedNotFive] :=
    Query.fanOut_single rfl (Plan.ofClause_ordered (by with_unfolding_all rfl) (by decide))
      (by decide)
  have hanswers := Answers.pair ⟨"age", .relation .notEqual (.int 5)⟩ [.rankedNotFive]
  have hq : ∀ p ∈ [Plan.rankedNotFive], p.query = .rankedNotFive := by
    intro p hp
    rw [List.mem_singleton.mp hp]
    rfl
  have hsort : unsortable? defaultKeyProperty [.rankedNotFive] .rankedNotFive = none := rfl
  obtain ⟨rows, log, hrun⟩ := exists_rows hcmp hcoll hq hanswers (Fields.identify_pair _) hsort
  refine ⟨hcmp, hcoll, hplans, hanswers, rows, log, hrun, ?_⟩
  rw [rows_pairwise_iff hcmp hcoll hq hanswers hrun]
  intro hall
  -- the first group asks for rank 1 among the ages below 5 and finds the older task
  obtain ⟨first, others, hgroups, hfirst⟩ : ∃ first others,
      Plan.rankedNotFive.queryGroups = [first] :: others
        ∧ Fields.pairAnswer first = [.ranked 2 2 1] := ⟨_, _, rfl, rfl⟩
  have hyoung : Fields.ranked 1 1 2 ∈ Plan.answers [.rankedNotFive] Fields.pairAnswer :=
    (hanswers.mem_answers_iff hcmp hcoll hplans).mpr ⟨List.mem_cons_self, rfl⟩
  obtain ⟨p, hp, hin⟩ := hall _ hyoung
  obtain rfl := List.mem_singleton.mp hp
  rw [hgroups] at hin
  rcases hin with ⟨c, hc, ha⟩ | ⟨hle, -⟩
  · rw [List.mem_singleton.mp hc, hfirst] at ha
    cases List.mem_singleton.mp ha
  · refine hle first List.mem_cons_self (.ranked 2 2 1) (hfirst ▸ List.mem_cons_self) ?_
    rfl

end EntityQuery
