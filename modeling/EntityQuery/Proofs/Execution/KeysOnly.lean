import EntityQuery.Proofs.Execution.Lockstep
import EntityQuery.Proofs.Fanout.Ceiling

/-!
# Keys only — runs that see nothing but keys

A backend that is asked for keys alone may leave out all the rest, or answer with whatever it has at
hand. So a run of a query for keys must not look at anything else. Two runs are compared here, on
two executors whose answers have the same keys: they ask the same queries and give rows with the
same keys, or end in the same way.

Rows are looked at in two places. To tell them apart, a query without a projection takes their keys.
To merge them, it takes the values that the query is sorted by; but where anything is merged, a
query for keys is refused unless all its sorts are on the key. If it is not refused and is sorted by
something else, there is one plan only, and in each of its groups one query: the rows are handed on
in the order of the answers.

* **`run_inStep`** — two runs in step, for any relation of their rows.
* **`Access.compare_inStep`**, **`identify_inStep`** — what is looked at, by keys.
* **`run_keysOnly`** — runs on answers with the same keys.
-/

namespace EntityQuery

variable {α β : Type} {E : Fault → Prop} {R : α → β → Prop} {occurs : Value → Prop}
  {plans : List Plan} {q : Query} {cmp : Comparator} {keyProperty : String}

/-! ## Runs in step -/

/-- Without a merge there is one query in each group. -/
theorem length_le_one_of_needsMerge {p : Plan} (h : needsMerge plans = false) (hp : p ∈ plans)
    {group : List Query} (hgroup : group ∈ p.queryGroups) : group.length ≤ 1 := by
  rw [Plan.length_of_mem_queryGroups hgroup]
  match plans, h, hp with
  | [_], h, hp =>
      obtain rfl := List.mem_singleton.mp hp
      exact Nat.not_lt.mp (of_decide_eq_false h)

/-- Two runs that are both refused for a sort, or else ask the same queries and collect related
    rows. -/
def RunsInStep (E : Fault → Prop) (R : α → β → Prop) (keyProperty : String)
    (unsortable : Option SortOrder) (r : Except Fault (Collected α × Log))
    (r' : Except Fault (Collected β × Log)) : Prop :=
  InStep (fun f => ∃ s, unsortable = some s ∧ f = .keysOnlySort keyProperty s.property)
    (fun out out' => out.1.Alike E R out'.1 ∧ out.2 = out'.2) r r'

/-- **Runs in step.** Where related rows have the same identity, and compare alike if they have to
    be merged, related answers to all queries give related rows. -/
theorem run_inStep {execute : Executor α} {execute' : Executor β} {access : Access α}
    {access' : Access β} (hq : ∀ p ∈ plans, p.query = q)
    (hask : ∀ p ∈ plans, ∀ c ∈ p.queries, c.AnsweredInStep E R execute execute')
    (hid : ∀ a b, R a b → InStep E Eq (Sifted.identify (q.identity access) a)
      (Sifted.identify (q.identity access') b))
    (hc : unsortable? keyProperty plans q = none → needsMerge plans = true →
      TestsInStep E R (access.compare cmp q.sorts) (access'.compare cmp q.sorts))
    (limit : Option Nat) :
    RunsInStep E R keyProperty (unsortable? keyProperty plans q)
      (run plans execute access cmp keyProperty limit)
      (run plans execute' access' cmp keyProperty limit) := by
  cases plans with
  | nil => exact .ok (Source.rows_mirrors.collect .nil limit [])
  | cons first rest =>
      obtain rfl := hq first List.mem_cons_self
      rw [run, run]
      cases hsort : unsortable? keyProperty (first :: rest) first.query with
      | some s =>
          simp only
          exact .error ⟨s, rfl, rfl⟩
      | none =>
          have hgroups : ∀ p ∈ first :: rest, ∀ group ∈ p.queryGroups,
              GroupInStep E R execute execute' (access.compare cmp first.query.sorts)
                (access'.compare cmp first.query.sorts) group := by
            intro p hp group hgroup
            refine ⟨fun c hcs => hask p hp c (List.mem_flatten.mpr ⟨group, hgroup, hcs⟩), ?_⟩
            cases hmerge : needsMerge (first :: rest) with
            | false => exact .inl (length_le_one_of_needsMerge hmerge hp hgroup)
            | true => exact .inr (hc hsort hmerge)
          have hpending : ∀ p ∈ first :: rest, Pending.Alike E R
              (GroupInStep E R execute execute' (access.compare cmp first.query.sorts)
                (access'.compare cmp first.query.sorts))
              { groups := p.queryGroups } { groups := p.queryGroups } :=
            fun p hp => ⟨Collected.alike_ended .nil, rfl, hgroups p hp⟩
          simp only
          cases rest with
          | nil =>
              exact .ok ((Source.groups_mirrors.distinct hid).collect
                ⟨hpending first List.mem_cons_self, rfl⟩ limit [])
          | cons second rest =>
              refine .ok (((Source.groups_mirrors.merge (hc hsort rfl)).distinct hid).collect
                ⟨Merge.alike_of ?_, rfl⟩ limit [])
              rw [List.forall₂_map_left_iff, List.forall₂_map_right_iff, List.forall₂_same]
              exact hpending

/-! ## What is looked at -/

/-- Entities with the same key, which is one that occurs. -/
def Access.SameKey (access : Access α) (E : Fault → Prop) (occurs : Value → Prop) (a b : α) :
    Prop :=
  Ends E occurs (access.keyOf a) ∧ access.keyOf a = access.keyOf b

section Keys

variable {access : Access α} {a b a' b' : α} {sorts : List SortOrder}

theorem Access.compare_eq_of_keys (hkey : ∀ a, access.valueOf a keyProperty = access.keyOf a)
    (hsorts : ∀ s ∈ sorts, s.property = keyProperty) (ha : access.keyOf a = access.keyOf a')
    (hb : access.keyOf b = access.keyOf b') :
    access.compare cmp sorts a b = access.compare cmp sorts a' b' := by
  induction sorts with
  | nil => rw [compare, compare, compareKeys, compareKeys, ha, hb]
  | cons s rest ih =>
      obtain ⟨hs, hrest⟩ := List.forall_mem_cons.mp hsorts
      rw [compare, compare, hs, hkey, hkey, hkey, hkey, ha, hb, ih hrest]

theorem Access.compare_ends (hkey : ∀ a, access.valueOf a keyProperty = access.keyOf a)
    (hcmp : ∀ v w, occurs v → occurs w → Ends E (fun _ => True) (cmp v w))
    (hsorts : ∀ s ∈ sorts, s.property = keyProperty) (ha : Ends E occurs (access.keyOf a))
    (hb : Ends E occurs (access.keyOf b)) :
    Ends E (fun _ => True) (access.compare cmp sorts a b) := by
  induction sorts with
  | nil => exact ha.bind fun v hv => hb.bind fun w hw => hcmp v w hv hw
  | cons s rest ih =>
      obtain ⟨hs, hrest⟩ := List.forall_mem_cons.mp hsorts
      rw [compare, hs, hkey, hkey]
      refine ha.bind fun v hv => hb.bind fun w hw => (hcmp v w hv hw).bind fun o _ => ?_
      cases o with
      | eq => exact ih hrest
      | lt => exact Ends.ok trivial
      | gt => exact Ends.ok trivial

/-- Sorts on the key compare entities by their keys. -/
theorem Access.compare_inStep (hkey : ∀ a, access.valueOf a keyProperty = access.keyOf a)
    (hcmp : ∀ v w, occurs v → occurs w → Ends E (fun _ => True) (cmp v w))
    (hsorts : ∀ s ∈ sorts, s.property = keyProperty) :
    TestsInStep E (access.SameKey E occurs) (access.compare cmp sorts)
      (access.compare cmp sorts) := fun _ _ _ _ ha hb =>
  .of_eq (compare_eq_of_keys hkey hsorts ha.2 hb.2) (compare_ends hkey hcmp hsorts ha.1 hb.1)

/-- Without a projection, entities are told apart by their keys. -/
theorem identify_inStep (hproj : q.projection = [])
    (hkeyable : ∀ v, occurs v → v.keyable = false → E .recordInSet)
    (h : access.SameKey E occurs a b) :
    InStep E Eq (Sifted.identify (q.identity access) a)
      (Sifted.identify (q.identity access) b) := by
  have hidentity : ∀ e, q.identity access e = access.keyOf e >>= fun v => .ok [v] := by
    intro e
    rw [Query.identity, hproj]
    rfl
  have heq : Sifted.identify (q.identity access) a = Sifted.identify (q.identity access) b := by
    rw [Sifted.identify, Sifted.identify, hidentity, hidentity, h.2]
  have hends : Ends E (fun _ => True) (Sifted.identify (q.identity access) a) := by
    have hvalues : Ends E (fun vs => ∃ v, occurs v ∧ vs = [v]) (q.identity access a) := by
      rw [hidentity]
      exact h.1.bind fun v hv => Ends.ok ⟨v, hv, rfl⟩
    refine hvalues.bind ?_
    rintro _ ⟨v, hv, rfl⟩
    cases hset : v.keyable with
    | true =>
        simp only [List.all_cons, hset, List.all_nil]
        exact Ends.ok trivial
    | false =>
        simp only [List.all_cons, hset]
        exact hkeyable v hv hset
  exact .of_eq heq hends

/-- Answers with the same keys. -/
theorem answered_of_keys {r r' : Except Fault (List α)}
    (h : r.map (List.map access.keyOf) = r'.map (List.map access.keyOf))
    (hr : Ends E (fun rows => ∀ a ∈ rows, Ends E occurs (access.keyOf a)) r) :
    InStep E (List.Forall₂ (access.SameKey E occurs)) r r' := by
  cases r with
  | error f =>
      cases r' with
      | error f' =>
          obtain rfl := Except.error.inj h
          exact .error hr
      | ok rows' => cases h
  | ok rows =>
      cases r' with
      | error f' => cases h
      | ok rows' =>
          have hkeys : rows.map access.keyOf = rows'.map access.keyOf := Except.ok.inj h
          refine .ok ((List.forall₂_and_left _ _).mpr ⟨hr, ?_⟩)
          rwa [← List.forall₂_eq_eq_eq, List.forall₂_map_left_iff, List.forall₂_map_right_iff]
            at hkeys

end Keys

/-! ## Runs on keys -/

/-- Where answers are merged, a query for keys that is not refused is sorted by key only. -/
theorem sorts_of_unsortable? (hkeys : q.keysOnly = true) (hmerge : needsMerge plans = true)
    (h : unsortable? keyProperty plans q = none) : ∀ s ∈ q.sorts, s.property = keyProperty := by
  rw [unsortable?, hkeys, hmerge, Bool.and_self, if_pos rfl, List.find?_eq_none] at h
  intro s hs
  simpa using h s hs

/-- Nothing is refused but a sort on something else, where answers are merged. -/
theorem merges_of_unsortable? {s : SortOrder} (h : unsortable? keyProperty plans q = some s) :
    needsMerge plans = true ∧ s ∈ q.sorts ∧ s.property ≠ keyProperty := by
  rw [unsortable?] at h
  split at h
  · rename_i hguard
    have hne := List.find?_some h
    exact ⟨(Bool.and_eq_true_iff.mp hguard).2, List.mem_of_find?_eq_some h, bne_iff_ne.mp hne⟩
  · cases h

section

variable {execute execute' : Executor α} {access : Access α}
  (hq : ∀ p ∈ plans, p.query = q) (hkeys : q.keysOnly = true) (hproj : q.projection = [])
  (hkey : ∀ a, access.valueOf a keyProperty = access.keyOf a)
  (hsame : ∀ p ∈ plans, ∀ c ∈ p.queries, ∀ asked,
    (execute asked c).map (List.map access.keyOf) = (execute' asked c).map (List.map access.keyOf))

include hq hkeys hproj hkey hsame

/-- Runs on answers with the same keys are in step, and fail as answers, keys and tests of keys
    do. -/
theorem run_keys_inStep (hkeyable : ∀ v, occurs v → v.keyable = false → E .recordInSet)
    (hcmp : ∀ v w, occurs v → occurs w → Ends E (fun _ => True) (cmp v w))
    (hanswers : ∀ p ∈ plans, ∀ c ∈ p.queries, ∀ asked,
      Ends E (fun rows => ∀ a ∈ rows, Ends E occurs (access.keyOf a)) (execute asked c))
    (limit : Option Nat) :
    RunsInStep E (access.SameKey E occurs) keyProperty (unsortable? keyProperty plans q)
      (run plans execute access cmp keyProperty limit)
      (run plans execute' access cmp keyProperty limit) := by
  refine run_inStep hq ?_ (fun a b hab => identify_inStep hproj hkeyable hab) ?_ limit
  · intro p hp c hc asked
    exact answered_of_keys (hsame p hp c hc asked) (hanswers p hp c hc asked)
  · intro hsort hmerge
    exact Access.compare_inStep hkey hcmp (sorts_of_unsortable? hkeys hmerge hsort)

/-- **Keys only.** A query for keys without a projection is run with an access for which the value
    of the key property is the key, on two executors whose answers have the same keys. If one run is
    refused, so is the other, for a sort on something else where answers have to be merged.
    Otherwise both ask the same queries, give rows with the same keys and end alike; and they do not
    fail if all answers and their keys are there, and the keys can be told apart and compared. -/
theorem run_keysOnly (limit : Option Nat) :
    (∃ s ∈ q.sorts, s.property ≠ keyProperty ∧ needsMerge plans = true
        ∧ run plans execute access cmp keyProperty limit
          = .error (.keysOnlySort keyProperty s.property)
        ∧ run plans execute' access cmp keyProperty limit
          = .error (.keysOnlySort keyProperty s.property))
    ∨ ∃ c c' log, run plans execute access cmp keyProperty limit = .ok (c, log)
        ∧ run plans execute' access cmp keyProperty limit = .ok (c', log)
        ∧ c.rows.map access.keyOf = c'.rows.map access.keyOf
        ∧ c.ending = c'.ending
        ∧ ((∀ p ∈ plans, ∀ c ∈ p.queries, ∀ asked, ∃ rows, execute asked c = .ok rows
              ∧ ∀ a ∈ rows, ∃ v, access.keyOf a = .ok v ∧ occurs v) →
            (∀ v, occurs v → v.keyable = true) →
            (∀ v w, occurs v → occurs w → ∃ o, cmp v w = .ok o) →
            ∀ f, c.ending ≠ .failed f) := by
  have hstep : RunsInStep (fun _ => True) (access.SameKey (fun _ => True) fun _ => True)
      keyProperty (unsortable? keyProperty plans q)
      (run plans execute access cmp keyProperty limit)
      (run plans execute' access cmp keyProperty limit) :=
    run_keys_inStep hq hkeys hproj hkey hsame (fun _ _ _ => trivial)
      (fun _ _ _ _ => Ends.trivially)
      (fun _ _ _ _ _ => Ends.trivially.mono fun _ _ _ _ => Ends.trivially) limit
  generalize hrun : run plans execute access cmp keyProperty limit = out at hstep ⊢
  generalize hrun' : run plans execute' access cmp keyProperty limit = out' at hstep ⊢
  cases hstep with
  | error h =>
      obtain ⟨s, hs, rfl⟩ := h
      obtain ⟨hmerge, hmem, hne⟩ := merges_of_unsortable? hs
      exact .inl ⟨s, hmem, hne, hmerge, rfl, rfl⟩
  | @ok out out' h =>
      obtain ⟨c, log⟩ := out
      obtain ⟨c', _⟩ := out'
      obtain ⟨hrows, rfl⟩ := h
      refine .inr ⟨c, c', log, rfl, rfl, ?_, hrows.ending, ?_⟩
      · rw [← List.forall₂_eq_eq_eq, List.forall₂_map_left_iff, List.forall₂_map_right_iff]
        exact hrows.rows.imp fun _ _ h => h.2
      · intro hanswers hkeyable hcmp f hf
        -- the same runs again, with no fault for them to end in
        have hstep : RunsInStep (fun _ => False) (access.SameKey (fun _ => False) occurs)
            keyProperty (unsortable? keyProperty plans q)
            (run plans execute access cmp keyProperty limit)
            (run plans execute' access cmp keyProperty limit) := by
          refine run_keys_inStep hq hkeys hproj hkey hsame ?_ ?_ ?_ limit
          · intro v hv hnot
            cases (hkeyable v hv).symm.trans hnot
          · intro v w hv hw
            obtain ⟨o, ho⟩ := hcmp v w hv hw
            rw [ho]
            exact Ends.ok trivial
          · intro p hp c hc asked
            obtain ⟨rows, hrows, hvalues⟩ := hanswers p hp c hc asked
            rw [hrows]
            refine Ends.ok fun a ha => ?_
            obtain ⟨v, hv, hoccurs⟩ := hvalues a ha
            rw [hv]
            exact Ends.ok hoccurs
        rw [hrun, hrun'] at hstep
        cases hstep with
        | ok h => exact h.1.failed f hf

end

/-- Entities have their key as the value of the key property, be they records or not. -/
theorem Access.valueOf_keyProperty (keyProperty : String) (e : Fields) :
    (fields keyProperty).valueOf e keyProperty = (fields keyProperty).keyOf e
      ∧ (keyed keyProperty).valueOf e keyProperty = (keyed keyProperty).keyOf e :=
  ⟨if_pos rfl, if_pos rfl⟩

/-- The keys of tasks by age, first those of twenty-five and then those of forty. -/
def Query.keysByAge : Plan where
  query := { tasks with keysOnly := true }
  components := [⟨"age", some 0, some .ascending,
    [[.equals "age" (.int 25)], [.equals "age" (.int 40)]]⟩]
  hasSort := true

/-- Which tasks are answered each time. One of them has grown older in between. -/
def Query.idsByAge (asked : Nat) : List Int := if asked = 0 then [3, 5] else [3, 1]

/-- The keys come in the order of the answers, although these do not even have the property that
    the query is sorted by, or have it wrong. -/
theorem run_keysOnly_tasks : ∃ c c' log,
    run [Query.keysByAge] (.answering fun asked _ => (Query.idsByAge asked).map (Fields.task · 7))
        (Access.fields defaultKeyProperty) Value.compare defaultKeyProperty none = .ok (c, log)
      ∧ run [Query.keysByAge]
          (.answering fun asked _ => (Query.idsByAge asked).map fun id => [("__key__", .int id)])
          (Access.fields defaultKeyProperty) Value.compare defaultKeyProperty none = .ok (c', log)
      ∧ c.rows.map (Access.fields defaultKeyProperty).keyOf
        = c'.rows.map (Access.fields defaultKeyProperty).keyOf
      ∧ ∀ f, c.ending ≠ .failed f := by
  rcases @run_keysOnly _ (fun v => ∃ i, v = .int i) [Query.keysByAge]
    { Query.tasks with keysOnly := true } Value.compare defaultKeyProperty
    (.answering fun asked _ => (Query.idsByAge asked).map (Fields.task · 7))
    (.answering fun asked _ => (Query.idsByAge asked).map fun id => [("__key__", .int id)])
    (Access.fields defaultKeyProperty) (fun p hp => by rw [List.mem_singleton.mp hp]; rfl) rfl rfl
    (fun e => (Access.valueOf_keyProperty _ e).1)
    (fun _ _ _ _ asked => congrArg Except.ok (by rw [List.map_map, List.map_map]; rfl))
    none with ⟨_, -, -, -, hrefused, -⟩ | ⟨c, c', log, hrun, hrun', hkeys, -, hends⟩
  · nomatch hrefused
  · refine ⟨c, c', log, hrun, hrun', hkeys, hends ?_ ?_ ?_⟩
    · refine fun _ _ _ _ asked => ⟨_, rfl, fun a ha => ?_⟩
      obtain ⟨id, -, rfl⟩ := List.mem_map.mp ha
      exact ⟨.int id, rfl, id, rfl⟩
    · rintro _ ⟨i, rfl⟩
      rfl
    · rintro _ _ ⟨i, rfl⟩ ⟨j, rfl⟩
      exact ⟨_, rfl⟩

end EntityQuery
