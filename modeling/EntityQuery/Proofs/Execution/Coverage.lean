import EntityQuery.Proofs.Execution.EntityOrder
import EntityQuery.Proofs.Execution.Streams
import EntityQuery.Proofs.Value.Identity

/-!
# Coverage — every answer comes out, and comes out once

Whatever the answers to the concrete queries are, sorted or not and overlapping or not, and however
their entities compare, a run that comes to its end has given an entity of every identity that is
among the answers, exactly one, and nothing that is not an answer. The order plays no part in this:
an interleaving has the elements of what it is made of, so sifting is all that there is to look at.

* **`run_covers`** — no loss and no repetition, and no fault but those of comparing and identifying.
-/

namespace EntityQuery

variable {α : Type}

/-- Whether two results are one: both have an identity that a set can hold, and it is the same. -/
def Query.sameResult (q : Query) (access : Access α) (a b : α) : Bool :=
  match Sifted.identify (q.identity access) a, Sifted.identify (q.identity access) b with
  | .ok x, .ok y => x == y
  | _, _ => false

/-- All answers to the concrete queries of plans. -/
def Plan.answers (plans : List Plan) (answer : Query → List α) : List α :=
  plans.flatMap fun p => p.queries.flatMap answer

theorem Plan.mem_answers {plans : List Plan} {answer : Query → List α} {a : α} :
    a ∈ answers plans answer ↔ ∃ p ∈ plans, ∃ c ∈ p.queries, a ∈ answer c := by
  simp only [answers, List.mem_flatMap]

/-! ## Sifting -/

theorem keyable_of_identify {identity : α → Except Fault (List Value)} {a : α}
    {values : List Value} (h : Sifted.identify identity a = .ok values) :
    values.all Value.keyable = true := by
  obtain ⟨vs, -, h⟩ := bind_eq_ok.mp h
  by_cases hvs : vs.all Value.keyable = true
  · rw [if_pos hvs] at h
    obtain rfl := Except.ok.inj h
    exact hvs
  · rw [if_neg hvs] at h
    cases h

/-- An identity has been seen when it is among the identities that have. -/
theorem contains_iff {seen : List (List Value)} {values : List Value}
    (h : values.all Value.keyable = true) :
    seen.contains values = true ↔ Value.identities values ∈ seen.map Value.identities := by
  rw [List.contains_eq_any_beq, List.any_eq_true, List.mem_map]
  constructor
  · rintro ⟨other, hmem, heq⟩
    exact ⟨other, hmem, ((Value.list_beq_iff h).mp heq).symm⟩
  · rintro ⟨other, hmem, heq⟩
    exact ⟨other, hmem, (Value.list_beq_iff h).mpr heq.symm⟩

/-- Of each identity that is there and has not been seen, sifting leaves one row. -/
theorem Sifts.countP {q : Query} {access : Access α} {seen : List (List Value)} {all rows : List α}
    (h : Sifts (q.identity access) seen all rows) {a : α} {values : List Value}
    (ha : Sifted.identify (q.identity access) a = .ok values) :
    rows.countP (q.sameResult access a)
      = if seen.contains values then 0 else if all.any (q.sameResult access a) then 1 else 0 := by
  have hkey := keyable_of_identify ha
  induction h with
  | nil => simp
  | @kept seen b as bs vb hb hnew _ ih =>
      have hsame : q.sameResult access a b = (values == vb) := by rw [Query.sameResult, ha, hb]
      rw [List.countP_cons, ih, List.any_cons, hsame, List.contains_cons]
      by_cases heq : (values == vb) = true
      -- the row that is kept is the one of this identity, and no later one is
      · have hseen : seen.contains values = false := by
          rw [← Bool.not_eq_true, contains_iff hkey, (Value.list_beq_iff hkey).mp heq,
            ← contains_iff (keyable_of_identify hb), hnew]
          exact Bool.false_ne_true
        simp [heq, hseen]
      · simp [heq]
  | @dropped seen b as bs vb hb hseen _ ih =>
      have hsame : q.sameResult access a b = (values == vb) := by rw [Query.sameResult, ha, hb]
      rw [ih, List.any_cons, hsame]
      by_cases heq : (values == vb) = true
      · have hold : seen.contains values = true := by
          rw [contains_iff hkey, (Value.list_beq_iff hkey).mp heq,
            ← contains_iff (keyable_of_identify hb), hseen]
        rw [if_pos hold, if_pos hold]
      · simp [heq]

/-- What is left out or kept has an identity. -/
theorem Sifts.identify_eq_ok {identity : α → Except Fault (List Value)} {seen : List (List Value)}
    {all rows : List α} (h : Sifts identity seen all rows) {a : α} (ha : a ∈ all) :
    ∃ values, Sifted.identify identity a = .ok values := by
  induction h with
  | nil => cases ha
  | kept hid _ _ ih =>
      rcases List.mem_cons.mp ha with rfl | ha
      · exact ⟨_, hid⟩
      · exact ih ha
  | dropped hid _ _ ih =>
      rcases List.mem_cons.mp ha with rfl | ha
      · exact ⟨_, hid⟩
      · exact ih ha

/-! ## Streams -/

/-- The rows of groups are the answers to their queries. -/
theorem Streams.mem_iff {le : α → α → Prop} {answer : Query → List α} {groups : List (List Query)}
    {stream : List α} (h : Streams le answer groups stream) {a : α} :
    a ∈ stream ↔ ∃ c ∈ groups.flatten, a ∈ answer c := by
  obtain ⟨parts, hparts, rfl⟩ := h
  rw [List.mem_flatten]
  constructor
  · rintro ⟨part, hpart, ha⟩
    obtain ⟨group, hgroup, hm⟩ := exists_left_of_forall₂ hparts hpart
    obtain ⟨l, hl, ha⟩ := hm.mem.mp ha
    obtain ⟨c, hc, rfl⟩ := List.mem_map.mp hl
    exact ⟨c, List.mem_flatten.mpr ⟨group, hgroup, hc⟩, ha⟩
  · rintro ⟨c, hc, ha⟩
    obtain ⟨group, hgroup, hc⟩ := List.mem_flatten.mp hc
    obtain ⟨part, hpart, hm⟩ := exists_right_of_forall₂ hparts hgroup
    exact ⟨part, hpart, hm.mem.mpr ⟨answer c, List.mem_map.mpr ⟨c, hc, rfl⟩, ha⟩⟩

/-- The rows of all plans are the answers to their queries. -/
theorem mem_merged_iff {le : α → α → Prop} {answer : Query → List α} {plans : List Plan}
    {streams : List (List α)} {merged : List α}
    (hstreams : List.Forall₂ (fun p stream => Streams le answer p.queryGroups stream) plans streams)
    (hmerged : Interleaves le streams merged) {a : α} :
    a ∈ merged ↔ a ∈ Plan.answers plans answer := by
  rw [hmerged.mem, Plan.mem_answers]
  constructor
  · rintro ⟨stream, hstream, ha⟩
    obtain ⟨p, hp, hrows⟩ := exists_left_of_forall₂ hstreams hstream
    exact ⟨p, hp, hrows.mem_iff.mp ha⟩
  · rintro ⟨p, hp, ha⟩
    obtain ⟨stream, hstream, hrows⟩ := exists_right_of_forall₂ hstreams hp
    exact ⟨stream, hstream, hrows.mem_iff.mpr ha⟩

/-! ## Runs -/

variable {answer : Query → List α} {plans : List Plan} {q : Query} {access : Access α}
  {cmp : Comparator} {keyProperty : String}

/-- Any relation that says nothing is decided by any comparison, as far as its faults go. -/
theorem orders_trivially {E : Fault → Prop} {P : α → Prop} {order : α → α → Except Fault Ordering}
    (h : ∀ {a b}, P a → P b → ∀ f, order a b = .error f → E f) :
    Orders E order (fun _ _ => True) P where
  compare {a b} ha hb := by
    cases hab : order a b with
    | ok o => exact Ends.ok ⟨fun _ => trivial, fun _ => trivial⟩
    | error f => exact h ha hb f hab
  refl _ := trivial
  trans _ _ _ _ _ := trivial

/-- A run that starts at all can keep the order. -/
theorem unsortable?_of_run_eq_ok {execute : Executor α} {limit : Option Nat}
    {out : Collected α × Log} (hq : ∀ p ∈ plans, p.query = q)
    (h : run plans execute access cmp keyProperty limit = .ok out) :
    unsortable? keyProperty plans q = none := by
  cases plans with
  | nil => rw [unsortable?, needsMerge, Bool.and_false, if_neg Bool.false_ne_true]
  | cons first rest =>
      obtain rfl := hq first List.mem_cons_self
      cases hsort : unsortable? keyProperty (first :: rest) first.query with
      | none => rfl
      | some s =>
          rw [run] at h
          simp only [hsort] at h
          cases h

/-- **Coverage.** A run that ends without a fault gives answers only, and for each answer exactly
    one row that is the same result. If answers can be compared and identified, and their order can
    be kept, a run does end without a fault. -/
theorem run_covers (hq : ∀ p ∈ plans, p.query = q) :
    (∀ rows log, run plans (Executor.constant answer) access cmp keyProperty none
        = .ok (⟨rows, .exhausted⟩, log) →
      (∀ r ∈ rows, r ∈ Plan.answers plans answer)
        ∧ ∀ a ∈ Plan.answers plans answer, rows.countP (q.sameResult access a) = 1)
    ∧ ((∀ a ∈ Plan.answers plans answer, ∀ b ∈ Plan.answers plans answer,
          ∃ o, access.compare cmp q.sorts a b = .ok o) →
        (∀ a ∈ Plan.answers plans answer,
          ∃ values, Sifted.identify (q.identity access) a = .ok values) →
        unsortable? keyProperty plans q = none →
        ∃ rows log, run plans (Executor.constant answer) access cmp keyProperty none
          = .ok (⟨rows, .exhausted⟩, log)) := by
  have hanswers : ∀ p ∈ plans, ∀ c ∈ p.queries, ∀ a ∈ answer c, a ∈ Plan.answers plans answer :=
    fun p hp c hc a ha => Plan.mem_answers.mpr ⟨p, hp, c, hc, ha⟩
  constructor
  · intro rows log hrun
    obtain ⟨c, log', hrun', hc⟩ := run_spec (E := fun _ => True) hq
      (unsortable?_of_run_eq_ok hq hrun) (orders_trivially fun _ _ _ _ => trivial) hanswers
      (fun _ _ _ _ => trivial)
    obtain ⟨rfl, rfl⟩ := Prod.mk.inj (Except.ok.inj (hrun'.symm.trans hrun))
    obtain ⟨streams, merged, hstreams, hmerged, hsifts⟩ := hc.exhausted rfl
    refine ⟨hc.rows, ?_⟩
    intro a ha
    have hmem : a ∈ merged := (mem_merged_iff hstreams hmerged).mpr ha
    obtain ⟨values, hvalues⟩ := hsifts.identify_eq_ok hmem
    have hself : q.sameResult access a a = true := by
      rw [Query.sameResult, hvalues]
      exact (Value.list_beq_iff (keyable_of_identify hvalues)).mpr rfl
    rw [hsifts.countP hvalues, if_neg (by simp), if_pos (List.any_eq_true.mpr ⟨a, hmem, hself⟩)]
  · intro hcmp hid hsort
    obtain ⟨c, log, hrun, hc⟩ := run_spec (E := fun _ => False) hq hsort
      (orders_trivially fun {a b} ha hb f hf => by
        obtain ⟨o, ho⟩ := hcmp a ha b hb
        cases ho.symm.trans hf) hanswers
      (fun a ha f hf => by
        obtain ⟨values, hvalues⟩ := hid a ha
        cases hvalues.symm.trans hf)
    rw [hc.ending_eq] at hrun
    exact ⟨c.rows, log, hrun⟩

/-! ## Two queries with an answer in common -/

/-- Tasks by age. -/
def Query.tasks : Query where
  kind := some "Task"
  sorts := [⟨"age", .ascending⟩]

/-- The tasks that are open, and those that are late. -/
def Query.taskPlans : List Plan :=
  [⟨tasks, [.equals "open" (.bool true)], [], true⟩,
    ⟨tasks, [.equals "late" (.bool true)], [], true⟩]

def Fields.task (id age : Int) : Fields := [("__key__", .int id), ("age", .int age)]

/-- Two tasks are open and two are late, and one of them is both. Neither answer is sorted. -/
def Query.taskAnswer (q : Query) : List Fields :=
  match q.predicates with
  | .ok [p] => if p.property = "open" then [.task 1 30, .task 2 20] else [.task 1 30, .task 3 10]
  | _ => []

/-- Of the four tasks in the two answers, the one that is in both comes out once. -/
theorem run_covers_tasks : ∃ rows log,
    run Query.taskPlans (Executor.constant Query.taskAnswer) (Access.fields defaultKeyProperty)
        Value.compare defaultKeyProperty none = .ok (⟨rows, .exhausted⟩, log)
      ∧ Plan.answers Query.taskPlans Query.taskAnswer
          = [.task 1 30, .task 2 20, .task 1 30, .task 3 10]
      ∧ ∀ a ∈ Plan.answers Query.taskPlans Query.taskAnswer,
          rows.countP (Query.tasks.sameResult (Access.fields defaultKeyProperty) a) = 1 := by
  have hq : ∀ p ∈ Query.taskPlans, p.query = Query.tasks := by
    intro p hp
    rcases List.mem_cons.mp hp with rfl | hp
    · rfl
    · obtain rfl := List.mem_singleton.mp hp
      rfl
  have hanswers : Plan.answers Query.taskPlans Query.taskAnswer
      = [.task 1 30, .task 2 20, .task 1 30, .task 3 10] := by
    rfl
  have htask : ∀ a ∈ Plan.answers Query.taskPlans Query.taskAnswer,
      ∃ id age, a = Fields.task id age := by
    intro a ha
    rw [hanswers] at ha
    simp only [List.mem_cons, List.not_mem_nil, or_false] at ha
    rcases ha with rfl | rfl | rfl | rfl <;> exact ⟨_, _, rfl⟩
  have hcomparable : ∀ a ∈ Plan.answers Query.taskPlans Query.taskAnswer,
      (Access.fields defaultKeyProperty).Comparable (fun v => ∃ i, v = .int i)
        Query.tasks.sorts a := by
    intro a ha
    obtain ⟨id, age, rfl⟩ := htask a ha
    refine ⟨⟨.int id, rfl, id, rfl⟩, ?_⟩
    intro s hs
    obtain rfl := List.mem_singleton.mp hs
    exact ⟨.int age, rfl, age, rfl⟩
  obtain ⟨hcovers, hends⟩ := @run_covers _ Query.taskAnswer Query.taskPlans Query.tasks
    (Access.fields defaultKeyProperty) Value.compare defaultKeyProperty hq
  obtain ⟨rows, log, hrun⟩ := hends
    (fun a ha b hb => ⟨_, (Access.compare_total Value.compare_consistent_int (hcomparable a ha)
      (hcomparable b hb)).1⟩)
    (fun a ha => by
      obtain ⟨id, age, rfl⟩ := htask a ha
      exact ⟨[.int id], rfl⟩)
    (by decide)
  exact ⟨rows, log, hrun, hanswers, (hcovers rows log hrun).2⟩

end EntityQuery
