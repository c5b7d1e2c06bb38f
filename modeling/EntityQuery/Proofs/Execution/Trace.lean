import EntityQuery.Proofs.Execution.Coverage

/-!
# Traces — readings and the worlds they leave

An executor may answer a query differently each time it is asked, so what a source gives can depend
on the world in which it is read. A *trace* follows a source through the worlds: it has the rows in
order, each with the world that reading it has left, and the world when there are no more. To read
some number of rows is to read a trace so far, and no further: the world is left as the last of
these rows has left it.

The trace of a plan has the rows of its groups one after the other, and the log that each row leaves
ends with the queries of the row's own group. Sifting a source leaves out rows of its trace, and the
worlds of the others are what they were.

* **`Source.Traces.collect_some`** — what is read of a trace, and in which world that ends.
* **`traces_groups`** — the trace of a plan.
* **`Source.Traces.distinct`** — the trace of a sifted source.
-/

namespace EntityQuery

variable {ω α σ : Type}

namespace Source

variable {S : Source ω α σ} {s t : σ} {w w' e : ω} {ts : List (α × ω)}

/-- The rows that a state gives from a world on, each with the world that its reading leaves, and
    the world in which there are no more. -/
inductive Traces (S : Source ω α σ) : σ → ω → List (α × ω) → ω → Prop
  | row {s s' : σ} {w w' e : ω} {a : α} {ts : List (α × ω)} (h : S.read s w = (.row a s', w'))
      (rest : Traces S s' w' ts e) : Traces S s w ((a, w') :: ts) e
  | done {s : σ} {w e : ω} (h : S.read s w = (.done, e)) : Traces S s w [] e

/-- The world in which a number of rows of a trace have been read. -/
def worldAfter : Nat → ω → List (α × ω) → ω → ω
  | 0, w, _, _ => w
  | _ + 1, _, [], e => e
  | k + 1, _, t :: ts, e => worldAfter k t.2 ts e

/-- A state that is read as another one has its trace. -/
theorem Traces.of_read (h : S.read s w = S.read t w') (ht : S.Traces t w' ts e) :
    S.Traces s w ts e := by
  cases ht with
  | row ht rest => exact .row (h.trans ht) rest
  | done ht => exact .done (h.trans ht)

/-- Collecting goes on with what one reading gives, and in the world that it leaves. -/
theorem collect_of_ne_zero {limit : Option Nat} (hlimit : limit ≠ some 0) (s : σ) (w : ω) :
    S.collect limit s w = match S.read s w with
      | (.row a s', w') =>
          ((S.collect (limit.map (· - 1)) s' w').1.push a, (S.collect (limit.map (· - 1)) s' w').2)
      | (.done, w') => (⟨[], .exhausted⟩, w')
      | (.failed f, w') => (⟨[], .failed f⟩, w') := by
  rw [collect, if_neg hlimit]
  split
  · rename_i heq
    rw [heq]
  · rename_i heq
    rw [heq]
  · rename_i heq
    rw [heq]

@[simp] theorem collect_zero : S.collect (some 0) s w = (⟨[], .stopped⟩, w) := by
  rw [collect, if_pos rfl]

/-- Without a limit a trace is read to its end. -/
theorem Traces.collect_none (h : S.Traces s w ts e) :
    S.collect none s w = (⟨ts.map Prod.fst, .exhausted⟩, e) := by
  induction h with
  | row h _ ih =>
      rw [collect_of_ne_zero (Option.some_ne_none 0).symm, h]
      show (Collected.push _ (collect S none _ _).1, (collect S none _ _).2) = _
      rw [ih]
      rfl
  | done h => rw [collect_of_ne_zero (Option.some_ne_none 0).symm, h, List.map_nil]

/-- **With a limit** a trace is read so far, and the world is left as the last row has left it. -/
theorem Traces.collect_some (h : S.Traces s w ts e) (k : Nat) :
    S.collect (some k) s w = (⟨(ts.map Prod.fst).take k,
      if k ≤ ts.length then .stopped else .exhausted⟩, worldAfter k w ts e) := by
  induction h generalizing k with
  | @row s s' w w' e a ts h _ ih =>
      cases k with
      | zero => rw [collect_zero, List.take_zero, if_pos (Nat.zero_le _), worldAfter]
      | succ k =>
          rw [collect_of_ne_zero (by simp), h]
          show (Collected.push _ (collect S (some k) _ _).1, (collect S (some k) _ _).2) = _
          rw [ih]
          simp only [List.length_cons, Nat.succ_le_succ_iff]
          rfl
  | @done s w e h =>
      cases k with
      | zero => rw [collect_zero, List.take_zero, if_pos (Nat.zero_le _), worldAfter]
      | succ k =>
          rw [collect_of_ne_zero (by simp), h]
          rfl

end Source

/-! ## Sifting -/

namespace Sifted

/-- Sifting goes on with what one reading gives, and in the world that it leaves. -/
theorem read_of_source (S : Source ω α σ) (identity : α → Except Fault (List Value))
    (seen : List (List Value)) (s : σ) (w : ω) :
    read S identity seen s w = match S.read s w with
      | (.row a s', w') =>
          match identify identity a with
          | .error f => (.failed f, w')
          | .ok values =>
              if seen.contains values then read S identity seen s' w'
              else (.row a ⟨s', values :: seen⟩, w')
      | (.done, w') => (.done, w')
      | (.failed f, w') => (.failed f, w') := by
  rw [read]
  split
  · rename_i a _ _ heq
    cases hid : identify identity a <;> simp only [heq, hid]
  · rename_i heq
    rw [heq]
  · rename_i heq
    rw [heq]

end Sifted

/-- **A sifted source** has the rows of its source that sifting leaves, in the same worlds. -/
theorem Source.Traces.distinct {S : Source ω α σ} {identity : α → Except Fault (List Value)}
    {s : σ} {w e : ω} {ts kept : List (α × ω)} (h : S.Traces s w ts e) {seen : List (List Value)}
    (hs : Sifts (fun t : α × ω => identity t.1) seen ts kept) :
    (S.distinct identity).Traces ⟨s, seen⟩ w kept e := by
  induction h generalizing seen kept with
  | @row s s' w w' e a ts h _ ih =>
      cases hs with
      | @kept _ _ _ bs values hid hnew hrest =>
          refine .row ?_ (ih hrest)
          have hid : Sifted.identify identity a = .ok values := hid
          show Sifted.read S identity seen s w = _
          rw [Sifted.read_of_source, h]
          simp only [hid, hnew, Bool.false_eq_true, if_false]
      | @dropped _ _ _ _ values hid hseen hrest =>
          refine .of_read ?_ (ih hrest)
          have hid : Sifted.identify identity a = .ok values := hid
          show Sifted.read S identity seen s w = Sifted.read S identity seen s' w'
          rw [Sifted.read_of_source, h]
          simp only [hid, hseen, if_true]
  | @done s w e h =>
      cases hs
      refine .done ?_
      show Sifted.read S identity seen s w = _
      rw [Sifted.read_of_source, h]

/-! ## Groups -/

/-- The executor that gives an answer which may depend on how many queries it was asked before. -/
def Executor.answering (answer : Nat → Query → List α) : Executor α := fun asked q =>
  .ok (answer asked q)

/-- The answers to queries that are asked in order, after a number of other queries. -/
def answersFrom (answer : Nat → Query → List α) : Nat → List Query → List (List α)
  | _, [] => []
  | asked, q :: qs => answer asked q :: answersFrom answer (asked + 1) qs

section Groups

variable {answer : Nat → Query → List α} {cmp : α → α → Except Fault Ordering}

theorem answersFrom_append (asked : Nat) (qs rs : List Query) :
    answersFrom answer asked (qs ++ rs)
      = answersFrom answer asked qs ++ answersFrom answer (asked + qs.length) rs := by
  induction qs generalizing asked with
  | nil => rfl
  | cons q qs ih =>
      rw [List.cons_append, answersFrom, answersFrom, ih, List.length_cons, List.cons_append,
        Nat.add_right_comm, Nat.add_assoc]

@[simp] theorem askAll_answering (qs : List Query) (log : Log) :
    askAll (Executor.answering answer) qs log
      = (.ok (answersFrom answer log.length qs), log ++ qs) := by
  induction qs generalizing log with
  | nil => rw [askAll, List.append_nil, answersFrom]
  | cons q qs ih =>
      rw [askAll]
      dsimp only [Executor.answering] at ih ⊢
      rw [ih, List.append_assoc, List.length_append]
      rfl

@[simp] theorem askGroup_answering (group : List Query) (log : Log) :
    askGroup (Executor.answering answer) cmp group log
      = (Source.mergeLists cmp (answersFrom answer log.length group), log ++ group) := by
  rw [askGroup, askAll_answering]

/-- Reading on into a group is reading its merged answers. -/
theorem Pending.readGroups_answering (group : List Query) (groups : List (List Query))
    (log : Log) :
    readGroups (Executor.answering answer) cmp (group :: groups) log
      = read (Executor.answering answer) cmp
          ⟨Source.mergeLists cmp (answersFrom answer log.length group), groups⟩ (log ++ group) := by
  rw [readGroups, askGroup_answering, read]
  rcases Source.mergeLists cmp (answersFrom answer log.length group)
    with ⟨_ | ⟨a, as⟩, _ | _ | f⟩ <;> rfl

/-- Lists whose elements can be compared are merged to the end. -/
theorem Source.mergeLists_eq {lists : List (List α)}
    (h : ∀ a ∈ lists.flatten, ∀ b ∈ lists.flatten, ∃ o, cmp a b = .ok o) :
    ∃ rows, mergeLists cmp lists = ⟨rows, .exhausted⟩ ∧ rows.Perm lists.flatten := by
  have horders : Orders (fun _ => False) cmp (fun _ _ => True) (· ∈ lists.flatten) := by
    refine orders_trivially fun {a b} ha hb f hf => ?_
    obtain ⟨o, ho⟩ := h a ha b hb
    cases ho.symm.trans hf
  have hends := mergeLists_ends horders fun l hl a ha => List.mem_flatten.mpr ⟨l, hl, ha⟩
  refine ⟨_, hends.ending_eq, (hends.exhausted ?_).perm⟩
  rw [hends.ending_eq]

/-- The rows of groups that are asked one after the other, each with the log after its group. -/
def logged (answer : Nat → Query → List α) (cmp : α → α → Except Fault Ordering) :
    Log → List (List Query) → List (List (α × Log))
  | _, [] => []
  | log, group :: groups =>
    (Source.mergeLists cmp (answersFrom answer log.length group)).rows.map (·, log ++ group)
      :: logged answer cmp (log ++ group) groups

/-- What is left of a group that has been asked comes first, and asks nothing. -/
theorem traces_current {execute : Executor α} {groups : List (List Query)} {log e : Log}
    {ts : List (α × Log)}
    (h : (Source.groups execute cmp).Traces ⟨⟨[], .exhausted⟩, groups⟩ log ts e) (as : List α) :
    (Source.groups execute cmp).Traces ⟨⟨as, .exhausted⟩, groups⟩ log
      (as.map (·, log) ++ ts) e := by
  induction as with
  | nil => exact h
  | cons a as ih => exact .row rfl ih

/-- **The trace of a plan** whose answers can be compared: group by group, all of them. -/
theorem traces_groups {groups : List (List Query)} {log : Log}
    (h : ∀ a ∈ (answersFrom answer log.length groups.flatten).flatten,
      ∀ b ∈ (answersFrom answer log.length groups.flatten).flatten, ∃ o, cmp a b = .ok o) :
    (Source.groups (Executor.answering answer) cmp).Traces ⟨⟨[], .exhausted⟩, groups⟩ log
      (logged answer cmp log groups).flatten (log ++ groups.flatten) := by
  induction groups generalizing log with
  | nil =>
      rw [List.flatten_nil, List.append_nil]
      exact .done rfl
  | cons group groups ih =>
      rw [List.flatten_cons, answersFrom_append, List.flatten_append, ← List.length_append] at h
      obtain ⟨rows, hrows, -⟩ := Source.mergeLists_eq fun a ha b hb =>
        h a (List.mem_append_left _ ha) b (List.mem_append_left _ hb)
      have hrest := ih fun a ha b hb =>
        h a (List.mem_append_right _ ha) b (List.mem_append_right _ hb)
      rw [logged, List.flatten_cons, List.flatten_cons, ← List.append_assoc log, hrows]
      refine .of_read ?_ (traces_current hrest rows)
      show Pending.readGroups _ cmp (group :: groups) log = Pending.read _ cmp _ (log ++ group)
      rw [Pending.readGroups_answering, hrows]

end Groups

end EntityQuery
