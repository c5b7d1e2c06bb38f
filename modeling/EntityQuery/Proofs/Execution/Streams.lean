import EntityQuery.Execution
import EntityQuery.Proofs.Execution.Contents
import EntityQuery.Proofs.Pairing

/-!
# Streams — the rows of plans

An executor that answers every query the same way whenever it is asked makes the rows of a plan a
matter of its groups: the answers of a group are interleaved, and what they give is strung together
group by group (`Streams`). The streams of several plans are interleaved again and then sifted: a
row is left out when its identity has been seen (`Sifts`).

* **`run_spec`** — the rows of a run are sifted from an interleaving of the streams of its plans.
-/

namespace EntityQuery

variable {ω α σ : Type} {E : Fault → Prop} {P : α → Prop} {le : α → α → Prop}
  {cmp : α → α → Except Fault Ordering} {Q : List α → Prop}

/-- A state that can be read as another one gives what that one gives. -/
theorem Source.Gives.of_read {S : Source ω α σ} {s t : σ} {c : Collected α}
    (h : ∀ w, ∃ w', (S.read s w).1 = (S.read t w').1) (ht : S.Gives t c) : S.Gives s c := by
  cases ht with
  | row ht rest =>
      refine .row (fun w => ?_) rest
      obtain ⟨w', hw⟩ := h w
      rw [hw, ht]
  | done ht =>
      refine .done fun w => ?_
      obtain ⟨w', hw⟩ := h w
      rw [hw, ht]
  | failed ht =>
      refine .failed fun w => ?_
      obtain ⟨w', hw⟩ := h w
      rw [hw, ht]

/-! ## Groups -/

/-- Lists that are merged give an interleaving. -/
theorem Source.mergeLists_ends (ho : Orders E cmp le P) {lists : List (List α)}
    (hP : ∀ l ∈ lists, ∀ a ∈ l, P a) :
    (mergeLists cmp lists).Ends P E (Interleaves le lists) := by
  have hmerged : ((rows.merge cmp).collect none (Merge.of lists) ()).1.Ends P E
      (Interleaves le lists) := by
    have hgives : List.Forall₂ (rows : Source Unit α (List α)).Gives lists
        (lists.map (⟨·, .exhausted⟩)) := by
      rw [List.forall₂_map_right_iff]
      exact List.forall₂_same.mpr fun as _ => rows_gives as
    have hcs : ∀ c ∈ lists.map (fun as => (⟨as, .exhausted⟩ : Collected α)),
        c.Ends P E fun _ => True := by
      intro c hc
      obtain ⟨as, has, rfl⟩ := List.mem_map.mp hc
      exact .ended (hP as has) trivial
    obtain ⟨d, hd, hEnds⟩ := gives_merge ho hgives hcs
    rw [collect_eq hd]
    refine hEnds.mono ?_
    rintro m ⟨-, hm⟩
    rwa [List.map_map, show Collected.rows ∘ _ = id from rfl, List.map_id] at hm
  rcases lists with _ | ⟨as, _ | ⟨bs, lists⟩⟩
  · exact hmerged
  · have has := hP as (List.mem_singleton_self as)
    exact .ended has (.single fun a ha => ho.refl (has a ha))
  · exact hmerged

/-- What one collection gives and then, unless it fails, another one. -/
def Collected.followedBy (c d : Collected α) : Collected α :=
  match c.ending with
  | .failed f => ⟨c.rows, .failed f⟩
  | _ => ⟨c.rows ++ d.rows, d.ending⟩

theorem Collected.Ends.followedBy {R : List α → Prop} {c d : Collected α} (hc : c.Ends P E Q)
    (hd : d.Ends P E R) :
    (c.followedBy d).Ends P E fun xs => ∃ as bs, Q as ∧ R bs ∧ xs = as ++ bs := by
  obtain ⟨as, ending⟩ := c
  cases ending with
  | exhausted =>
      refine ⟨?_, fun h => ⟨as, d.rows, hc.exhausted rfl, hd.exhausted h, rfl⟩, hd.failed,
        hd.unstopped⟩
      intro a ha
      rcases List.mem_append.mp ha with ha | ha
      · exact hc.rows a ha
      · exact hd.rows a ha
  | stopped => exact absurd rfl hc.unstopped
  | failed f =>
      refine ⟨hc.rows, ?_, hc.failed, ?_⟩
      · intro hend
        cases hend
      · intro hend
        cases hend

section Groups

/-- The executor that answers every query the same way whenever it is asked. -/
def Executor.constant (answer : Query → List α) : Executor α := fun _ q => .ok (answer q)

variable {answer : Query → List α}

/-- The rows of groups: the answers within a group interleaved, one group after the other. -/
def Streams (le : α → α → Prop) (answer : Query → List α) (groups : List (List Query))
    (rows : List α) : Prop :=
  ∃ parts, List.Forall₂ (fun group part => Interleaves le (group.map answer) part) groups parts
    ∧ rows = parts.flatten

@[simp] theorem askAll_constant (qs : List Query) (log : Log) :
    askAll (Executor.constant answer) qs log = (.ok (qs.map answer), log ++ qs) := by
  induction qs generalizing log with
  | nil => rw [askAll, List.append_nil, List.map_nil]
  | cons q qs ih =>
      rw [askAll]
      dsimp only [Executor.constant] at ih ⊢
      rw [ih, List.append_assoc]
      rfl

@[simp] theorem askGroup_constant (group : List Query) (log : Log) :
    askGroup (Executor.constant answer) cmp group log
      = (Source.mergeLists cmp (group.map answer), log ++ group) := by
  rw [askGroup, askAll_constant]

/-- Reading on into a group is reading its merged answers. -/
theorem Pending.readGroups_cons (group : List Query) (groups : List (List Query)) (log : Log) :
    readGroups (Executor.constant answer) cmp (group :: groups) log
      = read (Executor.constant answer) cmp
          ⟨Source.mergeLists cmp (group.map answer), groups⟩ (log ++ group) := by
  rw [readGroups, askGroup_constant, read]
  rcases Source.mergeLists cmp (group.map answer) with ⟨_ | ⟨a, as⟩, _ | _ | f⟩ <;> rfl

/-- What is left of a group that has been asked comes before what the other groups give. -/
theorem gives_current {groups : List (List Query)} {d : Collected α}
    (hd : (Source.groups (Executor.constant answer) cmp).Gives ⟨⟨[], .exhausted⟩, groups⟩ d)
    {c : Collected α} (hc : c.ending ≠ .stopped) :
    (Source.groups (Executor.constant answer) cmp).Gives ⟨c, groups⟩ (c.followedBy d) := by
  obtain ⟨as, ending⟩ := c
  induction as with
  | nil =>
      cases ending with
      | exhausted => exact hd
      | stopped => exact absurd rfl hc
      | failed f => exact .failed fun _ => rfl
  | cons a as ih =>
      have h := Source.Gives.row (S := Source.groups (Executor.constant answer) cmp)
        (s := ⟨⟨a :: as, ending⟩, groups⟩) (fun _ => rfl) (ih hc)
      cases ending <;> exact h

/-- The contents of groups that have not been asked. -/
theorem gives_groups (ho : Orders E cmp le P) {groups : List (List Query)}
    (hP : ∀ group ∈ groups, ∀ q ∈ group, ∀ a ∈ answer q, P a) :
    ∃ d, (Source.groups (Executor.constant answer) cmp).Gives ⟨⟨[], .exhausted⟩, groups⟩ d
      ∧ d.Ends P E (Streams le answer groups) := by
  induction groups with
  | nil =>
      exact ⟨_, .done fun _ => rfl, .ended (List.forall_mem_nil _) ⟨[], .nil, rfl⟩⟩
  | cons group groups ih =>
      obtain ⟨d, hd, hEnds⟩ := ih fun group hgroup => hP group (List.mem_cons_of_mem _ hgroup)
      have hmerged : (Source.mergeLists cmp (group.map answer)).Ends P E
          (Interleaves le (group.map answer)) := by
        apply Source.mergeLists_ends ho
        intro l hl a ha
        obtain ⟨q, hq, rfl⟩ := List.mem_map.mp hl
        exact hP group List.mem_cons_self q hq a ha
      refine ⟨_, .of_read ?_ (gives_current hd hmerged.unstopped),
        (hmerged.followedBy hEnds).mono ?_⟩
      · intro log
        exact ⟨log ++ group, congrArg Prod.fst (Pending.readGroups_cons group groups log)⟩
      · rintro _ ⟨part, _, hpart, ⟨parts, hparts, rfl⟩, rfl⟩
        exact ⟨part :: parts, .cons hpart hparts, rfl⟩

end Groups

/-! ## Sifting -/

/-- Rows with those left out whose identity has been seen. -/
inductive Sifts (identity : α → Except Fault (List Value)) :
    List (List Value) → List α → List α → Prop
  | nil {seen : List (List Value)} : Sifts identity seen [] []
  | kept {seen : List (List Value)} {a : α} {as bs : List α} {values : List Value}
      (hid : Sifted.identify identity a = .ok values) (hnew : seen.contains values = false)
      (rest : Sifts identity (values :: seen) as bs) : Sifts identity seen (a :: as) (a :: bs)
  | dropped {seen : List (List Value)} {a : α} {as bs : List α} {values : List Value}
      (hid : Sifted.identify identity a = .ok values) (hseen : seen.contains values = true)
      (rest : Sifts identity seen as bs) : Sifts identity seen (a :: as) bs

theorem Sifted.read_eq (S : Source ω α σ) (identity : α → Except Fault (List Value))
    (seen : List (List Value)) (s : σ) (w : ω) :
    (Sifted.read S identity seen s w).1 = match (S.read s w).1 with
      | .row a s' =>
          match Sifted.identify identity a with
          | .error f => .failed f
          | .ok values =>
              if seen.contains values then (Sifted.read S identity seen s' (S.read s w).2).1
              else .row a ⟨s', values :: seen⟩
      | .done => .done
      | .failed f => .failed f := by
  rw [Sifted.read]
  split
  · rename_i a s' w' heq
    rw [heq]
    dsimp only
    cases identify identity a with
    | error f => rfl
    | ok values =>
        dsimp only
        by_cases hseen : seen.contains values = true
        · rw [if_pos hseen, if_pos hseen]
        · rw [if_neg hseen, if_neg hseen]
  · rename_i heq
    rw [heq]
  · rename_i heq
    rw [heq]

/-- The contents of a source that is sifted. -/
theorem Source.gives_distinct {S : Source ω α σ} {s : σ} {c : Collected α}
    {identity : α → Except Fault (List Value)} (h : S.Gives s c) (hc : c.Ends P E Q)
    (hid : ∀ a, P a → ∀ f, Sifted.identify identity a = .error f → E f)
    (seen : List (List Value)) :
    ∃ d, (S.distinct identity).Gives ⟨s, seen⟩ d
      ∧ d.Ends P E fun rows => ∃ all, Q all ∧ Sifts identity seen all rows := by
  induction h generalizing seen Q with
  | @row s s' a c h _ ih =>
      have hread := fun w => Sifted.read_eq S identity seen s w
      simp only [h] at hread
      have ha : P a := hc.rows a List.mem_cons_self
      have hrest : c.Ends P E fun as => Q (a :: as) := hc.of_push
      cases hv : Sifted.identify identity a with
      | error f =>
          rw [hv] at hread
          exact ⟨_, .failed hread, .failure (hid a ha f hv)⟩
      | ok values =>
          rw [hv] at hread
          cases hseen : seen.contains values with
          | true =>
              obtain ⟨d, hd, hEnds⟩ := ih hrest seen
              refine ⟨d, .of_read ?_ hd, hEnds.mono ?_⟩
              · intro w
                exact ⟨_, (hread w).trans (if_pos hseen)⟩
              · rintro rows ⟨all, hall, hsifts⟩
                exact ⟨a :: all, hall, .dropped hv hseen hsifts⟩
          | false =>
              obtain ⟨d, hd, hEnds⟩ := ih hrest (values :: seen)
              refine ⟨d.push a, .row (fun w => ?_) hd, .push ha (hEnds.mono ?_)⟩
              · exact (hread w).trans (if_neg (by rw [hseen]; exact Bool.false_ne_true))
              · rintro rows ⟨all, hall, hsifts⟩
                exact ⟨a :: all, hall, .kept hv hseen hsifts⟩
  | @done s h =>
      have hread := fun w => Sifted.read_eq S identity seen s w
      simp only [h] at hread
      exact ⟨_, .done hread, .ended (List.forall_mem_nil _) ⟨[], hc.exhausted rfl, .nil⟩⟩
  | @failed s f h =>
      have hread := fun w => Sifted.read_eq S identity seen s w
      simp only [h] at hread
      exact ⟨_, .failed hread, .failure (hc.failed f rfl)⟩

/-! ## The run -/

/-- A collection that cannot fail has come to its end. -/
theorem Collected.Ends.ending_eq {c : Collected α} (h : c.Ends P (fun _ => False) Q) :
    c = ⟨c.rows, .exhausted⟩ := by
  obtain ⟨rows, ending⟩ := c
  cases ending with
  | exhausted => rfl
  | stopped => exact absurd rfl h.unstopped
  | failed f => exact (h.failed f rfl).elim

/-- **Runs.** Unless the order cannot be kept, a run of plans of one query gives rows or fails. The
    rows are sifted from an interleaving of the streams of the plans; all of them are answers. -/
theorem run_spec {answer : Query → List α} {plans : List Plan} {q : Query} {access : Access α}
    {values : Comparator} {keyProperty : String} (hq : ∀ p ∈ plans, p.query = q)
    (hsort : unsortable? keyProperty plans q = none)
    (ho : Orders E (access.compare values q.sorts) le P)
    (hP : ∀ p ∈ plans, ∀ c ∈ p.queries, ∀ a ∈ answer c, P a)
    (hid : ∀ a, P a → ∀ f, Sifted.identify (q.identity access) a = .error f → E f) :
    ∃ c log, run plans (Executor.constant answer) access values keyProperty none = .ok (c, log)
      ∧ c.Ends P E fun rows => ∃ streams merged,
        List.Forall₂ (fun p stream => Streams le answer p.queryGroups stream) plans streams
          ∧ Interleaves le streams merged ∧ Sifts (q.identity access) [] merged rows := by
  have hplan : ∀ p ∈ plans, ∃ d, (Source.groups (Executor.constant answer)
      (access.compare values q.sorts)).Gives ⟨⟨[], .exhausted⟩, p.queryGroups⟩ d
        ∧ d.Ends P E (Streams le answer p.queryGroups) := by
    intro p hp
    refine gives_groups ho ?_
    intro group hgroup c hc
    exact hP p hp c (List.mem_flatten.mpr ⟨group, hgroup, hc⟩)
  cases plans with
  | nil =>
      -- without plans there is nothing to sift
      rw [run]
      exact ⟨_, _, congrArg Except.ok (Prod.ext (Source.collect_eq (Source.rows_gives []) []) rfl),
        .ended (List.forall_mem_nil _) ⟨[], [], .nil, .nil (List.forall_mem_nil _), .nil⟩⟩
  | cons first rest =>
      obtain rfl := hq first List.mem_cons_self
      rw [run]
      simp only [hsort]
      by_cases hrest : rest = []
      · subst hrest
        obtain ⟨d, hd, hEnds⟩ := hplan first List.mem_cons_self
        -- a single stream is not merged, but that makes no difference
        have hsingle : d.Ends P E fun stream => Streams le answer first.queryGroups stream
            ∧ Interleaves le [stream] stream :=
          ⟨hEnds.rows,
            fun h => ⟨hEnds.exhausted h, .single fun a ha => ho.refl (hEnds.rows a ha)⟩,
            hEnds.failed, hEnds.unstopped⟩
        obtain ⟨c, hc, hcEnds⟩ := Source.gives_distinct hd hsingle hid []
        refine ⟨c, _, congrArg Except.ok (Prod.ext (Source.collect_eq hc []) rfl),
          hcEnds.mono ?_⟩
        rintro rows ⟨stream, ⟨hstream, hmerged⟩, hsifts⟩
        exact ⟨[stream], stream, .cons hstream .nil, hmerged, hsifts⟩
      · rw [if_neg (by simpa using hrest)]
        obtain ⟨ds, hds⟩ := exists_forall₂ hplan
        have hgives : List.Forall₂ (Source.groups (Executor.constant answer)
            (access.compare values first.query.sorts)).Gives
              ((first :: rest).map fun p => { groups := p.queryGroups }) ds :=
          List.forall₂_map_left_iff.mpr (hds.imp fun _ _ h => h.1)
        have hEnds : ∀ d ∈ ds, d.Ends P E fun _ => True := by
          intro d hd
          obtain ⟨p, -, hp⟩ := exists_left_of_forall₂ hds hd
          exact hp.2.mono fun _ _ => trivial
        obtain ⟨m, hm, hmEnds⟩ := Source.gives_merge ho hgives hEnds
        obtain ⟨c, hc, hcEnds⟩ := Source.gives_distinct hm hmEnds hid []
        refine ⟨c, _, congrArg Except.ok (Prod.ext (Source.collect_eq hc []) rfl),
          hcEnds.mono ?_⟩
        rintro rows ⟨merged, ⟨hexhausted, hmerged⟩, hsifts⟩
        refine ⟨ds.map Collected.rows, merged, ?_, hmerged, hsifts⟩
        exact forall₂_map_of_right hds hexhausted fun _ _ h hd => h.2.exhausted hd

end EntityQuery
