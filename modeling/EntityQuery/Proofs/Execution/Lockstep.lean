import EntityQuery.Proofs.Execution.Trace
import EntityQuery.Proofs.Heap.Lockstep
import EntityQuery.Proofs.Pairing

/-!
# Sources in step — what reading sees of the rows

Reading tests rows when it merges them and when it tells repeated ones apart, and otherwise hands
them on as they are. So a source *mirrors* another one (`Source.Mirrors`) when related states of the
two give related rows in the same world, or come to the same end. If the tests of related rows come
out the same, this passes from sources to their merge and to what is sifted from them, and at last
to all that is collected.

A fault of one source is a fault of the other. It is in `E`, so that with `E` empty neither fails.

* **`Source.Mirrors.merge`**, **`Source.Mirrors.distinct`** — sources made of others.
* **`Source.groups_mirrors`** — plans whose groups are answered alike.
* **`Source.Mirrors.collect`** — what is read of sources that mirror each other.
-/

namespace EntityQuery

variable {ω α β σ τ : Type} {E : Fault → Prop} {R : α → β → Prop} {K : σ → τ → Prop}

/-- Two readings in the same world: of related rows, after which related states are left, or to the
    same end. -/
inductive Reading.Alike (E : Fault → Prop) (R : α → β → Prop) (K : σ → τ → Prop) :
    Reading α σ × ω → Reading β τ × ω → Prop
  | row {a : α} {b : β} {s : σ} {t : τ} {w : ω} (h : R a b) (hk : K s t) :
      Alike E R K (.row a s, w) (.row b t, w)
  | done {w : ω} : Alike E R K (.done, w) (.done, w)
  | failed {f : Fault} {w : ω} (h : E f) : Alike E R K (.failed f, w) (.failed f, w)

/-- Two collections of related rows that ended in the same way. -/
structure Collected.Alike (E : Fault → Prop) (R : α → β → Prop) (c : Collected α)
    (d : Collected β) : Prop where
  rows   : List.Forall₂ R c.rows d.rows
  ending : c.ending = d.ending
  failed : ∀ f, c.ending = .failed f → E f

namespace Collected

theorem Alike.push {c : Collected α} {d : Collected β} (h : c.Alike E R d) {a : α} {b : β}
    (hab : R a b) : (c.push a).Alike E R (d.push b) :=
  ⟨.cons hab h.rows, h.ending, h.failed⟩

theorem alike_ended {as : List α} {bs : List β} (h : List.Forall₂ R as bs) :
    Alike E R ⟨as, .exhausted⟩ ⟨bs, .exhausted⟩ :=
  ⟨h, rfl, fun _ hf => nomatch hf⟩

theorem alike_failed {f : Fault} (h : E f) : Alike E R ⟨[], .failed f⟩ ⟨[], .failed f⟩ := by
  refine ⟨.nil, rfl, fun g hg => ?_⟩
  obtain rfl := Ending.failed.inj hg
  exact h

end Collected

/-- Related states of two sources are read alike, in every world. -/
def Source.Mirrors (E : Fault → Prop) (R : α → β → Prop) (K : σ → τ → Prop) (S : Source ω α σ)
    (T : Source ω β τ) : Prop :=
  ∀ s t, K s t → ∀ w, Reading.Alike E R K (S.read s w) (T.read t w)

variable {S : Source ω α σ} {T : Source ω β τ}

/-! ## Collecting -/

/-- **Collecting** from related states gives related rows, and leaves the same world. -/
theorem Source.Mirrors.collect (h : S.Mirrors E R K T) {s : σ} {t : τ} (hk : K s t)
    (limit : Option Nat) (w : ω) :
    (S.collect limit s w).1.Alike E R (T.collect limit t w).1
      ∧ (S.collect limit s w).2 = (T.collect limit t w).2 := by
  by_cases hlimit : limit = some 0
  · subst hlimit
    rw [collect_zero, collect_zero]
    exact ⟨⟨.nil, rfl, fun _ hf => nomatch hf⟩, rfl⟩
  · have hstep := h s t hk w
    rw [collect_of_ne_zero hlimit, collect_of_ne_zero hlimit]
    generalize hread : S.read s w = reading at hstep ⊢
    generalize T.read t w = reading' at hstep ⊢
    cases hstep with
    | @row _ _ _ _ w' hab hk' =>
        -- what is left of the source is lighter
        have hrest := Source.Mirrors.collect h hk' (limit.map (· - 1)) w'
        exact ⟨hrest.1.push hab, hrest.2⟩
    | done => exact ⟨Collected.alike_ended .nil, rfl⟩
    | failed hf => exact ⟨Collected.alike_failed hf, rfl⟩
termination_by S.weight s
decreasing_by exact S.lighter (congrArg Prod.fst hread)

/-! ## Sifting -/

/-- Two sources that are being sifted: the same identities have been seen. -/
structure Sifted.Alike (K : σ → τ → Prop) (s : Sifted σ) (t : Sifted τ) : Prop where
  source : K s.source t.source
  seen   : s.seen = t.seen

/-- Reading on to a row that has not been seen goes equally far in both. -/
theorem Sifted.read_alike (h : S.Mirrors E R K T)
    {identity : α → Except Fault (List Value)} {identity' : β → Except Fault (List Value)}
    (hid : ∀ a b, R a b →
      InStep E Eq (Sifted.identify identity a) (Sifted.identify identity' b))
    (seen : List (List Value)) {s : σ} {t : τ} (hk : K s t) (w : ω) :
    Reading.Alike E R (Sifted.Alike K) (Sifted.read S identity seen s w)
      (Sifted.read T identity' seen t w) := by
  have hstep := h s t hk w
  rw [read_of_source S, read_of_source T]
  generalize hread : S.read s w = reading at hstep ⊢
  generalize T.read t w = reading' at hstep ⊢
  cases hstep with
  | done => exact .done
  | failed hf => exact .failed hf
  | @row a b s' t' w' hab hk' =>
      have hsame := hid a b hab
      dsimp only
      generalize Sifted.identify identity a = found at hsame ⊢
      generalize Sifted.identify identity' b = found' at hsame ⊢
      cases hsame with
      | error hf => exact .failed hf
      | @ok values _ heq =>
          subst heq
          dsimp only
          split
          · exact read_alike h hid seen hk' w'
          · exact .row hab ⟨hk', rfl⟩
termination_by S.weight s
decreasing_by exact S.lighter (congrArg Prod.fst hread)

/-- **Sifting** leaves out the same rows, if related rows have the same identity. -/
theorem Source.Mirrors.distinct (h : S.Mirrors E R K T)
    {identity : α → Except Fault (List Value)} {identity' : β → Except Fault (List Value)}
    (hid : ∀ a b, R a b →
      InStep E Eq (Sifted.identify identity a) (Sifted.identify identity' b)) :
    (S.distinct identity).Mirrors E R (Sifted.Alike K) (T.distinct identity') := by
  rintro ⟨s, seen⟩ ⟨t, _⟩ ⟨hk, rfl⟩ w
  exact Sifted.read_alike h hid seen hk w

/-! ## Merging -/

/-- Related rows with the same number. -/
def Numbered (R : α → β → Prop) (p : α × Nat) (q : β × Nat) : Prop := R p.1 q.1 ∧ p.2 = q.2

namespace Merge

/-- Two merges: what is left of their sources is related, and so is what was read ahead. -/
structure Alike (R : α → β → Prop) (K : σ → τ → Prop) (m : Merge α σ) (m' : Merge β τ) : Prop where
  sources : List.Forall₂ (Option.Rel K) m.sources m'.sources
  ahead   : Option.Rel (Heap.Alike (Numbered R)) m.ahead m'.ahead

variable {cmp : α → α → Except Fault Ordering} {cmp' : β → β → Except Fault Ordering}
  {ss : List (Option σ)} {ts : List (Option τ)}

theorem alike_of {states : List σ} {states' : List τ} (h : List.Forall₂ K states states') :
    Alike R K (Merge.of states) (Merge.of states') := by
  refine ⟨?_, .none⟩
  rw [Merge.of, Merge.of, List.forall₂_map_left_iff, List.forall₂_map_right_iff]
  exact h.imp fun _ _ => .some

theorem before_inStep (hc : TestsInStep E R cmp cmp') :
    TestsInStep E (Numbered R) (before cmp) (before cmp') := by
  rintro ⟨a, i⟩ ⟨b, j⟩ ⟨a', _⟩ ⟨b', _⟩ ⟨ha, rfl⟩ ⟨hb, rfl⟩
  refine (hc _ _ _ _ ha hb).bind ?_
  rintro o _ rfl
  cases o <;> exact .ok rfl

/-- Reading a row of every source gives related rows with the same numbers. -/
theorem readEach_inStep (h : S.Mirrors E R K T) (hs : List.Forall₂ (Option.Rel K) ss ts) (i : Nat)
    (w : ω) :
    InStepIn E (fun p q => List.Forall₂ (Option.Rel K) p.1 q.1
      ∧ List.Forall₂ (Numbered R) p.2 q.2) (readEach S i ss w) (readEach T i ts w) := by
  induction hs generalizing i w with
  | nil => exact .ok ⟨.nil, .nil⟩
  | @cons o o' ss ts ho _ ih =>
      rw [readEach.eq_def, readEach.eq_def]
      cases ho with
      | none =>
          have hout := ih (i + 1) w
          dsimp only
          generalize readEach S (i + 1) ss w = out at hout ⊢
          generalize readEach T (i + 1) ts w = out' at hout ⊢
          cases hout with
          | ok hout => exact .ok ⟨.cons .none hout.1, hout.2⟩
          | error hf => exact .error hf
      | @some s t hk =>
          have hstep := h s t hk w
          dsimp only
          generalize S.read s w = reading at hstep ⊢
          generalize T.read t w = reading' at hstep ⊢
          cases hstep with
          | @row a b s' t' w' hab hk' =>
              have hout := ih (i + 1) w'
              dsimp only
              generalize readEach S (i + 1) ss w' = out at hout ⊢
              generalize readEach T (i + 1) ts w' = out' at hout ⊢
              cases hout with
              | ok hout => exact .ok ⟨.cons (.some hk') hout.1, .cons ⟨hab, rfl⟩ hout.2⟩
              | error hf => exact .error hf
          | @done w' =>
              have hout := ih (i + 1) w'
              dsimp only
              generalize readEach S (i + 1) ss w' = out at hout ⊢
              generalize readEach T (i + 1) ts w' = out' at hout ⊢
              cases hout with
              | ok hout => exact .ok ⟨.cons .none hout.1, hout.2⟩
              | error hf => exact .error hf
          | failed hf => exact .error hf

theorem least_alike {r : Except Fault (Heap (α × Nat))} {r' : Except Fault (Heap (β × Nat))}
    (hs : List.Forall₂ (Option.Rel K) ss ts) (hr : InStep E (Heap.Alike (Numbered R)) r r')
    (w : ω) : Reading.Alike E R (Alike R K) (least ss r, w) (least ts r', w) := by
  cases hr with
  | error hf => exact .failed hf
  | @ok heap heap' hheap =>
      have hroot := hheap.root?
      rw [least, least]
      generalize heap.root? = root at hroot ⊢
      generalize heap'.root? = root' at hroot ⊢
      cases hroot with
      | none => exact .done
      | some hab => exact .row hab.1 ⟨hs, .some hheap⟩

theorem readFirst_alike (h : S.Mirrors E R K T) (hc : TestsInStep E R cmp cmp')
    (hs : List.Forall₂ (Option.Rel K) ss ts) (w : ω) :
    Reading.Alike E R (Alike R K) (readFirst S cmp ss w) (readFirst T cmp' ts w) := by
  have hout := readEach_inStep h hs 0 w
  rw [readFirst, readFirst]
  generalize readEach S 0 ss w = out at hout ⊢
  generalize readEach T 0 ts w = out' at hout ⊢
  cases hout with
  | error hf => exact .failed hf
  | @ok out out' w' hout =>
      obtain ⟨left, ahead⟩ := out
      obtain ⟨left', ahead'⟩ := out'
      obtain ⟨hleft, hahead⟩ : List.Forall₂ (Option.Rel K) left left'
        ∧ List.Forall₂ (Numbered R) ahead ahead' := hout
      cases hahead with
      | nil => exact .done
      | cons hfirst hrest =>
          exact least_alike hleft (Heap.alike_ofList (before_inStep hc) (.cons hfirst hrest)) w'

theorem readNext_alike (h : S.Mirrors E R K T) (hc : TestsInStep E R cmp cmp')
    (hs : List.Forall₂ (Option.Rel K) ss ts) {heap : Heap (α × Nat)} {heap' : Heap (β × Nat)}
    (hheap : Heap.Alike (Numbered R) heap heap') (w : ω) :
    Reading.Alike E R (Alike R K) (readNext S cmp ss heap w) (readNext T cmp' ts heap' w) := by
  have hroot := hheap.root?
  rw [readNext, readNext]
  generalize heap.root? = root at hroot ⊢
  generalize heap'.root? = root' at hroot ⊢
  cases hroot with
  | none => exact .done
  | @some p q hpq =>
      obtain ⟨a, i⟩ := p
      obtain ⟨b, _⟩ := q
      obtain ⟨-, rfl⟩ := hpq
      have hplace := rel_getElem?_of_forall₂ hs i
      dsimp only
      generalize ss[i]? = o at hplace ⊢
      generalize ts[i]? = o' at hplace ⊢
      cases hplace with
      | none => exact .done
      | some hplace =>
          cases hplace with
          | none => exact .done
          | @some s t hk =>
              have hstep := h s t hk w
              dsimp only
              generalize S.read s w = reading at hstep ⊢
              generalize T.read t w = reading' at hstep ⊢
              cases hstep with
              | row hab hk' =>
                  exact least_alike (forall₂_set hs (.some hk') i)
                    (hheap.replaceRoot (before_inStep hc) ⟨hab, rfl⟩) _
              | done =>
                  exact least_alike (forall₂_set hs .none i) (hheap.pop (before_inStep hc)) _
              | failed hf => exact .failed hf

end Merge

/-- **Merging** gives related rows, if related rows compare alike. -/
theorem Source.Mirrors.merge (h : S.Mirrors E R K T) {cmp : α → α → Except Fault Ordering}
    {cmp' : β → β → Except Fault Ordering} (hc : TestsInStep E R cmp cmp') :
    (S.merge cmp).Mirrors E R (Merge.Alike R K) (T.merge cmp') := by
  rintro ⟨ss, ahead⟩ ⟨ts, ahead'⟩ ⟨hs, hahead⟩ w
  cases hahead with
  | none => exact Merge.readFirst_alike h hc hs w
  | some hheap => exact Merge.readNext_alike h hc hs hheap w

/-! ## Lists -/

/-- Lists of related rows are read alike. -/
theorem Source.rows_mirrors :
    (rows : Source ω α (List α)).Mirrors E R (List.Forall₂ R) (rows : Source ω β (List β)) := by
  rintro _ _ (_ | ⟨hab, h⟩) w
  · exact .done
  · exact .row hab h

theorem Source.mergeLists_nil {cmp : α → α → Except Fault Ordering} :
    mergeLists cmp [] = ⟨[], .exhausted⟩ := by
  rw [mergeLists.eq_def]
  dsimp only
  rw [collect_of_ne_zero (Option.some_ne_none 0).symm]
  rfl

/-- **Merged lists** of related rows are related. A single list is not looked at. -/
theorem Source.mergeLists_alike {cmp : α → α → Except Fault Ordering}
    {cmp' : β → β → Except Fault Ordering} {lists : List (List α)} {lists' : List (List β)}
    (h : List.Forall₂ (List.Forall₂ R) lists lists')
    (hc : lists.length ≤ 1 ∨ TestsInStep E R cmp cmp') :
    (mergeLists cmp lists).Alike E R (mergeLists cmp' lists') := by
  have hall := h
  cases h with
  | nil =>
      rw [mergeLists_nil, mergeLists_nil]
      exact Collected.alike_ended .nil
  | cons hfirst hrest =>
      cases hrest with
      | nil => exact Collected.alike_ended hfirst
      | cons hsecond hrest =>
          have htests := hc.resolve_left (by simp)
          exact ((rows_mirrors.merge htests).collect (Merge.alike_of hall) none ()).1

/-! ## Groups -/

section Groups

variable {execute : Executor α} {execute' : Executor β} {cmp : α → α → Except Fault Ordering}
  {cmp' : β → β → Except Fault Ordering}

/-- Two executors answer a query with related rows, whenever it is asked. -/
def Query.AnsweredInStep (E : Fault → Prop) (R : α → β → Prop) (execute : Executor α)
    (execute' : Executor β) (q : Query) : Prop :=
  ∀ asked, InStep E (List.Forall₂ R) (execute asked q) (execute' asked q)

theorem askAll_inStep {qs : List Query} (h : ∀ q ∈ qs, q.AnsweredInStep E R execute execute')
    (log : Log) :
    InStepIn E (fun lists lists' => List.Forall₂ (List.Forall₂ R) lists lists'
      ∧ lists.length = qs.length) (askAll execute qs log) (askAll execute' qs log) := by
  induction qs generalizing log with
  | nil => exact .ok ⟨.nil, rfl⟩
  | cons q qs ih =>
      obtain ⟨hq, hqs⟩ := List.forall_mem_cons.mp h
      have hanswer := hq log.length
      rw [askAll, askAll]
      generalize execute log.length q = answer at hanswer ⊢
      generalize execute' log.length q = answer' at hanswer ⊢
      cases hanswer with
      | error hf => exact .error hf
      | ok hrows =>
          have hrest := ih hqs (log ++ [q])
          dsimp only
          generalize askAll execute qs (log ++ [q]) = out at hrest ⊢
          generalize askAll execute' qs (log ++ [q]) = out' at hrest ⊢
          cases hrest with
          | error hf => exact .error hf
          | ok hlists => exact .ok ⟨.cons hrows hlists.1, congrArg (· + 1) hlists.2⟩

/-- Groups that are answered alike: of at most one query, or with rows that compare alike. -/
def GroupInStep (E : Fault → Prop) (R : α → β → Prop) (execute : Executor α)
    (execute' : Executor β) (cmp : α → α → Except Fault Ordering)
    (cmp' : β → β → Except Fault Ordering) (group : List Query) : Prop :=
  (∀ q ∈ group, q.AnsweredInStep E R execute execute')
    ∧ (group.length ≤ 1 ∨ TestsInStep E R cmp cmp')

theorem askGroup_alike {group : List Query}
    (h : GroupInStep E R execute execute' cmp cmp' group) (log : Log) :
    (askGroup execute cmp group log).1.Alike E R (askGroup execute' cmp' group log).1
      ∧ (askGroup execute cmp group log).2 = (askGroup execute' cmp' group log).2 := by
  have hlists := askAll_inStep h.1 log
  rw [askGroup, askGroup]
  generalize askAll execute group log = out at hlists ⊢
  generalize askAll execute' group log = out' at hlists ⊢
  cases hlists with
  | error hf => exact ⟨Collected.alike_failed hf, rfl⟩
  | ok hlists =>
      refine ⟨Source.mergeLists_alike hlists.1 ?_, rfl⟩
      rw [hlists.2]
      exact h.2

/-- Two plans that are being read: what is left of the current group is related, and the groups to
    come are the same, all of them in `P`. -/
structure Pending.Alike (E : Fault → Prop) (R : α → β → Prop) (P : List Query → Prop)
    (p : Pending α) (p' : Pending β) : Prop where
  current : p.current.Alike E R p'.current
  groups  : p.groups = p'.groups
  each    : ∀ group ∈ p.groups, P group

theorem Pending.readGroups_alike {groups : List (List Query)}
    (h : ∀ group ∈ groups, GroupInStep E R execute execute' cmp cmp' group) (log : Log) :
    Reading.Alike E R (Pending.Alike E R (GroupInStep E R execute execute' cmp cmp'))
      (readGroups execute cmp groups log) (readGroups execute' cmp' groups log) := by
  induction groups generalizing log with
  | nil => exact .done
  | cons group groups ih =>
      obtain ⟨hgroup, hgroups⟩ := List.forall_mem_cons.mp h
      obtain ⟨hrows, hlog⟩ := askGroup_alike hgroup log
      rw [readGroups, readGroups]
      generalize askGroup execute cmp group log = out at hrows hlog ⊢
      generalize askGroup execute' cmp' group log = out' at hrows hlog ⊢
      obtain ⟨⟨as, ending⟩, log'⟩ := out
      obtain ⟨⟨bs, _⟩, _⟩ := out'
      obtain ⟨hrows, rfl, hfailed⟩ := hrows
      obtain rfl : log' = _ := hlog
      cases hrows with
      | cons hab hrest => exact .row hab ⟨⟨hrest, rfl, hfailed⟩, rfl, hgroups⟩
      | nil =>
          cases ending with
          | exhausted => exact ih hgroups log'
          | stopped => exact ih hgroups log'
          | failed f => exact .failed (hfailed f rfl)

/-- **A plan** gives related rows, if its groups are answered alike. -/
theorem Source.groups_mirrors :
    (Source.groups execute cmp).Mirrors E R
      (Pending.Alike E R (GroupInStep E R execute execute' cmp cmp'))
      (Source.groups execute' cmp') := by
  rintro ⟨⟨as, ending⟩, groups⟩ ⟨⟨bs, _⟩, _⟩ ⟨⟨hrows, rfl, hfailed⟩, rfl, hgroups⟩ log
  cases hrows with
  | cons hab hrest => exact .row hab ⟨⟨hrest, rfl, hfailed⟩, rfl, hgroups⟩
  | nil =>
      cases ending with
      | exhausted => exact Pending.readGroups_alike hgroups log
      | stopped => exact Pending.readGroups_alike hgroups log
      | failed f => exact .failed (hfailed f rfl)

end Groups

end EntityQuery
