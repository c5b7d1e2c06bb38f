import Mathlib.Algebra.GroupWithZero.Nat
import Mathlib.Order.Bounds.Basic
import EntityQuery.Proofs.Execution.Trace
import EntityQuery.Proofs.Repetition

/-!
# Laziness — how many groups are asked for a number of results

The results of a plan are read one by one, and a group is asked when the first of its rows is
wanted, all of its queries at once. A row that repeats an earlier one is not a result, so which
groups are asked for `k` results is settled by how many different identities there are among the
answers of the first groups. Nothing else matters: neither the order in which the answers of a group
are merged, nor what the executor would have answered later on.

The trace of a plan is cut into parts, one for each group. Sifting leaves a piece of each part
(`Sifts.exists_pieces`), the pieces of the first parts are what sifting leaves of these alone, and
as many as there are identities in them. The `k`-th result is in the first piece with which there
are `k` rows, and its reading leaves the log with the queries up to this group.

* **`Sifts.length_eq`** — sifting leaves as many rows as there are identities.
* **`partsFor_spec`** — how many parts there have to be for a number of rows.
* **`exists_pieces_of_groups`** — the trace of a sifted plan, piece by piece.
* **`run_lazy`** — the results that are read, and the queries that are asked for them.
-/

namespace EntityQuery

variable {ω α : Type} {identity : α → Except Fault (List Value)} {seen : List (List Value)}
  {rows kept others : List α} {a : α} {values : List Value}

/-! ## Counting identities -/

/-- The identities of rows, as far as they have one that a set can hold. -/
def identitiesOf (identity : α → Except Fault (List Value)) (rows : List α) : List (List Value) :=
  rows.filterMap fun a => (Sifted.identify identity a).toOption

/-- How many different identities there are among rows. -/
def distinctCount (identity : α → Except Fault (List Value)) (rows : List α) : Nat :=
  (identitiesOf identity rows).eraseDups.length

theorem mem_identitiesOf :
    values ∈ identitiesOf identity rows ↔ ∃ a ∈ rows, Sifted.identify identity a = .ok values := by
  rw [identitiesOf, List.mem_filterMap]
  refine exists_congr fun a => and_congr_right fun _ => ?_
  cases Sifted.identify identity a with
  | ok found => exact ⟨fun h => congrArg Except.ok (Option.some.inj h), fun h =>
      congrArg some (Except.ok.inj h)⟩
  | error f => exact iff_of_false (fun h => nomatch h) fun h => nomatch h

theorem identitiesOf_cons (h : Sifted.identify identity a = .ok values) :
    identitiesOf identity (a :: rows) = values :: identitiesOf identity rows := by
  rw [identitiesOf, List.filterMap_cons, h]
  rfl

/-- Identities that are told apart are different, and none is lost. -/
theorem eraseDups_identities {vs : List (List Value)}
    (h : ∀ values ∈ vs, values.all Value.keyable = true) :
    (vs.eraseDups.map Value.identities).Nodup
      ∧ ∀ i, i ∈ vs.eraseDups.map Value.identities ↔ i ∈ vs.map Value.identities := by
  constructor
  · refine List.pairwise_map.mpr ((pairwise_eraseDupsBy vs).imp_of_mem fun {v w} _ hw hvw heq => ?_)
    have hsame := (Value.list_beq_iff (h w (mem_of_mem_eraseDupsBy hw))).mpr heq.symm
    rw [hsame] at hvw
    cases hvw
  · intro i
    constructor
    · intro hi
      obtain ⟨v, hv, rfl⟩ := List.mem_map.mp hi
      exact List.mem_map_of_mem (mem_of_mem_eraseDupsBy hv)
    · intro hi
      obtain ⟨v, hv, rfl⟩ := List.mem_map.mp hi
      obtain ⟨w, hw, rfl | heq⟩ := exists_mem_eraseDupsBy hv
      · exact List.mem_map_of_mem hw
      · rw [(Value.list_beq_iff (h v hv)).mp heq]
        exact List.mem_map_of_mem hw

namespace Sifts

theorem exists_kept (h : ∀ a ∈ rows, ∃ values, Sifted.identify identity a = .ok values) :
    ∃ kept, Sifts identity seen rows kept := by
  induction rows generalizing seen with
  | nil => exact ⟨[], .nil⟩
  | cons a rows ih =>
      obtain ⟨⟨values, hvalues⟩, hrows⟩ := List.forall_mem_cons.mp h
      cases hseen : seen.contains values with
      | true =>
          obtain ⟨kept, hkept⟩ := ih hrows
          exact ⟨kept, .dropped hvalues hseen hkept⟩
      | false =>
          obtain ⟨kept, hkept⟩ := ih hrows
          exact ⟨a :: kept, .kept hvalues hseen hkept⟩

/-- Rows are sifted as they are with something attached to them. -/
theorem map_fst {ts kept : List (α × ω)}
    (h : Sifts (fun t : α × ω => identity t.1) seen ts kept) :
    Sifts identity seen (ts.map Prod.fst) (kept.map Prod.fst) := by
  induction h with
  | nil => exact .nil
  | kept hid hnew _ ih => exact .kept hid hnew ih
  | dropped hid hseen _ ih => exact .dropped hid hseen ih

/-- The rows that are left have different identities: all those there are but for the ones that
    have been seen. -/
theorem identities (h : Sifts identity seen rows kept) :
    ((identitiesOf identity kept).map Value.identities).Nodup
      ∧ (identitiesOf identity kept).length = kept.length
      ∧ ∀ i, i ∈ (identitiesOf identity kept).map Value.identities
        ↔ i ∈ (identitiesOf identity rows).map Value.identities
          ∧ i ∉ seen.map Value.identities := by
  induction h with
  | nil => exact ⟨List.nodup_nil, rfl, fun i => by simp [identitiesOf]⟩
  | @kept seen a as bs values hid hnew _ ih =>
      obtain ⟨hnodup, hlength, hmem⟩ := ih
      have hnot : Value.identities values ∉ seen.map Value.identities := by
        rw [← contains_iff (keyable_of_identify hid), hnew]
        exact Bool.false_ne_true
      rw [identitiesOf_cons hid, identitiesOf_cons hid, List.map_cons, List.map_cons,
        List.nodup_cons, List.length_cons, List.length_cons, hlength]
      refine ⟨⟨fun hin => ((hmem _).mp hin).2 List.mem_cons_self, hnodup⟩, rfl, fun i => ?_⟩
      rw [List.mem_cons, List.mem_cons, hmem, List.map_cons, List.mem_cons, not_or]
      by_cases hi : i = Value.identities values
      · subst hi
        simp [hnot]
      · simp [hi]
  | @dropped seen a as bs values hid hseen _ ih =>
      obtain ⟨hnodup, hlength, hmem⟩ := ih
      refine ⟨hnodup, hlength, fun i => ?_⟩
      rw [hmem, identitiesOf_cons hid, List.map_cons, List.mem_cons]
      refine and_congr_left fun hi => ⟨.inr, fun hor => hor.resolve_left ?_⟩
      rintro rfl
      exact hi ((contains_iff (keyable_of_identify hid)).mp hseen)

/-- **As many rows** are left as there are identities among the rows, in whatever order they
    come. -/
theorem length_eq (h : Sifts identity [] rows kept) (hsame : ∀ a, a ∈ rows ↔ a ∈ others) :
    kept.length = distinctCount identity others := by
  obtain ⟨hnodup, hlength, hmem⟩ := h.identities
  have hkeyable : ∀ values ∈ identitiesOf identity others, values.all Value.keyable = true := by
    intro values hvalues
    obtain ⟨a, -, hid⟩ := mem_identitiesOf.mp hvalues
    exact keyable_of_identify hid
  obtain ⟨hnodup', hmem'⟩ := eraseDups_identities hkeyable
  have hperm : ((identitiesOf identity kept).map Value.identities).Perm
      ((identitiesOf identity others).eraseDups.map Value.identities) := by
    refine (List.perm_ext_iff_of_nodup hnodup hnodup').mpr fun i => ?_
    rw [hmem, hmem', List.map_nil, and_iff_left List.not_mem_nil, List.mem_map, List.mem_map]
    simp only [mem_identitiesOf, hsame]
  have heq := hperm.length_eq
  rwa [List.length_map, List.length_map, hlength] at heq

/-- What is left of two lists is left of the first one, and then of the second one by itself. -/
theorem split {xs ys zs : List α} (h : Sifts identity seen (xs ++ ys) zs) :
    ∃ as bs seen', zs = as ++ bs ∧ as.Sublist xs ∧ Sifts identity seen' ys bs
      ∧ ∀ {ys' bs'}, Sifts identity seen' ys' bs' →
        Sifts identity seen (xs ++ ys') (as ++ bs') := by
  induction xs generalizing seen zs with
  | nil => exact ⟨[], zs, seen, rfl, List.Sublist.refl _, h, id⟩
  | cons x xs ih =>
      rw [List.cons_append] at h
      cases h with
      | kept hid hnew hrest =>
          obtain ⟨as, bs, seen', rfl, hsub, hbs, hback⟩ := ih hrest
          exact ⟨x :: as, bs, seen', rfl, hsub.cons_cons x, hbs, fun h => .kept hid hnew (hback h)⟩
      | dropped hid hseen hrest =>
          obtain ⟨as, bs, seen', rfl, hsub, hbs, hback⟩ := ih hrest
          exact ⟨as, bs, seen', rfl, hsub.cons x, hbs, fun h => .dropped hid hseen (hback h)⟩

/-- **Pieces.** What is left of parts is a piece of each, and the first pieces are what is left of
    the first parts. -/
theorem exists_pieces {parts : List (List α)} (h : Sifts identity seen parts.flatten kept) :
    ∃ pieces, kept = pieces.flatten ∧ List.Forall₂ List.Sublist pieces parts
      ∧ ∀ i, Sifts identity seen (parts.take i).flatten (pieces.take i).flatten := by
  induction parts generalizing seen kept with
  | nil =>
      cases h
      refine ⟨[], rfl, .nil, fun i => ?_⟩
      rw [List.take_nil]
      exact .nil
  | cons part parts ih =>
      rw [List.flatten_cons] at h
      obtain ⟨piece, rest, seen', rfl, hsub, hrest, hback⟩ := h.split
      obtain ⟨pieces, rfl, hsubs, hfirst⟩ := ih hrest
      refine ⟨piece :: pieces, rfl, .cons hsub hsubs, fun i => ?_⟩
      cases i with
      | zero => exact .nil
      | succ i => exact hback (hfirst i)

end Sifts

/-! ## Parts that are needed -/

/-- How many of the first parts are gone through for `k` rows, if each part has so many rows. -/
def partsFor : Nat → List Nat → Nat
  | 0, _ => 0
  | _ + 1, [] => 0
  | k + 1, n :: ns => partsFor (k + 1 - n) ns + 1

/-- The least number of parts with `k` rows, or all of them if there are not as many. -/
theorem partsFor_spec (k : Nat) (sizes : List Nat) :
    IsLeast {i | k ≤ (sizes.take i).sum} (partsFor k sizes)
      ∨ sizes.sum < k ∧ partsFor k sizes = sizes.length := by
  induction sizes generalizing k with
  | nil =>
      cases k with
      | zero => exact .inl ⟨Nat.zero_le _, fun i _ => Nat.zero_le i⟩
      | succ k => exact .inr ⟨Nat.succ_pos k, rfl⟩
  | cons n ns ih =>
      cases k with
      | zero => exact .inl ⟨Nat.zero_le _, fun i _ => Nat.zero_le i⟩
      | succ k =>
          rw [partsFor]
          rcases ih (k + 1 - n) with ⟨hin, hleast⟩ | ⟨hfew, hall⟩
          · refine .inl ⟨?_, ?_⟩
            · show k + 1 ≤ n + (ns.take _).sum
              exact Nat.sub_le_iff_le_add'.mp hin
            · intro i hi
              cases i with
              | zero => exact absurd hi (Nat.not_succ_le_zero k)
              | succ i => exact Nat.succ_le_succ (hleast (Nat.sub_le_iff_le_add'.mpr hi))
          · refine .inr ⟨?_, by rw [hall, List.length_cons]⟩
            rw [List.sum_cons]
            omega

/-! ## Logs of groups -/

/-- The rows of each group come with the log that ends with this group. -/
inductive Logged : Log → List (List Query) → List (List (α × Log)) → Prop
  | nil {log : Log} : Logged log [] []
  | cons {log : Log} {group : List Query} {groups : List (List Query)} {piece : List (α × Log)}
      {pieces : List (List (α × Log))} (h : ∀ t ∈ piece, t.2 = log ++ group)
      (rest : Logged (log ++ group) groups pieces) : Logged log (group :: groups) (piece :: pieces)

theorem Logged.sublists {log : Log} {groups : List (List Query)}
    {parts pieces : List (List (α × Log))} (h : Logged log groups parts)
    (hsub : List.Forall₂ List.Sublist pieces parts) : Logged log groups pieces := by
  induction h generalizing pieces with
  | nil =>
      cases hsub
      exact .nil
  | cons h _ ih =>
      obtain _ | ⟨hpiece, hpieces⟩ := hsub
      exact .cons (fun t ht => h t (hpiece.subset ht)) (ih hpieces)

theorem Logged.length_eq {log : Log} {groups : List (List Query)}
    {pieces : List (List (α × Log))} (h : Logged log groups pieces) :
    pieces.length = groups.length := by
  induction h with
  | nil => rfl
  | cons _ _ ih => rw [List.length_cons, List.length_cons, ih]

/-- Rows that all leave one world leave it when some of them are read, or all of them. -/
theorem worldAfter_append {piece ts : List (α × ω)} {v : ω} (h : ∀ t ∈ piece, t.2 = v) (k : Nat)
    (w e : ω) :
    Source.worldAfter (k + 1) w (piece ++ ts) e
      = Source.worldAfter (k + 1 - piece.length) v ts e := by
  induction piece generalizing k w with
  | nil => cases ts <;> rfl
  | cons t piece ih =>
      obtain ⟨rfl, hpiece⟩ := List.forall_mem_cons.mp h
      rw [List.cons_append, Source.worldAfter, List.length_cons, Nat.add_sub_add_right]
      cases k with
      | zero => rw [Nat.zero_sub, Source.worldAfter, Source.worldAfter]
      | succ k => exact ih hpiece k t.2

/-- The log when `k` rows have been read is that of the parts that are needed for them. -/
theorem Logged.worldAfter {log : Log} {groups : List (List Query)}
    {pieces : List (List (α × Log))} (h : Logged log groups pieces) (k : Nat) :
    Source.worldAfter k log pieces.flatten (log ++ groups.flatten)
      = log ++ (groups.take (partsFor k (pieces.map List.length))).flatten := by
  induction h generalizing k with
  | nil =>
      rw [List.take_nil]
      cases k with
      | zero => rw [Source.worldAfter, List.flatten_nil, List.append_nil]
      | succ k => rfl
  | @cons log group groups piece pieces h _ ih =>
      cases k with
      | zero =>
          rw [Source.worldAfter, partsFor, List.take_zero, List.flatten_nil, List.append_nil]
      | succ k =>
          rw [List.flatten_cons, List.flatten_cons, worldAfter_append h, ← List.append_assoc, ih,
            List.map_cons, partsFor, List.take_succ_cons, List.flatten_cons, List.append_assoc]

section Groups

variable {answer : Nat → Query → List α} {cmp : α → α → Except Fault Ordering}
  {groups : List (List Query)}

theorem logged_logged (log : Log) (groups : List (List Query)) :
    Logged log groups (logged answer cmp log groups) := by
  induction groups generalizing log with
  | nil => exact .nil
  | cons group groups ih =>
      refine .cons (fun t ht => ?_) (ih _)
      obtain ⟨a, -, rfl⟩ := List.mem_map.mp ht
      rfl

theorem take_logged (log : Log) (i : Nat) :
    (logged answer cmp log groups).take i = logged answer cmp log (groups.take i) := by
  induction groups generalizing log i with
  | nil => rw [List.take_nil, logged, List.take_nil]
  | cons group groups ih =>
      cases i with
      | zero => rfl
      | succ i => rw [logged, List.take_succ_cons, List.take_succ_cons, logged, ih]

/-- The rows of groups are the answers to their queries. -/
theorem logged_perm {log : Log}
    (h : ∀ a ∈ (answersFrom answer log.length groups.flatten).flatten,
      ∀ b ∈ (answersFrom answer log.length groups.flatten).flatten, ∃ o, cmp a b = .ok o) :
    ((logged answer cmp log groups).flatten.map Prod.fst).Perm
      (answersFrom answer log.length groups.flatten).flatten := by
  induction groups generalizing log with
  | nil => exact List.Perm.refl _
  | cons group groups ih =>
      rw [List.flatten_cons, answersFrom_append, List.flatten_append, ← List.length_append] at h ⊢
      obtain ⟨rows, hrows, hperm⟩ := Source.mergeLists_eq fun a ha b hb =>
        h a (List.mem_append_left _ ha) b (List.mem_append_left _ hb)
      have hrest := ih fun a ha b hb =>
        h a (List.mem_append_right _ ha) b (List.mem_append_right _ hb)
      rw [logged, List.flatten_cons, List.map_append, List.map_map, hrows]
      show (rows.map id ++ _).Perm _
      rw [List.map_id]
      exact hperm.append hrest

/-- The first groups are asked for answers to their own queries. -/
theorem answersFrom_take (n i : Nat) :
    (answersFrom answer n (groups.take i).flatten).flatten
      ⊆ (answersFrom answer n groups.flatten).flatten := by
  conv => rhs; rw [← List.take_append_drop i groups]
  rw [List.flatten_append, answersFrom_append, List.flatten_append]
  exact List.subset_append_left ..

/-- **The trace of a sifted plan** comes in pieces, one of each group, with the log up to this
    group. The pieces of the first groups have as many rows as there are identities among the
    answers of these groups. -/
theorem exists_pieces_of_groups
    (hcmp : ∀ a ∈ (answersFrom answer 0 groups.flatten).flatten,
      ∀ b ∈ (answersFrom answer 0 groups.flatten).flatten, ∃ o, cmp a b = .ok o)
    (hid : ∀ a ∈ (answersFrom answer 0 groups.flatten).flatten,
      ∃ values, Sifted.identify identity a = .ok values) :
    ∃ pieces, ((Source.groups (.answering answer) cmp).distinct identity).Traces
        ⟨⟨⟨[], .exhausted⟩, groups⟩, []⟩ [] pieces.flatten groups.flatten
      ∧ Logged [] groups pieces
      ∧ ∀ i, ((pieces.map List.length).take i).sum
        = distinctCount identity (answersFrom answer 0 (groups.take i).flatten).flatten := by
  have hperm : ∀ i, ((logged answer cmp [] (groups.take i)).flatten.map Prod.fst).Perm
      (answersFrom answer 0 (groups.take i).flatten).flatten := fun i =>
    logged_perm fun a ha b hb => hcmp a (answersFrom_take 0 i ha) b (answersFrom_take 0 i hb)
  have hall : ((logged answer cmp [] groups).flatten.map Prod.fst).Perm
      (answersFrom answer 0 groups.flatten).flatten := logged_perm hcmp
  obtain ⟨kept, hkept⟩ : ∃ kept, Sifts (fun t : α × Log => identity t.1) []
      (logged answer cmp [] groups).flatten kept :=
    Sifts.exists_kept fun t ht => hid t.1 (hall.mem_iff.mp (List.mem_map_of_mem ht))
  have htrace : (Source.groups (.answering answer) cmp).Traces ⟨⟨[], .exhausted⟩, groups⟩ []
      (logged answer cmp [] groups).flatten groups.flatten := traces_groups hcmp
  have hread := htrace.distinct hkept
  obtain ⟨pieces, rfl, hsub, hfirst⟩ := hkept.exists_pieces
  refine ⟨pieces, hread, (logged_logged [] groups).sublists hsub, fun i => ?_⟩
  have hsifts := (hfirst i).map_fst
  rw [take_logged] at hsifts
  rw [← List.map_take, ← List.length_flatten, ← List.length_map Prod.fst]
  exact hsifts.length_eq fun a => (hperm i).mem_iff

end Groups

/-! ## The run of a plan -/

/-- A plan by itself is read group by group, without repeated rows. -/
theorem run_singleton {execute : Executor α} {p : Plan} {access : Access α} {cmp : Comparator}
    {keyProperty : String} (h : unsortable? keyProperty [p] p.query = none)
    (limit : Option Nat) :
    run [p] execute access cmp keyProperty limit
      = .ok (((Source.groups execute (access.compare cmp p.query.sorts)).distinct
          (p.query.identity access)).collect limit ⟨⟨⟨[], .exhausted⟩, p.queryGroups⟩, []⟩ []) := by
  rw [run]
  simp only [h]
  rfl

/-- **Laziness.** A plan is run on answers that can be compared and told apart. Reading all results
    asks all queries, group by group, and there are as many as there are different results among the
    answers. Reading `k` of them gives the first `k`, and asks the queries of the first groups that
    have `k` different results among their answers, or of all groups if there are not as many: of no
    group for no result, and never of a further one. -/
theorem run_lazy {answer : Nat → Query → List α} {p : Plan} {access : Access α}
    {cmp : Comparator} {keyProperty : String}
    (hstart : ∀ f, run [p] (.answering answer) access cmp keyProperty none ≠ .error f)
    (hcmp : ∀ a ∈ (answersFrom answer 0 p.queries).flatten,
      ∀ b ∈ (answersFrom answer 0 p.queries).flatten,
        ∃ o, access.compare cmp p.query.sorts a b = .ok o)
    (hid : ∀ a ∈ (answersFrom answer 0 p.queries).flatten,
      ∃ values, Sifted.identify (p.query.identity access) a = .ok values) :
    ∃ rows, run [p] (.answering answer) access cmp keyProperty none
        = .ok (⟨rows, .exhausted⟩, p.queries)
      ∧ rows.length = distinctCount (p.query.identity access)
        (answersFrom answer 0 p.queries).flatten
      ∧ ∀ k, ∃ j, run [p] (.answering answer) access cmp keyProperty (some k)
          = .ok (⟨rows.take k, if k ≤ rows.length then .stopped else .exhausted⟩,
              (p.queryGroups.take j).flatten)
        ∧ (IsLeast {i | k ≤ distinctCount (p.query.identity access)
              (answersFrom answer 0 (p.queryGroups.take i).flatten).flatten} j
          ∨ (∀ i, distinctCount (p.query.identity access)
              (answersFrom answer 0 (p.queryGroups.take i).flatten).flatten < k)
            ∧ j = p.queryGroups.length) := by
  have hsort : unsortable? keyProperty [p] p.query = none := by
    cases hrun : run [p] (.answering answer) access cmp keyProperty none with
    | error f => exact absurd hrun (hstart f)
    | ok out => exact unsortable?_of_run_eq_ok (List.forall_mem_singleton.mpr rfl) hrun
  obtain ⟨pieces, hread, hlogged, hsize⟩ := exists_pieces_of_groups hcmp hid
  refine ⟨pieces.flatten.map Prod.fst, ?_, ?_,
    fun k => ⟨partsFor k (pieces.map List.length), ?_, ?_⟩⟩
  · rw [run_singleton hsort, hread.collect_none]
    rfl
  · have hall := hsize p.queryGroups.length
    rw [List.take_length, List.take_of_length_le (by rw [List.length_map, hlogged.length_eq]),
      ← List.length_flatten] at hall
    rw [List.length_map, hall]
    rfl
  · have hlog : Source.worldAfter k [] pieces.flatten p.queryGroups.flatten = _ :=
      hlogged.worldAfter k
    rw [run_singleton hsort, hread.collect_some, hlog, List.length_map]
    rfl
  · simp only [← hsize]
    refine (partsFor_spec k (pieces.map List.length)).imp_right ?_
    rintro ⟨hfew, hall⟩
    refine ⟨fun i => lt_of_le_of_lt ?_ hfew, by rw [hall, List.length_map, hlogged.length_eq]⟩
    conv => rhs; rw [← List.take_append_drop i (pieces.map List.length)]
    rw [List.sum_append]
    exact Nat.le_add_right ..

/-- Tasks by age, in two groups of two queries: those below thirty, and those above. -/
def Query.agedTasks : Plan where
  query := tasks
  components := [⟨"age", some 0, some .ascending,
      [[.below "age" (.int 30)], [.above "age" (.int 30)]]⟩,
    ⟨"open", none, none, [[.equals "open" (.bool true)], [.equals "open" (.bool false)]]⟩]
  hasSort := true

/-- What is answered each time. The first two answers have a task in common. -/
def Query.agedAnswer (asked : Nat) (_ : Query) : List Fields :=
  match asked with
  | 0 => [.task 1 20]
  | 1 => [.task 1 20, .task 2 25]
  | _ => [.task 3 40]

/-- Two results are found in the first group, so that the second one is not asked for them. -/
theorem run_lazy_tasks : ∃ rows,
    run [Query.agedTasks] (.answering Query.agedAnswer) (Access.fields defaultKeyProperty)
        Value.compare defaultKeyProperty none = .ok (⟨rows, .exhausted⟩, Query.agedTasks.queries)
      ∧ rows.length = 3
      ∧ run [Query.agedTasks] (.answering Query.agedAnswer) (Access.fields defaultKeyProperty)
          Value.compare defaultKeyProperty (some 2)
        = .ok (⟨rows.take 2, if 2 ≤ rows.length then .stopped else .exhausted⟩,
            (Query.agedTasks.queryGroups.take 1).flatten)
      ∧ (Query.agedTasks.queryGroups.take 1).flatten.length = 2
      ∧ Query.agedTasks.queries.length = 4 := by
  have hanswers : (answersFrom Query.agedAnswer 0 Query.agedTasks.queries).flatten
      = [.task 1 20, .task 1 20, .task 2 25, .task 3 40, .task 3 40] := rfl
  have htask : ∀ a ∈ (answersFrom Query.agedAnswer 0 Query.agedTasks.queries).flatten,
      ∃ id age, a = Fields.task id age := by
    intro a ha
    rw [hanswers] at ha
    simp only [List.mem_cons, List.not_mem_nil, or_false] at ha
    rcases ha with rfl | rfl | rfl | rfl | rfl <;> exact ⟨_, _, rfl⟩
  have hcomparable : ∀ a ∈ (answersFrom Query.agedAnswer 0 Query.agedTasks.queries).flatten,
      (Access.fields defaultKeyProperty).Comparable (fun v => ∃ i, v = .int i)
        Query.tasks.sorts a := by
    intro a ha
    obtain ⟨id, age, rfl⟩ := htask a ha
    refine ⟨⟨.int id, rfl, id, rfl⟩, ?_⟩
    intro s hs
    obtain rfl := List.mem_singleton.mp hs
    exact ⟨.int age, rfl, age, rfl⟩
  obtain ⟨rows, hall, hlength, hsome⟩ := @run_lazy _ Query.agedAnswer Query.agedTasks
    (Access.fields defaultKeyProperty) Value.compare defaultKeyProperty
    (fun f h => nomatch h)
    (fun a ha b hb => ⟨_, (Access.compare_total Value.compare_consistent_int (hcomparable a ha)
      (hcomparable b hb)).1⟩)
    (fun a ha => by
      obtain ⟨id, age, rfl⟩ := htask a ha
      exact ⟨[.int id], rfl⟩)
  obtain ⟨j, hrun, hj⟩ := hsome 2
  obtain rfl : j = 1 := by
    rcases hj with ⟨hin, hleast⟩ | ⟨hfew, -⟩
    · refine Nat.le_antisymm (hleast (show 2 ≤ distinctCount _ _ by decide)) ?_
      by_contra hzero
      obtain rfl : j = 0 := by omega
      exact absurd hin (show ¬ 2 ≤ distinctCount _ _ by decide)
    · exact absurd (hfew 1) (by decide)
  exact ⟨rows, hall, hlength.trans (by decide), hrun, rfl, rfl⟩

end EntityQuery
