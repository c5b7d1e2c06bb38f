import EntityQuery.Proofs.Index.Postfix

/-!
# Remainders — what declared indexes leave uncovered, said without an order

`remainders` goes through the declared indexes one by one, keeps what is left for each ending and
stops as soon as nothing is left for one of them. `uncovered` says what is left for an ending in one
step: the equalities that no serving index with this ending names, and the ancestor if none of them
has it. The two agree after every index (`Tally`), which makes the outcome independent of the order
and the repetition of the declared indexes.

* **`NormalForm.remainders_eq_none_iff`** — nothing is reported exactly if some ending is covered.
* **`NormalForm.Covered.mono`** — declaring more indexes never uncovers an ending.
* **`NormalForm.minimalIndex_eq_none_of_declared`** — the least index to add, once declared, leaves
  nothing to add, whatever else is declared with it.
-/

namespace EntityQuery

namespace NormalForm

variable {n : NormalForm} {ending : List IndexProperty} {declared more : List Index}

/-- Some declared index serves the query and has this ending. -/
def Served (n : NormalForm) (ending : List IndexProperty) (declared : List Index) : Prop :=
  ∃ index ∈ declared, ∃ leading, n.serve? index = some (leading, ending)

/-- Whether an index serves with this ending and names a property before it. -/
def namesBefore (n : NormalForm) (ending : List IndexProperty) (name : String) (index : Index) :
    Bool :=
  match n.serve? index with
  | some (leading, e) => e == ending && leading.any (·.name == name)
  | none => false

/-- Whether an index for queries below an ancestor serves with this ending. -/
def bearsAncestor (n : NormalForm) (ending : List IndexProperty) (index : Index) : Bool :=
  match n.serve? index with
  | some (_, e) => e == ending && index.ancestor
  | none => false

/-- What the declared indexes with one ending leave uncovered together. -/
def uncovered (n : NormalForm) (ending : List IndexProperty) (declared : List Index) :
    Remainder where
  equalities := n.equalities.filter fun name => !declared.any (n.namesBefore ending name)
  ancestor := n.hasAncestor && !declared.any (n.bearsAncestor ending)

/-- The declared indexes with one ending cover the query together. -/
def Covered (n : NormalForm) (ending : List IndexProperty) (declared : List Index) : Prop :=
  n.Served ending declared ∧ (n.uncovered ending declared).isNothing = true

@[simp] theorem uncovered_nil : n.uncovered ending [] = n.wholeRemainder := by
  simp [uncovered, wholeRemainder]

/-- An index that serves with an ending takes its share from what was uncovered. -/
theorem uncovered_append_of_serve {index : Index} {leading : List IndexProperty}
    (h : n.serve? index = some (leading, ending)) :
    n.uncovered ending (declared ++ [index])
      = (n.uncovered ending declared).without leading index.ancestor := by
  have hname : ∀ name, n.namesBefore ending name index = leading.any (·.name == name) := by
    intro name
    simp [namesBefore, h]
  have hbears : n.bearsAncestor ending index = index.ancestor := by
    simp [bearsAncestor, h]
  simp only [uncovered, Remainder.without, Remainder.mk.injEq, List.any_append, List.any_cons,
    List.any_nil, Bool.or_false, hname, hbears, Bool.not_or, List.filter_filter, Bool.and_assoc,
    and_true]
  exact List.filter_congr fun name _ => Bool.and_comm _ _

/-- An index that serves with another ending, or not at all, changes nothing. -/
theorem uncovered_append_of_ne {index : Index}
    (h : ∀ leading, n.serve? index ≠ some (leading, ending)) :
    n.uncovered ending (declared ++ [index]) = n.uncovered ending declared := by
  have hother : ∀ leading e, n.serve? index = some (leading, e) → (e == ending) = false := by
    intro leading e he
    rw [beq_eq_false_iff_ne]
    rintro rfl
    exact h leading he
  have hname : ∀ name, n.namesBefore ending name index = false := by
    intro name
    unfold namesBefore
    split
    · rename_i he
      rw [hother _ _ he, Bool.false_and]
    · rfl
  have hbears : n.bearsAncestor ending index = false := by
    unfold bearsAncestor
    split
    · rename_i he
      rw [hother _ _ he, Bool.false_and]
    · rfl
  simp [uncovered, hname, hbears]

/-! ## More indexes -/

theorem Served.mono (hsub : declared ⊆ more) (h : n.Served ending declared) :
    n.Served ending more := by
  obtain ⟨index, hi, leading, hs⟩ := h
  exact ⟨index, hsub hi, leading, hs⟩

/-- Nothing remains exactly if no equality does and no ancestor. -/
@[simp] theorem isNothing_iff {r : Remainder} :
    r.isNothing = true ↔ r.equalities = [] ∧ r.ancestor = false := by
  simp [Remainder.isNothing]

@[simp] theorem uncovered_equalities_eq_nil_iff :
    (n.uncovered ending declared).equalities = [] ↔
      ∀ name ∈ n.equalities, ∃ index ∈ declared, n.namesBefore ending name index = true := by
  simp [uncovered, List.filter_eq_nil_iff]

@[simp] theorem uncovered_ancestor_eq_false_iff :
    (n.uncovered ending declared).ancestor = false ↔
      (n.hasAncestor = true → ∃ index ∈ declared, n.bearsAncestor ending index = true) := by
  simp only [uncovered, Bool.and_eq_false_imp, Bool.not_eq_false', List.any_eq_true]

/-- Declaring more indexes never uncovers an ending. -/
theorem Covered.mono (hsub : declared ⊆ more) (h : n.Covered ending declared) :
    n.Covered ending more := by
  obtain ⟨hs, hn⟩ := h
  rw [isNothing_iff, uncovered_equalities_eq_nil_iff, uncovered_ancestor_eq_false_iff] at hn
  refine ⟨hs.mono hsub, ?_⟩
  rw [isNothing_iff, uncovered_equalities_eq_nil_iff, uncovered_ancestor_eq_false_iff]
  refine ⟨?_, ?_⟩
  · intro name hname
    obtain ⟨index, hi, hb⟩ := hn.1 name hname
    exact ⟨index, hsub hi, hb⟩
  · intro ha
    obtain ⟨index, hi, hb⟩ := hn.2 ha
    exact ⟨index, hsub hi, hb⟩

/-! ## The tally of remainders -/

/-- What the remainders say after some indexes: for each ending that is kept what it leaves
    uncovered, every other ending being as it was at the start, and none of them covered. -/
structure Tally (n : NormalForm) (seen : List Index) (rs : Remainders) : Prop where
  distinct  : (rs.map Prod.fst).Nodup
  kept      : ∀ e ∈ rs, n.Served e.1 seen ∧ e.2 = n.uncovered e.1 seen
  others    : ∀ e, e ∉ rs.map Prod.fst → n.uncovered e seen = n.wholeRemainder
  uncovered : ∀ e, ¬ n.Covered e seen

theorem Tally.nil : Tally n [] [] where
  distinct := List.nodup_nil
  kept := List.forall_mem_nil _
  others _ _ := uncovered_nil
  uncovered := by
    rintro e ⟨⟨index, hi, -⟩, -⟩
    cases hi

/-- Looking an ending up gives what is uncovered for it. -/
theorem Tally.current {seen : List Index} {rs : Remainders} (t : Tally n seen rs)
    (e : List IndexProperty) :
    (rs.lookup e).getD n.wholeRemainder = n.uncovered e seen := by
  cases h : rs.lookup e with
  | none =>
      refine (t.others e ?_).symm
      intro hmem
      obtain ⟨f, hf, rfl⟩ := List.mem_map.mp hmem
      rw [List.lookup_eq_none_iff] at h
      simpa using h f hf
  | some r =>
      obtain ⟨l₁, l₂, hsplit, -⟩ := List.lookup_eq_some_iff.mp h
      have hmem : (e, r) ∈ rs := by
        rw [hsplit]
        simp
      exact (t.kept _ hmem).2

@[simp] theorem mem_keys_put {r : Remainder} {rs : Remainders} {e : List IndexProperty} :
    e ∈ (rs.put ending r).map Prod.fst ↔ e = ending ∨ e ∈ rs.map Prod.fst := by
  induction rs with
  | nil => simp [Remainders.put]
  | cons f fs ih =>
      rw [Remainders.put]
      split
      · rename_i hf
        simp [← hf]
      · rw [List.map_cons, List.mem_cons, ih, List.map_cons, List.mem_cons]
        exact or_left_comm

theorem nodup_keys_put {r : Remainder} {rs : Remainders} (h : (rs.map Prod.fst).Nodup) :
    ((rs.put ending r).map Prod.fst).Nodup := by
  induction rs with
  | nil => simp [Remainders.put]
  | cons f fs ih =>
      rw [List.map_cons, List.nodup_cons] at h
      rw [Remainders.put]
      split
      · rename_i hf
        rw [List.map_cons, List.nodup_cons]
        exact ⟨hf ▸ h.1, h.2⟩
      · rename_i hf
        rw [List.map_cons, List.nodup_cons, mem_keys_put, not_or]
        exact ⟨⟨hf, h.1⟩, ih h.2⟩

/-- After `put` an ending has the new remainder, and all other endings have theirs. -/
theorem mem_put {r : Remainder} {rs : Remainders} {e : List IndexProperty × Remainder}
    (hd : (rs.map Prod.fst).Nodup) (h : e ∈ rs.put ending r) :
    e = (ending, r) ∨ e ∈ rs ∧ e.1 ≠ ending := by
  induction rs with
  | nil => exact .inl (List.mem_singleton.mp h)
  | cons f fs ih =>
      rw [List.map_cons, List.nodup_cons] at hd
      rw [Remainders.put] at h
      split at h
      · rename_i hf
        rcases List.mem_cons.mp h with he | he
        · exact .inl he
        · refine .inr ⟨List.mem_cons_of_mem f he, ?_⟩
          rintro rfl
          exact hd.1 (hf ▸ List.mem_map_of_mem he)
      · rename_i hf
        rcases List.mem_cons.mp h with rfl | he
        · exact .inr ⟨List.mem_cons_self, hf⟩
        · exact (ih hd.2 he).imp_right fun hr => ⟨List.mem_cons_of_mem f hr.1, hr.2⟩

/-- What is served by more indexes was served before or is served by the last one. -/
theorem served_append {index : Index} (h : n.Served ending (declared ++ [index])) :
    n.Served ending declared ∨ ∃ leading, n.serve? index = some (leading, ending) := by
  obtain ⟨i, hi, leading, hs⟩ := h
  rcases List.mem_append.mp hi with hi | hi
  · exact .inl ⟨i, hi, leading, hs⟩
  · rw [List.mem_singleton] at hi
    exact .inr ⟨leading, hi ▸ hs⟩

/-- An index that takes nothing from any ending leaves the tally as it is. -/
theorem Tally.skip {seen : List Index} {rs : Remainders} {index : Index} (t : Tally n seen rs)
    (hsame : ∀ e, n.uncovered e (seen ++ [index]) = n.uncovered e seen)
    (hopen : ∀ leading e, n.serve? index = some (leading, e) →
      (n.uncovered e seen).isNothing = false) : Tally n (seen ++ [index]) rs where
  distinct := t.distinct
  kept e he := by
    rw [hsame]
    exact ⟨(t.kept e he).1.mono (List.subset_append_left ..), (t.kept e he).2⟩
  others e he := by
    rw [hsame]
    exact t.others e he
  uncovered := by
    rintro e ⟨hs, hn⟩
    rw [hsame] at hn
    rcases served_append hs with hs | ⟨leading, hs⟩
    · exact t.uncovered e ⟨hs, hn⟩
    · rw [hopen leading e hs] at hn
      cases hn

/-- An index that serves puts down what it leaves for its ending, unless it leaves nothing. -/
theorem Tally.put {seen : List Index} {rs : Remainders} {index : Index}
    {leading : List IndexProperty} (t : Tally n seen rs)
    (hs : n.serve? index = some (leading, ending))
    (hopen : (n.uncovered ending (seen ++ [index])).isNothing = false) :
    Tally n (seen ++ [index])
      (rs.put ending (n.uncovered ending (seen ++ [index]))) := by
  have hends : ∀ l e, n.serve? index = some (l, e) → e = ending := by
    intro l e hl
    rw [hs] at hl
    exact (Prod.mk.inj (Option.some.inj hl)).2.symm
  have hsame : ∀ e, e ≠ ending → n.uncovered e (seen ++ [index]) = n.uncovered e seen :=
    fun e he => uncovered_append_of_ne fun l hl => he (hends l e hl)
  refine ⟨nodup_keys_put t.distinct, ?_, ?_, ?_⟩
  · intro e he
    rcases mem_put t.distinct he with rfl | ⟨he, hne⟩
    · exact ⟨⟨index, by simp, leading, hs⟩, rfl⟩
    · rw [hsame e.1 hne]
      exact ⟨(t.kept e he).1.mono (List.subset_append_left ..), (t.kept e he).2⟩
  · intro e he
    rw [mem_keys_put, not_or] at he
    rw [hsame e he.1]
    exact t.others e he.2
  · rintro e ⟨hse, hn⟩
    by_cases hend : e = ending
    · rw [hend, hopen] at hn
      cases hn
    · rw [hsame e hend] at hn
      rcases served_append hse with hse | ⟨l, hl⟩
      · exact t.uncovered e ⟨hse, hn⟩
      · exact hend (hends l e hl)

/-- Going on from a tally either finds an ending covered or ends in a tally of all indexes. -/
theorem Tally.remainders {seen : List Index} {rs : Remainders} (t : Tally n seen rs)
    (rest : List Index) :
    (n.remainders rs rest = none ∧ ∃ e, n.Covered e (seen ++ rest))
      ∨ ∃ rs', n.remainders rs rest = some rs' ∧ Tally n (seen ++ rest) rs' := by
  induction rest generalizing seen rs with
  | nil =>
      rw [List.append_nil]
      exact .inr ⟨rs, rfl, t⟩
  | cons index rest ih =>
      rw [List.append_cons]
      unfold NormalForm.remainders
      cases hs : n.serve? index with
      | none =>
          have hno : ∀ leading e, n.serve? index ≠ some (leading, e) := by
            intro leading e h
            rw [hs] at h
            cases h
          exact ih (t.skip (fun e => uncovered_append_of_ne fun l => hno l e)
            fun l e h => absurd h (hno l e))
      | some found =>
          obtain ⟨leading, ending⟩ := found
          dsimp only
          rw [t.current ending, ← uncovered_append_of_serve hs]
          split
          -- nothing is left for this ending, and the others are not looked at any more
          · rename_i hn
            have hserved : n.Served ending (seen ++ [index]) := ⟨index, by simp, leading, hs⟩
            exact .inl ⟨rfl, ending, Covered.mono (List.subset_append_left ..) ⟨hserved, hn⟩⟩
          · rename_i hn
            rw [Bool.not_eq_true] at hn
            split
            -- the index takes nothing, and so its ending is not put down
            · rename_i hsame
              refine ih (t.skip ?_ ?_)
              · intro e
                by_cases he : e = ending
                · rw [he, hsame]
                · refine uncovered_append_of_ne fun l hl => he ?_
                  rw [hs] at hl
                  exact (Prod.mk.inj (Option.some.inj hl)).2.symm
              · intro l e hl
                rw [hs] at hl
                obtain ⟨-, rfl⟩ := Prod.mk.inj (Option.some.inj hl)
                rw [← hsame]
                exact hn
            · exact ih (t.put hs hn)

/-- No remainders are reported exactly if the declared indexes cover the query with some ending. -/
theorem remainders_eq_none_iff :
    n.remainders [] declared = none ↔ ∃ e, n.Covered e declared := by
  rcases Tally.nil.remainders declared with ⟨hnone, hcov⟩ | ⟨rs, hsome, t⟩
  · exact ⟨fun _ => hcov, fun _ => hnone⟩
  · constructor
    · intro h
      rw [hsome] at h
      cases h
    · rintro ⟨e, he⟩
      exact absurd he (t.uncovered e)

/-- What is reported is the tally of all declared indexes. -/
theorem tally_of_remainders {rs : Remainders} (h : n.remainders [] declared = some rs) :
    Tally n declared rs := by
  rcases Tally.nil.remainders declared with ⟨hnone, -⟩ | ⟨rs', hsome, t⟩
  · rw [hnone] at h
    cases h
  · rw [hsome] at h
    exact Option.some.inj h ▸ t

end NormalForm

end EntityQuery
