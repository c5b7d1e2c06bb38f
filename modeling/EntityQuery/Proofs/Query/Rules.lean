import EntityQuery.Proofs.Index.Existence

/-!
# Rules — the legal queries, without an order of looking

The check goes through a query in a fixed order, hands the inequality property on from predicate to
predicate and stops at the first rule that is broken. `Query.Lawful` lists the rules themselves.
They speak of the predicates of the whole filter tree, of the sorts, and of what is projected and
grouped, and none of them has to be looked at before another; so where a predicate stands and how
deep does not count. A query is passed exactly if it is lawful, and of every other one a broken rule
is reported.

* **`Query.Lawful`** — the rules.
* **`Query.check_ends`** — nothing but broken rules is reported.
* **`Query.check_lawful`** — exactly the lawful queries are passed.
-/

namespace EntityQuery

/-- A rule on queries is broken. -/
def Fault.IsIllegal (f : Fault) : Prop := ∃ cause, f = .illegal cause

/-! ## Names -/

/-- A name the backend keeps for itself has something between two underlines on either side. -/
theorem isReserved_iff {name : String} :
    isReserved name = true ↔ ∃ inner, inner ≠ "" ∧ name = "__" ++ inner ++ "__" := by
  have hends : name.endsWith "__" = true ↔ "__".toList <:+ name.toList := by
    rw [String.endsWith_eq_endsWith_toSlice, String.Slice.endsWith_string_iff, String.copy_toSlice]
  rw [isReserved, Bool.and_eq_true, Bool.and_eq_true, decide_eq_true_eq,
    String.startsWith_string_iff, hends, ← String.length_toList]
  constructor
  · rintro ⟨⟨hlong, ⟨rest, hrest⟩⟩, hend⟩
    rw [← hrest] at hend hlong
    rw [List.length_append] at hlong
    have htwo : "__".toList.length = 2 := rfl
    -- the underlines at the end stand behind those at the start
    obtain ⟨inner, rfl⟩ : "__".toList <:+ rest :=
      List.suffix_of_suffix_length_le hend (List.suffix_append ..) (by omega)
    refine ⟨String.ofList inner, ?_, ?_⟩
    · rintro h
      have hnil : inner = [] := String.ofList_eq_empty_iff.mp h
      simp [hnil] at hlong
    · rw [← String.toList_inj]
      simp [← hrest]
  · rintro ⟨inner, hne, rfl⟩
    have hpos : 0 < inner.toList.length := by
      rw [List.length_pos_iff]
      simpa using hne
    rw [String.toList_append, String.toList_append]
    refine ⟨⟨?_, ?_⟩, List.suffix_append ..⟩
    · simp only [List.length_append]
      have htwo : "__".toList.length = 2 := rfl
      omega
    · rw [List.append_assoc]
      exact List.prefix_append ..

/-- Nothing is reported as repeated exactly if the names are pairwise different and new. -/
@[simp] theorem repeated_go_eq_nil_iff {seen names : List String} :
    repeated.go seen names = [] ↔ names.Nodup ∧ ∀ name ∈ names, name ∉ seen := by
  induction names generalizing seen with
  | nil => simp [repeated.go]
  | cons name rest ih =>
      rw [repeated.go, List.nodup_cons, List.forall_mem_cons]
      split
      · rename_i hseen
        refine iff_of_false (List.cons_ne_nil _ _) ?_
        rintro ⟨-, hnew, -⟩
        exact hnew (List.contains_iff_mem.mp hseen)
      · rename_i hnew
        rw [List.contains_iff_mem] at hnew
        rw [ih]
        simp only [List.mem_cons, not_or]
        constructor
        · rintro ⟨hrest, hothers⟩
          exact ⟨⟨fun hname => (hothers name hname).1 rfl, hrest⟩, hnew,
            fun other hother => (hothers other hother).2⟩
        · rintro ⟨⟨hname, hrest⟩, -, hothers⟩
          refine ⟨hrest, fun other hother => ⟨?_, hothers other hother⟩⟩
          rintro rfl
          exact hname hother

@[simp] theorem isEmpty_repeated_iff {names : List String} :
    (repeated names).isEmpty = true ↔ names.Nodup := by
  have hnil : (repeated.go [] names).eraseDups = [] ↔ repeated.go [] names = [] := by
    simp only [List.eq_nil_iff_forall_not_mem, List.mem_eraseDups]
  rw [List.isEmpty_iff, repeated, hnil, repeated_go_eq_nil_iff]
  simp

namespace Query

variable {q : Query} {keyProperty name : String} {p : Predicate} {ps : List Predicate}
  {met : Option String}

/-! ## The rules -/

/-- The rules of a lawful query. -/
structure Lawful (q : Query) (keyProperty : String) : Prop where
  /-- No property is projected twice. -/
  projectedOnce : q.projection.Nodup
  /-- Properties are not projected when the keys alone are asked for. -/
  projected : q.projection ≠ [] → q.keysOnly = false
  /-- No property is grouped by twice. -/
  groupedOnce : q.groupBy.Nodup
  /-- No name of the backend's own is grouped by. -/
  grouped : ∀ name ∈ q.groupBy, ¬ ∃ inner, inner ≠ "" ∧ name = "__" ++ inner ++ "__"
  /-- No sort on a grouped property comes after a sort on another one. -/
  groupsFirst : q.sorts.Pairwise fun s t => t.property ∈ q.groupBy → s.property ∈ q.groupBy
  /-- The filter has no OR. -/
  conjunction : q.hasOr = false
  /-- Without a kind all predicates are on the key, and all sorts are on ascending keys. -/
  kindless : q.kind = none → (∀ p ∈ q.allPredicates, p.property = keyProperty)
    ∧ ∀ s ∈ q.sorts, s = ⟨keyProperty, .ascending⟩
  /-- No predicate excludes a value. -/
  compared : ∀ p ∈ q.allPredicates, p.isExclusion = false
  /-- No predicate asks for membership in two different values. -/
  settled : ∀ p ∈ q.allPredicates, ∀ values, p.test = .oneOf values →
    ∀ v ∈ values, ∀ w ∈ values, v.identity = w.identity
  /-- All inequalities are on one property. -/
  oneInequality : ∀ p ∈ q.allPredicates, ∀ r ∈ q.allPredicates,
    p.isInequality = true → r.isInequality = true → p.property = r.property
  /-- Equality and membership are on no property that is projected or grouped by. -/
  free : ∀ p ∈ q.allPredicates, NormalForm.isEquality p = true →
    p.property ∉ q.projection ∧ p.property ∉ q.groupBy
  /-- Predicates on the key are written with keys, but for tests of presence. -/
  keys : ∀ p ∈ q.allPredicates, p.property = keyProperty → p.isPresence = false →
    ∀ v ∈ p.asked, ∃ k, v = .key k
  /-- Containment in a region goes with neither an ancestor nor an inequality. -/
  region : ∀ p ∈ q.allPredicates, isContainment p = true →
    q.ancestor = none ∧ ∀ r ∈ q.allPredicates, r.isInequality = false
  /-- The property of an inequality is grouped by if any is, and sorted by first if any is. -/
  inequality : ∀ p ∈ q.allPredicates, p.isInequality = true →
    (q.groupBy ≠ [] → p.property ∈ q.groupBy) ∧ ∀ s ∈ q.sorts.head?, s.property = p.property

/-! ## One rule after the other -/

theorem checkProjection_eq_ok : q.checkProjection = .ok () ↔
    q.projection.Nodup ∧ (q.projection ≠ [] → q.keysOnly = false) := by
  rw [checkProjection, ← isEmpty_repeated_iff]
  cases (repeated q.projection).isEmpty <;> cases q.keysOnly <;> cases q.projection <;> simp

/-- Looking from the first sort on a property that is not grouped by is looking at all pairs. -/
theorem groupedSortsFirst_iff {groupBy : List String} {sorts : List SortOrder} :
    groupedSortsFirst groupBy sorts = true ↔
      sorts.Pairwise fun s t => t.property ∈ groupBy → s.property ∈ groupBy := by
  induction sorts with
  | nil => exact iff_of_true rfl .nil
  | cons s rest ih =>
      rw [List.pairwise_cons, ← ih, groupedSortsFirst, groupedSortsFirst, List.dropWhile_cons]
      by_cases hs : groupBy.contains s.property = true
      · rw [if_pos hs]
        exact (and_iff_right fun t _ _ => List.contains_iff_mem.mp hs).symm
      · -- a grouped property from here on comes after this sort
        rw [if_neg hs]
        rw [List.contains_iff_mem] at hs
        have hnone : (!(s :: rest).any (groupBy.contains ·.property)) = true ↔
            ∀ t ∈ rest, t.property ∉ groupBy := by
          simp [hs]
        have hlater : (∀ t ∈ rest, t.property ∉ groupBy) →
            (!(rest.dropWhile (groupBy.contains ·.property)).any (groupBy.contains ·.property))
              = true := by
          intro h
          rw [Bool.not_eq_true', List.any_eq_false]
          intro t ht
          rw [List.contains_iff_mem]
          exact h t ((List.dropWhile_sublist _).subset ht)
        rw [hnone]
        simp only [hs, imp_false]
        exact (and_iff_left_of_imp hlater).symm

theorem checkGrouping_eq_ok : q.checkGrouping = .ok () ↔ q.groupBy.Nodup
    ∧ (∀ name ∈ q.groupBy, ¬ ∃ inner, inner ≠ "" ∧ name = "__" ++ inner ++ "__")
    ∧ q.sorts.Pairwise fun s t => t.property ∈ q.groupBy → s.property ∈ q.groupBy := by
  have hreserved : q.groupBy.find? isReserved = none ↔
      ∀ name ∈ q.groupBy, ¬ ∃ inner, inner ≠ "" ∧ name = "__" ++ inner ++ "__" := by
    simp only [List.find?_eq_none, isReserved_iff]
  have hfirst : (q.groupBy.isEmpty || groupedSortsFirst q.groupBy q.sorts) = true ↔
      q.sorts.Pairwise fun s t => t.property ∈ q.groupBy → s.property ∈ q.groupBy := by
    rw [Bool.or_eq_true, ← groupedSortsFirst_iff, or_iff_right_iff_imp, List.isEmpty_iff]
    intro hnil
    rw [hnil, groupedSortsFirst_iff]
    exact List.pairwise_of_forall fun _ _ h => absurd h List.not_mem_nil
  rw [checkGrouping, ← isEmpty_repeated_iff, ← hreserved, ← hfirst]
  generalize (q.groupBy.isEmpty || groupedSortsFirst q.groupBy q.sorts) = first
  cases (repeated q.groupBy).isEmpty <;> cases q.groupBy.find? isReserved <;> cases first <;> simp

theorem checkKindless_eq_ok : q.checkKindless keyProperty ps = .ok () ↔
    (q.kind = none → (∀ p ∈ ps, p.property = keyProperty)
      ∧ ∀ s ∈ q.sorts, s = ⟨keyProperty, .ascending⟩) := by
  rw [checkKindless]
  cases q.kind with
  | some kind => exact iff_of_true rfl fun h => by cases h
  | none =>
      have hpredicates : ps.any (·.property != keyProperty) = false ↔
          ∀ p ∈ ps, p.property = keyProperty := by
        simp
      have hsorts : q.sorts.any (· != ⟨keyProperty, .ascending⟩) = false ↔
          ∀ s ∈ q.sorts, s = ⟨keyProperty, .ascending⟩ := by
        simp
      rw [← hpredicates, ← hsorts]
      cases ps.any (·.property != keyProperty) <;>
        cases q.sorts.any (· != ⟨keyProperty, .ascending⟩) <;> simp

theorem checkInequality_eq_ok : q.checkInequality name = .ok () ↔
    (q.groupBy ≠ [] → name ∈ q.groupBy) ∧ ∀ s ∈ q.sorts.head?, s.property = name := by
  have hgrouped : (!q.groupBy.isEmpty && !q.groupBy.contains name) = false ↔
      (q.groupBy ≠ [] → name ∈ q.groupBy) := by
    simp
  rw [checkInequality, ← hgrouped]
  cases (!q.groupBy.isEmpty && !q.groupBy.contains name) with
  | true => simp
  | false =>
      cases q.sorts with
      | nil => simp
      | cons s rest => simp [eq_comm]

/-- Values that a set can hold are one value exactly if no second one is left of them. -/
theorem length_eraseDups_le_one_iff {values : List Value}
    (hkeyable : ∀ v ∈ values, v.keyable = true) :
    values.eraseDups.length ≤ 1 ↔ ∀ v ∈ values, ∀ w ∈ values, v.identity = w.identity := by
  have hkept : ∀ v ∈ values, ∃ k ∈ values.eraseDups, v.identity = k.identity := by
    intro v hv
    obtain ⟨k, hk, rfl | hvk⟩ := exists_mem_eraseDupsBy (r := (· == ·)) hv
    · exact ⟨v, hk, rfl⟩
    · exact ⟨k, hk, (Value.beq_iff (hkeyable v hv)).mp hvk⟩
  have hpairwise := pairwise_eraseDupsBy (r := (· == ·)) values
  have hsub : ∀ k ∈ values.eraseDups, k ∈ values := fun k => mem_of_mem_eraseDupsBy
  rw [← List.eraseDups] at hpairwise
  rcases hvalues : values.eraseDups with _ | ⟨k, _ | ⟨l, rest⟩⟩
  · refine iff_of_true (Nat.zero_le 1) fun v hv => ?_
    obtain ⟨k, hk, -⟩ := hkept v hv
    rw [hvalues] at hk
    cases hk
  · refine iff_of_true (Nat.le_refl 1) fun v hv w hw => ?_
    obtain ⟨a, ha, hva⟩ := hkept v hv
    obtain ⟨b, hb, hwb⟩ := hkept w hw
    rw [hvalues, List.mem_singleton] at ha hb
    rw [hva, hwb, ha, hb]
  · -- two that are kept are different, though both have been there
    rw [hvalues] at hpairwise hsub
    have hl : l ∈ values := hsub l (List.mem_cons_of_mem k List.mem_cons_self)
    have hdiffer : (l == k) = false := (List.pairwise_cons.mp hpairwise).1 l List.mem_cons_self
    refine iff_of_false (by simp) fun hone => ?_
    rw [(Value.beq_iff (hkeyable l hl)).mpr (hone l hl k (hsub k List.mem_cons_self))] at hdiffer
    cases hdiffer

/-- The backend has all tests but exclusions and membership in different values. -/
theorem isNative_iff (hp : p.keyable = true) : p.IsNative ↔ p.isExclusion = false
    ∧ ∀ values, p.test = .oneOf values → ∀ v ∈ values, ∀ w ∈ values, v.identity = w.identity := by
  obtain ⟨property, test⟩ := p
  cases test with
  | oneOf values =>
      have hall : values.all Value.keyable = true :=
        (Value.allKeyable_eq_all values).symm.trans hp
      have hchoices : Predicate.choices? ⟨property, .oneOf values⟩
          = .ok (some values.eraseDups) := by
        rw [NormalForm.choices?_oneOf rfl]
        exact ⟨_, Value.distinct_eq_ok.mpr ⟨hall, rfl⟩, rfl⟩
      have hone := length_eraseDups_le_one_iff (List.all_eq_true.mp hall)
      constructor
      · rintro ⟨hcompared, choices, hsome, hfew⟩
        obtain rfl := Except.ok.inj (hchoices.symm.trans hsome)
        refine ⟨hcompared, ?_⟩
        rintro _ ⟨⟩
        exact hone.mp (hfew _ rfl)
      · rintro ⟨hcompared, hsettled⟩
        refine ⟨hcompared, _, hchoices, ?_⟩
        rintro _ ⟨⟩
        exact hone.mpr (hsettled values rfl)
  | relation r v | present v | inside v =>
      constructor
      · rintro ⟨hcompared, -⟩
        exact ⟨hcompared, fun _ htest => by cases htest⟩
      · rintro ⟨hcompared, -⟩
        exact ⟨hcompared, none, rfl, fun _ hnone => by cases hnone⟩

/-- What is asked of each predicate, and that its values are keys, in the words of the rules. -/
theorem admits_iff (hp : p.keyable = true) : q.Admits keyProperty p ↔ p.isExclusion = false
    ∧ (∀ values, p.test = .oneOf values → ∀ v ∈ values, ∀ w ∈ values, v.identity = w.identity)
    ∧ (NormalForm.isEquality p = true → p.property ∉ q.projection ∧ p.property ∉ q.groupBy)
    ∧ (p.property = keyProperty → p.isPresence = false → ∀ v ∈ p.asked, ∃ k, v = .key k) := by
  have hkey : ∀ v : Value, v.isKey = true ↔ ∃ k, v = .key k := by
    intro v
    cases v <;> simp [Value.isKey]
  simp only [← hkey]
  constructor
  · intro h
    obtain ⟨hcompared, hsettled⟩ := (isNative_iff hp).mp h.native
    exact ⟨hcompared, hsettled, h.free, h.keys⟩
  · rintro ⟨hcompared, hsettled, hfree, hkeys⟩
    exact ⟨(isNative_iff hp).mpr ⟨hcompared, hsettled⟩, hfree, hkeys⟩

/-- One property is handed on exactly if all inequalities are on one. -/
theorem exists_inequality_iff :
    (∃ inequality : Option String, ∀ name,
      inequality = some name ↔ ∃ p ∈ ps, p.isInequality = true ∧ p.property = name)
    ↔ ∀ p ∈ ps, ∀ r ∈ ps, p.isInequality = true → r.isInequality = true →
      p.property = r.property := by
  constructor
  · rintro ⟨inequality, hnames⟩ p hp r hr hpBears hrBears
    have hfirst := (hnames p.property).mpr ⟨p, hp, hpBears, rfl⟩
    have hsecond := (hnames r.property).mpr ⟨r, hr, hrBears, rfl⟩
    exact Option.some.inj (hfirst.symm.trans hsecond)
  · intro hone
    refine ⟨(ps.find? Predicate.isInequality).map Predicate.property, fun name => ?_⟩
    constructor
    · intro h
      obtain ⟨p, hfind, hname⟩ := Option.map_eq_some_iff.mp h
      exact ⟨p, List.mem_of_find?_eq_some hfind, List.find?_some hfind, hname⟩
    · rintro ⟨p, hp, hbears, rfl⟩
      cases hfind : ps.find? Predicate.isInequality with
      | none => exact absurd hbears (List.find?_eq_none.mp hfind p hp)
      | some r =>
          exact congrArg some
            (hone r (List.mem_of_find?_eq_some hfind) p hp (List.find?_some hfind) hbears)

/-! ## Reports -/

theorem choices?_ends (hp : p.keyable = true) :
    Ends Fault.IsIllegal (fun _ => True) p.choices? := by
  obtain ⟨property, test⟩ := p
  cases test with
  | oneOf values =>
      have hall : values.all Value.keyable = true :=
        (Value.allKeyable_eq_all values).symm.trans hp
      show Ends _ _ (some <$> Value.distinct values)
      rw [Value.distinct_eq_ok.mpr ⟨hall, rfl⟩]
      exact Ends.ok trivial
  | _ => exact Ends.ok trivial

theorem checkPredicate_ends (hp : p.keyable = true) :
    Ends Fault.IsIllegal (fun _ => True) (q.checkPredicate keyProperty met p) := by
  have hkeys : ∀ found : Option String, Ends Fault.IsIllegal (fun _ => True)
      (if (decide (p.property = keyProperty) && !p.isPresence && !p.asked.all Value.isKey) = true
        then (throw (.illegal (.keyValue keyProperty)) : Except Fault Unit) >>= fun _ => pure found
        else pure found) :=
    fun found => Ends.guard (k := fun _ => pure found) ⟨_, rfl⟩ (Ends.ok trivial)
  unfold checkPredicate
  refine Ends.guard ⟨_, rfl⟩ (Ends.bind (choices?_ends hp) fun choices _ => Ends.guard ⟨_, rfl⟩ ?_)
  dsimp only
  by_cases hbears : p.isInequality = true
  · rw [if_pos hbears]
    cases met with
    | none => exact hkeys _
    | some other =>
        dsimp only
        by_cases hother : other = p.property
        · rw [if_pos hother]
          exact hkeys _
        · rw [if_neg hother]
          exact ⟨_, rfl⟩
  · rw [if_neg hbears]
    by_cases hequal : (p.isEquality || choices.isSome) = true
    · rw [if_pos hequal]
      exact Ends.guard ⟨_, rfl⟩ (Ends.guard ⟨_, rfl⟩ (hkeys _))
    · rw [if_neg hequal]
      exact hkeys _

theorem checkPredicates_ends (h : ∀ p ∈ ps, p.keyable = true) :
    Ends Fault.IsIllegal (fun _ => True) (q.checkPredicates keyProperty met ps) := by
  induction ps generalizing met with
  | nil => exact Ends.ok trivial
  | cons p ps ih =>
      obtain ⟨hp, hps⟩ := List.forall_mem_cons.mp h
      exact Ends.bind (checkPredicate_ends hp) fun _ _ => ih hps

theorem mapError_ends {α : Type} (r : Except Illegality α) :
    Ends Fault.IsIllegal (fun _ => True) (r.mapError .illegal) := by
  cases r with
  | ok a => exact Ends.ok trivial
  | error cause => exact ⟨cause, rfl⟩

/-- If sets can hold the predicates of a query, nothing but broken rules is reported of it. -/
theorem check_ends (h : ∀ p ∈ q.allPredicates, p.keyable = true) :
    Ends Fault.IsIllegal (fun _ => True) (q.check keyProperty) := by
  have hpredicates : Ends Fault.IsIllegal (fun ps => ps = q.allPredicates)
      (q.predicates.mapError fun _ => .illegal .disjunction) := by
    rw [predicates_eq]
    cases q.hasOr with
    | true => exact ⟨_, rfl⟩
    | false => exact rfl
  unfold check
  refine Ends.bind (mapError_ends _) fun _ _ => Ends.bind (mapError_ends _) fun _ _ =>
    Ends.bind hpredicates fun ps hps => Ends.bind (mapError_ends _) fun _ _ =>
    Ends.bind (checkPredicates_ends (hps ▸ h)) fun inequality _ => Ends.guard ⟨_, rfl⟩ ?_
  cases inequality with
  | none => exact Ends.ok trivial
  | some property => exact mapError_ends _

/-! ## All rules together -/

/-- The property that is handed on in the end is the one of the inequalities. -/
theorem checkPredicates_none_eq_ok {inequality : Option String} :
    q.checkPredicates keyProperty none ps = .ok inequality ↔
      (∀ p ∈ ps, q.Admits keyProperty p) ∧ ∀ name, inequality = some name ↔
        ∃ p ∈ ps, p.isInequality = true ∧ p.property = name := by
  rw [checkPredicates_eq_ok]
  simp only [reduceCtorEq, false_or]

/-- A region is left alone if there is neither an inequality property nor an ancestor. -/
theorem region_alone_iff {inequality : Option String} (hnames : ∀ name, inequality = some name ↔
      ∃ p ∈ ps, p.isInequality = true ∧ p.property = name) :
    ¬ (ps.any isContainment && (inequality.isSome || q.hasAncestor)) = true ↔
      ∀ p ∈ ps, isContainment p = true → q.ancestor = none ∧ ∀ r ∈ ps, r.isInequality = false := by
  have hnone : inequality = none ↔ ∀ r ∈ ps, r.isInequality = false := by
    constructor
    · intro h r hr
      by_contra hbears
      rw [Bool.not_eq_false] at hbears
      have hsome := (hnames r.property).mpr ⟨r, hr, hbears, rfl⟩
      rw [h] at hsome
      cases hsome
    · intro h
      rw [Option.eq_none_iff_forall_ne_some]
      intro name hname
      obtain ⟨r, hr, hbears, -⟩ := (hnames name).mp hname
      rw [h r hr] at hbears
      cases hbears
  rw [← hnone, ← Option.not_isSome_iff_eq_none, ← Option.not_isSome_iff_eq_none, hasAncestor,
    Bool.and_eq_true, List.any_eq_true, Bool.or_eq_true]
  constructor
  · rintro hnot p hp hregion
    exact ⟨fun h => hnot ⟨⟨p, hp, hregion⟩, .inr h⟩, fun h => hnot ⟨⟨p, hp, hregion⟩, .inl h⟩⟩
  · rintro h ⟨⟨p, hp, hregion⟩, hbears | hancestor⟩
    · exact (h p hp hregion).2 hbears
    · exact (h p hp hregion).1 hancestor

/-- A query is passed exactly if it is lawful. -/
theorem check_eq_ok_iff_lawful (h : ∀ p ∈ q.allPredicates, p.keyable = true) :
    q.check keyProperty = .ok () ↔ q.Lawful keyProperty := by
  rw [check_eq_ok, checkProjection_eq_ok, checkGrouping_eq_ok, predicates_eq]
  constructor
  · rintro ⟨⟨hprojectedOnce, hprojected⟩, ⟨hgroupedOnce, hgrouped, hgroupsFirst⟩, ps, inequality,
      hps, hkindless, hpredicates, hregion, hinequality⟩
    obtain ⟨hconjunction, rfl⟩ : q.hasOr = false ∧ q.allPredicates = ps := by
      cases hor : q.hasOr with
      | true =>
          rw [hor] at hps
          cases hps
      | false =>
          rw [hor] at hps
          exact ⟨rfl, Except.ok.inj hps⟩
    obtain ⟨hadmits, hnames⟩ := checkPredicates_none_eq_ok.mp hpredicates
    have hrules := fun p hp => (admits_iff (h p hp)).mp (hadmits p hp)
    exact {
      projectedOnce := hprojectedOnce
      projected := hprojected
      groupedOnce := hgroupedOnce
      grouped := hgrouped
      groupsFirst := hgroupsFirst
      conjunction := hconjunction
      kindless := checkKindless_eq_ok.mp hkindless
      compared := fun p hp => (hrules p hp).1
      settled := fun p hp => (hrules p hp).2.1
      oneInequality := exists_inequality_iff.mp ⟨inequality, hnames⟩
      free := fun p hp => (hrules p hp).2.2.1
      keys := fun p hp => (hrules p hp).2.2.2
      region := (region_alone_iff hnames).mp hregion
      inequality := fun p hp hbears => checkInequality_eq_ok.mp
        (hinequality _ ((hnames p.property).mpr ⟨p, hp, hbears, rfl⟩)) }
  · intro hlaw
    obtain ⟨inequality, hnames⟩ := exists_inequality_iff.mpr hlaw.oneInequality
    have hadmits : ∀ p ∈ q.allPredicates, q.Admits keyProperty p := fun p hp =>
      (admits_iff (h p hp)).mpr
        ⟨hlaw.compared p hp, hlaw.settled p hp, hlaw.free p hp, hlaw.keys p hp⟩
    refine ⟨⟨hlaw.projectedOnce, hlaw.projected⟩,
      ⟨hlaw.groupedOnce, hlaw.grouped, hlaw.groupsFirst⟩, q.allPredicates, inequality, ?_,
      checkKindless_eq_ok.mpr hlaw.kindless,
      checkPredicates_none_eq_ok.mpr ⟨hadmits, hnames⟩, (region_alone_iff hnames).mpr hlaw.region,
      fun property hproperty => ?_⟩
    · rw [hlaw.conjunction]
      rfl
    · obtain ⟨p, hp, hbears, rfl⟩ := (hnames property).mp hproperty
      exact checkInequality_eq_ok.mpr (hlaw.inequality p hp hbears)

/-- Which predicates there are decides, not where they stand. -/
theorem Lawful.of_same (hlaw : q.Lawful keyProperty) {f : Option Filter}
    (hsame : ∀ p, p ∈ { q with filter := f }.allPredicates ↔ p ∈ q.allPredicates)
    (hor : { q with filter := f }.hasOr = false) : { q with filter := f }.Lawful keyProperty where
  projectedOnce := hlaw.projectedOnce
  projected := hlaw.projected
  groupedOnce := hlaw.groupedOnce
  grouped := hlaw.grouped
  groupsFirst := hlaw.groupsFirst
  conjunction := hor
  kindless hkind := ⟨fun p hp => (hlaw.kindless hkind).1 p ((hsame p).mp hp),
    (hlaw.kindless hkind).2⟩
  compared p hp := hlaw.compared p ((hsame p).mp hp)
  settled p hp := hlaw.settled p ((hsame p).mp hp)
  oneInequality p hp r hr := hlaw.oneInequality p ((hsame p).mp hp) r ((hsame r).mp hr)
  free p hp := hlaw.free p ((hsame p).mp hp)
  keys p hp := hlaw.keys p ((hsame p).mp hp)
  region p hp hregion := ⟨(hlaw.region p ((hsame p).mp hp) hregion).1,
    fun r hr => (hlaw.region p ((hsame p).mp hp) hregion).2 r ((hsame r).mp hr)⟩
  inequality p hp := hlaw.inequality p ((hsame p).mp hp)

/-- **The rules.** A query, sets being able to hold the values that it asks for, is passed exactly
    if it is lawful, and a broken rule is reported of every other one. So it does not matter in
    which order, how often and how deep the predicates of a filter without OR stand. -/
theorem check_lawful (h : ∀ p ∈ q.allPredicates, p.keyable = true) :
    (q.check keyProperty = .ok () ↔ q.Lawful keyProperty)
    ∧ (¬ q.Lawful keyProperty → ∃ cause, q.check keyProperty = .error (.illegal cause))
    ∧ ∀ f : Option Filter, (∀ p, p ∈ { q with filter := f }.allPredicates ↔ p ∈ q.allPredicates) →
      q.hasOr = false → { q with filter := f }.hasOr = false →
      ({ q with filter := f }.check keyProperty = .ok () ↔ q.check keyProperty = .ok ()) := by
  refine ⟨check_eq_ok_iff_lawful h, fun hnot => ?_, fun f hsame hor hor' => ?_⟩
  · have hends : Ends Fault.IsIllegal (fun _ => True) (q.check keyProperty) := check_ends h
    cases hcheck : q.check keyProperty with
    | ok u => exact absurd ((check_eq_ok_iff_lawful h).mp hcheck) hnot
    | error f =>
        rw [hcheck] at hends
        obtain ⟨cause, rfl⟩ : f.IsIllegal := hends
        exact ⟨cause, rfl⟩
  · rw [check_eq_ok_iff_lawful h, check_eq_ok_iff_lawful fun p hp => h p ((hsame p).mp hp)]
    refine ⟨fun hlaw => ?_, fun hlaw => hlaw.of_same hsame hor'⟩
    exact hlaw.of_same (f := q.filter) (fun p => (hsame p).symm) hor

end Query

/-- The fares of trips on one line that are neither cheap nor dear, grouped, the dearest ones
    first. -/
def Query.trips : Query where
  kind := some "Trip"
  filter := some (.node .all [.leaf ⟨"line", .oneOf [.int 4, .int 4]⟩,
    .node .all [.leaf (.above "fare" (.int 5)), .leaf (.below "fare" (.int 20))]])
  sorts := [⟨"fare", .descending⟩, ⟨"start", .ascending⟩]
  groupBy := ["fare"]
  projection := ["start"]

/-- The predicates on the trips in another order, one of them twice. -/
def Filter.tripsAgain : Filter :=
  .node .all [.node .all [.leaf (.below "fare" (.int 20)), .leaf ⟨"line", .oneOf [.int 4, .int 4]⟩],
    .leaf (.above "fare" (.int 5)), .leaf (.below "fare" (.int 20))]

/-- The trips are lawful and so are passed, also with the other filter. With the sorts the other way
    round a broken rule is reported. -/
theorem Query.check_lawful_trips :
    trips.Lawful defaultKeyProperty
      ∧ { trips with filter := some .tripsAgain }.check defaultKeyProperty = .ok ()
      ∧ ∃ cause, (trips.withSorts trips.sorts.reverse).check defaultKeyProperty
        = .error (.illegal cause) := by
  have hkeyable : ∀ p ∈ trips.allPredicates, p.keyable = true := by
    decide
  have hchecked : trips.check defaultKeyProperty = .ok () := by
    rfl
  obtain ⟨hiff, -, hsame⟩ := check_lawful hkeyable
  refine ⟨hiff.mp hchecked, (hsame _ (fun p => ?_) rfl rfl).mpr hchecked, ?_⟩
  · show p ∈ [_, _, _, _] ↔ p ∈ [_, _, _]
    simp only [List.mem_cons, List.not_mem_nil, or_false]
    tauto
  · refine (check_lawful (q := trips.withSorts trips.sorts.reverse) hkeyable).2.1 fun hlaw => ?_
    have hfare := hlaw.inequality (.above "fare" (.int 5))
      (List.mem_cons_of_mem _ List.mem_cons_self) rfl
    exact absurd (hfare.2 _ rfl) (by decide)

end EntityQuery
