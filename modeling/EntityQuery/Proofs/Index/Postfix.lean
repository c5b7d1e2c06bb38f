import EntityQuery.Index.Coverage

/-!
# Postfixes — where in an index the postfix of a query stands

`matchPostfix` looks for the two components of a postfix from the end of an index, and answers with
the number of properties that stand before them. Here that answer is read as a statement on the
index: so many properties, then a stretch that the ordered component accepts, then one that the
unordered component accepts, and nothing after it.

* **`NormalForm.matchPostfix_eq_some`** — what a match says, and that nothing else matches.
* **`NormalForm.matchPostfix_append`** — the properties before the postfix play no part in a match.
* **`NormalForm.matchPostfix_preferred`** — an index made for a query matches its postfix.
-/

namespace EntityQuery

namespace IndexComponent

/-- Only lists of a component's own size are accepted. -/
theorem length_of_accepts {c : IndexComponent} {ps : List IndexProperty}
    (h : c.accepts ps = true) : ps.length = c.size := by
  unfold accepts at h
  rw [Bool.and_eq_true] at h
  exact eq_of_beq h.1

/-- A property of an index serves itself unless it is geospatial. -/
theorem serves_self {p : IndexProperty} (h : p.isGeospatial = false) : serves p p = true := by
  simp [serves, h]

/-- An ordered component without geospatial properties accepts its own properties. -/
theorem accepts_ordered_self {ps : List IndexProperty}
    (h : ∀ p ∈ ps, p.isGeospatial = false) : (ordered ps).accepts ps = true := by
  have hzip : ((ps.zip ps).all fun pair => serves pair.1 pair.2) = true := by
    rw [List.all_eq_true]
    rintro ⟨p, q⟩ hpq
    obtain ⟨hp, rfl⟩ : p ∈ ps ∧ p = q := by
      rw [List.zip_eq_zipWith, List.zipWith_self] at hpq
      obtain ⟨r, hr, heq⟩ := List.mem_map.mp hpq
      cases heq
      exact ⟨hr, rfl⟩
    exact serves_self (h p hp)
  unfold accepts
  rw [Bool.and_eq_true]
  exact ⟨by simp [size], hzip⟩

/-- An unordered component accepts the properties that it prefers. -/
@[simp] theorem accepts_unordered_preferred (names : List String) :
    (unordered names).accepts (unordered names).preferred = true := by
  have hmem : ∀ name, name ∈ names.eraseDups.mergeSort (· ≤ ·) ↔ name ∈ names := by
    intro name
    rw [List.mem_mergeSort, List.mem_eraseDups]
  unfold accepts
  simp only [preferred, size, List.length_map, List.length_mergeSort, Bool.and_eq_true,
    beq_self_eq_true, true_and, Bool.not_eq_true', List.any_eq_false, List.all_eq_true,
    List.mem_map, List.contains_eq_mem, decide_eq_true_eq, forall_exists_index, and_imp,
    forall_apply_eq_imp_iff₂, List.map_map]
  refine ⟨⟨?_, ?_⟩, ?_⟩
  · intro name _
    simp [IndexProperty.ascending, IndexProperty.isGeospatial]
  · intro name hname
    exact (hmem name).mp hname
  · intro name hname
    exact ⟨name, (hmem name).mpr hname, rfl⟩

end IndexComponent

namespace NormalForm

variable {n : NormalForm} {ps : List IndexProperty}

theorem matchEnd_eq_some {c : IndexComponent} {k : Nat} :
    matchEnd c ps = some k ↔ k + c.size = ps.length ∧ c.accepts (ps.drop k) = true := by
  simp only [matchEnd]
  constructor
  · intro h
    split at h
    · rename_i hacc
      obtain rfl := Option.some.inj h
      have hlen := IndexComponent.length_of_accepts hacc
      rw [List.length_drop] at hlen
      exact ⟨by omega, hacc⟩
    · cases h
  · rintro ⟨hk, hacc⟩
    have hstart : ps.length - c.size = k := by omega
    rw [hstart, if_pos hacc]

/-- A match at `k` says that after `k` properties there stand what the ordered component accepts
    and then what the unordered one accepts. -/
theorem matchPostfix_eq_some {k : Nat} :
    n.matchPostfix ps = some k ↔
      k + n.orderedPostfix.size + n.unorderedPostfix.size = ps.length
        ∧ n.orderedPostfix.accepts ((ps.drop k).take n.orderedPostfix.size) = true
        ∧ n.unorderedPostfix.accepts (ps.drop (k + n.orderedPostfix.size)) = true := by
  have hunfold : n.matchPostfix ps = some k ↔ ∃ middle,
      matchEnd n.unorderedPostfix ps = some middle
        ∧ matchEnd n.orderedPostfix (ps.take middle) = some k := by
    unfold matchPostfix
    exact Option.bind_eq_some_iff
  rw [hunfold]
  constructor
  · rintro ⟨middle, hu, ho⟩
    obtain ⟨hum, hu⟩ := matchEnd_eq_some.mp hu
    obtain ⟨hok, ho⟩ := matchEnd_eq_some.mp ho
    rw [List.length_take] at hok
    have hmiddle : middle = k + n.orderedPostfix.size := by omega
    subst hmiddle
    rw [List.drop_take, Nat.add_sub_cancel_left] at ho
    exact ⟨hum, ho, hu⟩
  · rintro ⟨hlen, ho, hu⟩
    refine ⟨k + n.orderedPostfix.size, matchEnd_eq_some.mpr ⟨hlen, hu⟩,
      matchEnd_eq_some.mpr ⟨?_, ?_⟩⟩
    · rw [List.length_take]
      omega
    · rw [List.drop_take, Nat.add_sub_cancel_left]
      exact ho

/-- Whether a list ends in the postfix does not depend on what stands before it. -/
@[simp] theorem matchPostfix_append (leading : List IndexProperty) :
    n.matchPostfix (leading ++ ps) = some leading.length ↔ n.matchPostfix ps = some 0 := by
  rw [matchPostfix_eq_some, matchPostfix_eq_some, List.length_append, Nat.zero_add,
    List.drop_left, List.drop_zero, List.drop_append]
  constructor
  · rintro ⟨hlen, ho, hu⟩
    refine ⟨by omega, ho, ?_⟩
    rwa [List.drop_eq_nil_of_le (by omega), List.nil_append, Nat.add_sub_cancel_left] at hu
  · rintro ⟨hlen, ho, hu⟩
    refine ⟨by omega, ho, ?_⟩
    rwa [List.drop_eq_nil_of_le (by omega), List.nil_append, Nat.add_sub_cancel_left]

/-- What stands after the properties before the postfix is a postfix by itself. -/
theorem matchPostfix_drop {k : Nat} (h : n.matchPostfix ps = some k) :
    n.matchPostfix (ps.drop k) = some 0 := by
  have hk : (ps.take k).length = k := by
    have := (matchPostfix_eq_some.mp h).1
    rw [List.length_take]
    omega
  rw [← matchPostfix_append (ps.take k), List.take_append_drop, hk]
  exact h

/-- The sorts of a normal form say their direction, so they are preferred as they stand. -/
@[simp] theorem orderedPostfix_preferred : n.orderedPostfix.preferred = n.sortProperties := by
  show (n.sortProperties.map fun p =>
    { name := p.name, direction := some (p.direction.getD .ascending) }) = n.sortProperties
  unfold sortProperties
  rw [List.map_map]
  rfl

/-- The postfix that is made for a query matches. -/
@[simp] theorem matchPostfix_preferred :
    n.matchPostfix (n.orderedPostfix.preferred ++ n.unorderedPostfix.preferred) = some 0 := by
  have ho : n.orderedPostfix.accepts n.sortProperties = true := by
    apply IndexComponent.accepts_ordered_self
    intro p hp
    obtain ⟨s, -, rfl⟩ := List.mem_map.mp hp
    rfl
  have hu : n.unorderedPostfix.accepts n.unorderedPostfix.preferred = true :=
    IndexComponent.accepts_unordered_preferred n.unordered
  have hlo := IndexComponent.length_of_accepts ho
  have hlu := IndexComponent.length_of_accepts hu
  rw [matchPostfix_eq_some, orderedPostfix_preferred, List.length_append, ← hlo, Nat.zero_add,
    List.drop_zero, List.take_left, List.drop_left]
  exact ⟨by omega, ho, hu⟩

end NormalForm

end EntityQuery
