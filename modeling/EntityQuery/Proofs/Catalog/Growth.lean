import EntityQuery.Catalog

/-!
# Growth — a catalog with more indexes

Indexes that are to be added are gone through in their order, next to those that are known by then.
One that is known is passed over; another one is taken up, and known from then on. So what is taken
up was asked for, was not there and is there once, however often it was asked for and whichever
indexes the catalog itself repeats.

What is known after going through some indexes is what a catalog knows to which they were added.
Adding some and then others is therefore adding both at once, and what was added once adds nothing
when it is added again.

* **`Catalog.unknown_append`** — the search for unknown indexes can be cut in two.
* **`Catalog.withGenerated_grows`** — what a catalog holds after indexes were added.
-/

namespace EntityQuery

namespace Catalog

variable {known xs ys : List Index} {index : Index}

/-! ## Unknown indexes -/

theorem unknown_cons_of_mem (h : index ∈ known) :
    unknown known (index :: xs) = unknown known xs := by
  rw [unknown, if_pos (List.contains_iff_mem.mpr h)]

theorem unknown_cons_of_notMem (h : index ∉ known) :
    unknown known (index :: xs) = index :: unknown (known ++ [index]) xs := by
  rw [unknown, if_neg fun hknown => h (List.contains_iff_mem.mp hknown)]

/-- The unknown ones of some indexes are those that are not known. -/
theorem mem_unknown_iff : index ∈ unknown known xs ↔ index ∈ xs ∧ index ∉ known := by
  induction xs generalizing known with
  | nil =>
      show index ∈ [] ↔ index ∈ [] ∧ index ∉ known
      simp
  | cons i xs ih =>
      by_cases hi : i ∈ known
      · rw [unknown_cons_of_mem hi, ih, List.mem_cons]
        constructor
        · rintro ⟨hxs, hnew⟩
          exact ⟨.inr hxs, hnew⟩
        · rintro ⟨rfl | hxs, hnew⟩
          · exact absurd hi hnew
          · exact ⟨hxs, hnew⟩
      · -- `i` is known from here on, so it is not met a second time
        rw [unknown_cons_of_notMem hi, List.mem_cons, ih, List.mem_cons, List.mem_append,
          List.mem_singleton]
        by_cases heq : index = i
        · simp [heq, hi]
        · simp [heq]

/-- They stand in the order of going through. -/
theorem unknown_sublist : (unknown known xs).Sublist xs := by
  induction xs generalizing known with
  | nil => exact List.Sublist.slnil
  | cons i xs ih =>
      by_cases hi : i ∈ known
      · rw [unknown_cons_of_mem hi]
        exact ih.cons i
      · rw [unknown_cons_of_notMem hi]
        exact ih.cons_cons i

/-- Each is taken up once. -/
theorem nodup_unknown : (unknown known xs).Nodup := by
  induction xs generalizing known with
  | nil => exact List.nodup_nil
  | cons i xs ih =>
      by_cases hi : i ∈ known
      · rw [unknown_cons_of_mem hi]
        exact ih
      · rw [unknown_cons_of_notMem hi]
        refine List.nodup_cons.mpr ⟨fun hagain => ?_, ih⟩
        exact (mem_unknown_iff.mp hagain).2
          (List.mem_append_right known (List.mem_singleton_self i))

/-- **Going on.** After some indexes have been gone through, those taken up are known next to those
    that were known before. -/
theorem unknown_append :
    unknown known (xs ++ ys) = unknown known xs ++ unknown (known ++ unknown known xs) ys := by
  induction xs generalizing known with
  | nil =>
      show unknown known ys = unknown (known ++ []) ys
      rw [List.append_nil]
  | cons i xs ih =>
      rw [List.cons_append]
      by_cases hi : i ∈ known
      · rw [unknown_cons_of_mem hi, unknown_cons_of_mem hi, ih]
      · rw [unknown_cons_of_notMem hi, unknown_cons_of_notMem hi, ih, List.cons_append,
          List.append_assoc known [i]]
        rfl

/-! ## Catalogs -/

variable (c : Catalog)

theorem indexes_withGenerated (xs : List Index) :
    (c.withGenerated xs).indexes = c.indexes ++ unknown c.indexes xs :=
  (List.append_assoc ..).symm

/-- Adding generated indexes keeps what was declared. -/
theorem indexes_subset_withGenerated (added : List Index) :
    c.indexes ⊆ (c.withGenerated added).indexes := by
  rw [indexes_withGenerated]
  exact List.subset_append_left ..

/-- What is declared afterwards was declared before or is added. -/
@[simp] theorem mem_indexes_withGenerated {xs : List Index} :
    index ∈ (c.withGenerated xs).indexes ↔ index ∈ c.indexes ∨ index ∈ xs := by
  rw [indexes_withGenerated, List.mem_append, mem_unknown_iff]
  by_cases h : index ∈ c.indexes <;> simp [h]

/-- The generated indexes that are added are declared afterwards. -/
theorem subset_withGenerated (added : List Index) : added ⊆ (c.withGenerated added).indexes :=
  fun _ h => (mem_indexes_withGenerated c).mpr (.inr h)

/-- Adding nothing new changes nothing. -/
theorem withGenerated_eq_self_of_subset {xs : List Index} (h : xs ⊆ c.indexes) :
    c.withGenerated xs = c := by
  have hnone : unknown c.indexes xs = [] := by
    refine List.eq_nil_iff_forall_not_mem.mpr fun index hindex => ?_
    obtain ⟨hxs, hnew⟩ := mem_unknown_iff.mp hindex
    exact hnew (h hxs)
  rw [withGenerated, hnone, List.append_nil]

/-- Some indexes and then others are added as both at once. -/
@[simp] theorem withGenerated_withGenerated (xs ys : List Index) :
    (c.withGenerated xs).withGenerated ys = c.withGenerated (xs ++ ys) := by
  show Catalog.mk c.manual (c.generated ++ unknown c.indexes xs
      ++ unknown (c.withGenerated xs).indexes ys)
    = ⟨c.manual, c.generated ++ unknown c.indexes (xs ++ ys)⟩
  rw [indexes_withGenerated, unknown_append, List.append_assoc]

/-- **A catalog grows by what it lacks.** Its hand-declared indexes stay, and behind its generated
    ones come some of those that are added, in their order, none of them twice and none that was
    declared; together these are the indexes of the catalog and the added ones, and no others.
    Adding further indexes is adding all of them at once, so adding the same again changes
    nothing. -/
theorem withGenerated_grows (c : Catalog) (xs ys : List Index) :
    (c.withGenerated xs).manual = c.manual
      ∧ (∃ added, (c.withGenerated xs).generated = c.generated ++ added
          ∧ added.Sublist xs ∧ added.Nodup ∧ ∀ index ∈ added, index ∉ c.indexes)
      ∧ (∀ index, index ∈ (c.withGenerated xs).indexes ↔ index ∈ c.indexes ∨ index ∈ xs)
      ∧ (c.withGenerated xs).withGenerated ys = c.withGenerated (xs ++ ys)
      ∧ (c.withGenerated xs).withGenerated xs = c.withGenerated xs := by
  refine ⟨rfl, ?_, fun _ => mem_indexes_withGenerated c, withGenerated_withGenerated c xs ys, ?_⟩
  · exact ⟨unknown c.indexes xs, rfl, unknown_sublist, nodup_unknown,
      fun index hindex => (mem_unknown_iff.mp hindex).2⟩
  · exact withGenerated_eq_self_of_subset _ (subset_withGenerated c xs)

end Catalog

end EntityQuery
