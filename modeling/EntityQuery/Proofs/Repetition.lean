/-!
# Repetition — lists from which later repetitions are left out

`List.eraseDupsBy r` keeps an element unless an earlier one repeats it. Values, predicates and
clauses are all made distinct in this way, by three relations that are not equality, so the facts
here ask nothing of `r`: what is kept was there and repeats nothing kept before it, and what was
there is kept or repeats something kept.
-/

namespace EntityQuery

variable {α : Type} {r : α → α → Bool}

/-- An induction over what `eraseDupsBy` goes through: what repeats the head is gone at once. -/
theorem eraseDupsBy_induction {motive : List α → Prop} (nil : motive [])
    (cons : ∀ a as, motive (as.filter fun b => r b a = false) → motive (a :: as)) :
    ∀ l, motive l
  | [] => nil
  | a :: as => cons a as (eraseDupsBy_induction nil cons (as.filter fun b => r b a = false))
termination_by l => l.length
decreasing_by
  exact Nat.lt_succ_of_le (List.length_filter_le ..)

/-- What is kept was there. -/
theorem mem_of_mem_eraseDupsBy {l : List α} {x : α} (h : x ∈ l.eraseDupsBy r) : x ∈ l := by
  induction l using eraseDupsBy_induction (r := r) with
  | nil => exact h
  | cons a as ih =>
      rw [List.eraseDupsBy_cons] at h
      rcases List.mem_cons.mp h with rfl | h
      · exact List.mem_cons_self
      · exact List.mem_cons_of_mem a (List.mem_filter.mp (ih h)).1

/-- What was there is kept or repeats something that is kept. -/
theorem exists_mem_eraseDupsBy {l : List α} {x : α} (h : x ∈ l) :
    ∃ y ∈ l.eraseDupsBy r, x = y ∨ r x y = true := by
  induction l using eraseDupsBy_induction (r := r) with
  | nil => cases h
  | cons a as ih =>
      rw [List.eraseDupsBy_cons]
      rcases List.mem_cons.mp h with rfl | h
      · exact ⟨x, List.mem_cons_self, .inl rfl⟩
      · by_cases hxa : r x a = true
        · exact ⟨a, List.mem_cons_self, .inr hxa⟩
        · obtain ⟨y, hy, hxy⟩ := ih (List.mem_filter.mpr ⟨h, by simpa using hxa⟩)
          exact ⟨y, List.mem_cons_of_mem a hy, hxy⟩

/-- Nothing that is kept repeats what is kept before it. -/
theorem pairwise_eraseDupsBy (l : List α) :
    (l.eraseDupsBy r).Pairwise fun a b => r b a = false := by
  induction l using eraseDupsBy_induction (r := r) with
  | nil => exact List.Pairwise.nil
  | cons a as ih =>
      rw [List.eraseDupsBy_cons, List.pairwise_cons]
      refine ⟨fun b hb => ?_, ?_⟩
      · simpa using (List.mem_filter.mp (mem_of_mem_eraseDupsBy hb)).2
      · simpa using ih

/-- A list in which nothing is repeated is kept as it is. -/
theorem eraseDupsBy_eq_self {l : List α} (h : l.Pairwise fun a b => r b a = false) :
    l.eraseDupsBy r = l := by
  induction l with
  | nil => rfl
  | cons a as ih =>
      obtain ⟨ha, has⟩ := List.pairwise_cons.mp h
      have hfilter : (as.filter fun b => r b a = false) = as :=
        List.filter_eq_self.mpr fun b hb => decide_eq_true (ha b hb)
      rw [List.eraseDupsBy_cons, hfilter, ih has]

/-- Among equal elements one is kept. -/
theorem nodup_eraseDups [BEq α] [LawfulBEq α] (l : List α) : l.eraseDups.Nodup := by
  refine (pairwise_eraseDupsBy l).imp fun {a b} h => ?_
  rintro rfl
  rw [beq_self_eq_true] at h
  cases h

end EntityQuery
