/-!
# Interleavings — what a merge makes of lists

A merge takes one element after the other from the front of some list. Which one it takes is up to
an order: none of the elements that stand at a front may come before it. If the order says nothing,
any interleaving will do. The lists need not be sorted.

* **`Interleaves.perm`** — an interleaving has the elements of the lists.
* **`Interleaves.before`**, **`Interleaves.after`** — what has come out when an element does.
* **`Interleaves.sorted`** — sorted lists have a sorted interleaving.
* **`Interleaves.placed_iff`** — what has a place in a list has one in an interleaving.
-/

namespace EntityQuery

variable {α : Type}

/-- One element after the other is taken from the front of a list, none of the fronts being before
    it. -/
inductive Interleaves (le : α → α → Prop) : List (List α) → List α → Prop
  | nil {lists : List (List α)} (h : ∀ l ∈ lists, l = []) : Interleaves le lists []
  | cons {lists : List (List α)} {i : Nat} {a : α} {as m : List α}
      (hfront : lists[i]? = some (a :: as)) (hleast : ∀ l ∈ lists, ∀ b ∈ l.head?, le a b)
      (rest : Interleaves le (lists.set i as) m) : Interleaves le lists (a :: m)

/-- Taking the front of a list leaves the other elements. -/
theorem flatten_perm_cons {lists : List (List α)} {i : Nat} {a : α} {as : List α}
    (h : lists[i]? = some (a :: as)) : lists.flatten.Perm (a :: (lists.set i as).flatten) := by
  induction lists generalizing i with
  | nil => cases h
  | cons l lists ih =>
      cases i with
      | zero =>
          obtain rfl : l = a :: as := by simpa using h
          exact List.Perm.refl _
      | succ i =>
          show (l ++ lists.flatten).Perm (a :: (l ++ (lists.set i as).flatten))
          exact ((ih (by simpa using h)).append_left l).trans List.perm_middle

theorem Interleaves.perm {le : α → α → Prop} {lists : List (List α)} {m : List α}
    (h : Interleaves le lists m) : m.Perm lists.flatten := by
  induction h with
  | nil h => rw [List.flatten_eq_nil_iff.mpr h]
  | cons hfront _ _ ih => exact (ih.cons _).trans (flatten_perm_cons hfront).symm

theorem Interleaves.mem {le : α → α → Prop} {lists : List (List α)} {m : List α}
    (h : Interleaves le lists m) {a : α} : a ∈ m ↔ ∃ l ∈ lists, a ∈ l := by
  rw [h.perm.mem_iff, List.mem_flatten]

/-- A single list is its own interleaving, if only every element may stand where it stands. -/
theorem Interleaves.single {le : α → α → Prop} {l : List α} (h : ∀ a ∈ l, le a a) :
    Interleaves le [l] l := by
  induction l with
  | nil => exact .nil (fun l hl => List.mem_singleton.mp hl)
  | cons a as ih =>
      refine .cons (i := 0) rfl ?_ (ih fun b hb => h b (List.mem_cons_of_mem a hb))
      intro l hl b hb
      obtain rfl := List.mem_singleton.mp hl
      obtain rfl : a = b := Option.some.inj hb
      exact h a List.mem_cons_self

/-! ## Places -/

section Places

variable {le : α → α → Prop}

/-- An element stands in a list behind nothing that has to stand behind it. -/
def Placed (le : α → α → Prop) (l : List α) (a : α) : Prop :=
  ∃ front back, l = front ++ a :: back ∧ ∀ b ∈ front, le b a

theorem Placed.of_sorted {l : List α} {a : α} (hsorted : l.Pairwise le) (ha : a ∈ l) :
    Placed le l a := by
  obtain ⟨front, back, rfl⟩ := List.append_of_mem ha
  refine ⟨front, back, rfl, ?_⟩
  intro b hb
  exact (List.pairwise_append.mp hsorted).2.2 b hb a List.mem_cons_self

/-- An element of two lists in a row is placed in the first one, or behind all of it in the second
    one. -/
theorem placed_append {l l' : List α} {a : α} :
    Placed le (l ++ l') a ↔ Placed le l a ∨ (∀ b ∈ l, le b a) ∧ Placed le l' a := by
  constructor
  · rintro ⟨front, back, hsplit, hfront⟩
    rcases List.append_eq_append_iff.mp hsplit with ⟨mid, rfl, rfl⟩ | ⟨mid, rfl, hmid⟩
    · right
      refine ⟨fun b hb => hfront b (List.mem_append_left mid hb), mid, back, rfl, ?_⟩
      intro b hb
      exact hfront b (List.mem_append_right l hb)
    · cases mid with
      | nil =>
          right
          rw [List.append_nil]
          exact ⟨hfront, [], back, hmid.symm, List.forall_mem_nil _⟩
      | cons c mid =>
          obtain ⟨rfl, -⟩ := List.cons.inj hmid
          exact .inl ⟨front, mid, rfl, hfront⟩
  · rintro (⟨front, back, rfl, hfront⟩ | ⟨hl, front, back, rfl, hfront⟩)
    · exact ⟨front, back ++ l', by rw [List.append_assoc, List.cons_append], hfront⟩
    · refine ⟨l ++ front, back, by rw [List.append_assoc], ?_⟩
      intro b hb
      rcases List.mem_append.mp hb with hb | hb
      · exact hl b hb
      · exact hfront b hb

@[simp] theorem placed_cons {b : α} {l : List α} {a : α} :
    Placed le (b :: l) a ↔ a = b ∨ le b a ∧ Placed le l a := by
  constructor
  · rintro ⟨_ | ⟨c, front⟩, back, hsplit, hfront⟩
    · exact .inl (List.cons.inj hsplit).1.symm
    · obtain ⟨rfl, rfl⟩ : b = c ∧ l = front ++ a :: back := List.cons.inj hsplit
      refine .inr ⟨hfront b List.mem_cons_self, front, back, rfl, ?_⟩
      intro d hd
      exact hfront d (List.mem_cons_of_mem b hd)
  · rintro (rfl | ⟨hba, front, back, rfl, hfront⟩)
    · exact ⟨[], l, rfl, List.forall_mem_nil _⟩
    · exact ⟨b :: front, back, rfl, List.forall_mem_cons.mpr ⟨hba, hfront⟩⟩

end Places

/-- An element comes out at some time, and what has come out by then was not after what stood at
    the front of its list, one of the elements before it or itself. -/
theorem Interleaves.before {le : α → α → Prop} {lists : List (List α)} {m : List α}
    (h : Interleaves le lists m) {l front back : List α} {x : α} (hl : l ∈ lists)
    (hsplit : l = front ++ x :: back) :
    ∃ m₁ m₂, m = m₁ ++ x :: m₂ ∧ ∀ y ∈ m₁, ∃ z ∈ front ++ [x], le y z := by
  -- equal lists are told apart by where they stand
  obtain ⟨j, hj⟩ := List.mem_iff_getElem?.mp hl
  subst hsplit
  clear hl
  induction h generalizing front with
  | nil hnil => exact absurd (hnil _ (List.mem_of_getElem? hj)) (by simp)
  | @cons lists i a as m hfront hleast _ ih =>
      by_cases hij : i = j
      · subst hij
        have heq : a :: as = front ++ x :: back := Option.some.inj (hfront.symm.trans hj)
        cases front with
        | nil =>
            obtain ⟨rfl, rfl⟩ := List.cons.inj heq
            exact ⟨[], m, rfl, List.forall_mem_nil _⟩
        | cons b front =>
            obtain ⟨rfl, rfl⟩ := List.cons.inj heq
            have hi : i < lists.length := (List.getElem?_eq_some_iff.mp hj).1
            have hset : (lists.set i (front ++ x :: back))[i]? = some (front ++ x :: back) :=
              List.getElem?_set_self hi
            obtain ⟨m₁, m₂, rfl, hm₁⟩ := ih hset
            refine ⟨a :: m₁, m₂, rfl, ?_⟩
            intro y hy
            rcases List.mem_cons.mp hy with rfl | hy
            · exact ⟨y, List.mem_cons_self, hleast _ (List.mem_of_getElem? hfront) y rfl⟩
            · obtain ⟨z, hz, hyz⟩ := hm₁ y hy
              exact ⟨z, List.mem_cons_of_mem a hz, hyz⟩
      · obtain ⟨m₁, m₂, rfl, hm₁⟩ := ih (by rwa [List.getElem?_set_ne hij])
        refine ⟨a :: m₁, m₂, rfl, ?_⟩
        intro y hy
        rcases List.mem_cons.mp hy with rfl | hy
        · -- what is taken from another list is not after the front of this one
          obtain ⟨z, hz⟩ : ∃ z, (front ++ x :: back).head? = some z := by
            cases front with
            | nil => exact ⟨x, rfl⟩
            | cons b front => exact ⟨b, rfl⟩
          refine ⟨z, ?_, hleast _ (List.mem_of_getElem? hj) z hz⟩
          cases front with
          | nil => exact List.mem_singleton.mpr (Option.some.inj hz).symm
          | cons b front =>
              obtain rfl : b = z := Option.some.inj hz
              exact List.mem_cons_self
        · exact hm₁ y hy

/-- What comes out stands in some list behind elements that have come out before. -/
theorem Interleaves.after {le : α → α → Prop} {lists : List (List α)} {m m₁ m₂ : List α} {x : α}
    (h : Interleaves le lists m) (hm : m = m₁ ++ x :: m₂) :
    ∃ l ∈ lists, ∃ front back, l = front ++ x :: back ∧ front ⊆ m₁ := by
  suffices hindex : ∃ j front back, lists[j]? = some (front ++ x :: back) ∧ front ⊆ m₁ by
    obtain ⟨j, front, back, hj, hsub⟩ := hindex
    exact ⟨_, List.mem_of_getElem? hj, front, back, rfl, hsub⟩
  induction h generalizing m₁ with
  | nil => exact absurd hm (by simp)
  | @cons lists i a as m hfront _ _ ih =>
      cases m₁ with
      | nil =>
          obtain ⟨rfl, rfl⟩ := List.cons.inj hm
          exact ⟨i, [], as, hfront, List.nil_subset _⟩
      | cons b m₁ =>
          obtain ⟨rfl, hrest⟩ : a = b ∧ m = m₁ ++ x :: m₂ := List.cons.inj hm
          obtain ⟨j, front, back, hj, hsub⟩ := ih hrest
          by_cases hij : i = j
          · subst hij
            have hi : i < lists.length := (List.getElem?_eq_some_iff.mp hfront).1
            rw [List.getElem?_set_self hi] at hj
            refine ⟨i, a :: front, back, ?_, List.cons_subset_cons a hsub⟩
            rw [hfront, Option.some.inj hj]
            rfl
          · rw [List.getElem?_set_ne hij] at hj
            exact ⟨j, front, back, hj, List.subset_cons_of_subset a hsub⟩

/-- Lists that are sorted have a sorted interleaving. -/
theorem Interleaves.sorted {le : α → α → Prop} {S : α → Prop} {lists : List (List α)}
    {m : List α} (h : Interleaves le lists m)
    (htrans : ∀ {a b c}, S a → S b → S c → le a b → le b c → le a c)
    (hS : ∀ l ∈ lists, ∀ a ∈ l, S a) (hsorted : ∀ l ∈ lists, l.Pairwise le) : m.Pairwise le := by
  induction h with
  | nil => exact .nil
  | @cons lists i a as m hfront hleast rest ih =>
      have hmem := List.mem_of_getElem? hfront
      have hset : ∀ l ∈ lists.set i as, ∃ l' ∈ lists, l.Sublist l' := by
        intro l hl
        rcases List.mem_or_eq_of_mem_set hl with hl | rfl
        · exact ⟨l, hl, List.Sublist.refl l⟩
        · exact ⟨_, hmem, List.sublist_cons_self a l⟩
      refine .cons ?_ (ih ?_ ?_)
      · intro y hy
        obtain ⟨l, hl, hy⟩ := rest.mem.mp hy
        obtain ⟨l', hl', hsub⟩ := hset l hl
        have hy' := hsub.subset hy
        -- the front of the list that `y` is from stands between
        cases l' with
        | nil => cases hy'
        | cons b bs =>
            have hab := hleast _ hl' b rfl
            rcases List.mem_cons.mp hy' with rfl | hy'
            · exact hab
            · refine htrans (hS _ hmem a List.mem_cons_self) (hS _ hl' b List.mem_cons_self)
                (hS _ hl' y (List.mem_cons_of_mem b hy')) hab ?_
              exact (List.pairwise_cons.mp (hsorted _ hl')).1 y hy'
      · intro l hl b hb
        obtain ⟨l', hl', hsub⟩ := hset l hl
        exact hS l' hl' b (hsub.subset hb)
      · intro l hl
        obtain ⟨l', hl', hsub⟩ := hset l hl
        exact (hsorted l' hl').sublist hsub

/-- **Places.** An element is placed in an interleaving when it is placed in one of the lists. -/
theorem Interleaves.placed_iff {le : α → α → Prop} {S : α → Prop} {lists : List (List α)}
    {m : List α} (h : Interleaves le lists m)
    (htrans : ∀ {a b c}, S a → S b → S c → le a b → le b c → le a c)
    (hS : ∀ l ∈ lists, ∀ a ∈ l, S a) {a : α} :
    Placed le m a ↔ ∃ l ∈ lists, Placed le l a := by
  constructor
  · rintro ⟨m₁, m₂, hm, hm₁⟩
    obtain ⟨l, hl, front, back, hsplit, hsub⟩ := h.after hm
    exact ⟨l, hl, front, back, hsplit, fun b hb => hm₁ b (hsub hb)⟩
  · rintro ⟨l, hl, front, back, hsplit, hfront⟩
    obtain ⟨m₁, m₂, hm, hm₁⟩ := h.before hl hsplit
    refine ⟨m₁, m₂, hm, ?_⟩
    intro y hy
    obtain ⟨z, hz, hyz⟩ := hm₁ y hy
    rcases List.mem_append.mp hz with hz | hz
    · have hy' : S y := by
        obtain ⟨l', hl', hy'⟩ := h.mem.mp (hm ▸ List.mem_append_left _ hy)
        exact hS l' hl' y hy'
      have hSl : ∀ b ∈ front ++ a :: back, S b := hsplit ▸ hS l hl
      exact htrans hy' (hSl z (List.mem_append_left _ hz))
        (hSl a (List.mem_append_right front List.mem_cons_self)) hyz (hfront z hz)
    · rwa [← List.mem_singleton.mp hz]

end EntityQuery
