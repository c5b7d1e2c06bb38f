import EntityQuery.Heap
import Mathlib.Algebra.Order.Group.Multiset

/-!
# The shape of heaps — places that are filled level by level

A heap of `n` elements occupies the places with the numbers one to `n` and no others. This is what
makes adding and removing a leaf safe: the place after the last one is free and has something above
it, and there is nothing below the last one.

Places are reached by paths of turns, so whether a place is occupied is a question to the path
(`occupied`). The numbers come in through `turns`, which leads different numbers along different
paths, and every number along the path of its half and one turn more.

* **`Heap.Complete`** — the places that are occupied are those up to the size.
* **`Heap.complete_addLeaf`**, **`Heap.removeLeaf_last`** — a leaf at the end, added and removed.
-/

namespace EntityQuery.Heap

variable {α : Type}

/-- The elements of a heap, in no order. -/
def elements : Heap α → Multiset α
  | .empty => 0
  | .node a l r => {a} + (l.elements + r.elements)

@[simp] theorem size_eq_card (t : Heap α) : t.size = t.elements.card := by
  induction t with
  | empty => rfl
  | node a l r ihl ihr =>
      simp only [size, elements, Multiset.card_add, Multiset.card_singleton]
      omega

/-- Whether there is an element at the end of a path. -/
@[simp]
def occupied : List Bool → Heap α → Bool
  | _, .empty => false
  | [], .node _ _ _ => true
  | false :: path, .node _ l _ => occupied path l
  | true :: path, .node _ _ r => occupied path r

theorem eq_empty_of_not_occupied {t : Heap α} (h : occupied [] t = false) : t = .empty := by
  cases t with
  | empty => rfl
  | node => cases h

/-! ## Leaves -/

attribute [simp] addLeaf

/-- A leaf at a free place is one more element. -/
theorem elements_addLeaf {x : α} {path : List Bool} {t : Heap α} (h : occupied path t = false) :
    (addLeaf x path t).elements = {x} + t.elements := by
  induction path generalizing t with
  | nil =>
      rw [eq_empty_of_not_occupied h]
      rfl
  | cons turn path ih =>
      cases t with
      | empty => cases turn <;> rfl
      | node a l r =>
          cases turn with
          | false =>
              rw [addLeaf, elements, ih h, elements]
              ac_rfl
          | true =>
              rw [addLeaf, elements, ih h, elements]
              ac_rfl

theorem size_addLeaf {x : α} {path : List Bool} {t : Heap α} (h : occupied path t = false) :
    (addLeaf x path t).size = t.size + 1 := by
  rw [size_eq_card, elements_addLeaf h, Multiset.card_add, Multiset.card_singleton, size_eq_card]
  omega

/-- A leaf below an occupied place occupies its own place and no other. -/
theorem occupied_addLeaf {x : α} {path : List Bool} {turn : Bool} {t : Heap α}
    (habove : occupied path t = true) (hfree : occupied (path ++ [turn]) t = false)
    (other : List Bool) :
    occupied other (addLeaf x (path ++ [turn]) t)
      = (occupied other t || other == path ++ [turn]) := by
  induction path generalizing t other with
  | nil =>
      cases t with
      | empty => cases habove
      | node a l r =>
          -- the side that the leaf is put on is empty, the other one is left alone
          cases turn with
          | false =>
              obtain rfl : l = .empty := eq_empty_of_not_occupied hfree
              rcases other with _ | ⟨_ | _, _ | ⟨_ | _, _⟩⟩ <;> simp
          | true =>
              obtain rfl : r = .empty := eq_empty_of_not_occupied hfree
              rcases other with _ | ⟨_ | _, _ | ⟨_ | _, _⟩⟩ <;> simp
  | cons first path ih =>
      cases t with
      | empty => cases habove
      | node a l r =>
          cases first with
          | false =>
              rcases other with _ | ⟨_ | _, other⟩
              · simp
              · simpa using ih habove hfree other
              · simp
          | true =>
              rcases other with _ | ⟨_ | _, other⟩
              · simp
              · simp
              · simpa using ih habove hfree other

/-- A leaf with nothing below it can be taken away, and frees its own place only. -/
theorem removeLeaf_of_occupied {path : List Bool} {t : Heap α} (hat : occupied path t = true)
    (hbelow : ∀ turn, occupied (path ++ [turn]) t = false) :
    ∃ x t', removeLeaf path t = (some x, t') ∧ t.elements = {x} + t'.elements
      ∧ ∀ other, occupied other t' = (occupied other t && other != path) := by
  induction path generalizing t with
  | nil =>
      cases t with
      | empty => cases hat
      | node a l r =>
          obtain rfl : l = .empty := eq_empty_of_not_occupied (hbelow false)
          obtain rfl : r = .empty := eq_empty_of_not_occupied (hbelow true)
          refine ⟨a, .empty, rfl, rfl, ?_⟩
          rintro (_ | ⟨_ | _, _ | _⟩) <;> rfl
  | cons turn path ih =>
      cases t with
      | empty => cases hat
      | node a l r =>
          cases turn with
          | false =>
              obtain ⟨x, l', hl, hels, hocc⟩ := ih hat hbelow
              refine ⟨x, .node a l' r, by rw [removeLeaf, hl], ?_, ?_⟩
              · rw [elements, hels, elements]
                ac_rfl
              · rintro (_ | ⟨_ | _, other⟩)
                · rfl
                · simpa [bne] using hocc other
                · simp
          | true =>
              obtain ⟨x, r', hr, hels, hocc⟩ := ih hat hbelow
              refine ⟨x, .node a l r', by rw [removeLeaf, hr], ?_, ?_⟩
              · rw [elements, hels, elements]
                ac_rfl
              · rintro (_ | ⟨_ | _, other⟩)
                · rfl
                · simp
                · simpa [bne] using hocc other

/-! ## Numbers of places -/

/-- The place with an even or odd number lies below the one with half the number. -/
theorem turns_below {place : Nat} (h : 0 < place) (turn : Bool) :
    turns (2 * place + turn.toNat) = turns place ++ [turn] := by
  rw [turns, if_neg (by cases turn <;> simp <;> omega)]
  cases turn with
  | false =>
      rw [show (2 * place + false.toNat) / 2 = place from by simp,
        show (2 * place + false.toNat) % 2 = 0 from by simp]
      rfl
  | true =>
      rw [show (2 * place + true.toNat) / 2 = place from by simp; omega,
        show (2 * place + true.toNat) % 2 = 1 from by simp]
      rfl

/-- Every place but the root lies below another one. -/
theorem exists_above {place : Nat} (h : 1 < place) :
    ∃ above turn, 0 < above ∧ above < place ∧ place = 2 * above + Bool.toNat turn := by
  refine ⟨place / 2, place % 2 == 1, by omega, by omega, ?_⟩
  rcases Nat.mod_two_eq_zero_or_one place with h | h
  · rw [h]
    show place = 2 * (place / 2) + 0
    omega
  · rw [h]
    show place = 2 * (place / 2) + 1
    omega

/-- Different places are reached by different paths. -/
theorem turns_injective {m n : Nat} (hm : 0 < m) (hn : 0 < n) (h : turns m = turns n) : m = n := by
  induction m using Nat.strongRecOn generalizing n with
  | ind m ih =>
      have hroot : turns 1 = [] := by rw [turns, if_pos (Nat.le_refl 1)]
      by_cases hm₁ : m = 1 <;> by_cases hn₁ : n = 1
      · rw [hm₁, hn₁]
      · obtain ⟨k, turn, hk, -, rfl⟩ := exists_above (by omega : 1 < n)
        rw [hm₁, hroot, turns_below hk] at h
        simp at h
      · obtain ⟨k, turn, hk, -, rfl⟩ := exists_above (by omega : 1 < m)
        rw [hn₁, hroot, turns_below hk] at h
        simp at h
      · obtain ⟨k, turn, hk, hlt, rfl⟩ := exists_above (by omega : 1 < m)
        obtain ⟨k', turn', hk', -, rfl⟩ := exists_above (by omega : 1 < n)
        rw [turns_below hk, turns_below hk', List.append_singleton_inj] at h
        rw [ih k hlt hk hk' h.1, h.2]

/-! ## Complete heaps -/

/-- The places up to the size are occupied, and no others. -/
def Complete (t : Heap α) : Prop :=
  ∀ place, 0 < place → (occupied (turns place) t = true ↔ place ≤ t.size)

theorem complete_empty : Complete (.empty : Heap α) := by
  intro place hplace
  cases hp : turns place <;> simp [size] <;> omega

theorem complete_singleton (x : α) : Complete (.node x .empty .empty) := by
  intro place hplace
  by_cases hone : place = 1
  · subst hone
    rw [turns, if_pos (Nat.le_refl 1)]
    exact iff_of_true rfl (Nat.le_refl 1)
  · obtain ⟨above, turn, habove, -, rfl⟩ := exists_above (by omega : 1 < place)
    rw [turns_below habove]
    refine iff_of_false ?_ (by simp only [size]; omega)
    cases turns above with
    | nil => cases turn <;> simp
    | cons first path => cases first <;> simp

/-- Completeness is up to the size and the places, whatever elements stand there. -/
theorem Complete.congr {t t' : Heap α} (h : Complete t)
    (hocc : ∀ path, occupied path t' = occupied path t) (hsize : t'.size = t.size) :
    Complete t' := by
  intro place hplace
  rw [hocc, hsize]
  exact h place hplace

/-- The place after the last one is free. -/
theorem Complete.not_occupied_succ {t : Heap α} (h : Complete t) :
    occupied (turns (t.size + 1)) t = false := by
  rw [← Bool.not_eq_true, h _ (Nat.succ_pos _)]
  omega

/-- A leaf at the place after the last one. -/
theorem Complete.addLeaf {t : Heap α} (h : Complete t) (x : α) :
    Complete (t.addLeaf x (turns (t.size + 1))) := by
  have hfree := h.not_occupied_succ
  intro place hplace
  rw [size_addLeaf hfree]
  by_cases hzero : t.size = 0
  · obtain rfl : t = .empty := by
      cases t with
      | empty => rfl
      | node => simp [size] at hzero
    simp only [Heap.addLeaf]
    exact complete_singleton x place hplace
  · obtain ⟨above, turn, habove, hlt, heq⟩ := exists_above (by omega : 1 < t.size + 1)
    have hocc : occupied (turns above) t = true := (h above habove).mpr (by omega)
    rw [heq, turns_below habove] at hfree ⊢
    rw [occupied_addLeaf hocc hfree, Bool.or_eq_true, h place hplace, beq_iff_eq,
      ← turns_below habove, ← heq]
    constructor
    · rintro (hle | hpath)
      · omega
      · rw [turns_injective hplace (Nat.succ_pos _) hpath]
    · intro hle
      by_cases hlast : place = t.size + 1
      · exact .inr (by rw [hlast])
      · exact .inl (by omega)

/-- The leaf at the last place, taken away. -/
theorem Complete.removeLeaf {t : Heap α} (h : Complete t) (hsize : 0 < t.size) :
    ∃ x t', removeLeaf (turns t.size) t = (some x, t') ∧ t.elements = {x} + t'.elements
      ∧ Complete t' := by
  have hbelow : ∀ turn, occupied (turns t.size ++ [turn]) t = false := by
    intro turn
    rw [← turns_below hsize, ← Bool.not_eq_true, h _ (by omega)]
    omega
  obtain ⟨x, t', hrem, hels, hocc⟩ :=
    removeLeaf_of_occupied ((h _ hsize).mpr (Nat.le_refl _)) hbelow
  refine ⟨x, t', hrem, hels, ?_⟩
  have hcard : t.size = t'.size + 1 := by
    rw [size_eq_card, hels, Multiset.card_add, Multiset.card_singleton, size_eq_card]
    omega
  intro place hplace
  rw [hocc, Bool.and_eq_true, h place hplace, bne_iff_ne]
  constructor
  · rintro ⟨hle, hne⟩
    have : place ≠ t.size := fun heq => hne (by rw [heq])
    omega
  · intro hle
    refine ⟨by omega, ?_⟩
    intro hpath
    have := turns_injective hplace hsize hpath
    omega

/-- Leaves added one after the other keep a tree complete. -/
theorem foldl_addLeaf_spec (xs : List α) {t : Heap α} (ht : Complete t) :
    Complete ((xs.zipIdx t.size).foldl (fun t (x, i) => addLeaf x (turns (i + 1)) t) t)
      ∧ ((xs.zipIdx t.size).foldl (fun t (x, i) => addLeaf x (turns (i + 1)) t) t).elements
        = (xs : Multiset α) + t.elements := by
  induction xs generalizing t with
  | nil => exact ⟨ht, (zero_add _).symm⟩
  | cons x xs ih =>
      obtain ⟨hcomplete, hall⟩ := ih (ht.addLeaf x)
      rw [size_addLeaf ht.not_occupied_succ] at hcomplete hall
      rw [elements_addLeaf ht.not_occupied_succ] at hall
      refine ⟨hcomplete, hall.trans ?_⟩
      rw [← Multiset.cons_coe, ← Multiset.singleton_add]
      ac_rfl

/-- The tree of a list is complete and holds the elements of the list. -/
theorem ofLevels_spec (xs : List α) :
    Complete (ofLevels xs) ∧ (ofLevels xs).elements = (xs : Multiset α) := by
  obtain ⟨hcomplete, hall⟩ := foldl_addLeaf_spec xs complete_empty
  exact ⟨hcomplete, hall.trans (add_zero _)⟩

end EntityQuery.Heap
