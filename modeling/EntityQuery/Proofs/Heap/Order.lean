import EntityQuery.Proofs.Heap.Shape
import EntityQuery.Proofs.Outcome
import Mathlib.Data.List.Induction

/-!
# The order of heaps — the least element at the root

A heap is ordered when no element comes after one below it. Every operation is described by what it
does to the elements, to the places and to the order. At the centre stands `refill`, which moves
the smaller child up and lets the new element rise again: it is described by `Refilled`, and one
step of its way back up by `rise_spec`. Refilling looks at the left child first and takes a node
without one for a leaf, which is right when places are filled from the left (`LeftFirst`).

The test may fail. The relation that it decides is arbitrary, so what is said about elements and
places holds of every test.

* **`Heap.ofList_spec`**, **`Heap.replaceRoot_spec`**, **`Heap.pop_spec`** — the operations.
* **`Heap.Ordered.root_le`** — nothing comes before the root.
-/

namespace EntityQuery.Heap

variable {ε α : Type} {E : ε → Prop} {before : α → α → Except ε Bool} {le : α → α → Prop}
  {S : α → Prop}

/-- No element comes after one below it. -/
def Ordered (le : α → α → Prop) : Heap α → Prop
  | .empty => True
  | .node a l r => (∀ b ∈ l.elements + r.elements, le a b) ∧ Ordered le l ∧ Ordered le r

/-- Nothing comes before the root. -/
theorem Ordered.root_le {t : Heap α} {a b : α} (h : Ordered le t) (ha : t.root? = some a)
    (hb : b ∈ t.elements) : b = a ∨ le a b := by
  cases t with
  | empty => cases ha
  | node c l r =>
      obtain rfl : c = a := Option.some.inj ha
      rcases Multiset.mem_add.mp hb with hb | hb
      · exact .inl (Multiset.mem_singleton.mp hb)
      · exact .inr (h.1 b hb)

theorem eq_node_of_root? {t : Heap α} {a : α} (h : t.root? = some a) : ∃ l r, t = .node a l r := by
  cases t with
  | empty => cases h
  | node c l r => exact ⟨l, r, by rw [Option.some.inj h]⟩

/-- The root and what is below it. -/
theorem exists_elements_of_root? {t : Heap α} {a : α} (h : t.root? = some a) :
    ∃ rest, t.elements = {a} + rest := by
  obtain ⟨l, r, rfl⟩ := eq_node_of_root? h
  exact ⟨l.elements + r.elements, rfl⟩

theorem eq_empty_of_root? {t : Heap α} (h : t.root? = none) : t = .empty := by
  cases t with
  | empty => rfl
  | node => cases h

/-! ## Places filled from the left -/

/-- What has something to the right has something to the left. -/
def LeftFirst (t : Heap α) : Prop :=
  ∀ path, occupied (path ++ [true]) t = true → occupied (path ++ [false]) t = true

theorem LeftFirst.left {a : α} {l r : Heap α} (h : LeftFirst (.node a l r)) : LeftFirst l :=
  fun path => h (false :: path)

theorem LeftFirst.right {a : α} {l r : Heap α} (h : LeftFirst (.node a l r)) : LeftFirst r :=
  fun path => h (true :: path)

/-- There is nothing to the right of nothing. -/
theorem LeftFirst.right_eq_empty {a : α} {r : Heap α} (h : LeftFirst (.node a .empty r)) :
    r = .empty := by
  cases r with
  | empty => rfl
  | node => cases h [] rfl

theorem LeftFirst.congr {t t' : Heap α} (h : LeftFirst t)
    (hocc : ∀ path, occupied path t' = occupied path t) : LeftFirst t' := by
  intro path
  rw [hocc, hocc]
  exact h path

/-- Every path leads to a place. -/
theorem exists_turns (path : List Bool) : ∃ place, 0 < place ∧ turns place = path := by
  induction path using List.reverseRecOn with
  | nil => exact ⟨1, Nat.one_pos, by rw [turns, if_pos (Nat.le_refl 1)]⟩
  | append_singleton path turn ih =>
      obtain ⟨place, hplace, rfl⟩ := ih
      exact ⟨2 * place + turn.toNat, by omega, turns_below hplace turn⟩

theorem Complete.leftFirst {t : Heap α} (h : Complete t) : LeftFirst t := by
  intro path hright
  obtain ⟨place, hplace, rfl⟩ := exists_turns path
  rw [← turns_below hplace, h _ (by omega)] at hright ⊢
  simp only [Bool.toNat_true, Bool.toNat_false] at hright ⊢
  omega

/-! ## Refilling -/

/-- What refilling a tree gives whose elements below the root are `rest`. If the new element has not
    risen to the root, one of the others stands there. -/
structure Refilled (le : α → α → Prop) (x : α) (rest : Multiset α) (t : Heap α)
    (out : Heap α × Bool) : Prop where
  elements : out.1.elements = {x} + rest
  places   : ∀ path, occupied path out.1 = occupied path t
  ordered  : Ordered le out.1
  root     : if out.2 then out.1.root? = some x else ∃ y ∈ rest, out.1.root? = some y

/-- A way to put an element above a side, next to the other side. -/
structure Joins (le : α → α → Prop) (join : α → Heap α → Heap α) (other : Heap α) : Prop where
  elements : ∀ c t, (join c t).elements = {c} + (t.elements + other.elements)
  root     : ∀ c t, (join c t).root? = some c
  places   : ∀ c d t t', (∀ path, occupied path t' = occupied path t) →
    ∀ path, occupied path (join d t') = occupied path (join c t)
  ordered  : ∀ c t, (∀ b ∈ t.elements + other.elements, le c b) → Ordered le t →
    Ordered le (join c t)

theorem joins_left {r : Heap α} (hr : Ordered le r) : Joins le (fun c t => .node c t r) r where
  elements _ _ := rfl
  root _ _ := rfl
  places c d t t' h := by
    rintro (_ | ⟨_ | _, path⟩)
    · rfl
    · exact h path
    · rfl
  ordered _ _ h ht := ⟨h, ht, hr⟩

theorem joins_right {l : Heap α} (hl : Ordered le l) : Joins le (fun c t => .node c l t) l where
  elements c t := by rw [elements, add_comm l.elements]
  root _ _ := rfl
  places c d t t' h := by
    rintro (_ | ⟨_ | _, path⟩)
    · rfl
    · rfl
    · exact h path
  ordered c t h ht := ⟨by rwa [add_comm], hl, ht⟩

/-- The element that has moved up stays where it is if the new one is not before it. -/
theorem Refilled.under {x a c : α} {rest : Multiset α} {side side' other : Heap α}
    {join : α → Heap α → Heap α} (hj : Joins le join other) (hels : side'.elements = {x} + rest)
    (hplaces : ∀ path, occupied path side' = occupied path side) (hord : Ordered le side')
    (hax : le a x) (hle : ∀ b ∈ rest + other.elements, le a b) :
    Refilled le x ({a} + (rest + other.elements)) (join c side) (join a side', false) where
  elements := by
    show (join a side').elements = _
    rw [hj.elements, hels]
    ac_rfl
  places := hj.places _ _ _ _ hplaces
  ordered := by
    refine hj.ordered _ _ ?_ hord
    intro b hb
    rw [hels, add_assoc, Multiset.mem_add, Multiset.mem_singleton] at hb
    rcases hb with rfl | hb
    · exact hax
    · exact hle b hb
  root := ⟨a, Multiset.mem_add.mpr (.inl (Multiset.mem_singleton_self a)), hj.root _ _⟩

/-- The new element, at the root of a side, goes on to rise and puts the one that has moved up in
    its place. -/
theorem Refilled.over {x a c : α} {l r side other : Heap α} {join : α → Heap α → Heap α}
    (hj : Joins le join other)
    (hplaces : ∀ path, occupied path (.node x l r) = occupied path side)
    (hord : Ordered le (.node x l r)) (hxa : le x a)
    (hx : ∀ b ∈ l.elements + r.elements + other.elements, le x b)
    (ha : ∀ b ∈ l.elements + r.elements, le a b) :
    Refilled le x ({a} + (l.elements + r.elements + other.elements)) (join c side)
      (join x (.node a l r), true) where
  elements := by
    show (join x (.node a l r)).elements = _
    rw [hj.elements, Heap.elements]
    ac_rfl
  places := by
    refine hj.places c x side (.node a l r) ?_
    intro path
    rw [← hplaces path]
    rcases path with _ | ⟨_ | _, path⟩ <;> rfl
  ordered := by
    refine hj.ordered _ _ ?_ ⟨ha, hord.2⟩
    intro b hb
    rw [Heap.elements, add_assoc, Multiset.mem_add, Multiset.mem_singleton] at hb
    rcases hb with rfl | hb
    · exact hxa
    · exact hx b hb
  root := hj.root _ _

/-- One step of the way back up. The element that has moved up is before all the others, except
    perhaps before the new one if that has risen so far. -/
theorem rise_spec (hd : Decides E before le S) {x a c : α} {rest : Multiset α}
    {side other : Heap α} {join : α → Heap α → Heap α} {out : Heap α × Bool} (hx : S x) (ha : S a)
    (hS : ∀ b ∈ rest + other.elements, S b) (hle : ∀ b ∈ rest + other.elements, le a b)
    (hout : Refilled le x rest side out) (hj : Joins le join other) :
    Ends E (Refilled le x ({a} + (rest + other.elements)) (join c side))
      (rise before x a out.1 out.2 join) := by
  obtain ⟨side', risen⟩ := out
  obtain ⟨hels, hplaces, hord, hroot⟩ := hout
  cases risen with
  | true =>
      obtain ⟨l, r, rfl⟩ := eq_node_of_root? hroot
      obtain rfl : l.elements + r.elements = rest := add_left_cancel hels
      refine Ends.bind (hd.test hx ha) ?_
      intro first hfirst
      cases first with
      | true =>
          refine Ends.ok (.over hj hplaces hord hfirst ?_ ?_)
          · intro b hb
            exact hd.trans hx ha (hS b hb) hfirst (hle b hb)
          · intro b hb
            exact hle b (Multiset.mem_add.mpr (.inl hb))
      | false => exact Ends.ok (.under hj hels hplaces hord hfirst hle)
  | false =>
      obtain ⟨y, hy, hroot⟩ := hroot
      have hy' : y ∈ rest + other.elements := Multiset.mem_add.mpr (.inl hy)
      -- the new element stays below another one, which the one moved up is before
      have hax : le a x := by
        have hmem : x ∈ side'.elements := by
          rw [hels]
          exact Multiset.mem_add.mpr (.inl (Multiset.mem_singleton_self x))
        rcases hord.root_le hroot hmem with rfl | hyx
        · exact hle x hy'
        · exact hd.trans ha (hS y hy') hx (hle y hy') hyx
      exact Ends.ok (.under hj hels hplaces hord hax hle)

/-- Refilling a side whose root moves up to stand before everything on both sides. -/
theorem refill_side (hd : Decides E before le S) {x a c : α} {l r other : Heap α}
    {join : α → Heap α → Heap α} (hx : S x) (hS : ∀ b ∈ (node a l r).elements + other.elements, S b)
    (hside : Ordered le (.node a l r)) (hother : ∀ b ∈ other.elements, le a b)
    (hj : Joins le join other)
    (hrefill : Ends E (Refilled le x (l.elements + r.elements) (.node a l r))
      (refill before x (.node a l r))) :
    Ends E (Refilled le x ((node a l r).elements + other.elements) (join c (.node a l r)))
      (refill before x (.node a l r) >>= fun out => rise before x a out.1 out.2 join) := by
  rw [elements, add_assoc] at hS ⊢
  refine hrefill.bind ?_
  intro out hout
  refine rise_spec hd hx ?_ ?_ ?_ hout hj
  · exact hS a (Multiset.mem_add.mpr (.inl (Multiset.mem_singleton_self a)))
  · intro b hb
    exact hS b (Multiset.mem_add.mpr (.inr hb))
  · intro b hb
    rcases Multiset.mem_add.mp hb with hb | hb
    · exact hside.1 b hb
    · exact hother b hb

/-- **Refilling** the root of a tree whose two sides are ordered. -/
theorem refill_spec (hd : Decides E before le S) {x : α} (hx : S x) {t : Heap α} {c : α}
    {l r : Heap α} (ht : t = .node c l r) (hS : ∀ b ∈ l.elements + r.elements, S b)
    (hfirst : LeftFirst t) (hl : Ordered le l) (hr : Ordered le r) :
    Ends E (Refilled le x (l.elements + r.elements) t) (refill before x t) := by
  induction t generalizing c l r with
  | empty => cases ht
  | node c' l' r' ihl ihr =>
      obtain ⟨rfl, rfl, rfl⟩ : c' = c ∧ l' = l ∧ r' = r := by simpa using ht
      have hSl := fun d hd => hS d (Multiset.mem_add.mpr (.inl hd))
      have hSr := fun d hd => hS d (Multiset.mem_add.mpr (.inr hd))
      rw [refill]
      split
      · rename_i hnone
        obtain rfl := eq_empty_of_root? hnone
        obtain rfl := hfirst.right_eq_empty
        exact Ends.ok ⟨rfl, fun path => by rcases path with _ | ⟨_ | _, _⟩ <;> rfl,
          ⟨fun b hb => absurd hb (Multiset.notMem_zero b), trivial, trivial⟩, rfl⟩
      · rename_i a ha hnone
        obtain rfl := eq_empty_of_root? hnone
        obtain ⟨ll, lr, rfl⟩ := eq_node_of_root? ha
        exact refill_side hd hx hS hl (fun b hb => absurd hb (Multiset.notMem_zero b))
          (joins_left hr) (ihl rfl (fun d hmem => hSl d (Multiset.mem_add.mpr (.inr hmem)))
            hfirst.left hl.2.1 hl.2.2)
      · rename_i a b ha hb
        obtain ⟨ll, lr, rfl⟩ := eq_node_of_root? ha
        obtain ⟨rl, rr, rfl⟩ := eq_node_of_root? hb
        have hSa : S a := hSl a (Multiset.mem_add.mpr (.inl (Multiset.mem_singleton_self a)))
        have hSb : S b := hSr b (Multiset.mem_add.mpr (.inl (Multiset.mem_singleton_self b)))
        refine Ends.bind (hd.test hSa hSb) ?_
        intro first hab
        cases first with
        | true =>
            refine refill_side hd hx hS hl ?_ (joins_left hr)
              (ihl rfl (fun d hmem => hSl d (Multiset.mem_add.mpr (.inr hmem)))
                hfirst.left hl.2.1 hl.2.2)
            -- `b` stands between `a` and what is below it on the other side
            intro d hmem
            rcases hr.root_le rfl hmem with rfl | hbd
            · exact hab
            · exact hd.trans hSa hSb (hSr d hmem) hab hbd
        | false =>
            rw [add_comm] at hS ⊢
            refine refill_side hd hx hS hr ?_ (joins_right hl)
              (ihr rfl (fun d hmem => hSr d (Multiset.mem_add.mpr (.inr hmem)))
                hfirst.right hr.2.1 hr.2.2)
            intro d hmem
            rcases hl.root_le rfl hmem with rfl | had
            · exact hab
            · exact hd.trans hSb hSa (hSl d hmem) hab had

/-! ## The operations -/

/-- The places up to the size are occupied, and the elements are ordered. -/
structure Valid (le : α → α → Prop) (t : Heap α) : Prop where
  complete : Complete t
  ordered  : Ordered le t

/-- A tree that is refilled keeps its size. -/
theorem Complete.of_refilled {x c : α} {l r : Heap α} {out : Heap α × Bool}
    (h : Complete (.node c l r))
    (hout : Refilled le x (l.elements + r.elements) (.node c l r) out) : Complete out.1 := by
  refine h.congr hout.places ?_
  simp only [size_eq_card, hout.elements, elements, Multiset.card_add, Multiset.card_singleton]

/-- A new element in place of the least one. -/
theorem replaceRoot_spec (hd : Decides E before le S) {x a : α} {rest : Multiset α} {t : Heap α}
    (ht : Valid le t) (hroot : t.root? = some a) (hels : t.elements = {a} + rest) (hx : S x)
    (hS : ∀ b ∈ rest, S b) :
    Ends E (fun t' => t'.elements = {x} + rest ∧ Valid le t') (replaceRoot before x t) := by
  obtain ⟨l, r, rfl⟩ := eq_node_of_root? hroot
  obtain rfl : l.elements + r.elements = rest := add_left_cancel hels
  refine Ends.bind (refill_spec hd hx rfl hS ht.complete.leftFirst ht.ordered.2.1
    ht.ordered.2.2) ?_
  intro out hout
  exact Ends.ok ⟨hout.elements, ht.complete.of_refilled hout, hout.ordered⟩

/-- Ordering a tree, from its leaves to its root. -/
theorem order_spec (hd : Decides E before le S) {t : Heap α} (hfirst : LeftFirst t)
    (hS : ∀ b ∈ t.elements, S b) :
    Ends E (fun t' => t'.elements = t.elements ∧ (∀ path, occupied path t' = occupied path t)
      ∧ Ordered le t') (order before t) := by
  induction t with
  | empty => exact Ends.ok ⟨rfl, fun _ => rfl, trivial⟩
  | node a l r ihl ihr =>
      have hSa : S a := hS a (Multiset.mem_add.mpr (.inl (Multiset.mem_singleton_self a)))
      have hSrest := fun b hb => hS b (Multiset.mem_add.mpr (.inr hb))
      refine Ends.bind
        (ihr hfirst.right fun b hb => hSrest b (Multiset.mem_add.mpr (.inr hb))) ?_
      rintro r' ⟨hrels, hrplaces, hrord⟩
      refine Ends.bind (ihl hfirst.left fun b hb => hSrest b (Multiset.mem_add.mpr (.inl hb))) ?_
      rintro l' ⟨hlels, hlplaces, hlord⟩
      have hplaces : ∀ path, occupied path (.node a l' r') = occupied path (.node a l r) := by
        rintro (_ | ⟨_ | _, path⟩)
        · rfl
        · exact hlplaces path
        · exact hrplaces path
      rw [← hlels, ← hrels] at hSrest
      refine Ends.bind (refill_spec hd hSa rfl hSrest (hfirst.congr hplaces) hlord hrord) ?_
      intro out hout
      refine Ends.ok ⟨?_, fun path => (hout.places path).trans (hplaces path), hout.ordered⟩
      rw [hout.elements, hlels, hrels, elements]

/-- The heap of a list. -/
theorem ofList_spec (hd : Decides E before le S) {xs : List α} (hS : ∀ b ∈ xs, S b) :
    Ends E (fun t => t.elements = (xs : Multiset α) ∧ Valid le t) (ofList before xs) := by
  obtain ⟨hcomplete, hels⟩ := ofLevels_spec xs
  have hSt : ∀ b ∈ (ofLevels xs).elements, S b := by
    intro b hb
    rw [hels] at hb
    exact hS b hb
  refine (order_spec hd hcomplete.leftFirst hSt).mono ?_
  rintro t ⟨htels, hplaces, hord⟩
  refine ⟨htels.trans hels, hcomplete.congr hplaces ?_, hord⟩
  rw [size_eq_card, htels, size_eq_card]

/-- Taking a leaf away takes nothing else away that could spoil the order. -/
theorem Ordered.removeLeaf {path : List Bool} {t : Heap α} (h : Ordered le t) :
    Ordered le (removeLeaf path t).2 ∧ (removeLeaf path t).2.elements ≤ t.elements := by
  induction path generalizing t with
  | nil =>
      cases t with
      | empty => exact ⟨trivial, le_refl _⟩
      | node a l r => exact ⟨trivial, Multiset.zero_le _⟩
  | cons turn path ih =>
      cases t with
      | empty => exact ⟨trivial, le_refl _⟩
      | node a l r =>
          obtain ⟨hall, hl, hr⟩ := h
          cases turn with
          | false =>
              obtain ⟨hl', hle⟩ := ih hl
              have hsum := add_le_add_left hle r.elements
              refine ⟨⟨fun b hb => hall b (Multiset.mem_of_le hsum hb), hl', hr⟩, ?_⟩
              exact add_le_add_right hsum {a}
          | true =>
              obtain ⟨hr', hle⟩ := ih hr
              have hsum := add_le_add_right hle l.elements
              refine ⟨⟨fun b hb => hall b (Multiset.mem_of_le hsum hb), hl, hr'⟩, ?_⟩
              exact add_le_add_right hsum {a}

/-- What is left when a leaf is taken away is nothing, or has the same root. -/
theorem root?_removeLeaf (path : List Bool) {t : Heap α} {a : α} (h : t.root? = some a) :
    (removeLeaf path t).2 = .empty ∨ (removeLeaf path t).2.root? = some a := by
  obtain ⟨l, r, rfl⟩ := eq_node_of_root? h
  rcases path with _ | ⟨_ | _, path⟩
  · exact .inl rfl
  · exact .inr rfl
  · exact .inr rfl

/-- The heap without its least element. -/
theorem pop_spec (hd : Decides E before le S) {a : α} {rest : Multiset α} {t : Heap α}
    (ht : Valid le t) (hroot : t.root? = some a) (hels : t.elements = {a} + rest)
    (hS : ∀ b ∈ rest, S b) :
    Ends E (fun t' => t'.elements = rest ∧ Valid le t') (pop before t) := by
  have hsize : 0 < t.size := by
    obtain ⟨l, r, rfl⟩ := eq_node_of_root? hroot
    exact Nat.succ_pos _
  obtain ⟨x, t', hrem, hleaf, hcomplete⟩ := ht.complete.removeLeaf hsize
  have hord : Ordered le t' := by
    have h : Ordered le (removeLeaf (turns t.size) t).2 := ht.ordered.removeLeaf.1
    rwa [hrem] at h
  rw [pop, hrem]
  show Ends E _ (replaceRoot before x t')
  rcases root?_removeLeaf (turns t.size) hroot with hempty | hroot'
  · -- the root was the only element
    rw [hrem] at hempty
    obtain rfl : t' = .empty := hempty
    refine Ends.ok ⟨?_, complete_empty, trivial⟩
    have hcard := congrArg Multiset.card (hels.symm.trans hleaf)
    rw [Multiset.card_add, Multiset.card_add, Multiset.card_singleton, Multiset.card_singleton]
      at hcard
    exact (Multiset.card_eq_zero.mp (Nat.add_left_cancel hcard)).symm
  · rw [hrem] at hroot'
    obtain ⟨l, r, rfl⟩ := eq_node_of_root? hroot'
    have hrest : rest = {x} + (l.elements + r.elements) := by
      apply add_left_cancel (a := ({a} : Multiset α))
      rw [← hels, hleaf, elements]
      ac_rfl
    rw [hrest] at hS ⊢
    refine replaceRoot_spec hd ⟨hcomplete, hord⟩ rfl rfl ?_ ?_
    · exact hS x (Multiset.mem_add.mpr (.inl (Multiset.mem_singleton_self x)))
    · intro b hb
      exact hS b (Multiset.mem_add.mpr (.inr hb))

end EntityQuery.Heap
