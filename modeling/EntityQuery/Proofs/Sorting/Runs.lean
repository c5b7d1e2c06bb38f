import EntityQuery.Proofs.Outcome
import EntityQuery.Sorting.Run
import Mathlib.Algebra.Order.Group.Multiset

/-!
# Runs are arranged — sorted, with nothing lost

`Arranges le all ys` says that `ys` holds the elements of `all` and no element of it comes after a
later one. Whatever the sort does is described in this way, with a relation `le` that the test
decides. A stretch of a list that falls is arranged by the relation the other way round.

* **`Sorting.insert_spec`** — an element put into place by halving.
* **`Sorting.nextRun_spec`** — the run at the front of a list is an arrangement of that front.
-/

namespace EntityQuery.Sorting

variable {ε α : Type} {E : ε → Prop} {before : α → α → Except ε Bool} {le : α → α → Prop}
  {S : α → Prop}

/-! ## Arrangements -/

/-- The elements of `all` in order. -/
structure Arranges (le : α → α → Prop) (all : Multiset α) (ys : List α) : Prop where
  elements : (ys : Multiset α) = all
  sorted   : ys.Pairwise le

theorem coe_cons (a : α) (l : List α) : ((a :: l : List α) : Multiset α) = {a} + (l : Multiset α) :=
  rfl

theorem coe_append (l l' : List α) : ((l ++ l' : List α) : Multiset α) = (l : Multiset α) + l' :=
  rfl

theorem forall_mem_add {A B : Multiset α} {p : α → Prop} :
    (∀ a ∈ A + B, p a) ↔ (∀ a ∈ A, p a) ∧ ∀ b ∈ B, p b := by
  constructor
  · intro h
    exact ⟨fun a ha => h a (Multiset.mem_add.mpr (.inl ha)),
      fun b hb => h b (Multiset.mem_add.mpr (.inr hb))⟩
  · rintro ⟨hA, hB⟩ a ha
    rcases Multiset.mem_add.mp ha with ha | ha
    · exact hA a ha
    · exact hB a ha

theorem forall_mem_single_add {x : α} {B : Multiset α} {p : α → Prop} :
    (∀ a ∈ {x} + B, p a) ↔ p x ∧ ∀ b ∈ B, p b := by
  rw [forall_mem_add]
  simp only [Multiset.mem_singleton, forall_eq]

namespace Arranges

variable {A B : Multiset α} {xs ys : List α} {x : α}

theorem single (x : α) : Arranges le {x} [x] := ⟨rfl, List.pairwise_singleton le x⟩

theorem mem (h : Arranges le A xs) {a : α} : a ∈ xs ↔ a ∈ A := by
  rw [← h.elements, Multiset.mem_coe]

/-- One arrangement behind another. -/
theorem append (hx : Arranges le A xs) (hy : Arranges le B ys)
    (h : ∀ a ∈ A, ∀ b ∈ B, le a b) : Arranges le (A + B) (xs ++ ys) where
  elements := by rw [coe_append, hx.elements, hy.elements]
  sorted := by
    rw [List.pairwise_append]
    exact ⟨hx.sorted, hy.sorted, fun a ha b hb => h a (hx.mem.mp ha) b (hy.mem.mp hb)⟩

theorem cons (hy : Arranges le B ys) (h : ∀ b ∈ B, le x b) : Arranges le ({x} + B) (x :: ys) := by
  refine (single x).append hy ?_
  simpa only [Multiset.mem_singleton, forall_eq] using h

theorem congr (hx : Arranges le A xs) (h : A = B) : Arranges le B xs := h ▸ hx

/-- What is arranged the other way round, read backwards. -/
theorem reverse (hx : Arranges (fun a b => le b a) A xs) : Arranges le A xs.reverse where
  elements := by rw [Multiset.coe_reverse, hx.elements]
  sorted := List.pairwise_reverse.mpr hx.sorted

end Arranges

/-- A sorted list is an arrangement of its elements. -/
theorem arranges_self {xs : List α} (h : xs.Pairwise le) : Arranges le xs xs := ⟨rfl, h⟩

/-! ## Insertion -/

/-- A list around its element at a place. -/
theorem split_of_drop {xs more : List α} {n : Nat} {x : α} (h : xs.drop n = x :: more) :
    xs.take n ++ x :: more = xs ∧ (xs.take n).length = n := by
  constructor
  · rw [← h, List.take_append_drop]
  · have hlength := congrArg List.length h
    rw [List.length_drop, List.length_cons] at hlength
    rw [List.length_take]
    omega

/-- An element put into a sorted list. -/
theorem insert_spec (hd : Decides E before le S) {x : α} {xs : List α} (hx : S x)
    (hS : ∀ a ∈ xs, S a) (hsorted : xs.Pairwise le) :
    Ends E (Arranges le ({x} + xs)) (insert before x xs) := by
  induction hn : xs.length using Nat.strongRecOn generalizing xs with
  | ind n ih =>
      rw [insert]
      split
      · rename_i hnil
        obtain rfl : xs = [] := by
          rw [List.drop_eq_nil_iff] at hnil
          cases xs with
          | nil => rfl
          | cons a as =>
              rw [List.length_cons] at hnil
              omega
        exact Ends.ok (Arranges.single x)
      · rename_i m back hdrop
        obtain ⟨hsplit, -⟩ := split_of_drop hdrop
        have hlength := congrArg List.length hsplit
        rw [List.length_append, List.length_cons] at hlength
        generalize xs.take (xs.length / 2) = front at hsplit hlength ⊢
        subst hsplit
        obtain ⟨hfront, hback, hcross⟩ := List.pairwise_append.mp hsorted
        obtain ⟨hm, hback⟩ := List.pairwise_cons.mp hback
        have hSfront : ∀ a ∈ front, S a := fun a ha => hS a (List.mem_append_left _ ha)
        have hSm : S m := hS m (List.mem_append_right _ List.mem_cons_self)
        have hSback : ∀ a ∈ back, S a :=
          fun a ha => hS a (List.mem_append_right _ (List.mem_cons_of_mem m ha))
        -- the element in the middle tells which half the new one is put into
        refine Ends.bind (hd.test hx hSm) ?_
        intro first hfirst
        cases first with
        | true =>
            refine Ends.bind (ih front.length (by omega) hSfront hfront rfl) ?_
            intro ys hys
            refine Ends.ok ((hys.append ((arranges_self hback).cons hm) ?_).congr ?_)
            · rw [forall_mem_single_add]
              refine ⟨forall_mem_single_add.mpr ⟨hfirst, ?_⟩, ?_⟩
              · intro b hb
                exact hd.trans hx hSm (hSback b hb) hfirst (hm b hb)
              · intro a ha
                rw [forall_mem_single_add]
                exact ⟨hcross a ha m List.mem_cons_self,
                  fun b hb => hcross a ha b (List.mem_cons_of_mem m hb)⟩
            · rw [coe_append, coe_cons]
              ac_rfl
        | false =>
            refine Ends.bind (ih back.length (by omega) hSback hback rfl) ?_
            intro ys hys
            refine Ends.ok (((arranges_self hfront).append (hys.cons (x := m) ?_) ?_).congr ?_)
            · exact forall_mem_single_add.mpr ⟨hfirst, hm⟩
            · intro a ha
              have ham : le a m := hcross a ha m List.mem_cons_self
              refine forall_mem_single_add.mpr ⟨ham, forall_mem_single_add.mpr ⟨?_, ?_⟩⟩
              · exact hd.trans (hSfront a ha) hSm hx ham hfirst
              · exact fun b hb => hcross a ha b (List.mem_cons_of_mem m hb)
            · rw [coe_append, coe_cons]
              ac_rfl

/-- Elements put into a sorted list one after the other. -/
theorem insertAll_spec (hd : Decides E before le S) {sorted added : List α}
    (hS : ∀ a ∈ sorted, S a) (hSadded : ∀ a ∈ added, S a) (hsorted : sorted.Pairwise le) :
    Ends E (Arranges le (sorted + added)) (insertAll before sorted added) := by
  induction added generalizing sorted with
  | nil => exact Ends.ok ((arranges_self hsorted).congr (add_zero _).symm)
  | cons x added ih =>
      have hx : S x := hSadded x List.mem_cons_self
      refine Ends.bind (insert_spec hd hx hS hsorted) ?_
      intro ys hys
      have hSys : ∀ a ∈ ys, S a := by
        intro a ha
        exact forall_mem_single_add.mpr ⟨hx, hS⟩ a (hys.mem.mp ha)
      refine (ih hSys (fun a ha => hSadded a (List.mem_cons_of_mem x ha)) hys.sorted).mono ?_
      intro zs hzs
      refine hzs.congr ?_
      rw [hys.elements, coe_cons]
      ac_rfl

/-! ## Runs -/

/-- The relation of a run, rising or falling. -/
def direction (le : α → α → Prop) (falling : Bool) (a b : α) : Prop :=
  if falling then le b a else le a b

theorem direction_trans (hd : Decides E before le S) {falling : Bool} {a b c : α} (ha : S a)
    (hb : S b) (hc : S c) (hab : direction le falling a b) (hbc : direction le falling b c) :
    direction le falling a c := by
  cases falling with
  | false => exact hd.trans ha hb hc hab hbc
  | true => exact hd.trans hc hb ha hbc hab

/-- What continues a run is in its order. -/
theorem continuation_spec (hd : Decides E before le S) (falling : Bool) {last : α} {xs : List α}
    (hlast : S last) (hS : ∀ a ∈ xs, S a) :
    Ends E (fun n => (last :: xs.take n).Pairwise (direction le falling))
      (continuation before falling last xs) := by
  induction xs generalizing last with
  | nil => exact Ends.ok (List.pairwise_singleton _ _)
  | cons x xs ih =>
      have hx : S x := hS x List.mem_cons_self
      have hSxs : ∀ a ∈ xs, S a := fun a ha => hS a (List.mem_cons_of_mem x ha)
      refine Ends.bind (hd.test hx hlast) ?_
      intro first hfirst
      split
      · rename_i heq
        subst heq
        refine Ends.bind (ih hx hSxs) ?_
        intro n hn
        refine Ends.ok ?_
        have hlx : direction le first last x := by
          cases first with
          | false => exact hfirst
          | true => exact hfirst
        rw [List.take_succ_cons, List.pairwise_cons]
        refine ⟨?_, hn⟩
        intro b hb
        rcases List.mem_cons.mp hb with rfl | hb
        · exact hlx
        · exact direction_trans hd hlast hx (hSxs b (List.mem_of_mem_take hb)) hlx
            ((List.pairwise_cons.mp hn).1 b hb)
      · exact Ends.ok (List.pairwise_singleton _ _)

/-- The stretch at the front of a list is in its order. It is not empty unless the list is. -/
theorem stretch_spec (hd : Decides E before le S) {xs : List α} (hS : ∀ a ∈ xs, S a) :
    Ends E (fun out => (xs.take out.1).Pairwise (direction le out.2) ∧ (xs ≠ [] → 0 < out.1))
      (stretch before xs) := by
  match xs with
  | [] => exact Ends.ok ⟨List.Pairwise.nil, fun h => absurd rfl h⟩
  | [x] => exact Ends.ok ⟨List.pairwise_singleton _ _, fun _ => Nat.one_pos⟩
  | x :: y :: rest =>
      have hx : S x := hS x List.mem_cons_self
      have hy : S y := hS y (List.mem_cons_of_mem x List.mem_cons_self)
      have hSrest : ∀ a ∈ rest, S a :=
        fun a ha => hS a (List.mem_cons_of_mem x (List.mem_cons_of_mem y ha))
      refine Ends.bind (hd.test hy hx) ?_
      intro falling hfalling
      refine Ends.bind (continuation_spec hd falling hy hSrest) ?_
      intro n hn
      refine Ends.ok ⟨?_, fun _ => Nat.succ_pos _⟩
      have hxy : direction le falling x y := by
        cases falling with
        | false => exact hfalling
        | true => exact hfalling
      rw [List.take_succ_cons, List.take_succ_cons, List.pairwise_cons]
      refine ⟨?_, hn⟩
      intro b hb
      rcases List.mem_cons.mp hb with rfl | hb
      · exact hxy
      · exact direction_trans hd hx hy (hSrest b (List.mem_of_mem_take hb)) hxy
          ((List.pairwise_cons.mp hn).1 b hb)

/-- **Runs.** The run at the front of a list arranges the elements that it takes up, and takes up
    some unless there are none. -/
theorem nextRun_spec (hd : Decides E before le S) (least : Nat) {xs : List α}
    (hS : ∀ a ∈ xs, S a) :
    Ends E (fun out => Arranges le (xs.take out.2) out.1 ∧ (xs ≠ [] → 0 < out.2))
      (nextRun before least xs) := by
  refine Ends.bind (stretch_spec hd hS) ?_
  rintro ⟨size, falling⟩ ⟨hstretch, hpos⟩
  have hfront : Arranges le (xs.take size)
      (if falling then (xs.take size).reverse else xs.take size) := by
    cases falling with
    | false => exact arranges_self hstretch
    | true => exact (arranges_self hstretch).reverse
  refine Ends.bind (insertAll_spec hd ?_ ?_ hfront.sorted) ?_
  · intro a ha
    exact hS a (List.mem_of_mem_take (Multiset.mem_coe.mp (hfront.mem.mp ha)))
  · intro a ha
    exact hS a (List.mem_of_mem_drop (List.mem_of_mem_take ha))
  · intro run hrun
    refine Ends.ok ⟨hrun.congr ?_, fun hne => Nat.lt_of_lt_of_le (hpos hne) (Nat.le_max_left ..)⟩
    rw [hfront.elements, ← coe_append, ← List.take_add]
    show _ = ((xs.take (max size least) : List α) : Multiset α)
    rw [show size + (least - size) = max size least by omega]

end EntityQuery.Sorting
