import EntityQuery.Heap
import EntityQuery.Proofs.Lockstep
import Mathlib.Data.List.Forall2
import Mathlib.Data.Option.Defs

/-!
# Heaps in step — what heaps see of their elements

A heap tests its elements and looks at nothing else of them. So two heaps of one shape, whose
elements are related place by place (`Alike`), remain so under every operation, if only the tests of
related elements come out the same. The elements may be of two different types.

* **`Heap.Alike.refill`** — the tests that are made in one heap are made in the other.
* **`Heap.alike_ofList`**, **`Heap.Alike.replaceRoot`**, **`Heap.Alike.pop`** — the operations.
-/

namespace EntityQuery.Heap

variable {ε α β : Type} {E : ε → Prop} {R : α → β → Prop} {t : Heap α} {t' : Heap β} {x : α} {y : β}
  {before : α → α → Except ε Bool} {before' : β → β → Except ε Bool}

/-- Heaps of one shape, with related elements in the same places. -/
inductive Alike (R : α → β → Prop) : Heap α → Heap β → Prop
  | empty : Alike R .empty .empty
  | node {a : α} {b : β} {l r : Heap α} {l' r' : Heap β} (root : R a b) (left : Alike R l l')
      (right : Alike R r r') : Alike R (.node a l r) (.node b l' r')

/-! ## Shapes -/

namespace Alike

theorem root? (h : Alike R t t') : Option.Rel R t.root? t'.root? := by
  cases h with
  | empty => exact .none
  | node hroot _ _ => exact .some hroot

theorem setRoot (h : Alike R t t') (hx : R x y) : Alike R (t.setRoot x) (t'.setRoot y) := by
  cases h with
  | empty => exact .empty
  | node _ hl hr => exact .node hx hl hr

theorem size_eq (h : Alike R t t') : t.size = t'.size := by
  induction h with
  | empty => rfl
  | node _ _ _ ihl ihr => rw [Heap.size, Heap.size, ihl, ihr]

theorem addLeaf (h : Alike R t t') (hx : R x y) (path : List Bool) :
    Alike R (t.addLeaf x path) (t'.addLeaf y path) := by
  induction h generalizing path with
  | empty => rcases path with _ | ⟨_ | _, path⟩ <;> exact .node hx .empty .empty
  | node hroot hl hr ihl ihr =>
      rcases path with _ | ⟨_ | _, path⟩
      · exact .node hroot hl hr
      · exact .node hroot (ihl path) hr
      · exact .node hroot hl (ihr path)

theorem removeLeaf (h : Alike R t t') (path : List Bool) :
    Option.Rel R (t.removeLeaf path).1 (t'.removeLeaf path).1
      ∧ Alike R (t.removeLeaf path).2 (t'.removeLeaf path).2 := by
  induction h generalizing path with
  | empty => rcases path with _ | ⟨_ | _, path⟩ <;> exact ⟨.none, .empty⟩
  | node hroot hl hr ihl ihr =>
      rcases path with _ | ⟨_ | _, path⟩
      · exact ⟨.some hroot, .empty⟩
      · exact ⟨(ihl path).1, .node hroot (ihl path).2 hr⟩
      · exact ⟨(ihr path).1, .node hroot hl (ihr path).2⟩

end Alike

theorem alike_ofLevels {xs : List α} {ys : List β} (h : List.Forall₂ R xs ys) :
    Alike R (ofLevels xs) (ofLevels ys) := by
  have hfold : ∀ (n : Nat) {t : Heap α} {t' : Heap β}, Alike R t t' →
      Alike R ((xs.zipIdx n).foldl (fun t p => addLeaf p.1 (turns (p.2 + 1)) t) t)
        ((ys.zipIdx n).foldl (fun t p => addLeaf p.1 (turns (p.2 + 1)) t) t') := by
    induction h with
    | nil => exact fun n t t' ht => ht
    | cons hxy _ ih => exact fun n t t' ht => ih (n + 1) (ht.addLeaf hxy _)
  exact hfold 0 .empty

/-! ## Tests -/

section

variable (htest : TestsInStep E R before before')

include htest

/-- A step on the way back up tests the new element against the one that moved up. -/
theorem rise_inStep {above : α} {above' : β} {side : Heap α} {side' : Heap β} {risen : Bool}
    {join : α → Heap α → Heap α} {join' : β → Heap β → Heap β} (hx : R x y)
    (habove : R above above') (hside : Alike R side side')
    (hjoin : ∀ {c c' s s'}, R c c' → Alike R s s' → Alike R (join c s) (join' c' s')) :
    InStep E (fun p q => Alike R p.1 q.1 ∧ p.2 = q.2) (rise before x above side risen join)
      (rise before' y above' side' risen join') := by
  cases risen with
  | false => exact .ok ⟨hjoin habove hside, rfl⟩
  | true =>
      refine (htest _ _ _ _ hx habove).bind ?_
      rintro test _ rfl
      cases test with
      | false => exact .ok ⟨hjoin habove hside, rfl⟩
      | true => exact .ok ⟨hjoin hx (hside.setRoot habove), rfl⟩

/-- **Refilling** takes the same turns in both heaps. -/
theorem Alike.refill (h : Alike R t t') (hx : R x y) :
    InStep E (fun p q => Alike R p.1 q.1 ∧ p.2 = q.2) (refill before x t)
      (refill before' y t') := by
  induction h with
  | empty => exact .ok ⟨.empty, rfl⟩
  | @node a a' l r l' r' _ hl hr ihl ihr =>
      have hleft : ∀ {b : α} {b' : β}, R b b' →
          InStep E (fun p q => Alike R p.1 q.1 ∧ p.2 = q.2)
            (Heap.refill before x l >>= fun p =>
              rise before x b p.1 p.2 fun c s => .node c s r)
            (Heap.refill before' y l' >>= fun p =>
              rise before' y b' p.1 p.2 fun c s => .node c s r') := by
        intro b b' hb
        refine ihl.bind ?_
        rintro ⟨s, risen⟩ ⟨s', _⟩ ⟨hs, rfl⟩
        exact rise_inStep htest hx hb hs fun hc hs => .node hc hs hr
      have hright : ∀ {b : α} {b' : β}, R b b' →
          InStep E (fun p q => Alike R p.1 q.1 ∧ p.2 = q.2)
            (Heap.refill before x r >>= fun p =>
              rise before x b p.1 p.2 fun c s => .node c l s)
            (Heap.refill before' y r' >>= fun p =>
              rise before' y b' p.1 p.2 fun c s => .node c l' s) := by
        intro b b' hb
        refine ihr.bind ?_
        rintro ⟨s, risen⟩ ⟨s', _⟩ ⟨hs, rfl⟩
        exact rise_inStep htest hx hb hs fun hc hs => .node hc hl hs
      clear ihl ihr
      cases hl with
      | empty => exact .ok ⟨.node hx .empty hr, rfl⟩
      | node hroot hll hlr =>
          cases hr with
          | empty => exact hleft hroot
          | node hroot' hrl hrr =>
              -- the smaller one of the two children moves up
              refine (htest _ _ _ _ hroot hroot').bind ?_
              rintro test _ rfl
              cases test with
              | false => exact hright hroot'
              | true => exact hleft hroot

theorem Alike.replaceRoot (h : Alike R t t') (hx : R x y) :
    InStep E (Alike R) (replaceRoot before x t) (replaceRoot before' y t') :=
  (h.refill htest hx).bind fun hp => .ok hp.1

theorem Alike.order (h : Alike R t t') :
    InStep E (Alike R) (order before t) (order before' t') := by
  induction h with
  | empty => exact .ok .empty
  | node hroot _ _ ihl ihr =>
      refine ihr.bind fun hr => ihl.bind fun hl => ?_
      exact (Alike.node hroot hl hr).replaceRoot htest hroot

theorem alike_ofList {xs : List α} {ys : List β} (h : List.Forall₂ R xs ys) :
    InStep E (Alike R) (ofList before xs) (ofList before' ys) :=
  (alike_ofLevels h).order htest

theorem Alike.pop (h : Alike R t t') : InStep E (Alike R) (pop before t) (pop before' t') := by
  obtain ⟨hleaf, hrest⟩ := h.removeLeaf (turns t.size)
  rw [Heap.pop, Heap.pop, ← h.size_eq]
  generalize t.removeLeaf (turns t.size) = removed at hleaf hrest
  generalize t'.removeLeaf (turns t.size) = removed' at hleaf hrest
  obtain ⟨x, s⟩ := removed
  obtain ⟨x', s'⟩ := removed'
  cases hleaf with
  | none => exact .ok hrest
  | some hx => exact hrest.replaceRoot htest hx

end

end EntityQuery.Heap
