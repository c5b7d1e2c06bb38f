import EntityQuery.Execution.Merge
import EntityQuery.Proofs.Execution.Interleaving
import EntityQuery.Proofs.Heap.Order
import Mathlib.Data.List.Forall2

/-!
# Contents — what reading a source to the end gives

The sources that plans are made of give the same rows whatever the world is, so what a state of
theirs has to give is fixed before the first reading (`Source.Gives`). The contents of a merge are
described by the contents of its sources: its rows are an interleaving of theirs, in which no row
comes before one that was read ahead of it.

While a merge is read, the heap holds one row of each source that is not used up, and the source
itself what comes after that row. `Merge.Holds` says this; it is established by the first reading
and kept by each further one.

* **`Source.gives_merge`** — the contents of a merge.
* **`Source.collect_eq`** — contents are what is collected.
-/

namespace EntityQuery

variable {ω α σ : Type}

/-- What there is to say of contents: the rows are in `S`, all of them together in `Q`, and a fault
    in `E`. -/
structure Collected.Ends (S : α → Prop) (E : Fault → Prop) (Q : List α → Prop)
    (c : Collected α) : Prop where
  rows      : ∀ a ∈ c.rows, S a
  exhausted : c.ending = .exhausted → Q c.rows
  failed    : ∀ f, c.ending = .failed f → E f
  unstopped : c.ending ≠ .stopped

theorem Collected.Ends.mono {S : α → Prop} {E : Fault → Prop} {P Q : List α → Prop}
    {c : Collected α} (h : c.Ends S E P) (hPQ : ∀ as, P as → Q as) : c.Ends S E Q :=
  ⟨h.rows, fun hc => hPQ _ (h.exhausted hc), h.failed, h.unstopped⟩

theorem Collected.Ends.failure {S : α → Prop} {E : Fault → Prop} {Q : List α → Prop} {f : Fault}
    (h : E f) : Collected.Ends S E Q ⟨[], .failed f⟩ where
  rows := List.forall_mem_nil _
  exhausted hend := by cases hend
  failed g hg := by
    obtain rfl := Ending.failed.inj hg
    exact h
  unstopped hend := by cases hend

theorem Collected.Ends.ended {S : α → Prop} {E : Fault → Prop} {Q : List α → Prop} {as : List α}
    (has : ∀ a ∈ as, S a) (h : Q as) : Collected.Ends S E Q ⟨as, .exhausted⟩ where
  rows := has
  exhausted _ := h
  failed f hf := by cases hf
  unstopped hend := by cases hend

theorem Collected.Ends.push {S : α → Prop} {E : Fault → Prop} {Q : List α → Prop} {a : α}
    {c : Collected α} (ha : S a) (h : c.Ends S E fun as => Q (a :: as)) :
    (c.push a).Ends S E Q where
  rows := by
    rintro b (_ | ⟨_, hb⟩)
    · exact ha
    · exact h.rows b hb
  exhausted := h.exhausted
  failed := h.failed
  unstopped := h.unstopped

/-- What comes after the first row. -/
theorem Collected.Ends.of_push {S : α → Prop} {E : Fault → Prop} {Q : List α → Prop} {a : α}
    {c : Collected α} (h : (c.push a).Ends S E Q) : c.Ends S E fun as => Q (a :: as) where
  rows b hb := h.rows b (List.mem_cons_of_mem a hb)
  exhausted := h.exhausted
  failed := h.failed
  unstopped := h.unstopped

namespace Source

/-- What a state has to give, in any world. -/
inductive Gives (S : Source ω α σ) : σ → Collected α → Prop
  | row {s s' : σ} {a : α} {c : Collected α} (h : ∀ w, (S.read s w).1 = .row a s')
      (rest : Gives S s' c) : Gives S s (c.push a)
  | done {s : σ} (h : ∀ w, (S.read s w).1 = .done) : Gives S s ⟨[], .exhausted⟩
  | failed {s : σ} {f : Fault} (h : ∀ w, (S.read s w).1 = .failed f) : Gives S s ⟨[], .failed f⟩

/-- Collecting goes on with what one reading gives. -/
theorem collect_of_read {S : Source ω α σ} {s : σ} {w w' : ω} {r : Reading α σ}
    (h : S.read s w = (r, w')) :
    (S.collect none s w).1 = match r with
      | .row a s' => (S.collect none s' w').1.push a
      | .done => ⟨[], .exhausted⟩
      | .failed f => ⟨[], .failed f⟩ := by
  rw [collect, if_neg (Option.some_ne_none 0).symm]
  split
  · rename_i heq
    obtain ⟨rfl, rfl⟩ := Prod.mk.inj (h.symm.trans heq)
    rfl
  · rename_i heq
    obtain ⟨rfl, rfl⟩ := Prod.mk.inj (h.symm.trans heq)
    rfl
  · rename_i heq
    obtain ⟨rfl, rfl⟩ := Prod.mk.inj (h.symm.trans heq)
    rfl

/-- What a state has to give is what is collected from it. -/
theorem collect_eq {S : Source ω α σ} {s : σ} {c : Collected α} (h : S.Gives s c) (w : ω) :
    (S.collect none s w).1 = c := by
  induction h generalizing w with
  | row h _ ih =>
      rw [collect_of_read (Prod.ext (h w) rfl)]
      show Collected.push _ _ = _
      rw [ih]
  | done h => rw [collect_of_read (Prod.ext (h w) rfl)]
  | failed h => rw [collect_of_read (Prod.ext (h w) rfl)]

theorem rows_gives : ∀ as : List α, (rows : Source ω α (List α)).Gives as ⟨as, .exhausted⟩
  | [] => .done fun _ => rfl
  | _ :: as => .row (fun _ => rfl) (rows_gives as)

end Source

/-! ## Merging -/

namespace Merge

/-- While a merge is read, the heap holds the first row that is left of every source, and the source
    what comes after it. A source that has no first row has nothing left. -/
structure Holds (S : Source ω α σ) (sources : List (Option σ)) (ahead : Multiset (α × Nat))
    (cs : List (Collected α)) : Prop where
  front : ∀ {a i}, (a, i) ∈ ahead → ∃ s c, sources[i]? = some (some s) ∧ S.Gives s c
    ∧ cs[i]? = some (c.push a)
  rest  : ∀ {i c}, cs[i]? = some c → (∃ a, (a, i) ∈ ahead) ∨ c = ⟨[], .exhausted⟩
  once  : (ahead.map Prod.snd).Nodup

variable {S : Source ω α σ} {sources : List (Option σ)} {ahead : Multiset (α × Nat)}
  {cs : List (Collected α)} {a b : α} {i : Nat} {c : Collected α}

/-- A source is in the heap once, so no other row of the source from which the least row came is
    there. -/
theorem Holds.ne_of_mem (h : Holds S sources ({(a, i)} + ahead) cs) {j : Nat}
    (hb : (b, j) ∈ ahead) : j ≠ i := by
  rintro rfl
  have honce := h.once
  rw [Multiset.map_add, Multiset.map_singleton, Multiset.singleton_add, Multiset.nodup_cons]
    at honce
  exact honce.1 (Multiset.mem_map.mpr ⟨(b, j), hb, rfl⟩)

/-- The next row of the source from which the least row came takes its place. -/
theorem Holds.set_some (h : Holds S sources ({(a, i)} + ahead) cs) {s s' : σ} {c' : Collected α}
    (hs : sources[i]? = some (some s)) (hc : cs[i]? = some c') (hgives : S.Gives s' c) :
    Holds S (sources.set i (some s')) ({(b, i)} + ahead) (cs.set i (c.push b)) where
  front {d j} hmem := by
    rw [Multiset.mem_add, Multiset.mem_singleton, Prod.mk.injEq] at hmem
    rcases hmem with ⟨rfl, rfl⟩ | hmem
    · refine ⟨s', c, ?_, hgives, ?_⟩
      · rw [List.getElem?_set_self (List.getElem?_eq_some_iff.mp hs).1]
      · rw [List.getElem?_set_self (List.getElem?_eq_some_iff.mp hc).1]
    · have hne := (h.ne_of_mem hmem).symm
      obtain ⟨t, e, ht, he, hcs⟩ := h.front (Multiset.mem_add.mpr (.inr hmem))
      refine ⟨t, e, ?_, he, ?_⟩
      · rw [List.getElem?_set_ne hne, ht]
      · rw [List.getElem?_set_ne hne, hcs]
  rest {j e} he := by
    by_cases hj : i = j
    · subst hj
      exact .inl ⟨b, Multiset.mem_add.mpr (.inl (Multiset.mem_singleton_self _))⟩
    · rw [List.getElem?_set_ne hj] at he
      rcases h.rest he with ⟨d, hd⟩ | hnone
      · rw [Multiset.mem_add, Multiset.mem_singleton, Prod.mk.injEq] at hd
        rcases hd with ⟨-, hij⟩ | hd
        · exact absurd hij.symm hj
        · exact .inl ⟨d, Multiset.mem_add.mpr (.inr hd)⟩
      · exact .inr hnone
  once := by
    have honce := h.once
    rw [Multiset.map_add, Multiset.map_singleton] at honce ⊢
    exact honce

/-- The source from which the least row came has nothing left. -/
theorem Holds.set_none (h : Holds S sources ({(a, i)} + ahead) cs) :
    Holds S (sources.set i none) ahead (cs.set i ⟨[], .exhausted⟩) where
  front {d j} hmem := by
    have hne := (h.ne_of_mem hmem).symm
    obtain ⟨t, e, ht, he, hcs⟩ := h.front (Multiset.mem_add.mpr (.inr hmem))
    refine ⟨t, e, ?_, he, ?_⟩
    · rw [List.getElem?_set_ne hne, ht]
    · rw [List.getElem?_set_ne hne, hcs]
  rest {j e} he := by
    by_cases hj : i = j
    · subst hj
      obtain ⟨hlt, heq⟩ := List.getElem?_eq_some_iff.mp he
      rw [List.getElem_set_self] at heq
      exact .inr heq.symm
    · rw [List.getElem?_set_ne hj] at he
      rcases h.rest he with ⟨d, hd⟩ | hnone
      · rw [Multiset.mem_add, Multiset.mem_singleton, Prod.mk.injEq] at hd
        rcases hd with ⟨-, hij⟩ | hd
        · exact absurd hij.symm hj
        · exact .inl ⟨d, hd⟩
      · exact .inr hnone
  once := by
    have honce := h.once
    rw [Multiset.map_add, Multiset.map_singleton, Multiset.singleton_add, Multiset.nodup_cons]
      at honce
    exact honce.2

variable {E : Fault → Prop} {P : α → Prop} {le : α → α → Prop}
  {cmp : α → α → Except Fault Ordering}

/-- A row that was read ahead is one of its source. -/
theorem Holds.rows_ahead (h : Holds S sources ahead cs) (hP : ∀ c ∈ cs, ∀ b ∈ c.rows, P b) :
    ∀ p ∈ ahead, P p.1 := by
  rintro ⟨b, j⟩ hb
  obtain ⟨_, c, -, -, hc⟩ := h.front hb
  exact hP _ (List.mem_of_getElem? hc) b List.mem_cons_self

/-- Rows of different sources that compare as equal may stand in either order. -/
theorem decides_before (ho : Orders E cmp le P) :
    Decides E (before cmp) (fun p q => le p.1 q.1) (fun p => P p.1) where
  test {p q} hp hq := by
    refine Ends.bind (ho.compare hp hq) ?_
    intro o hpq
    cases o with
    | lt => exact Ends.ok (hpq.1 (by decide))
    | eq =>
        refine Ends.ok ?_
        split
        · exact hpq.1 (by decide)
        · exact hpq.2 (by decide)
    | gt => exact Ends.ok (hpq.2 (by decide))
  trans hp hq hr := ho.trans hp hq hr

/-- A further reading is settled by what the source gives from which the least row came. -/
theorem readNext_eq {heap : Heap (α × Nat)} {s : σ} (hroot : heap.root? = some (a, i))
    (hs : sources[i]? = some (some s)) (w : ω) :
    (readNext S cmp sources heap w).1 = match (S.read s w).1 with
      | .row b s' =>
          least (sources.set i (some s')) (heap.replaceRoot (before cmp) (b, i))
      | .done => least (sources.set i none) (heap.pop (before cmp))
      | .failed f => .failed f := by
  rw [readNext, hroot]
  simp only [hs]
  rcases S.read s w with ⟨_ | _ | _, w'⟩ <;> rfl

/-- The rows are an interleaving of what is left of the sources, all of which were read to the
    end. -/
def Interleaved (le : α → α → Prop) (cs : List (Collected α)) (m : List α) : Prop :=
  (∀ c ∈ cs, c.ending = .exhausted) ∧ Interleaves le (cs.map Collected.rows) m

/-- Where no row was read ahead, none is left. -/
theorem Interleaved.nil (h : Holds S sources 0 cs) : Interleaved le cs [] := by
  have hall : ∀ c ∈ cs, c = ⟨[], .exhausted⟩ := by
    intro c hc
    obtain ⟨j, hj⟩ := List.mem_iff_getElem?.mp hc
    rcases h.rest hj with ⟨b, hb⟩ | hnil
    · exact absurd hb (Multiset.notMem_zero _)
    · exact hnil
  refine ⟨fun c hc => by rw [hall c hc], .nil ?_⟩
  intro l hl
  obtain ⟨c, hc, rfl⟩ := List.mem_map.mp hl
  rw [hall c hc]

/-- The least row in front of an interleaving of what is left after it. -/
theorem Interleaved.cons {heap : Heap (α × Nat)} {m : List α} (ho : Orders E cmp le P)
    (hP : ∀ c ∈ cs, ∀ b ∈ c.rows, P b) (hholds : Holds S sources heap.elements cs)
    (hroot : heap.root? = some (a, i)) (hord : heap.Ordered fun p q => le p.1 q.1)
    (hc : cs[i]? = some (c.push a)) (h : Interleaved le (cs.set i c) m) :
    Interleaved le cs (a :: m) := by
  obtain ⟨hends, hm⟩ := h
  have hi : i < cs.length := (List.getElem?_eq_some_iff.mp hc).1
  refine ⟨?_, @Interleaves.cons _ le _ i a c.rows m ?_ ?_ (by rwa [List.map_set] at hm)⟩
  · intro c' hc'
    obtain ⟨j, hj⟩ := List.mem_iff_getElem?.mp hc'
    by_cases hij : i = j
    · subst hij
      obtain rfl : c.push a = c' := Option.some.inj (hc.symm.trans hj)
      exact hends c (List.mem_iff_getElem?.mpr ⟨i, List.getElem?_set_self hi⟩)
    · refine hends c' (List.mem_iff_getElem?.mpr ⟨j, ?_⟩)
      rw [List.getElem?_set_ne hij, hj]
  · rw [List.getElem?_map, hc]
    rfl
  · intro l hl b hb
    obtain ⟨c', hc', rfl⟩ := List.mem_map.mp hl
    obtain ⟨j, hj⟩ := List.mem_iff_getElem?.mp hc'
    have hPa : P a := hP _ (List.mem_of_getElem? hc) a List.mem_cons_self
    rcases hholds.rest hj with ⟨b', hb'⟩ | rfl
    · obtain ⟨_, c'', -, -, hcs⟩ := hholds.front hb'
      obtain rfl := Option.some.inj (hj.symm.trans hcs)
      obtain rfl : b' = b := Option.some.inj hb
      rcases hord.root_le hroot hb' with heq | hle
      · obtain ⟨rfl, -⟩ := Prod.mk.inj heq
        exact ho.refl hPa
      · exact hle
    · cases hb

/-- What is left once the source from which the least row came has been read on. -/
theorem length_set_lt (hc : cs[i]? = some (c.push a)) :
    ((cs.set i c).map Collected.rows).flatten.length < (cs.map Collected.rows).flatten.length := by
  have hfront : (cs.map Collected.rows)[i]? = some (a :: c.rows) := by
    rw [List.getElem?_map, hc]
    rfl
  rw [(flatten_perm_cons hfront).length_eq, List.map_set]
  exact Nat.lt_succ_self _

/-- **The contents of a merge** that is about to give the least of the rows read ahead. The
    induction is on how many rows are left, each of which is read ahead before it is given. -/
theorem gives_least (ho : Orders E cmp le P) {m : Merge α σ}
    {r : Except Fault (Heap (α × Nat))}
    (hread : ∀ w, ((S.merge cmp).read m w).1 = least sources r)
    (hheap : Ends E (fun t => t.elements = ahead ∧ t.Valid fun p q => le p.1 q.1) r)
    (hholds : Holds S sources ahead cs) (hcs : ∀ c ∈ cs, c.Ends P E fun _ => True) :
    ∃ d, (S.merge cmp).Gives m d ∧ d.Ends P E (Interleaved le cs) := by
  induction hn : (cs.map Collected.rows).flatten.length using Nat.strongRecOn
    generalizing m r sources ahead cs with
  | ind n ih =>
      have hP : ∀ c ∈ cs, ∀ b ∈ c.rows, P b := fun c hc => (hcs c hc).rows
      cases r with
      | error f => exact ⟨_, .failed hread, .failure hheap⟩
      | ok heap =>
          obtain ⟨rfl, hvalid⟩ := hheap
          cases hroot : heap.root? with
          | none =>
              obtain rfl := Heap.eq_empty_of_root? hroot
              exact ⟨_, .done hread, .ended (List.forall_mem_nil _) (.nil hholds)⟩
          | some root =>
              obtain ⟨a, i⟩ := root
              obtain ⟨rest, hels⟩ := Heap.exists_elements_of_root? hroot
              obtain ⟨s, c, hs, hgives, hc⟩ := hholds.front (a := a) (i := i)
                (by rw [hels]; exact Multiset.mem_add.mpr (.inl (Multiset.mem_singleton_self _)))
              have hEnds := hcs _ (List.mem_of_getElem? hc)
              have hcs' : ∀ c' ∈ cs.set i c, c'.Ends P E fun _ => True := by
                intro c' hc'
                rcases List.mem_or_eq_of_mem_set hc' with hc' | rfl
                · exact hcs c' hc'
                · exact hEnds.of_push
              have hPrest : ∀ p ∈ rest, P p.1 := by
                intro p hp
                refine hholds.rows_ahead hP p ?_
                rw [hels]
                exact Multiset.mem_add.mpr (.inr hp)
              have hlt := length_set_lt hc
              rw [hn] at hlt
              -- the least row is given; its source is read on when the next one is asked for
              suffices h : ∃ d, (S.merge cmp).Gives ⟨sources, some heap⟩ d
                  ∧ d.Ends P E (Interleaved le (cs.set i c)) by
                obtain ⟨d, hd, hdEnds⟩ := h
                refine ⟨d.push a, .row (fun w => ?_) hd, .push ?_ (hdEnds.mono fun as has => ?_)⟩
                · rw [hread, least, hroot]
                · exact hEnds.rows a List.mem_cons_self
                · exact has.cons ho hP hholds hroot hvalid.ordered hc
              have hnext := fun w =>
                (readNext_eq hroot hs w : (readNext S cmp sources heap w).1 = _)
              rw [hels] at hholds
              cases hgives with
              | @row _ s' b c' h hs' =>
                  refine ih _ hlt (fun w => (hnext w).trans (by rw [h w])) ?_
                    (hholds.set_some hs hc hs') hcs' rfl
                  exact Heap.replaceRoot_spec (decides_before ho) hvalid hroot hels
                    (hEnds.of_push.rows b List.mem_cons_self) hPrest
              | done h =>
                  refine ih _ hlt (fun w => (hnext w).trans (by rw [h w])) ?_
                    hholds.set_none hcs' rfl
                  exact Heap.pop_spec (decides_before ho) hvalid hroot hels hPrest
              | @failed _ f h =>
                  refine ⟨_, .failed (fun w => (hnext w).trans (by rw [h w])), .failure ?_⟩
                  exact hEnds.of_push.failed f rfl

/-! ### The first reading -/

/-- What `Holds` says, of sources that are numbered from `k` on. -/
structure Fronts (S : Source ω α σ) (k : Nat) (sources : List (Option σ)) (ahead : List (α × Nat))
    (cs : List (Collected α)) : Prop where
  least : ∀ p ∈ ahead, k ≤ p.2
  front : ∀ {a i}, (a, k + i) ∈ ahead → ∃ s c, sources[i]? = some (some s) ∧ S.Gives s c
    ∧ cs[i]? = some (c.push a)
  rest  : ∀ {i c}, cs[i]? = some c → (∃ a, (a, k + i) ∈ ahead) ∨ c = ⟨[], .exhausted⟩
  once  : (ahead.map Prod.snd).Nodup

variable {k : Nat} {fronts : List (α × Nat)}

theorem Fronts.nil : Fronts S k [] [] [] where
  least := List.forall_mem_nil _
  front hb := by cases hb
  rest hd := by cases hd
  once := List.nodup_nil

theorem Fronts.cons_some (h : Fronts S (k + 1) sources fronts cs) {s : σ} (hs : S.Gives s c) :
    Fronts S k (some s :: sources) ((a, k) :: fronts) (c.push a :: cs) where
  least := by
    rintro p (_ | ⟨_, hp⟩)
    · exact Nat.le_refl k
    · exact Nat.le_of_succ_le (h.least p hp)
  front {b i} hb := by
    cases i with
    | zero =>
        rcases List.mem_cons.mp hb with heq | hb
        · obtain ⟨rfl, -⟩ := Prod.mk.inj heq
          exact ⟨s, c, rfl, hs, rfl⟩
        · exact absurd (h.least _ hb) (Nat.lt_irrefl k)
    | succ i =>
        rcases List.mem_cons.mp hb with heq | hb
        · have := (Prod.mk.inj heq).2
          omega
        · rw [show k + (i + 1) = k + 1 + i by omega] at hb
          exact h.front hb
  rest {i d} hd := by
    cases i with
    | zero => exact .inl ⟨a, List.mem_cons_self⟩
    | succ i =>
        rw [show k + (i + 1) = k + 1 + i by omega]
        exact (h.rest hd).imp_left fun ⟨b, hb⟩ => ⟨b, List.mem_cons_of_mem _ hb⟩
  once := by
    rw [List.map_cons, List.nodup_cons]
    refine ⟨?_, h.once⟩
    intro hk
    obtain ⟨p, hp, hpk⟩ := List.mem_map.mp hk
    have := h.least p hp
    omega

theorem Fronts.cons_none (h : Fronts S (k + 1) sources fronts cs) :
    Fronts S k (none :: sources) fronts (⟨[], .exhausted⟩ :: cs) where
  least p hp := Nat.le_of_succ_le (h.least p hp)
  front {b i} hb := by
    cases i with
    | zero => exact absurd (h.least _ hb) (Nat.lt_irrefl k)
    | succ i =>
        rw [show k + (i + 1) = k + 1 + i by omega] at hb
        exact h.front hb
  rest {i d} hd := by
    cases i with
    | zero => exact .inr (Option.some.inj hd).symm
    | succ i =>
        rw [show k + (i + 1) = k + 1 + i by omega]
        exact h.rest hd
  once := h.once

/-- Reading a row of every source goes on with what the first one gives. -/
theorem readEach_cons (s : σ) (rest : List (Option σ)) (k : Nat) (w : ω) :
    (readEach S k (some s :: rest) w).1 = match (S.read s w).1 with
      | .row a s' => (readEach S (k + 1) rest (S.read s w).2).1.map fun out =>
          (some s' :: out.1, (a, k) :: out.2)
      | .done => (readEach S (k + 1) rest (S.read s w).2).1.map fun out => (none :: out.1, out.2)
      | .failed f => .error f := by
  rw [readEach]
  rcases S.read s w with ⟨_ | _ | _, w'⟩
  · dsimp only
    rcases readEach S (k + 1) rest w' with ⟨_ | _, _⟩ <;> rfl
  · dsimp only
    rcases readEach S (k + 1) rest w' with ⟨_ | _, _⟩ <;> rfl
  · rfl

/-- The first reading orders what reading a row of every source gives. -/
theorem readFirst_eq (w : ω) :
    (readFirst S cmp sources w).1 = match (readEach S 0 sources w).1 with
      | .ok (_, []) => .done
      | .ok (left, a :: ahead) => least left (Heap.ofList (before cmp) (a :: ahead))
      | .error f => .failed f := by
  rw [readFirst]
  rcases readEach S 0 sources w with ⟨_ | ⟨left, _ | ⟨a, ahead⟩⟩, w'⟩ <;> rfl

/-- Reading one row of every source, whatever the world is. -/
theorem readEach_spec {ss : List σ} (h : List.Forall₂ S.Gives ss cs) (k : Nat) :
    ∃ r, (∀ w, (readEach S k (ss.map some) w).1 = r)
      ∧ Ends (fun f => ∃ c ∈ cs, c.ending = .failed f)
        (fun out => Fronts S k out.1 out.2 cs) r := by
  induction h generalizing k with
  | nil => exact ⟨_, fun _ => rfl, .nil⟩
  | @cons s c ss cs hs _ ih =>
      obtain ⟨r, hr, hEnds⟩ := ih (k + 1)
      -- a fault of a later source is one of the first reading, whatever the first source gives
      have hfailed : ∀ {d : Collected α} {f : Fault}, r = .error f →
          ∃ c ∈ d :: cs, c.ending = .failed f := by
        rintro d f rfl
        obtain ⟨c, hc, hf⟩ := hEnds
        exact ⟨c, List.mem_cons_of_mem d hc, hf⟩
      cases hs with
      | @row _ s' a c h hs' =>
          refine ⟨r.map fun out => (some s' :: out.1, (a, k) :: out.2), ?_, ?_⟩
          · intro w
            rw [List.map_cons, readEach_cons, h w]
            dsimp only
            rw [hr]
          · cases r with
            | error f => exact hfailed rfl
            | ok out => exact hEnds.cons_some hs'
      | done h =>
          refine ⟨r.map fun out => (none :: out.1, out.2), ?_, ?_⟩
          · intro w
            rw [List.map_cons, readEach_cons, h w]
            dsimp only
            rw [hr]
          · cases r with
            | error f => exact hfailed rfl
            | ok out => exact hEnds.cons_none
      | @failed _ f h =>
          refine ⟨.error f, ?_, ⟨_, List.mem_cons_self, rfl⟩⟩
          intro w
          rw [List.map_cons, readEach_cons, h w]

end Merge

/-- **The contents of a merge**: if no fault has been met, the rows of its sources, interleaved. -/
theorem Source.gives_merge {S : Source ω α σ} {cs : List (Collected α)} {E : Fault → Prop}
    {P : α → Prop} {le : α → α → Prop} {cmp : α → α → Except Fault Ordering}
    (ho : Orders E cmp le P) {ss : List σ} (h : List.Forall₂ S.Gives ss cs)
    (hcs : ∀ c ∈ cs, c.Ends P E fun _ => True) :
    ∃ d, (S.merge cmp).Gives (Merge.of ss) d ∧ d.Ends P E (Merge.Interleaved le cs) := by
  obtain ⟨r, hr, hEnds⟩ := Merge.readEach_spec h 0
  have hfirst := fun w =>
    (Merge.readFirst_eq w : (Merge.readFirst S cmp (ss.map some) w).1 = _)
  simp only [hr] at hfirst
  cases r with
  | error f =>
      obtain ⟨c, hc, hf⟩ := hEnds
      exact ⟨_, .failed hfirst, .failure ((hcs c hc).failed f hf)⟩
  | ok out =>
      obtain ⟨left, fronts⟩ := out
      have hfront := @hEnds.front
      have hrest := @hEnds.rest
      simp only [Nat.zero_add] at hfront hrest
      have hholds : Merge.Holds S left (fronts : Multiset (α × Nat)) cs :=
        ⟨hfront, hrest, hEnds.once⟩
      cases fronts with
      | nil =>
          -- no source has a row: the merge ends as if an empty heap had been made
          have hempty : (Heap.empty : Heap (α × Nat)).Valid fun p q => le p.1 q.1 :=
            ⟨Heap.complete_empty, trivial⟩
          exact Merge.gives_least (r := .ok .empty) ho hfirst (.ok ⟨rfl, hempty⟩) hholds hcs
      | cons p fronts =>
          refine Merge.gives_least ho hfirst (Heap.ofList_spec (Merge.decides_before ho) ?_) hholds
            hcs
          exact hholds.rows_ahead fun c hc => (hcs c hc).rows

end EntityQuery
