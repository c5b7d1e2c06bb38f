import EntityQuery.Proofs.Sorting.Merging
import EntityQuery.Sorting

/-!
# Sorting sorts — every list is arranged

A sort goes through a list run by run and merges runs whenever their borders say so. What it has
done at any time is described by two facts: every run that waits is sorted, and the runs together
hold what has been taken from the list. When runs are merged is of no importance for either.

* **`Sorting.sort_spec`** — the elements, none after a later one.
* **`Sorting.sortFalling_spec`** — the same with the relation turned round.
-/

namespace EntityQuery.Sorting

variable {ε α : Type} {E : ε → Prop} {before : α → α → Except ε Bool} {le : α → α → Prop}
  {S : α → Prop}

/-- The elements of the runs that wait. -/
def waiting (pending : List (Pending α)) : Multiset α :=
  (pending.flatMap Pending.elements : List α)

/-- Runs that are sorted. -/
def AllSorted (le : α → α → Prop) (S : α → Prop) (runs : List (List α)) : Prop :=
  ∀ run ∈ runs, run.Pairwise le ∧ ∀ a ∈ run, S a

/-- Two sorted runs are merged into one. -/
theorem merge_runs (hd : Decides E before le S) (patience : Nat) {first second : List α}
    (hfirst : first.Pairwise le ∧ ∀ a ∈ first, S a)
    (hsecond : second.Pairwise le ∧ ∀ a ∈ second, S a) :
    Ends E (fun out => (out.1.Pairwise le ∧ ∀ a ∈ out.1, S a)
        ∧ (out.1 : Multiset α) = (first : Multiset α) + (second : Multiset α))
      (merge before patience first second) := by
  refine (merge_spec hd patience hfirst.1 hsecond.1 hfirst.2 hsecond.2).mono ?_
  intro out hout
  refine ⟨⟨hout.sorted, ?_⟩, hout.elements⟩
  intro a ha
  exact forall_mem_add.mpr ⟨hfirst.2, hsecond.2⟩ a (hout.mem.mp ha)

theorem collapse_spec (hd : Decides E before le S) (power patience : Nat) {last : List α}
    {pending : List (Pending α)} (hlast : AllSorted le S (last :: pending.map Pending.elements)) :
    Ends E (fun done => AllSorted le S (done.last :: done.pending.map Pending.elements)
        ∧ (done.last : Multiset α) + waiting done.pending = (last : Multiset α) + waiting pending)
      (collapse before power patience last pending) := by
  induction pending generalizing patience last with
  | nil => exact Ends.ok ⟨hlast, rfl⟩
  | cons p rest ih =>
      rw [collapse]
      split
      · obtain ⟨hlast, hpending⟩ := List.forall_mem_cons.mp hlast
        obtain ⟨hp, hrest⟩ := List.forall_mem_cons.mp hpending
        refine Ends.bind (merge_runs hd patience hp hlast) ?_
        rintro ⟨merged, patience⟩ ⟨hmerged, hboth⟩
        refine (ih patience (List.forall_mem_cons.mpr ⟨hmerged, hrest⟩)).mono ?_
        rintro done ⟨hdone, hels⟩
        refine ⟨hdone, hels.trans ?_⟩
        rw [hboth, waiting, waiting, List.flatMap_cons, coe_append]
        ac_rfl
      · exact Ends.ok ⟨hlast, rfl⟩

theorem finish_spec (hd : Decides E before le S) (patience : Nat) {last : List α}
    {runs : List (List α)} (hruns : AllSorted le S (last :: runs)) :
    Ends E (Arranges le (last + (runs.flatten : List α))) (finish before patience last runs) := by
  induction hn : runs.length using Nat.strongRecOn generalizing patience last runs with
  | ind n ih =>
      match runs with
      | [] =>
          rw [finish]
          exact Ends.ok ((arranges_self (hruns last List.mem_cons_self).1).congr (add_zero _).symm)
      | [run] =>
          obtain ⟨hlast, hrun⟩ : (last.Pairwise le ∧ ∀ a ∈ last, S a)
              ∧ run.Pairwise le ∧ ∀ a ∈ run, S a := by
            simpa [AllSorted] using hruns
          rw [finish]
          refine Ends.bind (merge_spec hd patience hrun.1 hlast.1 hrun.2 hlast.2) ?_
          intro out hout
          refine Ends.ok (hout.congr ?_)
          rw [List.flatten_cons, List.flatten_nil, List.append_nil, add_comm]
      | run :: earlier :: rest =>
          obtain ⟨hlast, hruns⟩ := List.forall_mem_cons.mp hruns
          obtain ⟨hrun, hruns⟩ := List.forall_mem_cons.mp hruns
          obtain ⟨hearlier, hrest⟩ := List.forall_mem_cons.mp hruns
          -- two neighbours are merged, so there is one run less
          have hlt : rest.length + 1 < n := by
            rw [← hn, List.length_cons, List.length_cons]
            omega
          rw [finish]
          split
          · refine Ends.bind (merge_runs hd patience hearlier hrun) ?_
            rintro ⟨merged, patience⟩ ⟨hmerged, hboth⟩
            refine (ih (rest.length + 1) hlt patience (List.forall_mem_cons.mpr
              ⟨hlast, List.forall_mem_cons.mpr ⟨hmerged, hrest⟩⟩) rfl).mono ?_
            intro ys hys
            refine hys.congr ?_
            simp only [List.flatten_cons, coe_append, hboth]
            ac_rfl
          · refine Ends.bind (merge_runs hd patience hrun hlast) ?_
            rintro ⟨merged, patience⟩ ⟨hmerged, hboth⟩
            refine (ih (rest.length + 1) hlt patience (List.forall_mem_cons.mpr
              ⟨hmerged, List.forall_mem_cons.mpr ⟨hearlier, hrest⟩⟩) rfl).mono ?_
            intro ys hys
            refine hys.congr ?_
            simp only [List.flatten_cons, coe_append, hboth]
            ac_rfl

/-- Going on with what is left of a list. -/
theorem goOn_spec (hd : Decides E before le S) (whole : Nat) {done : Progress α} {xs : List α}
    (hdone : AllSorted le S (done.last :: done.pending.map Pending.elements))
    (hS : ∀ a ∈ xs, S a) :
    Ends E (Arranges le (done.last + waiting done.pending + xs)) (goOn before whole done xs) := by
  induction hn : xs.length using Nat.strongRecOn generalizing done xs with
  | ind n ih =>
      cases xs with
      | nil =>
          rw [goOn]
          refine (finish_spec hd done.patience hdone).mono ?_
          intro ys hys
          exact hys.congr (add_zero _).symm
      | cons x xs =>
          rw [goOn]
          refine Ends.bind (nextRun_spec hd (leastRun whole) hS) ?_
          rintro ⟨run, size⟩ ⟨hrun, hsize⟩
          -- a run takes up something, so less of the list is left
          have hpos := hsize (List.cons_ne_nil x xs)
          obtain ⟨size, rfl⟩ := Nat.exists_eq_succ_of_ne_zero (Nat.ne_of_gt hpos)
          dsimp only
          refine Ends.bind (collapse_spec hd _ _ hdone) ?_
          rintro merged ⟨hmerged, hels⟩
          have hSrun : ∀ a ∈ run, S a := fun a ha =>
            hS a (List.mem_of_mem_take (Multiset.mem_coe.mp (hrun.mem.mp ha)))
          refine (ih (xs.drop size).length ?_ ?_ ?_ rfl).mono ?_
          · rw [← hn, List.length_drop, List.length_cons]
            omega
          · exact List.forall_mem_cons.mpr ⟨⟨hrun.sorted, hSrun⟩, hmerged⟩
          · exact fun a ha => hS a (List.mem_cons_of_mem x (List.mem_of_mem_drop ha))
          · intro ys hys
            refine hys.congr ?_
            have hsplit : ((x :: xs : List α) : Multiset α)
                = ((x :: xs).take (size + 1) : List α) + (xs.drop size : List α) := by
              rw [← coe_append]
              exact congrArg _ (List.take_append_drop (size + 1) (x :: xs)).symm
            rw [hsplit, ← hels, hrun.elements]
            show _ + ((merged.last ++ merged.pending.flatMap Pending.elements : List α)
              : Multiset α) + _ = _
            rw [coe_append, waiting]
            ac_rfl

/-- **Sorting** puts the elements of any list into order. -/
theorem sort_spec (hd : Decides E before le S) {xs : List α} (hS : ∀ a ∈ xs, S a) :
    Ends E (fun ys => ys.Perm xs ∧ ys.Pairwise le) (sort before xs) := by
  refine Ends.bind (nextRun_spec hd (leastRun xs.length) hS) ?_
  rintro ⟨run, size⟩ ⟨hrun, -⟩
  have hSrun : ∀ a ∈ run, S a := fun a ha =>
    hS a (List.mem_of_mem_take (Multiset.mem_coe.mp (hrun.mem.mp ha)))
  refine (goOn_spec hd xs.length ?_ fun a ha => hS a (List.mem_of_mem_drop ha)).mono ?_
  · exact List.forall_mem_singleton.mpr ⟨hrun.sorted, hSrun⟩
  intro ys hys
  refine ⟨Multiset.coe_eq_coe.mp (hys.elements.trans ?_), hys.sorted⟩
  show ((run : List α) : Multiset α) + 0 + _ = _
  rw [add_zero, hrun.elements, ← coe_append, List.take_append_drop]

/-- **Sorting** in the opposite order. -/
theorem sortFalling_spec (hd : Decides E before le S) {xs : List α} (hS : ∀ a ∈ xs, S a) :
    Ends E (fun ys => ys.Perm xs ∧ ys.Pairwise fun a b => le b a) (sortFalling before xs) := by
  refine Ends.bind (sort_spec hd fun a ha => hS a (List.mem_reverse.mp ha)) ?_
  rintro ys ⟨hperm, hsorted⟩
  refine Ends.ok ⟨?_, List.pairwise_reverse.mpr hsorted⟩
  exact (List.reverse_perm ys).trans (hperm.trans (List.reverse_perm xs))

end EntityQuery.Sorting
