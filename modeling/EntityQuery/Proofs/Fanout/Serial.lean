import EntityQuery.Fanout.Plan

/-!
# Serial components — positions without a gap

A plan puts its components in order, by position and the unsorted ones last, and then counts how
many of the leading ones have positions that go on from zero without a gap. The count goes through
them with the position that is expected next. All positions below that one have been met, and by the
order those that are still to come are not below the last of these. So a component is counted
exactly when every position up to its own is held by some component (`Component.Reached`), wherever
these were given.

* **`Plan.reached_of_mem_take`**, **`Plan.not_reached_of_mem_drop`** — what is counted and what is
  not.
* **`Plan.serial_gapless`** — which components are serial, and in which order they all stand.
-/

namespace EntityQuery

namespace Component

variable {components : List Component} {c d : Component} {first later i : Nat}

/-! ## The order of components -/

/-- A component that may stand in front of a sorted one is sorted itself, and its position is not
    greater. -/
theorem notAfter_iff :
    c.notAfter d = true ↔ ∀ n, d.position = some n → ∃ m ≤ n, c.position = some m := by
  cases hc : c.position <;> cases hd : d.position <;> simp [notAfter, hc, hd]

theorem notAfter_trans (a b c : Component) (hab : a.notAfter b = true)
    (hbc : b.notAfter c = true) : a.notAfter c = true := by
  rw [notAfter_iff] at hab hbc ⊢
  intro n hn
  obtain ⟨m, hm, hb⟩ := hbc n hn
  obtain ⟨l, hl, ha⟩ := hab m hb
  exact ⟨l, Nat.le_trans hl hm, ha⟩

theorem notAfter_total (a b : Component) : (a.notAfter b || b.notAfter a) = true := by
  cases ha : a.position <;> cases hb : b.position <;> simp [notAfter, ha, hb, Nat.le_total]

/-- All components, by position with the unsorted ones last, those of one position as they were
    given. -/
structure InStableOrder (components ordered : List Component) : Prop where
  perm   : ordered.Perm components
  sorted : ordered.Pairwise fun c d => ∀ n, d.position = some n → ∃ m ≤ n, c.position = some m
  stable : ∀ position : Option Nat,
    ordered.filter (·.position == position) = components.filter (·.position == position)

theorem inStableOrder_mergeSort (components : List Component) :
    InStableOrder components (components.mergeSort notAfter) where
  perm := List.mergeSort_perm ..
  sorted := (List.pairwise_mergeSort notAfter_trans notAfter_total components).imp notAfter_iff.mp
  stable := by
    intro position
    have hperm := (List.mergeSort_perm components notAfter).filter (·.position == position)
    -- components of one position are in order as they stand, and sorting leaves such lists in order
    have hsub : (components.filter (·.position == position)).Sublist
        (components.mergeSort notAfter) := by
      refine List.sublist_mergeSort notAfter_trans notAfter_total ?_ List.filter_sublist
      refine List.pairwise_iff_forall_sublist.mpr fun {c d} hcd => notAfter_iff.mpr fun n hn => ?_
      have hc := eq_of_beq (List.mem_filter.mp (hcd.subset List.mem_cons_self)).2
      have hd := eq_of_beq (List.mem_filter.mp (hcd.subset (List.mem_cons_of_mem c
        List.mem_cons_self))).2
      exact ⟨n, Nat.le_refl n, hc.trans (hd.symm.trans hn)⟩
    have hfilter := hsub.filter (·.position == position)
    rw [List.filter_filter] at hfilter
    simp only [Bool.and_self] at hfilter
    exact (hfilter.eq_of_length hperm.length_eq.symm).symm

/-! ## Positions without a gap -/

/-- Every position from the first one on, up to that of a component, is held by some component. -/
def Reached (first : Nat) (components : List Component) (c : Component) : Prop :=
  ∃ n, c.position = some n ∧ ∀ i, first ≤ i → i ≤ n → ∃ d ∈ components, d.position = some i

/-- Whether a component is reached does not depend on where the others stand. -/
theorem reached_congr {others : List Component} (h : ∀ d, d ∈ components ↔ d ∈ others) :
    Reached first components c ↔ Reached first others c := by
  simp only [Reached, h]

/-- A component at a lesser position does not help to reach another one. -/
theorem Reached.tail (h : Reached first (d :: components) c) (hd : d.position = some i)
    (hi : i < later) (hlater : first ≤ later) : Reached later components c := by
  obtain ⟨n, hn, hheld⟩ := h
  refine ⟨n, hn, fun j hj hjn => ?_⟩
  obtain ⟨e, he, hej⟩ := hheld j (Nat.le_trans hlater hj) hjn
  rcases List.mem_cons.mp he with rfl | he
  · have hij : i = j := Option.some.inj (hd.symm.trans hej)
    omega
  · exact ⟨e, he, hej⟩

/-- A component at the only position that is missing does. -/
theorem Reached.cons (h : Reached later components c) (hd : d.position = some i)
    (hi : ∀ j, first ≤ j → j < later → j = i) : Reached first (d :: components) c := by
  obtain ⟨n, hn, hheld⟩ := h
  refine ⟨n, hn, fun j hj hjn => ?_⟩
  by_cases hjl : later ≤ j
  · obtain ⟨e, he, hej⟩ := hheld j hjl hjn
    exact ⟨e, List.mem_cons_of_mem d he, hej⟩
  · obtain rfl := hi j hj (Nat.lt_of_not_le hjl)
    exact ⟨d, List.mem_cons_self, hd⟩

end Component

namespace Plan

open Component

variable {components : List Component} {c d : Component} {first i : Nat}

theorem gapless_cons_none (h : d.position = none) : gapless first (d :: components) = 0 := by
  rw [gapless, h]

/-- A component at the expected position is counted, and the next position is expected then. -/
theorem gapless_cons_next (h : d.position = some first) :
    gapless first (d :: components) = gapless (first + 1) components + 1 := by
  simp only [gapless, h, if_true]

/-- So is one that repeats the position before. -/
theorem gapless_cons_again (h : d.position = some i) (hi : i + 1 = first) :
    gapless first (d :: components) = gapless first components + 1 := by
  simp only [gapless, h, if_neg (show i ≠ first by omega), if_pos hi]

/-- Any other position ends the count. -/
theorem gapless_cons_gap (h : d.position = some i) (hi : i ≠ first) (hi' : i + 1 ≠ first) :
    gapless first (d :: components) = 0 := by
  simp only [gapless, h, if_neg hi, if_neg hi']

/-- What is counted is reached. -/
theorem reached_of_mem_take (h : c ∈ components.take (gapless first components)) :
    Reached first components c := by
  induction components generalizing first with
  | nil => cases h
  | cons d components ih =>
      cases hd : d.position with
      | none =>
          rw [gapless_cons_none hd] at h
          cases h
      | some i =>
          by_cases hi : i = first
          · subst hi
            rw [gapless_cons_next hd, List.take_succ_cons] at h
            rcases List.mem_cons.mp h with rfl | h
            · refine ⟨i, hd, fun j hj hji => ⟨c, List.mem_cons_self, ?_⟩⟩
              rw [hd, Nat.le_antisymm hj hji]
            · exact (ih h).cons hd fun j hj hjl => by omega
          · by_cases hi' : i + 1 = first
            · rw [gapless_cons_again hd hi', List.take_succ_cons] at h
              rcases List.mem_cons.mp h with rfl | h
              · exact ⟨i, hd, fun j hj hji => by omega⟩
              · exact (ih h).cons hd fun j hj hjl => by omega
            · rw [gapless_cons_gap hd hi hi'] at h
              cases h

/-- What is left over is not reached, as long as the components are in order and the count has come
    to the last position below them at most. -/
theorem not_reached_of_mem_drop (hordered : components.Pairwise fun c d => c.notAfter d = true)
    (hpassed : ∀ d ∈ components, ∀ n, d.position = some n → first ≤ n + 1)
    (h : c ∈ components.drop (gapless first components)) : ¬ Reached first components c := by
  induction components generalizing first with
  | nil => cases h
  | cons d components ih =>
      obtain ⟨hfront, hordered⟩ := List.pairwise_cons.mp hordered
      have hafter : ∀ e ∈ components, ∀ n, e.position = some n → ∃ m ≤ n, d.position = some m :=
        fun e he => notAfter_iff.mp (hfront e he)
      intro hreached
      cases hd : d.position with
      | none =>
          -- only unsorted components come after an unsorted one
          obtain ⟨n, hn, -⟩ := hreached
          rw [gapless_cons_none hd] at h
          rcases List.mem_cons.mp h with rfl | h
          · exact absurd (hd.symm.trans hn) (by simp)
          · obtain ⟨m, -, hm⟩ := hafter c h n hn
            exact absurd (hd.symm.trans hm) (by simp)
      | some i =>
          have hnotBelow : ∀ e ∈ components, ∀ n, e.position = some n → i ≤ n := by
            intro e he n hn
            obtain ⟨m, hm, hdm⟩ := hafter e he n hn
            obtain rfl : i = m := Option.some.inj (hd.symm.trans hdm)
            exact hm
          by_cases hi : i = first
          · subst hi
            rw [gapless_cons_next hd, List.drop_succ_cons] at h
            refine ih hordered (fun e he n hn => ?_) h (hreached.tail hd (Nat.lt_succ_self i)
              (Nat.le_succ i))
            exact Nat.succ_le_succ (hnotBelow e he n hn)
          · by_cases hi' : i + 1 = first
            · rw [gapless_cons_again hd hi', List.drop_succ_cons] at h
              exact ih hordered (fun e he => hpassed e (List.mem_cons_of_mem d he)) h
                (hreached.tail hd (by omega) (Nat.le_refl first))
            · -- the expected position is below that of `d`, so nobody holds it
              have hgap : first < i := by
                have := hpassed d List.mem_cons_self i hd
                omega
              rw [gapless_cons_gap hd hi hi', List.drop_zero] at h
              have hall : ∀ e ∈ d :: components, ∀ n, e.position = some n → i ≤ n := by
                refine List.forall_mem_cons.mpr ⟨fun n hn => ?_, hnotBelow⟩
                exact Nat.le_of_eq (Option.some.inj (hd.symm.trans hn))
              obtain ⟨n, hn, hheld⟩ := hreached
              have hin := hall c h n hn
              obtain ⟨e, he, hfirst⟩ := hheld first (Nat.le_refl first) (by omega)
              have := hall e he first hfirst
              omega

/-- **Serial components.** In a query with sorts a component is serial exactly if it is sorted and
    no position up to its own is left out by all components, and it is parallel otherwise. The
    serial components and then the parallel ones are all that were given, by position with the
    unsorted ones last, and those of one position as they were given. -/
theorem serial_gapless (query : Query) (filters : Clause) (components : List Component) :
    (∀ c, c ∈ (of query filters components true).serial
        ↔ c ∈ components ∧ Reached 0 components c)
      ∧ (∀ c, c ∈ (of query filters components true).parallel
        ↔ c ∈ components ∧ ¬ Reached 0 components c)
      ∧ InStableOrder components ((of query filters components true).serial
          ++ (of query filters components true).parallel) := by
  have hinOrder := inStableOrder_mergeSort components
  generalize hordered : components.mergeSort Component.notAfter = ordered at hinOrder
  have hserial : (of query filters components true).serial
      = ordered.take (gapless 0 ordered) := hordered ▸ rfl
  have hparallel : (of query filters components true).parallel
      = ordered.drop (gapless 0 ordered) := hordered ▸ rfl
  rw [hserial, hparallel, List.take_append_drop]
  have hmem : ∀ c, c ∈ ordered.take (gapless 0 ordered) ∨ c ∈ ordered.drop (gapless 0 ordered)
      ↔ c ∈ components := by
    intro c
    rw [← List.mem_append, List.take_append_drop, hinOrder.perm.mem_iff]
  have htake : ∀ c ∈ ordered.take (gapless 0 ordered), Reached 0 components c :=
    fun c hc => (reached_congr fun _ => hinOrder.perm.mem_iff).mp (reached_of_mem_take hc)
  have hdrop : ∀ c ∈ ordered.drop (gapless 0 ordered), ¬ Reached 0 components c := by
    intro c hc hreached
    refine not_reached_of_mem_drop (hinOrder.sorted.imp notAfter_iff.mpr) ?_ hc
      ((reached_congr fun _ => hinOrder.perm.mem_iff).mpr hreached)
    exact fun d _ n _ => Nat.zero_le (n + 1)
  refine ⟨fun c => ⟨fun hc => ⟨(hmem c).mp (.inl hc), htake c hc⟩, ?_⟩,
    fun c => ⟨fun hc => ⟨(hmem c).mp (.inr hc), hdrop c hc⟩, ?_⟩, hinOrder⟩
  · rintro ⟨hc, hreached⟩
    exact ((hmem c).mpr hc).resolve_right fun hleft => hdrop c hleft hreached
  · rintro ⟨hc, hgap⟩
    exact ((hmem c).mpr hc).resolve_left fun hcounted => hgap (htake c hcounted)

/-- No component is at the position before that of `c`, so the count ends there. -/
example :
    ((of {} [] [⟨"b", some 1, none, []⟩, ⟨"x", none, none, []⟩, ⟨"a", some 0, none, []⟩,
      ⟨"c", some 3, none, []⟩, ⟨"d", some 0, none, []⟩] true).serial.map Component.property)
      = ["a", "d", "b"] := by
  cbv

end Plan

end EntityQuery
