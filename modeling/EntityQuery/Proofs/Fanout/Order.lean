import EntityQuery.Proofs.Execution.EntityOrder
import EntityQuery.Proofs.Fanout.Meaning
import EntityQuery.Proofs.Fanout.Serial

/-!
# The order of groups — when the serial components follow the sorts

The pieces of a component follow the order of the sort at its position: what passes a later piece
and not an earlier one has a greater value there (`Component.Follows`). Groups are made of one piece
of each serial component, the first component varying slowest, so an entity that only a later group
finds passes a later piece of some component and the same pieces of those before it.

That these are the same pieces means that the values are equal only if the pieces ask for one value.
The pieces of a range do not. So the groups follow the sorts if every sort before that of a serial
component is *pinned* by equalities (`Plan.isPinned`).

* **`Splitter.splitAll_reads`** — components follow the sorts at their positions.
* **`Plan.order_eq_lt`** — what an earlier group of a pinned plan finds comes first.
-/

namespace EntityQuery

/-! ## Components -/

namespace Component

/-- What passes a piece, and what passes a later one but not this one: the value of the former is
    less in the direction of reading. -/
def Follows (cmp : Comparator) (occurs : Value → Prop) (d : Direction) (c : Component) : Prop :=
  c.pieces.Pairwise fun earlier later => ∀ v w : View,
    occurs (v.value c.property) → occurs (w.value c.property) →
    earlier.all (Predicate.passes cmp v) = true → later.all (Predicate.passes cmp w) = true →
    earlier.all (Predicate.passes cmp w) = false →
    (cmp.inDirection d).order (v.value c.property) (w.value c.property) = .lt

/-- The position of a component is that of a sort on its property, whose order its pieces follow. -/
structure Reads (cmp : Comparator) (occurs : Value → Prop) (sorts : List SortOrder)
    (c : Component) : Prop where
  sorted   : ∀ n, c.position = some n →
    ∃ s, sorts[n]? = some s ∧ s.property = c.property ∧ c.Follows cmp occurs s.direction
  operands : ∀ piece ∈ c.pieces, ∀ r ∈ piece, ∀ v ∈ r.operands, occurs v

/-- Whether every piece asks for one value of the component's property. -/
def isPoints (c : Component) : Bool :=
  c.pieces.all fun piece => piece.any fun r => r.property == c.property && r.isEquality

/-- Two entities that pass one piece of such a component have equal values. -/
theorem order_eq_of_isPoints {cmp : Comparator} {occurs : Value → Prop} {c : Component}
    {piece : Clause} {v w : View} (h : cmp.Consistent occurs) (hc : c.isPoints = true)
    (hpiece : piece ∈ c.pieces) (hoperands : ∀ r ∈ piece, ∀ x ∈ r.operands, occurs x)
    (hv : occurs (v.value c.property)) (hw : occurs (w.value c.property))
    (hpassV : piece.all (Predicate.passes cmp v) = true)
    (hpassW : piece.all (Predicate.passes cmp w) = true) :
    cmp.order (v.value c.property) (w.value c.property) = .eq := by
  obtain ⟨⟨property, test⟩, hr, hpoint⟩ := List.any_eq_true.mp (List.all_eq_true.mp hc piece hpiece)
  rw [Bool.and_eq_true] at hpoint
  obtain ⟨hproperty, hequality⟩ := hpoint
  obtain rfl : property = c.property := eq_of_beq hproperty
  have hpV := List.all_eq_true.mp hpassV _ hr
  have hpW := List.all_eq_true.mp hpassW _ hr
  cases test with
  | relation rel x =>
      cases rel with
      | equal =>
          have hx : occurs x := hoperands _ hr x List.mem_cons_self
          have heqV : cmp.order (v.value c.property) x = .eq := eq_of_beq hpV
          have heqW : cmp.order (w.value c.property) x = .eq := eq_of_beq hpW
          rw [h.order_left hv hx hw heqV, h.order_swap hw hx, heqW]
          rfl
      | _ => cases hequality
  | _ => cases hequality

end Component

/-! ## Positions -/

theorem SortOrder.position?_eq_some {sorts : List SortOrder} {property : String} {n : Nat}
    {d : Direction} (h : position? sorts property = some (n, d)) :
    ∃ s, sorts[n]? = some s ∧ s.property = property ∧ s.direction = d := by
  induction sorts generalizing n with
  | nil => cases h
  | cons s rest ih =>
      rw [position?] at h
      by_cases hs : s.property = property
      · rw [if_pos hs] at h
        obtain ⟨rfl, rfl⟩ := Prod.mk.inj (Option.some.inj h)
        exact ⟨s, rfl, hs, rfl⟩
      · rw [if_neg hs] at h
        obtain ⟨⟨i, d'⟩, hrest, hpair⟩ := Option.map_eq_some_iff.mp h
        obtain ⟨rfl, rfl⟩ := Prod.mk.inj hpair
        exact ih hrest

/-- The direction in which the values of a property are read: that of the first sort on it, and
    ascending if it is not sorted by. -/
def SortOrder.reading (sorts : List SortOrder) (property : String) : Direction :=
  ((position? sorts property).map Prod.snd).getD .ascending

@[simp] theorem SortOrder.reading_cons (t : SortOrder) (ts : List SortOrder) :
    reading (t :: ts) t.property = t.direction := by
  rw [reading, position?, if_pos rfl]
  rfl

namespace Splitter

variable {cmp : Comparator} {occurs : Value → Prop} {sorts : List SortOrder} {property : String}
  {c : Clause} {s : Splitting}

/-! ## Ranges -/

/-- What passes an earlier range is less than what passes a later one. -/
def RangeBefore (cmp : Comparator) (occurs : Value → Prop) (property : String)
    (earlier later : Clause) : Prop :=
  ∀ v w : View, occurs (v.value property) → occurs (w.value property) →
    earlier.all (Predicate.passes cmp v) = true → later.all (Predicate.passes cmp w) = true →
    cmp.order (v.value property) (w.value property) = .lt

/-- A range that ends below a value is before the ranges from this value on. -/
theorem rangeBefore_of_below (h : cmp.Consistent occurs) {upper : Value} {vs : List Value}
    (hvs : ∀ v ∈ upper :: vs, occurs v)
    (hsorted : (upper :: vs).Pairwise fun a b => cmp.order a b ≠ .gt) {earlier later : Clause}
    (hearlier : Predicate.below property upper ∈ earlier)
    (hlater : later ∈ rangesFrom property upper vs) :
    RangeBefore cmp occurs property earlier later := by
  intro v w hv hw hpassV hpassW
  obtain ⟨lower, hlower, habove⟩ := exists_above_of_mem_rangesFrom hlater
  have hup := hvs upper List.mem_cons_self
  have hlow := hvs lower hlower
  have hlt : cmp.order (v.value property) upper = .lt :=
    eq_of_beq (List.all_eq_true.mp hpassV _ hearlier)
  have hgt : cmp.order (w.value property) lower = .gt :=
    eq_of_beq (List.all_eq_true.mp hpassW _ habove)
  have hle : cmp.order upper lower ≠ .gt := by
    rcases List.mem_cons.mp hlower with rfl | hlower
    · rw [h.order_self hup]
      decide
    · exact (List.pairwise_cons.mp hsorted).1 lower hlower
  have hlt' := h.lt_of_lt_of_le hv hup hlow hlt hle
  refine h.lt_of_lt_of_le hv hlow hw hlt' ?_
  rw [(h.gt_iff_lt hw hlow).mp hgt]
  decide

/-- The ranges around sorted values stand in their order. -/
theorem rangesAround_ordered (h : cmp.Consistent occurs) {vs : List Value}
    (hvs : ∀ v ∈ vs, occurs v) (hsorted : vs.Pairwise fun a b => cmp.order a b ≠ .gt) :
    (rangesAround property vs).Pairwise (RangeBefore cmp occurs property) := by
  refine rangesAround_pairwise fun hsuffix _ _ hearlier hlater => ?_
  exact rangeBefore_of_below h (fun v hv => hvs v (hsuffix.subset hv))
    (hsorted.sublist hsuffix.sublist) hearlier hlater

/-- What passes an earlier range is less, in the direction of reading, than what passes a later
    one. -/
def ReadBefore (cmp : Comparator) (occurs : Value → Prop) (property : String) (d : Direction)
    (earlier later : Clause) : Prop :=
  ∀ v w : View, occurs (v.value property) → occurs (w.value property) →
    earlier.all (Predicate.passes cmp v) = true → later.all (Predicate.passes cmp w) = true →
    (cmp.inDirection d).order (v.value property) (w.value property) = .lt

theorem RangeBefore.ascending {earlier later : Clause}
    (h : RangeBefore cmp occurs property earlier later) :
    ReadBefore cmp occurs property .ascending earlier later := by
  intro v w hv hw hpassV hpassW
  rw [Comparator.order_inDirection]
  exact h v w hv hw hpassV hpassW

/-- Read from the last range to the first, values fall. -/
theorem RangeBefore.descending (hcmp : cmp.Consistent occurs) {earlier later : Clause}
    (h : RangeBefore cmp occurs property later earlier) :
    ReadBefore cmp occurs property .descending earlier later := by
  intro v w hv hw hpassV hpassW
  rw [Comparator.order_inDirection]
  show (cmp.order _ _).swap = .lt
  rw [← hcmp.order_swap hv hw]
  exact h w v hw hv hpassW hpassV

/-- The ranges around sorted values stand in the order in which their property is read, if the
    property is the first to be sorted by or there are no sorts. -/
theorem inReadingOrder_ordered (h : cmp.Consistent occurs)
    (hfirst : ∀ t ∈ sorts.head?, t.property = property) {vs : List Value}
    (hvs : ∀ v ∈ vs, occurs v) (hsorted : vs.Pairwise fun a b => cmp.order a b ≠ .gt) :
    (inReadingOrder sorts (rangesAround property vs)).Pairwise
      (ReadBefore cmp occurs property (SortOrder.reading sorts property)) := by
  have hranges : (rangesAround property vs).Pairwise (RangeBefore cmp occurs property) :=
    rangesAround_ordered h hvs hsorted
  cases sorts with
  | nil => exact hranges.imp RangeBefore.ascending
  | cons t ts =>
      obtain rfl : t.property = property := hfirst t rfl
      rw [SortOrder.reading_cons]
      obtain ⟨name, d⟩ := t
      cases d with
      | ascending => exact hranges.imp RangeBefore.ascending
      | descending => exact (List.pairwise_reverse.mpr hranges).imp (RangeBefore.descending h)

/-! ## Components of a split -/

/-- The component of exclusions follows the first sort. -/
theorem SplitsExclusions.reads {values : List Value} (h : cmp.Consistent occurs)
    (hs : SplitsExclusions cmp sorts c property values s)
    (hc : ∀ p ∈ c, ∀ v ∈ p.operands, occurs v) :
    ∀ component ∈ s.components, component.Reads cmp occurs sorts := by
  obtain ⟨-, -, -, hvalues, hsorted⟩ := hs.values_spec h hc
  have hranges := inReadingOrder_ordered h hs.first hvalues hsorted
  intro component hcomponent
  rw [hs.components] at hcomponent
  obtain rfl := List.mem_singleton.mp hcomponent
  constructor
  · intro n hn
    cases sorts with
    | nil => cases hn
    | cons t ts =>
        obtain rfl : t.property = property := hs.first t rfl
        have hfound : SortOrder.position? (t :: ts) t.property = some (0, t.direction) := by
          rw [SortOrder.position?, if_pos rfl]
        obtain rfl : 0 = n := by
          rw [Component.of, hfound] at hn
          exact Option.some.inj hn
        refine ⟨t, rfl, rfl, hranges.imp ?_⟩
        intro earlier later hbefore v w hv hw hpassV hpassW _
        rw [← SortOrder.reading_cons t ts]
        exact hbefore v w hv hw hpassV hpassW
  · intro piece hpiece r hr v hv
    obtain ⟨x, hx, rfl | rfl⟩ := mem_rangesAround (mem_inReadingOrder.mp hpiece) hr
    all_goals
      obtain rfl := List.mem_singleton.mp hv
      exact hvalues v hx

/-- The component of a choice follows the sort on its property, if there is one. -/
theorem SplitsChoice.reads {asked : List Value} {p : Predicate} {component : Component}
    (h : cmp.Consistent occurs) (hs : SplitsChoice cmp sorts asked p component)
    (hp : ∀ v ∈ p.operands, occurs v) : component.Reads cmp occurs sorts := by
  obtain ⟨htest, values, ordered, hdistinct, hordered, rfl⟩ := hs
  obtain ⟨property, test⟩ := p
  obtain rfl : test = .oneOf asked := htest
  have hvalues : ∀ v ∈ values, occurs v := fun v hv => hp v ((mem_of_distinct hdistinct).1 hv)
  have hoccurs : ∀ v ∈ ordered, occurs v :=
    fun v hv => hvalues v ((orderedChoices_perm hordered).mem_iff.mp hv)
  constructor
  · intro n hn
    obtain ⟨⟨n', d⟩, hfound, rfl⟩ := Option.map_eq_some_iff.mp hn
    obtain ⟨t, ht, hproperty, rfl⟩ := SortOrder.position?_eq_some hfound
    refine ⟨t, ht, hproperty, ?_⟩
    simp only [orderedChoices, hfound] at hordered
    have hsorted := ((Value.sorted_spec h _ hvalues).of_eq_ok hordered).2
    refine List.pairwise_map.mpr (hsorted.imp_of_mem ?_)
    intro x y hx hy hxy v w hv hw hpassV hpassW hfailW
    change occurs (v.value property) at hv
    change occurs (w.value property) at hw
    have hdir := h.inDirection t.direction
    have hequals : ∀ (u : View) (z : Value),
        [Predicate.equals property z].all (Predicate.passes cmp u) = true ↔
          (cmp.inDirection t.direction).order (u.value property) z = .eq := by
      intro u z
      rw [Comparator.order_inDirection_eq]
      simp [Predicate.equals, Predicate.passes, Relation.holds]
    have hvx := (hequals v x).mp hpassV
    have hwy := (hequals w y).mp hpassW
    have hwx := mt (hequals w x).mpr (Bool.eq_false_iff.mp hfailW)
    rw [← Comparator.order_inDirection] at hxy
    show (cmp.inDirection t.direction).order (v.value property) (w.value property) = .lt
    rw [hdir.order_left hv (hoccurs x hx) hw hvx,
      hdir.order_right hw (hoccurs y hy) (hoccurs x hx) hwy]
    cases ho : (cmp.inDirection t.direction).order x y with
    | lt => rfl
    | gt => exact absurd ho hxy
    | eq =>
        -- `w` would pass the earlier piece too
        refine absurd ?_ hwx
        rw [hdir.order_left hw (hoccurs y hy) (hoccurs x hx) hwy,
          hdir.order_swap (hoccurs x hx) (hoccurs y hy), ho]
        rfl
  · intro piece hpiece r hr v hv
    obtain ⟨x, hx, rfl⟩ := List.mem_map.mp hpiece
    obtain rfl := List.mem_singleton.mp hr
    obtain rfl := List.mem_singleton.mp hv
    exact hoccurs _ hx

theorem split_reads (h : cmp.Consistent occurs) {splitter : Splitter}
    (hs : splitter.split cmp sorts c = .ok s) (hc : ∀ p ∈ c, ∀ v ∈ p.operands, occurs v) :
    ∀ component ∈ s.components, component.Reads cmp occurs sorts := by
  cases splitter with
  | exclusion =>
      rcases splitExclusions_eq_ok hs with ⟨-, rfl⟩ | ⟨property, values, hsplit⟩
      · exact List.forall_mem_nil _
      · exact hsplit.reads h hc
  | choice =>
      obtain ⟨hsub, hcomponents⟩ := splitChoices_eq_ok hs
      intro component hcomponent
      obtain ⟨p, hp, asked, hsplit⟩ := exists_left_of_forall₂ hcomponents hcomponent
      exact hsplit.reads h (hc p (hsub.subset hp))

theorem remainder_subset {left : Clause} (h : s.remainder c = .ok left) : left ⊆ c := by
  rw [Splitting.remainder] at h
  split at h
  · rw [Except.ok.inj h]
    exact List.Subset.refl _
  · split at h
    · rw [← Except.ok.inj h]
      exact List.filter_subset_self _
    · cases h

/-- **Components** of a clause that is split follow the sorts at their positions. -/
theorem splitAll_reads (h : cmp.Consistent occurs) {splitters : List Splitter} {left : Clause}
    {components : List Component}
    (hs : splitAll cmp sorts splitters c = .ok (left, components))
    (hc : ∀ p ∈ c, ∀ v ∈ p.operands, occurs v) :
    ∀ component ∈ components, component.Reads cmp occurs sorts := by
  induction splitters generalizing c components with
  | nil =>
      obtain ⟨rfl, rfl⟩ := Prod.mk.inj (Except.ok.inj hs)
      exact List.forall_mem_nil _
  | cons splitter splitters ih =>
      obtain ⟨s, hsplit, hs⟩ := bind_eq_ok.mp hs
      obtain ⟨rest, hrest, hs⟩ := bind_eq_ok.mp hs
      obtain ⟨⟨left', components'⟩, hlater, hs⟩ := bind_eq_ok.mp hs
      obtain ⟨rfl, rfl⟩ := Prod.mk.inj (Except.ok.inj hs)
      intro component hcomponent
      rcases List.mem_append.mp hcomponent with hcomponent | hcomponent
      · exact split_reads h hsplit hc component hcomponent
      · exact ih hlater (fun p hp => hc p (remainder_subset hrest hp)) component hcomponent

end Splitter

/-! ## Choices -/

/-- Of two truths the first comes first in components: it makes an earlier piece of some component
    true than the second one does, and both make a piece true in all components before. -/
def Component.Precedes (pass pass' : Predicate → Bool) (components : List Component) : Prop :=
  ∃ front c back, components = front ++ c :: back
    ∧ (∀ d ∈ front, ∃ piece ∈ d.pieces, piece.all pass = true ∧ piece.all pass' = true)
    ∧ ∃ earlier later, [earlier, later].Sublist c.pieces ∧ earlier.all pass = true
      ∧ later.all pass' = true ∧ earlier.all pass' = false

/-- Some choice of pieces is true, and what makes an earlier one true comes first. -/
theorem choices_first {pass' : Predicate → Bool} {components : List Component}
    (h : ∀ c ∈ components, c.holds pass' = true) :
    ∃ before chosen after, choices (components.map Component.pieces) = before ++ chosen :: after
      ∧ chosen.flatten.all pass' = true
      ∧ ∀ other ∈ before, ∀ pass : Predicate → Bool, other.flatten.all pass = true →
        Component.Precedes pass pass' components := by
  induction components with
  | nil => exact ⟨[], [], [], rfl, rfl, List.forall_mem_nil _⟩
  | cons c components ih =>
      obtain ⟨before, chosen, after, hchoices, hchosen, hbefore⟩ :=
        ih fun d hd => h d (List.mem_cons_of_mem c hd)
      obtain ⟨front, piece, back, hpieces, hpiece, hfront⟩ : ∃ front piece back,
          c.pieces = front ++ piece :: back ∧ piece.all pass' = true
            ∧ ∀ earlier ∈ front, earlier.all pass' = false := by
        obtain ⟨piece, hfind⟩ := Option.isSome_iff_exists.mp
          (List.find?_isSome.mpr (List.any_eq_true.mp (h c List.mem_cons_self)))
        obtain ⟨hpiece, front, back, hpieces, hfront⟩ := List.find?_eq_some_iff_append.mp hfind
        exact ⟨front, piece, back, hpieces, hpiece, fun earlier hearlier => by
          simpa using hfront earlier hearlier⟩
      refine ⟨(front.flatMap fun x => (choices (components.map Component.pieces)).map (x :: ·))
          ++ before.map (piece :: ·), piece :: chosen,
        after.map (piece :: ·)
          ++ back.flatMap fun x => (choices (components.map Component.pieces)).map (x :: ·),
        ?_, ?_, ?_⟩
      · rw [List.map_cons, choices, hpieces, List.flatMap_append, List.flatMap_cons]
        nth_rewrite 2 [hchoices]
        simp only [List.map_append, List.map_cons, List.append_assoc, List.cons_append]
      · rw [List.flatten_cons, List.all_append, hpiece, hchosen]
        rfl
      · intro other hother pass hpass
        rcases List.mem_append.mp hother with hother | hother
        · -- an earlier piece of this component
          obtain ⟨earlier, hearlier, hother⟩ := List.mem_flatMap.mp hother
          obtain ⟨rest, -, rfl⟩ := List.mem_map.mp hother
          rw [List.flatten_cons, List.all_append, Bool.and_eq_true] at hpass
          refine ⟨[], c, components, rfl, List.forall_mem_nil _, earlier, piece, ?_, hpass.1,
            hpiece, hfront earlier hearlier⟩
          rw [hpieces]
          exact (List.singleton_sublist.mpr hearlier).append
            (List.singleton_sublist.mpr List.mem_cons_self)
        · -- the same piece of this component, and an earlier choice from the others
          obtain ⟨rest, hrest, rfl⟩ := List.mem_map.mp hother
          rw [List.flatten_cons, List.all_append, Bool.and_eq_true] at hpass
          obtain ⟨front', d, back', rfl, hshared, hd⟩ := hbefore rest hrest pass hpass.2
          refine ⟨c :: front', d, back', rfl, List.forall_mem_cons.mpr ⟨?_, hshared⟩, hd⟩
          exact ⟨piece, hpieces ▸ List.mem_append_right front List.mem_cons_self, hpass.1, hpiece⟩

/-! ## Plans -/

namespace Plan

variable {cmp : Comparator} {occurs : Value → Prop} {p : Plan}

/-- Whether each sort before that of a serial component is on a property of which the pieces of some
    other serial component ask for one value. -/
def isPinned (p : Plan) : Bool :=
  p.serial.all fun c => (List.range (c.position.getD 0)).all fun i =>
    p.serial.any fun d => d.position == some i && d.isPoints

theorem exists_isPoints (h : p.isPinned = true) {c : Component} (hc : c ∈ p.serial) {n i : Nat}
    (hn : c.position = some n) (hi : i < n) :
    ∃ d ∈ p.serial, d.position = some i ∧ d.isPoints = true := by
  have hrange := List.all_eq_true.mp (List.all_eq_true.mp h c hc) i (by simpa [hn] using hi)
  obtain ⟨d, hd, hboth⟩ := List.any_eq_true.mp hrange
  rw [Bool.and_eq_true] at hboth
  exact ⟨d, hd, eq_of_beq hboth.1, hboth.2⟩

/-- Serial components of a query with sorts are on the property of a sort. -/
theorem isSome_position (hsort : p.hasSort = true) {c : Component} (hc : c ∈ p.serial) :
    c.position.isSome = true := by
  rw [serial, serialCount, if_pos hsort] at hc
  obtain ⟨n, hn, -⟩ := reached_of_mem_take hc
  exact Option.isSome_of_eq_some hn

/-- The components of a plan follow the sorts and stand in the order of their positions. -/
structure InOrder (cmp : Comparator) (occurs : Value → Prop) (p : Plan) : Prop where
  reads     : ∀ c ∈ p.components, c.Reads cmp occurs p.query.sorts
  positions : p.components.Pairwise fun c d => c.notAfter d = true

theorem ofClause_query {splitters : List Splitter} {q : Query} {c : Clause}
    (hp : ofClause cmp splitters q c = .ok p) : p.query = q ∧ p.hasSort = q.hasSort := by
  obtain ⟨⟨left, components⟩, -, hp⟩ := bind_eq_ok.mp hp
  obtain rfl := Except.ok.inj hp
  exact ⟨rfl, rfl⟩

theorem ofClause_inOrder {splitters : List Splitter} {q : Query} {c : Clause}
    (h : cmp.Consistent occurs) (hp : ofClause cmp splitters q c = .ok p)
    (hc : ∀ r ∈ c, ∀ v ∈ r.operands, occurs v) : p.InOrder cmp occurs := by
  obtain ⟨⟨left, components⟩, hsplit, hp⟩ := bind_eq_ok.mp hp
  obtain rfl := Except.ok.inj hp
  refine ⟨?_, ?_⟩
  · intro d hd
    exact Splitter.splitAll_reads h hsplit hc d (List.mem_mergeSort.mp hd)
  · exact List.pairwise_mergeSort Component.notAfter_trans Component.notAfter_total components

/-- Components of lesser positions stand in front. -/
theorem mem_front_of_position_lt {front back : List Component} {c d : Component} {n i : Nat}
    (h : (front ++ c :: back).Pairwise fun c d => c.notAfter d = true)
    (hd : d ∈ front ++ c :: back) (hn : c.position = some n) (hdi : d.position = some i)
    (hi : i < n) : d ∈ front := by
  rcases List.mem_append.mp hd with hd | hd
  · exact hd
  · exfalso
    rcases List.mem_cons.mp hd with rfl | hd
    · obtain rfl := Option.some.inj (hn.symm.trans hdi)
      exact Nat.lt_irrefl n hi
    · have hle := (List.pairwise_cons.mp (List.pairwise_append.mp h).2.1).1 d hd
      rw [Component.notAfter, hn, hdi] at hle
      exact Nat.not_lt.mpr (of_decide_eq_true hle) hi

theorem InOrder.reads_serial (h : p.InOrder cmp occurs) {c : Component} (hc : c ∈ p.serial) :
    c.Reads cmp occurs p.query.sorts :=
  h.reads c (List.mem_of_mem_take hc)

/-- Entities that pass the same pieces of the serial components before one are equal in the sorts
    before it, if these are pinned. -/
theorem order_eq_of_shared {v w : View} (h : cmp.Consistent occurs) (hp : p.InOrder cmp occurs)
    (hpinned : p.isPinned = true) {front back : List Component} {c : Component}
    (hserial : p.serial = front ++ c :: back)
    (hshared : ∀ d ∈ front, ∃ piece ∈ d.pieces, piece.all (Predicate.passes cmp v) = true
      ∧ piece.all (Predicate.passes cmp w) = true) {n i : Nat} (hn : c.position = some n)
    (hi : i < n) {t : SortOrder} (ht : p.query.sorts[i]? = some t)
    (hv : occurs (v.value t.property)) (hw : occurs (w.value t.property)) :
    cmp.order (v.value t.property) (w.value t.property) = .eq := by
  have hc : c ∈ p.serial := hserial ▸ List.mem_append_right front List.mem_cons_self
  obtain ⟨d, hd, hdi, hpoints⟩ := exists_isPoints hpinned hc hn hi
  have hreads := hp.reads_serial hd
  obtain ⟨t', ht', hproperty, -⟩ := hreads.sorted i hdi
  obtain rfl : t = t' := Option.some.inj (ht.symm.trans ht')
  have hpositions : p.serial.Pairwise fun c d => c.notAfter d = true :=
    hp.positions.sublist (List.take_sublist _ _)
  rw [hserial] at hd hpositions
  obtain ⟨piece, hpiece, hpassV, hpassW⟩ :=
    hshared d (mem_front_of_position_lt hpositions hd hn hdi hi)
  rw [hproperty] at hv hw ⊢
  exact Component.order_eq_of_isPoints h hpoints hpiece (hreads.operands piece hpiece) hv hw hpassV
    hpassW

/-- **The order of groups.** In a pinned plan, an entity that comes first in the serial components
    comes first in the order of the query. -/
theorem order_eq_lt {α : Type} {access : Access α} {a b : α} {v w : View}
    (h : cmp.Consistent occurs) (hp : p.InOrder cmp occurs) (hsort : p.hasSort = true)
    (hpinned : p.isPinned = true)
    (ha : ∀ s ∈ p.query.sorts, access.valueOf a s.property = .ok (v.value s.property)
      ∧ occurs (v.value s.property))
    (hb : ∀ s ∈ p.query.sorts, access.valueOf b s.property = .ok (w.value s.property)
      ∧ occurs (w.value s.property))
    (hprecedes : Component.Precedes (Predicate.passes cmp v) (Predicate.passes cmp w) p.serial) :
    access.order cmp p.query.sorts a b = .lt := by
  obtain ⟨front, c, back, hserial, hshared, earlier, later, hsub, hearlier, hlater, hfail⟩ :=
    hprecedes
  have hc : c ∈ p.serial := hserial ▸ List.mem_append_right front List.mem_cons_self
  obtain ⟨n, hn⟩ := Option.isSome_iff_exists.mp (isSome_position hsort hc)
  obtain ⟨s, hs, hproperty, hfollows⟩ := (hp.reads_serial hc).sorted n hn
  have hmem : s ∈ p.query.sorts := List.mem_of_getElem? hs
  have hlt : (cmp.inDirection s.direction).order (v.value s.property) (w.value s.property)
      = .lt := by
    rw [hproperty]
    refine List.pairwise_iff_forall_sublist.mp hfollows hsub v w ?_ ?_ hearlier hlater hfail
    · exact hproperty ▸ (ha s hmem).2
    · exact hproperty ▸ (hb s hmem).2
  -- the sorts before the position of `c` are tied, so the one at it decides
  have htie : ∀ t ∈ p.query.sorts.take n, ∃ x y, access.valueOf a t.property = .ok x
      ∧ access.valueOf b t.property = .ok y ∧ occurs x ∧ occurs y ∧ cmp.order x y = .eq := by
    intro t ht
    obtain ⟨hax, hx⟩ := ha t (List.mem_of_mem_take ht)
    obtain ⟨hby, hy⟩ := hb t (List.mem_of_mem_take ht)
    obtain ⟨i, hi⟩ := List.mem_iff_getElem?.mp ht
    have hin : i < n := by
      have hlength := (List.getElem?_eq_some_iff.mp hi).1
      rw [List.length_take] at hlength
      omega
    rw [List.getElem?_take_of_lt hin] at hi
    exact ⟨_, _, hax, hby, hx, hy, order_eq_of_shared h hp hpinned hserial hshared hn hin hi hx hy⟩
  have hsplit : p.query.sorts = p.query.sorts.take n ++ s :: p.query.sorts.drop (n + 1) := by
    obtain ⟨hlength, hget⟩ := List.getElem?_eq_some_iff.mp hs
    rw [← hget, ← List.drop_eq_getElem_cons hlength, List.take_append_drop]
  rw [hsplit]
  exact Access.order_eq_lt h htie (ha s hmem).1 (hb s hmem).1 (ha s hmem).2 (hb s hmem).2 hlt

end Plan

/-! ## Queries -/

namespace Query

variable {cmp : Comparator} {occurs : Value → Prop} {settings : Settings}
  {splitters : List Splitter} {q : Query} {plans : List Plan}

theorem fanOut_query (h : q.fanOut splitters settings cmp = .ok plans) :
    ∀ p ∈ plans, p.query = q ∧ p.hasSort = q.hasSort := by
  obtain ⟨cs, -, h⟩ := fanOut_eq_ok h
  intro p hp
  obtain ⟨c, -, hof⟩ := (mem_of_mapM_eq_ok h).mp hp
  exact Plan.ofClause_query hof

/-- The components of every plan of a query follow its sorts. -/
theorem fanOut_inOrder (hcmp : cmp.Consistent occurs)
    (h : q.fanOut splitters settings cmp = .ok plans)
    (hoperands : ∀ r ∈ q.allPredicates, ∀ v ∈ r.operands, occurs v) {p : Plan} (hp : p ∈ plans) :
    p.InOrder cmp occurs := by
  obtain ⟨cs, hcs, h⟩ := fanOut_eq_ok h
  obtain ⟨c, hc, hof⟩ := (mem_of_mapM_eq_ok h).mp hp
  exact Plan.ofClause_inOrder hcmp hof
    fun r hr => hoperands r ((clauses_means hcs).mem c hc r hr)

end Query

end EntityQuery
