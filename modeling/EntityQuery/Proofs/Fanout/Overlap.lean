import EntityQuery.Proofs.Fanout.Order
import EntityQuery.Proofs.Value.Distinct
import EntityQuery.Proofs.Value.Order

/-!
# Overlap — how many concrete clauses of a plan an entity satisfies

An entity that satisfies a clause should be found by one concrete query of its plan. The ranges
around excluded values never overlap, whatever is compared with them. The equalities that stand for
a membership test overlap wherever the entity's value compares as equal to two of the values: these
are told apart by identity and compared by the order of values, in which different values may be
equal, and in which a NaN is equal to all doubles.

Nothing else makes concrete clauses overlap. As many of them are satisfied as there are ways to
choose a satisfied piece of each component, so one component with two such pieces is needed.

* **`Splitter.rangesAround_disjoint`** — ranges do not overlap.
* **`Plan.one_lt_countP_iff`** — clauses overlap exactly where the pieces of a component do.
* **`Query.fanOut_overlap`** — clauses overlap exactly where the entity's value is *doubled*, which
  it is not if the query's lists are sharp.
-/

namespace EntityQuery

variable {view : View} {property : String}

/-! ## Meeting a test -/

/-- Whether a value has a relation to another one. Values that cannot be compared have none. -/
def Relation.meets (r : Relation) (a b : Value) : Bool :=
  match Value.compare a b with
  | .ok o => r.holds o
  | .error _ => false

@[simp] theorem Relation.meets_eq {r : Relation} {a b : Value} {o : Ordering}
    (h : Value.compare a b = .ok o) : r.meets a b = r.holds o := by
  rw [meets, h]

theorem Relation.meets_iff {r : Relation} {a b : Value} :
    r.meets a b = true ↔ ∃ o, Value.compare a b = .ok o ∧ r.holds o = true := by
  rw [meets]
  cases Value.compare a b <;> simp

/-- Whether an entity satisfies a predicate under the order of values. It does not if its value
    cannot be compared. -/
def Predicate.meets (view : View) (p : Predicate) : Bool :=
  match p.test with
  | .relation r v => r.meets (view.value p.property) v
  | .oneOf vs => vs.any (Relation.equal.meets (view.value p.property))
  | .present _ | .inside _ => view.other p

/-- Wherever matching an entity by its fields gives an outcome, it tells whether the predicate is
    satisfied. -/
theorem Predicate.meets_eq_of_holds {entity : Fields} {p : Predicate} {matched : Bool}
    (h : p.holds Value.compare entity = .ok matched) :
    p.meets (.ofFields entity) = matched := by
  obtain ⟨name, test⟩ := p
  cases test with
  | relation r v =>
      obtain ⟨o, ho, h⟩ := bind_eq_ok.mp h
      obtain rfl := Except.ok.inj h
      exact Relation.meets_eq ho
  | oneOf vs =>
      replace h : vs.anyM (fun v =>
        return (← Value.compare (Value.fieldOrNull entity name) v) == .eq) = Except.ok matched := h
      show vs.any _ = matched
      induction vs with
      | nil => exact Except.ok.inj h
      | cons v vs ih =>
          rw [List.anyM] at h
          obtain ⟨found, hfound, h⟩ := bind_eq_ok.mp h
          obtain ⟨o, ho, hfound⟩ := bind_eq_ok.mp hfound
          obtain rfl := Except.ok.inj hfound
          have hv : Relation.equal.meets (Value.fieldOrNull entity name) v = (o == .eq) :=
            Relation.meets_eq ho
          rw [List.any_cons]
          show (Relation.equal.meets (Value.fieldOrNull entity name) v || _) = matched
          rw [hv]
          cases hfound : o == .eq with
          | true =>
              rw [hfound] at h
              exact Except.ok.inj h
          | false =>
              rw [hfound] at h
              exact ih h
  | present v =>
      show (true && _) = matched
      exact Except.ok.inj h
  | inside region =>
      obtain ⟨o, -, h⟩ := bind_eq_ok.mp h
      cases h

/-- Whether an entity satisfies all predicates of a clause. -/
def Clause.meets (view : View) (c : Clause) : Bool := c.all (Predicate.meets view)

@[simp] theorem Clause.meets_equals {v : Value} :
    Clause.meets view [.equals property v] = true
      ↔ Value.compare (view.value property) v = .ok .eq := by
  rw [meets, List.all_cons, List.all_nil, Bool.and_true]
  show Relation.equal.meets _ _ = true ↔ _
  rw [Relation.meets_iff]
  constructor
  · rintro ⟨o, ho, h⟩
    rwa [← eq_of_beq h]
  · exact fun h => ⟨.eq, h, rfl⟩

/-! ## Ranges -/

/-- Of two values with places the second is not before the first. -/
structure Value.NotBefore (a b : Value) : Prop where
  left   : a.isOrdered = true
  right  : b.isOrdered = true
  order  : Comparator.order compare b a ≠ .lt

/-- A test of being before decides it, as far as it gives an outcome. -/
theorem Value.decides_notBefore :
    Decides (fun _ => True) (Comparator.before compare) NotBefore (fun v => v.isNaN = false) where
  test {a b} ha hb := by
    rw [Comparator.before]
    cases ho : compare a b with
    | error f => trivial
    | ok o =>
        obtain ⟨haOrdered, hbOrdered⟩ := isOrdered_of_compare ha hb ho
        have horder : Comparator.order compare a b = o := by rw [Comparator.order, ho]
        show if (o == .lt) = true then NotBefore a b else NotBefore b a
        by_cases hlt : o = .lt
        · rw [if_pos (beq_iff_eq.mpr hlt)]
          exact ⟨haOrdered, hbOrdered, order_ne_lt_of_lt haOrdered hbOrdered (horder.trans hlt)⟩
        · rw [if_neg (mt beq_iff_eq.mp hlt)]
          exact ⟨hbOrdered, haOrdered, horder ▸ hlt⟩
  trans _ _ _ hab hbc :=
    ⟨hab.left, hbc.right, order_ne_lt_trans hbc.right hbc.left hab.left hbc.order hab.order⟩

theorem Value.sorted_notBefore {vs ws : List Value} (hvs : ∀ v ∈ vs, v.isNaN = false)
    (h : sorted compare .ascending vs = .ok ws) : ws.Pairwise NotBefore :=
  ((Sorting.sort_spec decides_notBefore hvs).of_eq_ok h).2

/-- Not both clauses are satisfied. -/
def Clause.Apart (view : View) (c d : Clause) : Prop :=
  ¬ (c.meets view = true ∧ d.meets view = true)

namespace Splitter

variable {sorts : List SortOrder} {c : Clause} {s : Splitting}

/-- **Ranges** around values that are in order do not overlap. -/
theorem rangesAround_disjoint {vs : List Value} (h : vs.Pairwise Value.NotBefore) :
    (rangesAround property vs).Pairwise (Clause.Apart view) := by
  refine rangesAround_pairwise fun {upper rest} hsuffix earlier later hearlier hlater => ?_
  rintro ⟨hbelow, habove⟩
  obtain ⟨lower, hlower, hmem⟩ := exists_above_of_mem_rangesFrom hlater
  obtain ⟨o, hlt, ho⟩ := Relation.meets_iff.mp (List.all_eq_true.mp hbelow _ hearlier)
  obtain rfl : o = .lt := eq_of_beq ho
  obtain ⟨o, hgt, ho⟩ := Relation.meets_iff.mp (List.all_eq_true.mp habove _ hmem)
  obtain rfl : o = .gt := eq_of_beq ho
  -- the later range starts at the end of the earlier one, or at a value that is not before it
  rcases List.mem_cons.mp hlower with rfl | hlower
  · exact absurd (Except.ok.inj (hlt.symm.trans hgt)) (by decide)
  · have hle := (List.pairwise_cons.mp (h.sublist hsuffix.sublist)).1 lower hlower
    exact hle.order (Value.order_eq_lt_of_between hle.right hle.left hgt hlt)

theorem pairwise_inReadingOrder {R : Clause → Clause → Prop} (hR : ∀ c d, R c d → R d c)
    {ranges : List Clause} (h : ranges.Pairwise R) : (inReadingOrder sorts ranges).Pairwise R :=
  match sorts with
  | [] | ⟨_, .ascending⟩ :: _ => h
  | ⟨_, .descending⟩ :: _ => List.pairwise_reverse.mpr (h.imp fun hcd => hR _ _ hcd)

end Splitter

/-! ## Components -/

/-- What the pieces of a component of a clause are like: they do not overlap, or they stand for a
    membership test of the clause. -/
inductive Component.Parts (view : View) (sorts : List SortOrder) (c : Clause)
    (component : Component) : Prop where
  | ranges (apart : component.pieces.Pairwise (Clause.Apart view))
  | choice (p : Predicate) (asked : List Value) (mem : p ∈ c)
      (split : Splitter.SplitsChoice Value.compare sorts asked p component)

namespace Splitter

variable {sorts : List SortOrder} {c : Clause} {s : Splitting}

theorem split_parts {splitter : Splitter} (hs : splitter.split Value.compare sorts c = .ok s)
    (hc : ∀ p ∈ c, ∀ v ∈ p.operands, v.isNaN = false) :
    ∀ component ∈ s.components, component.Parts view sorts c := by
  cases splitter with
  | exclusion =>
      rcases splitExclusions_eq_ok hs with ⟨-, rfl⟩ | ⟨property, values, hsplit⟩
      · exact List.forall_mem_nil _
      · obtain ⟨asked, hdistinct, hsorted⟩ := hsplit.distinct
        rw [hsplit.components, List.forall_mem_singleton]
        refine .ranges (pairwise_inReadingOrder (fun c d hcd => mt And.symm hcd)
          (rangesAround_disjoint (Value.sorted_notBefore ?_ hsorted)))
        intro v hv
        obtain ⟨p, hp, rfl⟩ := List.mem_map.mp ((mem_of_distinct hdistinct).1 hv)
        rw [hsplit.consumed] at hp
        obtain ⟨hp, hexclusion⟩ := List.mem_filter.mp hp
        exact hc p hp _ (value_mem_operands hexclusion)
  | choice =>
      obtain ⟨hsub, hcomponents⟩ := splitChoices_eq_ok hs
      intro component hcomponent
      obtain ⟨p, hp, asked, hsplit⟩ := exists_left_of_forall₂ hcomponents hcomponent
      exact .choice p asked (hsub.subset hp) hsplit

/-- **Components** of a clause that is split: their pieces do not overlap, or they stand for one of
    its membership tests. -/
theorem splitAll_parts {splitters : List Splitter} {left : Clause} {components : List Component}
    (hs : splitAll Value.compare sorts splitters c = .ok (left, components))
    (hc : ∀ p ∈ c, ∀ v ∈ p.operands, v.isNaN = false) :
    ∀ component ∈ components, component.Parts view sorts c := by
  induction splitters generalizing c components with
  | nil =>
      obtain ⟨rfl, rfl⟩ := Prod.mk.inj (Except.ok.inj hs)
      exact List.forall_mem_nil _
  | cons splitter splitters ih =>
      obtain ⟨s, hsplit, hs⟩ := bind_eq_ok.mp hs
      obtain ⟨rest, hrest, hs⟩ := bind_eq_ok.mp hs
      obtain ⟨⟨left', components'⟩, hlater, hs⟩ := bind_eq_ok.mp hs
      obtain ⟨rfl, rfl⟩ := Prod.mk.inj (Except.ok.inj hs)
      have hsub := remainder_subset hrest
      intro component hcomponent
      rcases List.mem_append.mp hcomponent with hcomponent | hcomponent
      · exact split_parts hsplit hc component hcomponent
      · cases ih hlater (fun p hp => hc p (hsub hp)) component hcomponent with
        | ranges hapart => exact .ranges hapart
        | choice p asked hp hsplit => exact .choice p asked (hsub hp) hsplit

end Splitter

/-- More than one element passes a test if two at different places do. -/
theorem one_lt_countP_iff {α : Type} {test : α → Bool} {l : List α} :
    1 < l.countP test ↔ ∃ a b, [a, b].Sublist l ∧ test a = true ∧ test b = true := by
  rw [List.countP_eq_length_filter]
  constructor
  · intro h
    obtain ⟨a, b, rest, hfilter⟩ : ∃ a b rest, l.filter test = a :: b :: rest := by
      match l.filter test, h with
      | a :: b :: rest, _ => exact ⟨a, b, rest, rfl⟩
    have hpass : ∀ x ∈ [a, b], test x = true := by
      intro x hx
      have hx' : x ∈ l.filter test := hfilter ▸ List.mem_append_left rest hx
      exact (List.mem_filter.mp hx').2
    have hsub : [a, b].Sublist (l.filter test) :=
      hfilter ▸ ((List.nil_sublist rest).cons_cons b).cons_cons a
    exact ⟨a, b, hsub.trans List.filter_sublist, hpass a (by simp), hpass b (by simp)⟩
  · rintro ⟨a, b, hsub, ha, hb⟩
    have hfilter := (hsub.filter test).length_le
    rwa [List.filter_cons_of_pos ha, List.filter_cons_of_pos hb] at hfilter

namespace Component

variable {sorts : List SortOrder} {c : Clause} {component : Component}

/-- The entity's value is equal to two of the values that the pieces of a component ask for. -/
def Doubles (view : View) (c : Component) : Prop :=
  ∃ v w, [[Predicate.equals c.property v], [Predicate.equals c.property w]].Sublist c.pieces
    ∧ Value.compare (view.value c.property) v = .ok .eq
    ∧ Value.compare (view.value c.property) w = .ok .eq

/-- Pieces overlap exactly where the entity's value is doubled. -/
theorem one_lt_countP_pieces_iff (h : component.Parts view sorts c) :
    1 < component.pieces.countP (Clause.meets view) ↔ component.Doubles view := by
  rw [one_lt_countP_iff]
  constructor
  · rintro ⟨a, b, hsub, ha, hb⟩
    cases h with
    | ranges hapart => exact absurd ⟨ha, hb⟩ (List.pairwise_iff_forall_sublist.mp hapart hsub)
    | choice p asked hp hsplit =>
        obtain ⟨values, ordered, -, -, rfl⟩ := hsplit.pieces
        obtain ⟨v, -, rfl⟩ := List.mem_map.mp (hsub.subset List.mem_cons_self)
        obtain ⟨w, -, rfl⟩ := List.mem_map.mp
          (hsub.subset (List.mem_cons_of_mem _ List.mem_cons_self))
        exact ⟨v, w, hsub, Clause.meets_equals.mp ha, Clause.meets_equals.mp hb⟩
  · rintro ⟨v, w, hsub, hv, hw⟩
    exact ⟨_, _, hsub, Clause.meets_equals.mpr hv, Clause.meets_equals.mpr hw⟩

end Component

/-- No two different values of a membership test compare as equal. -/
def Predicate.IsSharp (p : Predicate) : Prop :=
  ∀ asked, p.test = .oneOf asked → ∀ v ∈ asked, ∀ w ∈ asked,
    Value.compare v w = .ok .eq → (v == w) = true

/-- Two pieces of a membership test are equalities with values that have been told apart. -/
theorem Splitter.SplitsChoice.identity_ne {sorts : List SortOrder} {asked : List Value}
    {p : Predicate} {component : Component} {v w : Value}
    (h : SplitsChoice Value.compare sorts asked p component)
    (hsub : [[Predicate.equals p.property v], [Predicate.equals p.property w]].Sublist
      component.pieces) :
    v ∈ asked ∧ w ∈ asked ∧ v.identity ≠ w.identity := by
  obtain ⟨values, ordered, hdistinct, hordered, rfl⟩ := h.pieces
  have hperm := orderedChoices_perm hordered
  have hchosen : [v, w].Sublist ordered := by
    obtain ⟨chosen, hchosen, hmap⟩ := List.sublist_map_iff.mp hsub
    have hinjective : Function.Injective fun v => [Predicate.equals p.property v] := by
      intro v w heq
      simpa [Predicate.equals] using heq
    have hvw : [v, w] = chosen := hinjective.list_map hmap
    rwa [hvw]
  have hmem : ∀ u ∈ [v, w], u ∈ asked := fun u hu =>
    (mem_of_distinct hdistinct).1 (hperm.mem_iff.mp (hchosen.subset hu))
  have hnodup := (hperm.map Value.identity).nodup_iff.mpr (Value.nodup_identity hdistinct)
  refine ⟨hmem v (by simp), hmem w (by simp), ?_⟩
  simpa using hnodup.sublist (hchosen.map Value.identity)

/-- Values that are equal to one value are equal to each other. -/
theorem Value.compare_eq_of_twice {x v w : Value} (hx : x.isNaN = false) (hv : v.isNaN = false)
    (hw : w.isNaN = false) (hxv : compare x v = .ok .eq) (hxw : compare x w = .ok .eq) :
    compare v w = .ok .eq := by
  obtain ⟨hxPlace, hvPlace⟩ := isOrdered_of_compare hx hv hxv
  obtain ⟨-, hwPlace⟩ := isOrdered_of_compare hx hw hxw
  rw [compare_eq_order hxPlace hvPlace, Except.ok.injEq] at hxv
  rw [compare_eq_order hxPlace hwPlace, Except.ok.injEq] at hxw
  rw [compare_eq_order hvPlace hwPlace, order_eq_of_eq hxPlace hvPlace hwPlace hxv hxw]

namespace Component

variable {sorts : List SortOrder} {c : Clause} {component : Component}

/-- Sharp lists double no value that is a number at all. -/
theorem not_doubles (h : component.Parts view sorts c)
    (hnan : ∀ p ∈ c, ∀ v ∈ p.operands, v.isNaN = false)
    (hsharp : ∀ p ∈ c, p.IsSharp ∧ (view.value p.property).isNaN = false) :
    ¬ component.Doubles view := by
  rintro ⟨v, w, hsub, hv, hw⟩
  cases h with
  | ranges hapart =>
      refine List.pairwise_iff_forall_sublist.mp hapart hsub ⟨?_, ?_⟩
      · exact Clause.meets_equals.mpr hv
      · exact Clause.meets_equals.mpr hw
  | choice p asked hp hsplit =>
      obtain ⟨sharp, hx⟩ := hsharp p hp
      obtain ⟨values, ordered, hdistinct, -, hcomponent⟩ := hsplit.pieces
      have hproperty : component.property = p.property := by
        rw [hcomponent]
        rfl
      rw [hproperty] at hsub hv hw
      obtain ⟨hvAsked, hwAsked, hne⟩ := hsplit.identity_ne hsub
      have hoperands : ∀ u ∈ asked, u.isNaN = false := fun u hu =>
        hnan p hp u (by rwa [Predicate.operands, hsplit.test])
      have hvw := Value.compare_eq_of_twice hx (hoperands v hvAsked) (hoperands w hwAsked) hv hw
      have hkeyable := List.all_eq_true.mp (Value.distinct_eq_ok.mp hdistinct).1 v hvAsked
      exact hne ((Value.beq_iff hkeyable).mp
        (sharp asked hsplit.test v hvAsked w hwAsked hvw))

end Component

/-! ## Plans -/

/-- To choose from what passes a test is to choose what passes it. -/
theorem filter_choices {α : Type} (test : α → Bool) (lists : List (List α)) :
    (choices lists).filter (·.all test) = choices (lists.map (·.filter test)) := by
  induction lists with
  | nil => rfl
  | cons xs lists ih =>
      have hhead : ∀ x, ((choices lists).map (x :: ·)).filter (·.all test)
          = if test x then (choices (lists.map (·.filter test))).map (x :: ·) else [] := by
        intro x
        rw [← ih, List.filter_map]
        cases hx : test x <;> simp [Function.comp_def, hx]
      rw [List.map_cons, choices, choices]
      induction xs with
      | nil => rfl
      | cons x xs ihxs =>
          rw [List.flatMap_cons, List.filter_append, hhead, ihxs]
          cases hx : test x
          · rw [List.filter_cons_of_neg (by rw [hx]; decide)]
            rfl
          · rw [List.filter_cons_of_pos hx, List.flatMap_cons]
            rfl

/-- There are several choices if there is one and some list offers several elements. -/
theorem one_lt_choiceCount_iff {α : Type} {lists : List (List α)} :
    1 < choiceCount lists ↔ 0 < choiceCount lists ∧ ∃ xs ∈ lists, 1 < xs.length := by
  induction lists with
  | nil => exact iff_of_false (Nat.lt_irrefl 1) (by simp)
  | cons xs lists ih =>
      have hcons : choiceCount (xs :: lists) = xs.length * choiceCount lists := rfl
      have hmul : ∀ m n : Nat, 1 < m * n ↔ 0 < m * n ∧ (1 < m ∨ 0 < n ∧ 1 < n) := by
        intro m n
        constructor
        · intro h
          have hm : 0 < m := Nat.pos_of_mul_pos_right (Nat.lt_of_succ_lt h)
          have hn : 0 < n := Nat.pos_of_mul_pos_left (Nat.lt_of_succ_lt h)
          refine ⟨Nat.lt_of_succ_lt h, ?_⟩
          by_contra hfew
          obtain ⟨rfl, rfl⟩ : m = 1 ∧ n = 1 := by omega
          exact Nat.lt_irrefl 1 h
        · rintro ⟨hpos, hm | ⟨-, hn⟩⟩
          · exact Nat.lt_of_lt_of_le hm (Nat.le_mul_of_pos_right m (Nat.pos_of_mul_pos_left hpos))
          · exact Nat.lt_of_lt_of_le hn (Nat.le_mul_of_pos_left n (Nat.pos_of_mul_pos_right hpos))
      rw [hcons, hmul, List.exists_mem_cons_iff, ih]
      constructor
      · rintro ⟨hpos, hm | ⟨-, -, hn⟩⟩
        · exact ⟨hpos, .inl hm⟩
        · exact ⟨hpos, .inr hn⟩
      · rintro ⟨hpos, hm | hn⟩
        · exact ⟨hpos, .inl hm⟩
        · have hn' : 0 < choiceCount lists := Nat.pos_of_mul_pos_left hpos
          exact ⟨hpos, .inr ⟨hn', hn', hn⟩⟩

namespace Plan

variable {sorts : List SortOrder} {c : Clause} {p : Plan}

/-- As many concrete clauses are satisfied as there are ways to choose a satisfied piece of each
    component, if what was left of the clause is satisfied at all. -/
theorem countP_groups (p : Plan) : p.groups.flatten.countP (Clause.meets view)
    = if p.filters.meets view = true
      then choiceCount (p.components.map fun c => c.pieces.filter (Clause.meets view)) else 0 := by
  have hconcrete : ∀ pieces, (p.concrete pieces).meets view
      = (p.filters.meets view && pieces.all (Clause.meets view)) := by
    intro pieces
    rw [Clause.meets, all_concrete, List.all_flatten]
    rfl
  rw [flatten_groups, List.countP_map, List.countP_eq_length_filter]
  split
  · rename_i hfilters
    have hpass : (Clause.meets view ∘ p.concrete)
        = fun pieces => pieces.all (Clause.meets view) := by
      funext pieces
      rw [Function.comp, hconcrete, hfilters, Bool.true_and]
    rw [hpass, filter_choices, length_choices, List.map_map]
    rfl
  · rename_i hfilters
    rw [List.length_eq_zero_iff, List.filter_eq_nil_iff]
    intro pieces _
    rw [Function.comp, hconcrete, Bool.and_eq_true]
    exact fun h => hfilters h.1

/-- **Overlap.** Several concrete clauses are satisfied exactly if one is and the entity's value is
    doubled by some component. -/
theorem one_lt_countP_groups_iff
    (h : ∀ component ∈ p.components, component.Parts view sorts c) :
    1 < p.groups.flatten.countP (Clause.meets view)
      ↔ 0 < p.groups.flatten.countP (Clause.meets view)
        ∧ ∃ component ∈ p.components, component.Doubles view := by
  rw [countP_groups]
  split
  · rw [one_lt_choiceCount_iff]
    simp only [List.mem_map, exists_exists_and_eq_and]
    refine and_congr_right' (exists_congr fun component => and_congr_right fun hcomponent => ?_)
    rw [← List.countP_eq_length_filter,
      Component.one_lt_countP_pieces_iff (h component hcomponent)]
  · simp

end Plan

/-! ## Queries -/

namespace Query

variable {q : Query} {splitters : List Splitter} {settings : Settings} {plans : List Plan}

/-- **Overlap of concrete queries.** Let no value that a query compares with be a NaN. An entity
    satisfies several concrete clauses of a plan exactly if it satisfies one of them and its value
    is equal to two of the values that some component asks for one by one. It does not if no value
    of the entity that is looked at is a NaN and all lists are sharp. -/
theorem fanOut_overlap (h : q.fanOut splitters settings Value.compare = .ok plans)
    (hnan : ∀ r ∈ q.allPredicates, ∀ v ∈ r.operands, v.isNaN = false) {p : Plan} (hp : p ∈ plans)
    (view : View) :
    (1 < p.groups.flatten.countP (Clause.meets view)
        ↔ 0 < p.groups.flatten.countP (Clause.meets view)
          ∧ ∃ component ∈ p.components, component.Doubles view)
      ∧ ((∀ r ∈ q.allPredicates, r.IsSharp ∧ (view.value r.property).isNaN = false) →
        p.groups.flatten.countP (Clause.meets view) ≤ 1) := by
  obtain ⟨cs, hcs, hplans⟩ := fanOut_eq_ok h
  obtain ⟨c, hc, hof⟩ := (mem_of_mapM_eq_ok hplans).mp hp
  obtain ⟨⟨left, components⟩, hsplit, hof⟩ := bind_eq_ok.mp hof
  obtain rfl := Except.ok.inj hof
  have hmem : ∀ r ∈ c, r ∈ q.allPredicates := (clauses_means hcs).mem c hc
  have hnan' : ∀ r ∈ c, ∀ v ∈ r.operands, v.isNaN = false := fun r hr => hnan r (hmem r hr)
  have hparts : ∀ component ∈ (Plan.of q left components q.hasSort).components,
      component.Parts view q.sorts c := fun component hcomponent =>
    Splitter.splitAll_parts hsplit hnan' component (List.mem_mergeSort.mp hcomponent)
  refine ⟨Plan.one_lt_countP_groups_iff hparts, fun hsharp => ?_⟩
  by_contra hmany
  obtain ⟨-, component, hcomponent, hdoubles⟩ :=
    (Plan.one_lt_countP_groups_iff hparts).mp (Nat.not_le.mp hmany)
  exact Component.not_doubles (hparts component hcomponent) hnan'
    (fun r hr => hsharp r (hmem r hr)) hdoubles

/-- Things of two names that are of neither of two sizes. -/
def named : Query where
  filter := some (.node .all [.leaf ⟨"name", .oneOf [.text "a", .text "b"]⟩,
    .leaf ⟨"size", .relation .notEqual (.int 7)⟩, .leaf ⟨"size", .relation .notEqual (.int 5)⟩])

def namedPlan : Plan :=
  ⟨named, [], [⟨"size", none, none, [[.below "size" (.int 5)],
        [.above "size" (.int 5), .below "size" (.int 7)], [.above "size" (.int 7)]]⟩,
      ⟨"name", none, none, [[.equals "name" (.text "a")], [.equals "name" (.text "b")]]⟩], false⟩

/-- A thing between the two sizes satisfies one of the six concrete clauses at most. -/
theorem fanOut_overlap_named : named.fanOut Splitter.standard {} Value.compare = .ok [namedPlan]
    ∧ namedPlan.groups.flatten.length = 6
    ∧ namedPlan.groups.flatten.countP
        (Clause.meets (.ofFields [("name", .text "a"), ("size", .int 6)])) ≤ 1 := by
  have hplans : named.fanOut Splitter.standard {} Value.compare = .ok [namedPlan] :=
    fanOut_single rfl (Plan.ofClause_ordered (by with_unfolding_all rfl) (by decide)) (by decide)
  have hall : named.allPredicates = [⟨"name", .oneOf [.text "a", .text "b"]⟩,
    ⟨"size", .relation .notEqual (.int 7)⟩, ⟨"size", .relation .notEqual (.int 5)⟩] := rfl
  refine ⟨hplans, rfl, (fanOut_overlap hplans ?_ List.mem_cons_self _).2 ?_⟩
  · rw [hall]
    decide
  · rw [hall]
    intro r hr
    simp only [List.mem_cons, List.not_mem_nil, or_false] at hr
    rcases hr with rfl | rfl | rfl
    · refine ⟨fun asked hasked v hv w hw heq => ?_, rfl⟩
      obtain rfl := Test.oneOf.inj hasked
      rcases List.mem_pair.mp hv with rfl | rfl <;> rcases List.mem_pair.mp hw with rfl | rfl
      · rfl
      · exact absurd heq (by decide)
      · exact absurd heq (by decide)
      · rfl
    · exact ⟨fun asked hasked => (by cases hasked), rfl⟩
    · exact ⟨fun asked hasked => (by cases hasked), rfl⟩

/-- Things whose name is one of two texts or the octets of the first one. -/
def spelled : Query where
  filter := some (.leaf ⟨"name", .oneOf [.text "a", .bytes [0x61], .text "b"]⟩)

def spelledPlan : Plan :=
  ⟨spelled, [], [⟨"name", none, none, [[.equals "name" (.text "a")],
    [.equals "name" (.bytes [0x61])], [.equals "name" (.text "b")]]⟩], false⟩

/-- A thing with the first name satisfies two of the three concrete clauses. -/
theorem overlap_spelled : spelled.fanOut Splitter.standard {} Value.compare = .ok [spelledPlan]
    ∧ (∀ r ∈ spelled.allPredicates, ∀ v ∈ r.operands, v.isNaN = false)
    ∧ ¬ spelledPlan.groups.flatten.countP (Clause.meets (.ofFields [("name", .text "a")])) ≤ 1 := by
  have hplan : Plan.ofClause Value.compare Splitter.standard spelled
      [⟨"name", .oneOf [.text "a", .bytes [0x61], .text "b"]⟩] = .ok spelledPlan :=
    Plan.ofClause_ordered (by with_unfolding_all rfl) (by decide)
  exact ⟨fanOut_single rfl hplan (by decide), by decide, by decide⟩

end Query

end EntityQuery
