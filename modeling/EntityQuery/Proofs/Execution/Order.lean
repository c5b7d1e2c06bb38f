import EntityQuery.Proofs.Execution.Coverage

/-!
# The order of rows — when what comes out of a run is sorted

The answers to concrete queries are sorted, and so are the rows of a group, which interleave them.
The groups of a plan are strung together, so the rows of a plan are sorted only as far as its groups
follow the order. What this comes to for the rows of the run depends on the other plans too: a row
that several plans find comes out when the first of them gives it. So the run is sorted exactly
when every row is *in place* in some plan (`InPlace`), that is, in a group before which no group of
this plan finds anything that comes after it.

* **`Streams.inPlace_iff`** — a row is in place when it has a place in the stream behind nothing
  that comes after it.
* **`pairwise_iff_inPlace`** — rows are sorted exactly when every answer is in place.
-/

namespace EntityQuery

variable {α : Type} {le : α → α → Prop} {S : α → Prop} {answer : Query → List α}

/-- Some group finds an element, and what the groups before it find may stand before it. -/
def InPlace (le : α → α → Prop) (answer : Query → List α) : List (List Query) → α → Prop
  | [], _ => False
  | group :: groups, a =>
    (∃ c ∈ group, a ∈ answer c)
      ∨ ((∀ c ∈ group, ∀ b ∈ answer c, le b a) ∧ InPlace le answer groups a)

theorem InPlace.of_append {before after : List (List Query)} {group : List Query} {a : α}
    (hbefore : ∀ g ∈ before, ∀ c ∈ g, ∀ b ∈ answer c, le b a)
    (hgroup : ∃ c ∈ group, a ∈ answer c) : InPlace le answer (before ++ group :: after) a := by
  induction before with
  | nil => exact .inl hgroup
  | cons g before ih =>
      refine .inr ⟨hbefore g List.mem_cons_self, ih ?_⟩
      intro g' hg'
      exact hbefore g' (List.mem_cons_of_mem g hg')

/-! ## Streams -/

/-- **In place** in groups is placed in their stream, if answers are sorted. -/
theorem Streams.inPlace_iff {groups : List (List Query)} {stream : List α}
    (h : Streams le answer groups stream)
    (htrans : ∀ {a b c}, S a → S b → S c → le a b → le b c → le a c)
    (hS : ∀ group ∈ groups, ∀ c ∈ group, ∀ a ∈ answer c, S a)
    (hsorted : ∀ group ∈ groups, ∀ c ∈ group, (answer c).Pairwise le) {a : α} :
    InPlace le answer groups a ↔ Placed le stream a := by
  obtain ⟨parts, hparts, rfl⟩ := h
  induction hparts with
  | nil =>
      constructor
      · exact False.elim
      · rintro ⟨front, back, hsplit, -⟩
        exact absurd hsplit (by simp)
  | @cons group part groups parts hpart _ ih =>
      have hrest := ih (fun g hg => hS g (List.mem_cons_of_mem group hg))
        (fun g hg => hsorted g (List.mem_cons_of_mem group hg))
      have hfound : ∀ {b}, b ∈ part ↔ ∃ c ∈ group, b ∈ answer c := by
        intro b
        rw [hpart.mem]
        simp only [List.mem_map, exists_exists_and_eq_and]
      have hpartSorted : part.Pairwise le := by
        refine hpart.sorted htrans ?_ ?_
        · rintro l hl b hb
          obtain ⟨c, hc, rfl⟩ := List.mem_map.mp hl
          exact hS group List.mem_cons_self c hc b hb
        · rintro l hl
          obtain ⟨c, hc, rfl⟩ := List.mem_map.mp hl
          exact hsorted group List.mem_cons_self c hc
      have hpartPlaced : Placed le part a ↔ ∃ c ∈ group, a ∈ answer c := by
        rw [← hfound]
        constructor
        · rintro ⟨front, back, rfl, -⟩
          exact List.mem_append_right front List.mem_cons_self
        · exact Placed.of_sorted hpartSorted
      -- what a group finds is placed in its part, all of which is ahead of the other groups
      rw [InPlace, List.flatten_cons, placed_append, hpartPlaced, hrest]
      refine or_congr_right (and_congr_left fun _ => ?_)
      constructor
      · intro hle b hb
        obtain ⟨c, hc, hb⟩ := hfound.mp hb
        exact hle c hc b hb
      · intro hle c hc b hb
        exact hle b (hfound.mpr ⟨c, hc, hb⟩)

/-! ## Sifting -/

namespace Sifts

variable {identity : α → Except Fault (List Value)} {seen : List (List Value)} {all rows : List α}

/-- An element has an identity that has not been seen, if it has one. -/
def New (identity : α → Except Fault (List Value)) (seen : List (List Value)) (a : α) : Prop :=
  ∀ values, Sifted.identify identity a = .ok values → seen.contains values = false

/-- Elements that share an identity are one. -/
def Distinguishes (identity : α → Except Fault (List Value)) (S : α → Prop) : Prop :=
  ∀ {a b v w}, S a → S b → Sifted.identify identity a = .ok v →
    Sifted.identify identity b = .ok w → (v == w) = true → a = b

theorem New.tail {a : α} {values : List Value} (h : New identity (values :: seen) a) :
    New identity seen a := by
  intro v hv
  have hboth := h v hv
  rw [List.contains_cons, Bool.or_eq_false_iff] at hboth
  exact hboth.2

theorem New.cons (hid : Distinguishes identity S) {a b : α} {values : List Value}
    (h : New identity seen a) (ha : S a) (hb : S b) (hab : a ≠ b)
    (hvalues : Sifted.identify identity b = .ok values) : New identity (values :: seen) a := by
  intro v hv
  rw [List.contains_cons, h v hv, Bool.or_false]
  exact Bool.eq_false_iff.mpr fun heq => hab (hid ha hb hv hvalues heq)

theorem mem_rows_iff (h : Sifts identity seen all rows) (hid : Distinguishes identity S)
    (hS : ∀ a ∈ all, S a) {x : α} : x ∈ rows ↔ x ∈ all ∧ New identity seen x := by
  induction h with
  | nil => simp
  | @kept seen a as bs values hvalues hnew _ ih =>
      have hrest := ih fun b hb => hS b (List.mem_cons_of_mem a hb)
      have ha : New identity seen a := by
        intro v hv
        rw [Except.ok.inj (hv.symm.trans hvalues), hnew]
      rw [List.mem_cons, List.mem_cons, hrest]
      constructor
      · rintro (rfl | ⟨hx, hxNew⟩)
        · exact ⟨.inl rfl, ha⟩
        · exact ⟨.inr hx, hxNew.tail⟩
      · rintro ⟨rfl | hx, hxNew⟩
        · exact .inl rfl
        · by_cases hxa : x = a
          · exact .inl hxa
          · exact .inr ⟨hx, hxNew.cons hid (hS x (List.mem_cons_of_mem a hx))
              (hS a List.mem_cons_self) hxa hvalues⟩
  | @dropped seen a as bs values hvalues hseen _ ih =>
      rw [ih fun b hb => hS b (List.mem_cons_of_mem a hb), List.mem_cons]
      constructor
      · rintro ⟨hx, hxNew⟩
        exact ⟨.inr hx, hxNew⟩
      · rintro ⟨rfl | hx, hxNew⟩
        · cases hseen.symm.trans (hxNew values hvalues)
        · exact ⟨hx, hxNew⟩

theorem New.ne {a x : α} {values : List Value} (h : New identity (values :: seen) x)
    (hvalues : Sifted.identify identity a = .ok values) : x ≠ a := by
  rintro rfl
  have hself := h values hvalues
  rw [List.contains_cons, (Value.list_beq_iff (keyable_of_identify hvalues)).mpr rfl] at hself
  cases hself

/-- Behind an element that is kept, another one has a place if that may stand before it, and if it
    has a place behind what is new even then. -/
theorem placed_behind_iff (hid : Distinguishes identity S) {a x : α} {as : List α}
    {values : List Value} (hS : ∀ b ∈ a :: as, S b)
    (hvalues : Sifted.identify identity a = .ok values) (ha : New identity seen a)
    (hx : New identity (values :: seen) x) :
    Placed (fun b x => New identity seen b → le b x) (a :: as) x ↔
      le a x ∧ Placed (fun b x => New identity (values :: seen) b → le b x) as x := by
  rw [placed_cons]
  constructor
  · intro hplace
    obtain ⟨hax, front, back, rfl, hfront⟩ := hplace.resolve_left (hx.ne hvalues)
    exact ⟨hax ha, front, back, rfl, fun b hb hbNew => hfront b hb hbNew.tail⟩
  · rintro ⟨hax, front, back, rfl, hfront⟩
    refine .inr ⟨fun _ => hax, front, back, rfl, ?_⟩
    intro b hb hbNew
    -- an element of the front may be the kept one once more
    by_cases hba : b = a
    · rwa [hba]
    · have hSb := hS b (List.mem_cons_of_mem a (List.mem_append_left _ hb))
      exact hfront b hb (hbNew.cons hid hSb (hS a List.mem_cons_self) hba hvalues)

/-- What sifting leaves is sorted exactly when everything new has a place behind nothing new that
    has to stand behind it. -/
theorem pairwise_iff (h : Sifts identity seen all rows) (hid : Distinguishes identity S)
    (hS : ∀ a ∈ all, S a) :
    rows.Pairwise le ↔ ∀ x ∈ all, New identity seen x →
      Placed (fun b x => New identity seen b → le b x) all x := by
  induction h with
  | nil => simp
  | @kept seen a as bs values hvalues hnew hrest ih =>
      have hSas : ∀ b ∈ as, S b := fun b hb => hS b (List.mem_cons_of_mem a hb)
      have haNew : New identity seen a := by
        intro v hv
        rw [Except.ok.inj (hv.symm.trans hvalues), hnew]
      have hbehind : ∀ x, New identity (values :: seen) x →
          (Placed (fun b x => New identity seen b → le b x) (a :: as) x ↔
            le a x ∧ Placed (fun b x => New identity (values :: seen) b → le b x) as x) :=
        fun _ => placed_behind_iff hid hS hvalues haNew
      rw [List.pairwise_cons, ih hSas]
      constructor
      · rintro ⟨hfirst, hothers⟩ x hx hxNew
        by_cases hxa : x = a
        · exact placed_cons.mpr (.inl hxa)
        · have hxas := (List.mem_cons.mp hx).resolve_left hxa
          have hxNew' := hxNew.cons hid (hSas x hxas) (hS a List.mem_cons_self) hxa hvalues
          refine (hbehind x hxNew').mpr ⟨hfirst x ?_, hothers x hxas hxNew'⟩
          exact (hrest.mem_rows_iff hid hSas).mpr ⟨hxas, hxNew'⟩
      · intro hall
        have hplaced := fun x hx (hxNew : New identity (values :: seen) x) =>
          (hbehind x hxNew).mp (hall x (List.mem_cons_of_mem a hx) hxNew.tail)
        constructor
        · intro x hx
          obtain ⟨hxas, hxNew⟩ := (hrest.mem_rows_iff hid hSas).mp hx
          exact (hplaced x hxas hxNew).1
        · intro x hx hxNew
          exact (hplaced x hx hxNew).2
  | @dropped seen a as bs values hvalues hseen _ ih =>
      have haOld : ¬ New identity seen a := by
        intro haNew
        cases hseen.symm.trans (haNew values hvalues)
      rw [ih fun b hb => hS b (List.mem_cons_of_mem a hb), List.forall_mem_cons]
      constructor
      · intro hall
        refine ⟨fun haNew => absurd haNew haOld, ?_⟩
        intro x hx hxNew
        exact placed_cons.mpr (.inr ⟨fun haNew => absurd haNew haOld, hall x hx hxNew⟩)
      · rintro ⟨-, hall⟩ x hx hxNew
        rcases placed_cons.mp (hall x hx hxNew) with rfl | ⟨-, hplace⟩
        · exact absurd hxNew haOld
        · exact hplace

end Sifts

/-- **Sorted rows.** The rows that are sifted from an interleaving of streams are sorted exactly
    when every answer is in place in some plan. -/
theorem pairwise_iff_inPlace {plans : List Plan} {streams : List (List α)} {merged rows : List α}
    {identity : α → Except Fault (List Value)}
    (hstreams : List.Forall₂ (fun p stream => Streams le answer p.queryGroups stream) plans streams)
    (hmerged : Interleaves le streams merged) (hsifts : Sifts identity [] merged rows)
    (hid : Sifts.Distinguishes identity S)
    (htrans : ∀ {a b c}, S a → S b → S c → le a b → le b c → le a c)
    (hS : ∀ a ∈ Plan.answers plans answer, S a)
    (hsorted : ∀ p ∈ plans, ∀ c ∈ p.queries, (answer c).Pairwise le) :
    rows.Pairwise le ↔
      ∀ a ∈ Plan.answers plans answer, ∃ p ∈ plans, InPlace le answer p.queryGroups a := by
  have hmem : ∀ {a}, a ∈ merged ↔ a ∈ Plan.answers plans answer :=
    mem_merged_iff hstreams hmerged
  have hplace : ∀ {p stream a}, p ∈ plans → Streams le answer p.queryGroups stream →
      (InPlace le answer p.queryGroups a ↔ Placed le stream a) := by
    intro p stream a hp hrows
    have hqueries : ∀ group ∈ p.queryGroups, ∀ c ∈ group, c ∈ p.queries :=
      fun group hgroup c hc => List.mem_flatten.mpr ⟨group, hgroup, hc⟩
    refine hrows.inPlace_iff htrans ?_ ?_
    · intro group hgroup c hc b hb
      exact hS b (Plan.mem_answers.mpr ⟨p, hp, c, hqueries group hgroup c hc, hb⟩)
    · intro group hgroup c hc
      exact hsorted p hp c (hqueries group hgroup c hc)
  rw [hsifts.pairwise_iff hid fun a ha => hS a (hmem.mp ha)]
  have hSstreams : ∀ l ∈ streams, ∀ a ∈ l, S a :=
    fun l hl a ha => hS a (hmem.mp (hmerged.mem.mpr ⟨l, hl, ha⟩))
  -- before anything has been seen, everything is new
  constructor
  · intro hall a ha
    obtain ⟨front, back, rfl, hfront⟩ := hall a (hmem.mpr ha) fun _ _ => rfl
    have hplaced : Placed le (front ++ a :: back) a :=
      ⟨front, back, rfl, fun b hb => hfront b hb fun _ _ => rfl⟩
    obtain ⟨stream, hstream, hplaced⟩ := (hmerged.placed_iff htrans hSstreams).mp hplaced
    obtain ⟨p, hp, hrows⟩ := exists_left_of_forall₂ hstreams hstream
    exact ⟨p, hp, (hplace hp hrows).mpr hplaced⟩
  · intro hall a ha _
    obtain ⟨p, hp, hin⟩ := hall a (hmem.mp ha)
    obtain ⟨stream, hstream, hrows⟩ := exists_right_of_forall₂ hstreams hp
    obtain ⟨front, back, hsplit, hfront⟩ := (hmerged.placed_iff htrans hSstreams).mpr
      ⟨stream, hstream, (hplace hp hrows).mp hin⟩
    exact ⟨front, back, hsplit, fun b hb _ => hfront b hb⟩

end EntityQuery
