import EntityQuery.Proofs.Index.Names

/-!
# Trailing properties — what a match of the postfix says of an index

The postfix of a query is looked for from the end of an index: first as many properties as there are
unordered names, then as many before them as there are sorts. Where an index is too short for one of
these, what is looked at is too short as well and is not accepted, so nothing is ever taken from
before the first property. What has been matched is therefore said of the trailing properties alone,
without the search (`NormalForm.EndsAt`): their number, the sorts one by one, and the unordered names
in some order, which is the same as each of them once and no others.

* **`NormalForm.matchPostfix_eq_some_iff_endsAt`** — where the postfix is found, and when it is not.
-/

namespace EntityQuery

/-- Properties keep sorts one by one if they have their names and directions in this order and are
    not geospatial. -/
theorem forall₂_keptBy_iff {sorts : List SortOrder} {ps : List IndexProperty} :
    List.Forall₂ SortOrder.KeptBy sorts ps ↔
      ps.map (fun p => (p.name, p.direction)) = sorts.map (fun s => (s.property, some s.direction))
        ∧ ∀ p ∈ ps, p.isGeospatial = false := by
  induction sorts generalizing ps with
  | nil =>
      rw [List.forall₂_nil_left_iff]
      constructor
      · rintro rfl
        exact ⟨rfl, List.forall_mem_nil _⟩
      · rintro ⟨hnone, -⟩
        exact List.map_eq_nil_iff.mp hnone
  | cons s sorts ih =>
      cases ps with
      | nil => simp
      | cons p ps =>
          rw [List.forall₂_cons, ih, List.map_cons, List.map_cons, List.cons.injEq,
            List.forall_mem_cons, Prod.mk.injEq]
          constructor
          · rintro ⟨⟨hname, hdirection, hplain⟩, hothers, hplains⟩
            exact ⟨⟨⟨hname, hdirection⟩, hothers⟩, hplain, hplains⟩
          · rintro ⟨⟨⟨hname, hdirection⟩, hothers⟩, hplain, hplains⟩
            exact ⟨⟨hname, hdirection, hplain⟩, hothers, hplains⟩

namespace NormalForm

variable {q : Query} {n : NormalForm} {keyProperty : String} {ps : List IndexProperty} {k : Nat}

/-- After `k` properties there stand those that keep the sorts, in their order and direction, then
    one for each unordered name, in any order and direction, and nothing else. None of them is
    geospatial. -/
structure EndsAt (n : NormalForm) (ps : List IndexProperty) (k : Nat) : Prop where
  length : ps.length = k + n.sorts.length + n.unordered.length
  sorts  : ((ps.drop k).take n.sorts.length).map (fun p => (p.name, p.direction))
    = n.sorts.map fun s => (s.property, some s.direction)
  others : ((ps.drop (k + n.sorts.length)).map IndexProperty.name).Perm n.unordered
  plain  : ∀ p ∈ ps.drop k, p.isGeospatial = false

@[simp] theorem size_orderedPostfix : n.orderedPostfix.size = n.sorts.length :=
  List.length_map ..

/-- The unordered names of a normal form are different, so all of them count. -/
theorem size_unorderedPostfix (hd : n.Distinct) : n.unorderedPostfix.size = n.unordered.length :=
  (eraseDups_perm hd.unordered).length_eq

theorem accepts_orderedPostfix_iff_map :
    n.orderedPostfix.accepts ps = true ↔
      ps.map (fun p => (p.name, p.direction))
          = n.sorts.map (fun s => (s.property, some s.direction))
        ∧ ∀ p ∈ ps, p.isGeospatial = false := by
  rw [accepts_orderedPostfix_iff, forall₂_keptBy_iff]

/-- Each of different names once and no others is these names in some order. -/
theorem accepts_unorderedPostfix_iff_perm (hd : n.Distinct) :
    n.unorderedPostfix.accepts ps = true ↔
      (ps.map IndexProperty.name).Perm n.unordered ∧ ∀ p ∈ ps, p.isGeospatial = false := by
  rw [unorderedPostfix, IndexComponent.accepts_unordered_iff, ← and_assoc]
  refine and_congr_left fun _ => ?_
  constructor
  · rintro ⟨honce, hnames⟩
    exact (List.perm_ext_iff_of_nodup honce hd.unordered).mpr hnames
  · intro hperm
    exact ⟨hperm.nodup_iff.mpr hd.unordered, fun name => hperm.mem_iff⟩

theorem matchPostfix_eq_some_iff_of_distinct (hd : n.Distinct) :
    n.matchPostfix ps = some k ↔ n.EndsAt ps k := by
  have hcut : ps.drop k = (ps.drop k).take n.sorts.length ++ ps.drop (k + n.sorts.length) := by
    rw [← List.drop_drop, List.take_append_drop]
  rw [matchPostfix_eq_some, size_orderedPostfix, size_unorderedPostfix hd,
    accepts_orderedPostfix_iff_map, accepts_unorderedPostfix_iff_perm hd]
  constructor
  · rintro ⟨hlength, ⟨hsorts, hplain⟩, hothers, hplain'⟩
    refine ⟨hlength.symm, hsorts, hothers, ?_⟩
    rw [hcut]
    exact List.forall_mem_append.mpr ⟨hplain, hplain'⟩
  · intro h
    have hplain := h.plain
    rw [hcut, List.forall_mem_append] at hplain
    exact ⟨h.length.symm, ⟨h.sorts, hplain.1⟩, h.others, hplain.2⟩

/-- **Matching the postfix.** The postfix of a normal form is found after `k` properties of an index
    exactly if the index ends in it there, and so has `k` properties more than the postfix. If it
    ends in it nowhere, nothing is found. -/
theorem matchPostfix_eq_some_iff_endsAt (h : ofQuery q keyProperty = .ok n) (index : Index) :
    (∀ k, n.matchPostfix index.properties = some k ↔ n.EndsAt index.properties k)
      ∧ (n.matchPostfix index.properties = none ↔ ∀ k, ¬ n.EndsAt index.properties k) := by
  have hsome : ∀ k, n.matchPostfix index.properties = some k ↔ n.EndsAt index.properties k :=
    fun _ => matchPostfix_eq_some_iff_of_distinct (distinct_of_ofQuery h)
  refine ⟨hsome, ?_⟩
  rw [Option.eq_none_iff_forall_ne_some]
  exact forall_congr' fun k => not_congr (hsome k)

end NormalForm

/-! ## An index for flights -/

/-- The flights of a carrier that have a gate and a crew, the last to depart first. -/
def Query.flights : Query where
  kind := some "Flight"
  filter := some (.node .all [.leaf (.equals "carrier" (.int 1)),
    .leaf ⟨"gate", .present (.bool true)⟩, .leaf ⟨"crew", .present (.bool true)⟩])
  sorts := [⟨"departure", .descending⟩, ⟨"number", .ascending⟩]

/-- What an index must cover of the flights. -/
def NormalForm.flights : NormalForm where
  kind := some "Flight"
  hasAncestor := false
  filters := [.equals "carrier" (.int 1), ⟨"gate", .present (.bool true)⟩,
    ⟨"crew", .present (.bool true)⟩]
  sorts := [⟨"departure", .descending⟩, ⟨"number", .ascending⟩]
  equalities := ["carrier"]
  unordered := ["gate", "crew"]
  regions := []
  hasKeyProperty := false
  equalityCount := 1

/-- Flights by departure and number, with some properties in front. -/
def Index.flightsAfter (leading : List IndexProperty) : Index where
  kind := some "Flight"
  properties := leading ++ [⟨"departure", some .descending, none⟩, .ascending "number",
    ⟨"crew", some .descending, none⟩, .ascending "gate"]

/-- The postfix of the flights is found after the carrier, with crew and gate the other way round,
    and not in an index that ends before the gate. -/
theorem NormalForm.matchPostfix_eq_some_iff_endsAt_flights :
    NormalForm.ofQuery .flights defaultKeyProperty = .ok .flights
      ∧ flights.matchPostfix (Index.flightsAfter [.ascending "carrier"]).properties = some 1
      ∧ flights.matchPostfix ((Index.flightsAfter []).properties.take 3) = none := by
  have hflights : NormalForm.ofQuery .flights defaultKeyProperty = .ok .flights := rfl
  refine ⟨hflights, ?_, ?_⟩
  · refine ((matchPostfix_eq_some_iff_endsAt hflights _).1 1).mpr ⟨rfl, rfl, ?_, by decide⟩
    exact List.Perm.swap ..
  · have hshort := matchPostfix_eq_some_iff_endsAt hflights
      { properties := (Index.flightsAfter []).properties.take 3 }
    refine hshort.2.mpr fun k hk => ?_
    -- three properties are fewer than two sorts and two names
    have hlength : 3 = k + 2 + 2 := hk.length
    omega

end EntityQuery
