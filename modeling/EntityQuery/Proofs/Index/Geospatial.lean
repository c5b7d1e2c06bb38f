import EntityQuery.Proofs.Index.Pooling
import EntityQuery.Proofs.Pairing

/-!
# Geospatial indexes — where geospatial properties count for ordinary queries

A query that asks for no region has no need of geospatial properties. In the ending of an index they
are refused, for a sort as for a presence test or a group. In front of the ending only the names of
properties are looked at, so that a geospatial property there passes for an equality. Whether
declared indexes with geospatial properties can be left out thus depends on the query: they can,
whatever else is declared, exactly if it needs no index or has no equalities.

* **`NormalForm.Usable.plain`** — where geospatial properties stand in an index of use.
* **`NormalForm.minimalIndex_filter_isPlain`** — when indexes with geospatial properties are of no
  account.
-/

namespace EntityQuery

/-- No property of an index is geospatial. -/
def Index.isPlain (index : Index) : Bool := index.properties.all (!·.isGeospatial)

theorem Index.isPlain_eq_false_iff {index : Index} :
    index.isPlain = false ↔ ∃ p ∈ index.properties, p.isGeospatial = true := by
  simp [isPlain]

namespace NormalForm

variable {n : NormalForm} {index : Index} {leading ending : List IndexProperty}
  {declared : List Index} {weight : Nat}

/-- Nothing in the ending of an index of use is geospatial. -/
theorem Usable.plain (h : n.Usable index leading ending) :
    ∀ p ∈ ending, p.isGeospatial = false := by
  obtain ⟨keeping, others, rfl, hending⟩ := h.ending
  intro p hp
  rcases List.mem_append.mp hp with hp | hp
  · obtain ⟨s, -, hkept⟩ := exists_left_of_forall₂ hending.sorts hp
    exact hkept.2.2
  · exact hending.plain p hp

/-- An index of use is plain if no equality of the query is named in front of its ending. -/
theorem Usable.isPlain (h : n.Usable index leading ending) (hnone : n.equalities = []) :
    index.isPlain = true := by
  have hleading : leading = [] := by
    rw [List.eq_nil_iff_forall_not_mem]
    intro p hp
    have hname := h.leading p hp
    rw [hnone] at hname
    cases hname
  rw [Index.isPlain, h.cut, hleading, List.nil_append, List.all_eq_true]
  intro p hp
  rw [h.plain p hp]
  rfl

/-- Indexes that do not serve can be left out. -/
theorem remainders_filter {keep : Index → Bool} {rs : Remainders}
    (h : ∀ index ∈ declared, keep index = false → n.serve? index = none) :
    n.remainders rs (declared.filter keep) = n.remainders rs declared := by
  induction declared generalizing rs with
  | nil => rfl
  | cons index rest ih =>
      have hrest : ∀ rs, n.remainders rs (rest.filter keep) = n.remainders rs rest :=
        fun rs => ih fun i hi => h i (List.mem_cons_of_mem index hi)
      cases hkeep : keep index with
      | false =>
          rw [List.filter_cons_of_neg (by rw [hkeep]; exact Bool.false_ne_true), hrest, remainders,
            h index List.mem_cons_self hkeep]
      | true =>
          rw [List.filter_cons_of_pos hkeep, remainders, remainders]
          simp only [hrest]

/-- Leaving out indexes that do not serve does not change what has to be added. -/
theorem minimalIndex_filter {keep : Index → Bool}
    (h : ∀ index ∈ declared, keep index = false → n.serve? index = none) :
    n.minimalIndex weight (declared.filter keep) = n.minimalIndex weight declared := by
  rw [minimalIndex, minimalIndex, remainders_filter h]

/-- The full index of a query, but with its equality properties geospatial. -/
def geospatialIndex (n : NormalForm) : Index where
  kind := n.kind
  ancestor := n.hasAncestor
  properties := n.equalities.map (fun name => ⟨name, none, some .geospatial⟩)
    ++ (n.orderedPostfix.preferred ++ n.unorderedPostfix.preferred)

/-- An index is of use though its equality properties are geospatial. -/
theorem usable_geospatialIndex : n.Usable n.geospatialIndex
    (n.equalities.map fun name => ⟨name, none, some .geospatial⟩)
    (n.orderedPostfix.preferred ++ n.unorderedPostfix.preferred) where
  kind := rfl
  ancestor := id
  cut := rfl
  ending := matchPostfix_eq_some_zero_iff.mp matchPostfix_preferred
  leading := by
    intro p hp
    obtain ⟨name, hname, rfl⟩ := List.mem_map.mp hp
    exact hname

/-- Such an index is enough for the query by itself. -/
theorem minimalIndex_geospatialIndex (hgeo : n.isGeospatial = false) :
    n.minimalIndex weight [n.geospatialIndex] = none := by
  rw [minimalIndex_eq_none_iff]
  refine .inr ⟨hgeo, _, covered_iff_pool.mpr {
    inhabited := ⟨_, List.mem_cons_self, _, usable_geospatialIndex⟩
    equalities := fun name hname => ⟨_, List.mem_cons_self, _, usable_geospatialIndex, ?_⟩
    ancestor := fun hanc => ⟨_, List.mem_cons_self, _, usable_geospatialIndex, hanc⟩ }⟩
  rw [List.map_map, List.mem_map]
  exact ⟨name, hname, rfl⟩

/-- **Geospatial indexes.** Of a query that asks for no region, geospatial properties serve neither
    the sorts nor the presence tests and groups: in an index of use they bear equalities. So indexes
    with geospatial properties can be left out if none of them is of use. Whatever is declared they
    can be exactly if the query needs no index or has no equalities. -/
theorem minimalIndex_filter_isPlain (weight : Nat) (hgeo : n.isGeospatial = false) :
    (∀ index leading ending, n.Usable index leading ending →
      ∀ p ∈ index.properties, p.isGeospatial = true →
        p ∈ leading ∧ p ∉ ending ∧ p.name ∈ n.equalities)
    ∧ (∀ declared,
      (∀ index ∈ declared, index.isPlain = false →
        ∀ leading ending, ¬ n.Usable index leading ending) →
      n.minimalIndex weight (declared.filter Index.isPlain) = n.minimalIndex weight declared)
    ∧ ((∀ declared,
        n.minimalIndex weight (declared.filter Index.isPlain) = n.minimalIndex weight declared)
      ↔ n.neededIndex = none ∨ n.equalities = []) := by
  have hunused : ∀ declared,
      (∀ index ∈ declared, index.isPlain = false →
        ∀ leading ending, ¬ n.Usable index leading ending) →
      n.minimalIndex weight (declared.filter Index.isPlain) = n.minimalIndex weight declared := by
    intro declared h
    refine minimalIndex_filter fun index hindex hplain => ?_
    rw [Option.eq_none_iff_forall_ne_some]
    rintro ⟨leading, ending⟩ hserve
    exact h index hindex hplain leading ending (serve?_eq_some_iff_usable.mp hserve)
  refine ⟨fun index leading ending h p hp hgeospatial => ?_, hunused, ?_, ?_⟩
  · have hending : p ∉ ending := by
      intro hmem
      rw [h.plain p hmem] at hgeospatial
      cases hgeospatial
    have hleading : p ∈ leading := (List.mem_append.mp (h.cut ▸ hp)).resolve_right hending
    exact ⟨hleading, hending, h.leading p hleading⟩
  · -- one geospatial index is enough for the query, but without it nothing is declared
    intro hsame
    by_contra hnot
    obtain ⟨hneeded, hequalities⟩ := not_or.mp hnot
    obtain ⟨name, hname⟩ := List.exists_mem_of_ne_nil _ hequalities
    have hgeospatial : n.geospatialIndex.isPlain = false :=
      Index.isPlain_eq_false_iff.mpr
        ⟨_, List.mem_append_left _ (List.mem_map_of_mem hname), rfl⟩
    have heq := hsame [n.geospatialIndex]
    rw [List.filter_cons_of_neg (by rw [hgeospatial]; exact Bool.false_ne_true), List.filter_nil,
      minimalIndex_nil hgeo, minimalIndex_geospatialIndex hgeo] at heq
    exact hneeded heq
  · rintro (hnone | hequalities) declared
    · rw [minimalIndex, minimalIndex, hnone]
    · refine hunused declared fun index _ hplain leading ending h => ?_
      rw [h.isPlain hequalities] at hplain
      cases hplain

end NormalForm

/-- The cafes at one place that are rated better than three. -/
def Query.cafes : Query where
  kind := some "Cafe"
  filter := some (.node .all [
    .leaf (.equals "place" (.point ⟨.ofInt 30, .ofInt 40, by decide, by decide⟩)),
    .leaf ⟨"rating", .relation .greater (.int 3)⟩])

/-- The index for cafes of one rating around a place. -/
def Index.cafesByRating : Index :=
  ⟨some "Cafe", false, [.ascending "rating", ⟨"place", none, some .geospatial⟩]⟩

/-- The index for cafes around a place, by rating. -/
def Index.cafesByPlace : Index :=
  ⟨some "Cafe", false, [⟨"place", none, some .geospatial⟩, .ascending "rating"]⟩

/-- With the place behind the rating, the index can be left out. -/
theorem NormalForm.minimalIndex_filter_isPlain_cafes :
    ∃ n, ofQuery .cafes defaultKeyProperty = .ok n
    ∧ n.isGeospatial = false
    ∧ (∀ leading ending, ¬ n.Usable .cafesByRating leading ending)
    ∧ n.minimalIndex 2 ([.cafesByRating].filter Index.isPlain) = n.minimalIndex 2 [.cafesByRating]
    ∧ ¬ ∀ declared,
      n.minimalIndex 2 (declared.filter Index.isPlain) = n.minimalIndex 2 declared := by
  have hcafes : ∃ n, ofQuery .cafes defaultKeyProperty = .ok n ∧ n.isGeospatial = false
      ∧ n.serve? .cafesByRating = none ∧ n.neededIndex ≠ none ∧ n.equalities ≠ [] :=
    ⟨_, rfl, rfl, rfl, by decide +kernel, by decide⟩
  obtain ⟨n, hn, hgeo, hserve, hneeded, hequalities⟩ := hcafes
  have hunused : ∀ leading ending, ¬ n.Usable .cafesByRating leading ending := by
    intro leading ending h
    rw [← serve?_eq_some_iff_usable, hserve] at h
    cases h
  obtain ⟨-, hout, hiff⟩ := minimalIndex_filter_isPlain 2 hgeo
  refine ⟨n, hn, hgeo, hunused, hout _ ?_, fun hsame => ?_⟩
  · exact List.forall_mem_singleton.mpr fun _ => hunused
  · exact (hiff.mp hsame).elim hneeded hequalities

/-- With the place in front of the rating, the index passes for one that finds cafes at a place. -/
theorem NormalForm.cafes_geospatial : ∃ n, ofQuery .cafes defaultKeyProperty = .ok n
    ∧ n.isGeospatial = false
    ∧ n.minimalIndex 2 [.cafesByPlace] = none
    ∧ n.minimalIndex 2 ([.cafesByPlace].filter Index.isPlain)
      = some ⟨some "Cafe", false, [.ascending "place", .ascending "rating"]⟩ :=
  ⟨_, rfl, rfl, by decide +kernel, by decide +kernel⟩

end EntityQuery
