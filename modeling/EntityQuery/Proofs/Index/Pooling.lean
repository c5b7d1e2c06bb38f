import Mathlib.Data.List.Forall2
import Mathlib.Data.List.Perm.Subperm
import EntityQuery.Proofs.Index.Addition
import EntityQuery.Proofs.Repetition

/-!
# Pools — when declared indexes are enough for a query

An index is of use to a query if its properties can be cut in two: an ending that keeps the sorts in
their order and then has the unordered names in any order, and before it nothing but properties that
bear equalities. `Usable` says this without the search that `serve?` makes from the end of an index.
Indexes are pooled only if their endings are the very same properties, and a pool is enough when its
indexes name all equalities between them, and one has the ancestor if the query has one.

* **`NormalForm.serve?_eq_some_iff_usable`** — the search finds a cut exactly if there is one.
* **`NormalForm.minimalIndex_eq_none_iff_pool`** — nothing has to be added exactly if the declared
  indexes with one ending are enough, in whatever order and how often they are declared.
-/

namespace EntityQuery

/-- A list has as many elements as there are different ones exactly if it repeats none. -/
theorem length_eq_eraseDups_iff {α : Type} [BEq α] [LawfulBEq α] {xs ys : List α}
    (h : ∀ a, a ∈ xs ↔ a ∈ ys) : xs.length = ys.eraseDups.length ↔ xs.Nodup := by
  have hmem : ∀ a, a ∈ ys.eraseDups ↔ a ∈ xs := by
    intro a
    rw [List.mem_eraseDups, h]
  constructor
  · intro hlen
    have hsub : ys.eraseDups.Subperm xs :=
      List.subperm_of_subset (nodup_eraseDups ys) fun a => (hmem a).mp
    exact (hsub.perm_of_length_le (Nat.le_of_eq hlen)).nodup (nodup_eraseDups ys)
  · intro hnodup
    refine List.Perm.length_eq ?_
    rw [List.perm_ext_iff_of_nodup hnodup (nodup_eraseDups ys)]
    exact fun a => (hmem a).symm

/-- A property of an index keeps a sort: it has its name and its direction. -/
def SortOrder.KeptBy (s : SortOrder) (p : IndexProperty) : Prop :=
  p.name = s.property ∧ p.direction = some s.direction ∧ p.isGeospatial = false

namespace IndexComponent

/-- An ordered component accepts as many properties as it has, each serving the one in its place. -/
theorem accepts_ordered_iff {wanted ps : List IndexProperty} :
    (ordered wanted).accepts ps = true ↔ List.Forall₂ (fun p q => serves p q = true) wanted ps := by
  rw [List.forall₂_iff_zip, accepts, Bool.and_eq_true, beq_iff_eq, List.all_eq_true]
  constructor
  · rintro ⟨hlen, hall⟩
    exact ⟨hlen.symm, fun {p q} hpq => hall (p, q) hpq⟩
  · rintro ⟨hlen, hall⟩
    exact ⟨hlen.symm, fun pair hpair => hall hpair⟩

/-- A property serves a sort if it keeps it, for a sort always says its direction. -/
theorem serves_sort_iff {s : SortOrder} {p : IndexProperty} :
    serves { name := s.property, direction := some s.direction } p = true ↔ s.KeptBy p := by
  simp only [serves, SortOrder.KeptBy, Option.isNone_some, Bool.false_or, Bool.and_eq_true,
    Bool.not_eq_true', beq_iff_eq]
  tauto

/-- An unordered component accepts properties with each of its names once, and no others. -/
theorem accepts_unordered_iff {names : List String} {ps : List IndexProperty} :
    (unordered names).accepts ps = true ↔
      (ps.map IndexProperty.name).Nodup
        ∧ (∀ name, name ∈ ps.map IndexProperty.name ↔ name ∈ names)
        ∧ ∀ p ∈ ps, p.isGeospatial = false := by
  have hunfold : (unordered names).accepts ps = true ↔
      (ps.map IndexProperty.name).length = names.eraseDups.length
        ∧ (∀ name, name ∈ ps.map IndexProperty.name ↔ name ∈ names)
        ∧ ∀ p ∈ ps, p.isGeospatial = false := by
    unfold accepts
    simp only [size, Bool.and_eq_true, beq_iff_eq, Bool.not_eq_true', List.any_eq_false,
      Bool.not_eq_true, List.all_eq_true, List.contains_eq_mem, decide_eq_true_eq, List.length_map]
    constructor
    · rintro ⟨hlen, ⟨hplain, hin⟩, hof⟩
      refine ⟨hlen, fun name => ⟨?_, hof name⟩, hplain⟩
      intro hname
      obtain ⟨p, hp, rfl⟩ := List.mem_map.mp hname
      exact hin p hp
    · rintro ⟨hlen, hiff, hplain⟩
      exact ⟨hlen, ⟨hplain, fun p hp => (hiff _).mp (List.mem_map_of_mem hp)⟩,
        fun name => (hiff name).mpr⟩
  rw [hunfold]
  exact and_congr_left fun hnames => length_eq_eraseDups_iff hnames.1

end IndexComponent

namespace NormalForm

variable {n : NormalForm} {ending : List IndexProperty} {declared : List Index}

/-- What an index must end in: properties that keep the sorts one by one, and then others with
    every unordered name once. -/
structure IsEnding (n : NormalForm) (keeping others : List IndexProperty) : Prop where
  sorts : List.Forall₂ SortOrder.KeptBy n.sorts keeping
  once  : (others.map IndexProperty.name).Nodup
  names : ∀ name, name ∈ others.map IndexProperty.name ↔ name ∈ n.unordered
  plain : ∀ p ∈ others, p.isGeospatial = false

/-- An index is of use to a query, cut into leading properties and an ending. -/
structure Usable (n : NormalForm) (index : Index) (leading ending : List IndexProperty) :
    Prop where
  kind     : index.kind = n.kind
  ancestor : index.ancestor = true → n.hasAncestor = true
  cut      : index.properties = leading ++ ending
  ending   : ∃ keeping others, ending = keeping ++ others ∧ n.IsEnding keeping others
  leading  : ∀ p ∈ leading, p.name ∈ n.equalities

/-- The declared indexes of use with one ending are enough: there is one at least, they name every
    equality between them, and one is for queries below an ancestor if the query is. -/
structure Pool (n : NormalForm) (ending : List IndexProperty) (declared : List Index) : Prop where
  inhabited  : ∃ index ∈ declared, ∃ leading, n.Usable index leading ending
  equalities : ∀ name ∈ n.equalities, ∃ index ∈ declared, ∃ leading,
    n.Usable index leading ending ∧ name ∈ leading.map IndexProperty.name
  ancestor   : n.hasAncestor = true → ∃ index ∈ declared, ∃ leading,
    n.Usable index leading ending ∧ index.ancestor = true

/-- The ordered component of a postfix accepts what keeps the sorts one by one. -/
theorem accepts_orderedPostfix_iff {ps : List IndexProperty} :
    n.orderedPostfix.accepts ps = true ↔ List.Forall₂ SortOrder.KeptBy n.sorts ps := by
  rw [orderedPostfix, IndexComponent.accepts_ordered_iff, sortProperties,
    List.forall₂_map_left_iff]
  simp only [IndexComponent.serves_sort_iff]

/-- A list matches the postfix as a whole exactly if it is what an index must end in. -/
theorem matchPostfix_eq_some_zero_iff :
    n.matchPostfix ending = some 0 ↔
      ∃ keeping others, ending = keeping ++ others ∧ n.IsEnding keeping others := by
  have hunordered : ∀ ps, n.unorderedPostfix.accepts ps = true ↔ _ :=
    fun ps => IndexComponent.accepts_unordered_iff
  rw [matchPostfix_eq_some, Nat.zero_add, List.drop_zero]
  constructor
  · rintro ⟨-, ho, hu⟩
    obtain ⟨honce, hnames, hplain⟩ := (hunordered _).mp hu
    exact ⟨_, _, (List.take_append_drop ..).symm, accepts_orderedPostfix_iff.mp ho, honce, hnames,
      hplain⟩
  · rintro ⟨keeping, others, rfl, h⟩
    have ho := accepts_orderedPostfix_iff.mpr h.sorts
    have hu := (hunordered others).mpr ⟨h.once, h.names, h.plain⟩
    have hlo := IndexComponent.length_of_accepts ho
    have hlu := IndexComponent.length_of_accepts hu
    rw [List.length_append, ← hlo, List.take_left, List.drop_left]
    exact ⟨by omega, ho, hu⟩

/-- The search from the end of an index finds a cut exactly if the index can be cut so. -/
theorem serve?_eq_some_iff_usable {index : Index} {leading : List IndexProperty} :
    n.serve? index = some (leading, ending) ↔ n.Usable index leading ending := by
  rw [serve?_eq_some, matchPostfix_eq_some_zero_iff]
  constructor
  · rintro ⟨hkind, hanc, hcut, hend, hlead⟩
    exact ⟨hkind, hanc, hcut, hend, hlead⟩
  · intro h
    exact ⟨h.kind, h.ancestor, h.cut, h.ending, h.leading⟩

theorem namesBefore_iff_usable {name : String} {index : Index} :
    n.namesBefore ending name index = true ↔
      ∃ leading, n.Usable index leading ending ∧ name ∈ leading.map IndexProperty.name := by
  constructor
  · intro h
    unfold namesBefore at h
    split at h
    · rename_i leading e hs
      rw [Bool.and_eq_true, beq_iff_eq, List.any_eq_true] at h
      obtain ⟨rfl, p, hp, hname⟩ := h
      exact ⟨leading, serve?_eq_some_iff_usable.mp hs,
        List.mem_map.mpr ⟨p, hp, eq_of_beq hname⟩⟩
    · cases h
  · rintro ⟨leading, hu, hname⟩
    exact namesBefore_of_serve (serve?_eq_some_iff_usable.mpr hu) hname

theorem bearsAncestor_iff_usable {index : Index} :
    n.bearsAncestor ending index = true ↔
      ∃ leading, n.Usable index leading ending ∧ index.ancestor = true := by
  constructor
  · intro h
    unfold bearsAncestor at h
    split at h
    · rename_i leading e hs
      rw [Bool.and_eq_true, beq_iff_eq] at h
      obtain ⟨rfl, hanc⟩ := h
      exact ⟨leading, serve?_eq_some_iff_usable.mp hs, hanc⟩
    · cases h
  · rintro ⟨leading, hu, hanc⟩
    exact bearsAncestor_of_serve (serve?_eq_some_iff_usable.mpr hu) hanc

/-- Nothing is left uncovered for an ending exactly if the indexes with it are enough. -/
theorem covered_iff_pool : n.Covered ending declared ↔ n.Pool ending declared := by
  unfold Covered Served
  simp only [isNothing_iff, uncovered_equalities_eq_nil_iff, uncovered_ancestor_eq_false_iff,
    serve?_eq_some_iff_usable, namesBefore_iff_usable, bearsAncestor_iff_usable]
  constructor
  · rintro ⟨hinh, heq, hanc⟩
    exact ⟨hinh, heq, hanc⟩
  · intro h
    exact ⟨h.inhabited, h.equalities, h.ancestor⟩

/-- **Pools decide.** Of a query that needs an index, and asks for no region, nothing is missing
    exactly if the declared indexes with some ending are enough for it. So neither the order nor the
    repetition of the declared indexes matters, and declaring more never makes anything missing. -/
theorem minimalIndex_eq_none_iff_pool (cost : Nat) (declared : List Index)
    (hgeo : n.isGeospatial = false) (hneeded : n.neededIndex ≠ none) :
    (n.minimalIndex cost declared = none ↔ ∃ ending, n.Pool ending declared)
      ∧ (∀ more, (∀ index, index ∈ more ↔ index ∈ declared) →
          (n.minimalIndex cost more = none ↔ n.minimalIndex cost declared = none))
      ∧ ∀ more, declared ⊆ more → n.minimalIndex cost declared = none →
          n.minimalIndex cost more = none := by
  have hiff : ∀ declared, n.minimalIndex cost declared = none ↔ ∃ e, n.Covered e declared := by
    intro declared
    rw [minimalIndex_eq_none_iff]
    simp only [hneeded, hgeo, false_or, true_and]
  have hmono : ∀ {declared more : List Index}, declared ⊆ more →
      n.minimalIndex cost declared = none → n.minimalIndex cost more = none := by
    intro declared more hsub h
    obtain ⟨e, he⟩ := (hiff declared).mp h
    exact (hiff more).mpr ⟨e, he.mono hsub⟩
  refine ⟨?_, ?_, fun more => hmono⟩
  · rw [hiff]
    simp only [covered_iff_pool]
  · intro more hsame
    exact ⟨hmono fun index => (hsame index).mp, hmono fun index => (hsame index).mpr⟩

end NormalForm

/-! ## Two indexes that are enough together -/

/-- The chapters in a library of one book and author that have a title, from the last page on. -/
def Query.chapters : Query where
  kind := some "Chapter"
  filter := some (.node .all [.leaf (.equals "book" (.int 1)), .leaf (.equals "author" (.int 2)),
    .leaf ⟨"title", .present (.bool true)⟩])
  sorts := [⟨"page", .descending⟩]
  ancestor := some (.root "" "Library" (.number 1))

/-- What an index must cover of the chapters. -/
def NormalForm.chapters : NormalForm where
  kind := some "Chapter"
  hasAncestor := true
  filters := [.equals "book" (.int 1), .equals "author" (.int 2), ⟨"title", .present (.bool true)⟩]
  sorts := [⟨"page", .descending⟩]
  equalities := ["book", "author"]
  unordered := ["title"]
  regions := []
  hasKeyProperty := false
  equalityCount := 2

/-- Chapters by one property, from the last page on, and by title. -/
def Index.chaptersBy (name : String) (ancestor : Bool) : Index where
  kind := some "Chapter"
  ancestor := ancestor
  properties := [.ascending name, ⟨"page", some .descending, none⟩, .ascending "title"]

/-- An index by book and one by author in a library are enough for the chapters, in either order
    and whatever else is declared. The one by book alone is not. -/
theorem NormalForm.minimalIndex_chapters :
    NormalForm.ofQuery .chapters defaultKeyProperty = .ok .chapters
      ∧ chapters.isGeospatial = false ∧ chapters.neededIndex ≠ none
      ∧ chapters.minimalIndex 2 [.chaptersBy "book" false, .chaptersBy "author" true] = none
      ∧ chapters.minimalIndex 2 [.chaptersBy "author" true, .chaptersBy "book" false] = none
      ∧ (∀ more, [.chaptersBy "book" false, .chaptersBy "author" true] ⊆ more →
          chapters.minimalIndex 2 more = none)
      ∧ chapters.minimalIndex 2 [.chaptersBy "book" false] ≠ none := by
  have husable : ∀ name ∈ chapters.equalities, ∀ ancestor,
      chapters.Usable (.chaptersBy name ancestor) [.ascending name]
        [⟨"page", some .descending, none⟩, .ascending "title"] := by
    intro name hname ancestor
    refine ⟨rfl, fun _ => rfl, rfl, ⟨[_], [_], rfl, ?_⟩, ?_⟩
    · exact ⟨.cons ⟨rfl, rfl, rfl⟩ .nil, by decide, fun _ => .rfl, by decide⟩
    · intro p hp
      rw [List.mem_singleton.mp hp]
      exact hname
  have hneeded : chapters.neededIndex ≠ none := by
    decide
  have hbook := husable "book" (by decide) false
  have hauthor := husable "author" (by decide) true
  obtain ⟨hiff, hsame, hmore⟩ := minimalIndex_eq_none_iff_pool 2
    [.chaptersBy "book" false, .chaptersBy "author" true] (n := chapters) rfl hneeded
  have hnone := hiff.mpr ⟨_, {
    inhabited := ⟨_, List.mem_cons_self, _, hbook⟩
    equalities := by
      intro name hname
      rcases List.mem_cons.mp hname with rfl | hname
      · exact ⟨_, List.mem_cons_self, _, hbook, List.mem_cons_self⟩
      · rw [List.mem_singleton.mp hname]
        exact ⟨_, List.mem_cons_of_mem _ List.mem_cons_self, _, hauthor, List.mem_cons_self⟩
    ancestor := fun _ => ⟨_, List.mem_cons_of_mem _ List.mem_cons_self, _, hauthor, rfl⟩ }⟩
  refine ⟨rfl, rfl, hneeded, hnone, (hsame _ ?_).mpr hnone, fun more hsub => hmore more hsub hnone,
    ?_⟩
  · intro index
    simp [or_comm]
  · rw [ne_eq, (minimalIndex_eq_none_iff_pool 2 _ rfl hneeded).1]
    rintro ⟨ending, h⟩
    obtain ⟨index, hindex, -, -, hanc⟩ := h.ancestor rfl
    rw [List.mem_singleton.mp hindex] at hanc
    cases hanc

end EntityQuery
