import EntityQuery.Proofs.Index.Names

/-!
# Shortcuts — when no index is asked for

Three kinds of query need no composite index: those that ask for nothing, those that ask for
equalities alone, and those that a built-in index of one property serves. A query that sorts, groups
or tests for presence has a postfix to be covered, and if there are two properties in all, no
built-in index covers it. The third shortcut looks at all properties that an index would list. The
first two look at tests and sorts alone, and grouping shows in neither: what a query groups by is
overlooked when its tests are equalities and it does not sort. Nothing else is.

* **`NormalForm.Overlooks`** — what it takes for a shortcut to miss a property.
* **`NormalForm.neededIndex_heeds_iff`** — the shortcuts heed the postfix unless they overlook
  properties, which are all grouped by.
-/

namespace EntityQuery

namespace NormalForm

variable {q : Query} {n : NormalForm} {keyProperty name : String}

/-- The properties of the postfix: the sorts, and what else has to be there. -/
def postfixProperties (n : NormalForm) : List String :=
  n.sorts.map SortOrder.property ++ n.unordered

/-- The properties of prefix and postfix together, each once. -/
def demanded (n : NormalForm) : List String := (n.equalities ++ n.postfixProperties).eraseDups

/-- Two properties or more have to be covered, one of them in the postfix; but nothing is sorted by
    and all tests are equalities, if there are any, of a query for a kind that leaves the key
    alone. -/
structure Overlooks (n : NormalForm) : Prop where
  unsorted : n.sorts = []
  equal    : ∀ p ∈ n.filters, isEquality p = true
  joined   : n.filters ≠ [] → n.hasKind = true ∧ n.hasKeyProperty = false
  bound    : n.unordered ≠ []
  several  : 1 < n.demanded.length

/-- The tests of a normal form give its equalities and their number, and what is unordered comes
    from presence tests and groups. -/
theorem ofQuery_parts (h : ofQuery q keyProperty = .ok n) :
    n.equalities = (propertiesWith isEquality n.filters).eraseDups
      ∧ n.equalityCount = (n.filters.filter isEquality).length
      ∧ ∀ name ∈ n.unordered,
        name ∈ propertiesWith Predicate.isPresence n.filters ∨ name ∈ q.groupBy := by
  obtain ⟨simplified, stripped, sorts, -, -, -, -, rfl⟩ := ofQuery_eq_ok.mp h
  refine ⟨rfl, rfl, fun name hname => ?_⟩
  have hothers := List.mem_eraseDups.mp (List.mem_filter.mp hname).1
  rcases List.mem_append.mp hothers with hpresent | hgrouped
  · exact .inl hpresent
  · exact .inr (List.mem_eraseDups.mp (List.mem_filter.mp hgrouped).1)

theorem isPresence_eq_false {p : Predicate} (h : isEquality p = true) : p.isPresence = false := by
  obtain ⟨property, test⟩ := p
  cases test with
  | present v => cases h
  | _ => rfl

/-- What is overlooked is all grouped by. -/
theorem Overlooks.grouped (ho : n.Overlooks) (h : ofQuery q keyProperty = .ok n) :
    ∀ name ∈ n.postfixProperties, name ∈ q.groupBy := by
  intro name hname
  rw [postfixProperties, ho.unsorted, List.map_nil, List.nil_append] at hname
  refine ((ofQuery_parts h).2.2 name hname).resolve_left fun hpresent => ?_
  obtain ⟨p, hp, hpresence, -⟩ := mem_propertiesWith.mp hpresent
  rw [isPresence_eq_false (ho.equal p hp)] at hpresence
  cases hpresence

/-- An index lists as many properties as prefix and postfix have, or more. -/
theorem length_demanded_le (hd : n.Distinct) (hgeo : n.isGeospatial = false) :
    n.demanded.length ≤ n.neededProperties.length := by
  have hlength : ∀ names : List String, names.Nodup →
      (IndexComponent.unordered names).preferred.length = names.length := by
    intro names hnames
    rw [← (preferred_unordered_perm hnames).length_eq, List.length_map]
  have hlisted : n.neededProperties.length = (n.equalities ++ n.postfixProperties).length := by
    rw [neededProperties, hgeo, if_neg Bool.false_ne_true, orderedPostfix_preferred,
      unorderedPostfix, sortProperties, postfixProperties]
    simp only [List.length_append, List.length_map, hlength _ hd.equalities,
      hlength _ hd.unordered, Nat.add_assoc]
  have hsub : n.demanded.Subperm (n.equalities ++ n.postfixProperties) :=
    List.subperm_of_subset (nodup_eraseDups _) fun name hname => List.mem_eraseDups.mp hname
  rw [hlisted]
  exact hsub.length_le

/-- Tests that are all equalities, some of them there, are a join if nothing else is asked for. -/
theorem isJoin_eq_true_iff (h : ofQuery q keyProperty = .ok n) : n.isJoin = true ↔
    n.hasKind = true ∧ n.filters ≠ [] ∧ (∀ p ∈ n.filters, isEquality p = true)
      ∧ n.hasKeyProperty = false ∧ n.sorts = [] := by
  obtain ⟨hequalities, hcount, -⟩ := ofQuery_parts h
  have hall : n.equalityCount = n.filters.length ↔ ∀ p ∈ n.filters, isEquality p = true := by
    rw [hcount, List.length_filter_eq_length_iff]
  have hnone : n.equalities = [] ↔ ∀ p ∈ n.filters, isEquality p = false := by
    rw [hequalities, List.eq_nil_iff_forall_not_mem]
    simp only [List.mem_eraseDups, mem_propertiesWith]
    constructor
    · intro hnot p hp
      rw [← Bool.not_eq_true]
      exact fun hequal => hnot _ ⟨p, hp, hequal, rfl⟩
    · rintro hfalse name ⟨p, hp, hequal, -⟩
      rw [hfalse p hp] at hequal
      cases hequal
  simp only [isJoin, Bool.and_eq_true, Bool.not_eq_true', List.isEmpty_iff,
    List.isEmpty_eq_false_iff, beq_iff_eq, hall, ne_eq, hnone]
  constructor
  · rintro ⟨⟨⟨⟨hkind, hsome⟩, hequal⟩, hkey⟩, hsorts⟩
    refine ⟨hkind, ?_, hequal, hkey, hsorts⟩
    rintro hnil
    rw [hnil] at hsome
    exact hsome (List.forall_mem_nil _)
  · rintro ⟨hkind, hsome, hequal, hkey, hsorts⟩
    refine ⟨⟨⟨⟨hkind, ?_⟩, hequal⟩, hkey⟩, hsorts⟩
    obtain ⟨p, hp⟩ := List.exists_mem_of_ne_nil _ hsome
    intro hfalse
    have hequal := hequal p hp
    rw [hfalse p hp] at hequal
    cases hequal

/-- A query of which properties are overlooked gets no index. -/
theorem Overlooks.neededIndex (ho : n.Overlooks) (h : ofQuery q keyProperty = .ok n) :
    n.neededIndex = none := by
  by_cases hfilters : n.filters = []
  · simp [NormalForm.neededIndex, hfilters, ho.unsorted]
  · obtain ⟨hkind, hkey⟩ := ho.joined hfilters
    have hjoin := (isJoin_eq_true_iff h).mpr ⟨hkind, hfilters, ho.equal, hkey, ho.unsorted⟩
    simp [NormalForm.neededIndex, hjoin]

/-- **Shortcuts.** That no index is asked for means that there is no postfix to cover, or one
    property in all, exactly unless properties are overlooked, and those are grouped by. So neither
    a sort nor a presence test is ever overlooked, nor anything of a query that does not group. -/
theorem neededIndex_heeds_iff (h : ofQuery q keyProperty = .ok n) :
    ((n.neededIndex = none → n.postfixProperties = [] ∨ n.demanded.length ≤ 1) ↔ ¬ n.Overlooks)
      ∧ (n.Overlooks → ∀ name ∈ n.postfixProperties, name ∈ q.groupBy) := by
  refine ⟨⟨fun hheeds ho => ?_, fun hnot hnone => ?_⟩, fun ho => ho.grouped h⟩
  · rcases hheeds (ho.neededIndex h) with hnil | hfew
    · exact ho.bound (List.append_eq_nil_iff.mp hnil).2
    · exact absurd ho.several (Nat.not_lt.mpr hfew)
  · by_contra hheeds
    rw [not_or, Nat.not_le] at hheeds
    obtain ⟨hbehind, hseveral⟩ := hheeds
    have hbound : n.sorts = [] → n.unordered ≠ [] := by
      intro hsorts hunordered
      exact hbehind (by rw [postfixProperties, hsorts, hunordered]; rfl)
    rw [neededIndex] at hnone
    split at hnone
    · -- nothing is tested or sorted by
      rename_i hnothing
      rw [Bool.and_eq_true, List.isEmpty_iff, List.isEmpty_iff] at hnothing
      obtain ⟨hfilters, hsorts⟩ := hnothing
      refine hnot ⟨hsorts, ?_, fun hsome => absurd hfilters hsome, hbound hsorts, hseveral⟩
      rw [hfilters]
      exact List.forall_mem_nil _
    split at hnone
    · rename_i hshort
      rcases Bool.or_eq_true_iff.mp hshort with hjoin | hbuilt
      · obtain ⟨hkind, -, hequal, hkey, hsorts⟩ := (isJoin_eq_true_iff h).mp hjoin
        exact hnot ⟨hsorts, hequal, fun _ => ⟨hkind, hkey⟩, hbound hsorts, hseveral⟩
      · -- a built-in index has one property, and an index lists all of them
        simp only [isBuiltIn, Bool.and_eq_true, decide_eq_true_eq, Bool.not_eq_true'] at hbuilt
        obtain ⟨⟨⟨-, hfew⟩, hgeo⟩, -⟩ := hbuilt
        have hle := length_demanded_le (distinct_of_ofQuery h) hgeo
        omega
    · cases hnone

end NormalForm

/-- The rooms of one floor that have a window, in groups of one use. -/
def Query.rooms : Query where
  kind := some "Room"
  filter := some (.node .all [.leaf (.equals "floor" (.int 2)), .leaf ⟨"window", .present .null⟩])
  groupBy := ["use"]

/-- What an index must cover of the rooms. -/
def NormalForm.rooms : NormalForm where
  kind := some "Room"
  hasAncestor := false
  filters := [.equals "floor" (.int 2), ⟨"window", .present .null⟩]
  sorts := []
  equalities := ["floor"]
  unordered := ["window", "use"]
  regions := []
  hasKeyProperty := false
  equalityCount := 1

/-- The presence test keeps the shortcuts off, so the groups are heeded too. -/
theorem NormalForm.neededIndex_heeds_rooms : ofQuery .rooms defaultKeyProperty = .ok .rooms
    ∧ rooms.postfixProperties = ["window", "use"] ∧ rooms.demanded.length = 3
    ∧ rooms.neededIndex ≠ none := by
  have hnormal : ofQuery .rooms defaultKeyProperty = .ok .rooms := by
    rfl
  obtain ⟨hheeds, -⟩ := neededIndex_heeds_iff hnormal
  refine ⟨hnormal, rfl, rfl, fun hnone => ?_⟩
  rcases hheeds.mpr (fun ho => absurd ho.equal (by decide)) hnone with hnil | hfew
  · exact absurd hnil (by decide)
  · exact absurd hfew (by decide)

/-- The rooms of one floor in groups of one use, with or without a window. -/
def Query.roomsByUse : Query where
  kind := some "Room"
  filter := some (.leaf (.equals "floor" (.int 2)))
  groupBy := ["use"]

/-- Without the presence test no index is asked for, though floor and use have to be covered. -/
theorem NormalForm.roomsByUse_overlooked : ∃ n, ofQuery .roomsByUse defaultKeyProperty = .ok n
    ∧ n.neededIndex = none ∧ n.postfixProperties = ["use"] ∧ n.demanded = ["floor", "use"] :=
  ⟨_, rfl, rfl, rfl, by decide⟩

end EntityQuery
