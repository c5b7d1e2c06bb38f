import Mathlib.Data.List.Sort
import Mathlib.Data.String.Basic
import EntityQuery.Proofs.Index.Existence
import EntityQuery.Proofs.Index.Pooling

/-!
# Names — which properties an index lists twice

The names of an index that is asked for come from the equalities, from the sorts and from the tests
and groups that need no order, or from regions. Each of these lists repeats no name, and the last of
a postfix leaves out what the sorts have. Equalities are not compared with the rest: a sort on a
property that bears an equality and an inequality is kept, and so is a presence test or a region
beside an equality. So an index lists a property twice exactly if an equality is on a property of
the postfix, and then every index does that is asked for, whatever has been declared.

* **`NormalForm.distinct_of_ofQuery`** — what repeats no name.
* **`NormalForm.nodup_names_iff`** — an index repeats no name exactly if the equalities stand apart.
-/

namespace EntityQuery

/-- The names that an index lists. -/
def Index.names (index : Index) : List String := index.properties.map IndexProperty.name

namespace NormalForm

variable {q : Query} {n : NormalForm} {keyProperty name : String} {ps : List Predicate}
  {sorts : List SortOrder} {index : Index} {declared : List Index} {ending : List IndexProperty}

/-! ## Names of a normal form -/

/-- What an index lists after the equalities: the regions if there are any, else the sorts and what
    else has to be there. -/
def postfixNames (n : NormalForm) : List String :=
  if n.isGeospatial then n.regions else n.sorts.map SortOrder.property ++ n.unordered

/-- No equality is on a property of the postfix. -/
def Apart (n : NormalForm) : Prop := n.equalities.Disjoint n.postfixNames

/-- The lists of a normal form repeat no name, nor does its postfix. -/
structure Distinct (n : NormalForm) : Prop where
  equalities : n.equalities.Nodup
  postfixes  : n.postfixNames.Nodup
  unordered  : n.unordered.Nodup

/-- Sorts that matter are on different properties, which are not fixed. -/
theorem effectiveSorts_spec {fixed : String → Bool} {seen : List String} :
    ((effectiveSorts keyProperty fixed seen sorts).map SortOrder.property).Nodup
      ∧ ∀ s ∈ effectiveSorts keyProperty fixed seen sorts,
        s.property ∉ seen ∧ fixed s.property = false := by
  induction sorts generalizing seen with
  | nil => exact ⟨List.nodup_nil, List.forall_mem_nil _⟩
  | cons s rest ih =>
      rw [effectiveSorts]
      split
      · exact ih
      · rename_i hkept
        rw [Bool.or_eq_true, not_or, List.contains_iff_mem, Bool.not_eq_true] at hkept
        split
        · exact ⟨List.nodup_singleton _, List.forall_mem_singleton.mpr hkept⟩
        · obtain ⟨hnodup, hrest⟩ := @ih (s.property :: seen)
          refine ⟨List.nodup_cons.mpr ⟨?_, hnodup⟩, List.forall_mem_cons.mpr ⟨hkept, ?_⟩⟩
          · intro hs
            obtain ⟨t, ht, heq⟩ := List.mem_map.mp hs
            exact (hrest t ht).1 (heq ▸ List.mem_cons_self)
          · intro t ht
            obtain ⟨hseen, hfixed⟩ := hrest t ht
            exact ⟨fun hmem => hseen (List.mem_cons_of_mem _ hmem), hfixed⟩

theorem nodup_simplifiedSorts :
    ((simplifiedSorts keyProperty ps sorts).map SortOrder.property).Nodup := by
  unfold simplifiedSorts
  dsimp only
  split
  · exact List.nodup_nil
  · exact effectiveSorts_spec.1

/-- A sort is left on a property with an equality only if there is an inequality too. -/
theorem mem_simplifiedSorts {s : SortOrder} (hs : s ∈ simplifiedSorts keyProperty ps sorts)
    (hequal : s.property ∈ propertiesWith Predicate.isEquality ps) :
    s.property ∈ propertiesWith Predicate.isInequality ps := by
  unfold simplifiedSorts at hs
  dsimp only at hs
  split at hs
  · cases hs
  · have hfixed := (effectiveSorts_spec.2 s hs).2
    rw [List.contains_iff_mem.mpr hequal, Bool.true_and, Bool.not_eq_false'] at hfixed
    exact List.contains_iff_mem.mp hfixed

/-- The sorts of a normal form are those that are left, or one on the inequality property. -/
theorem anchorSorts_eq_ok {names : List String} {anchored : List SortOrder}
    (h : anchorSorts names sorts = .ok anchored) :
    anchored = sorts ∨ ∃ name ∈ names, anchored = [⟨name, .ascending⟩] := by
  rcases anchorSorts_eq_ok_iff.mp h with ⟨-, rfl⟩ | ⟨name, rfl, ⟨-, rfl⟩ | ⟨-, rfl⟩⟩
  · exact .inl rfl
  · exact .inr ⟨name, List.mem_cons_self, rfl⟩
  · exact .inl rfl

/-- The sorts of a normal form are on different properties, and none of these is listed again. -/
theorem nodup_postfix (h : ofQuery q keyProperty = .ok n) :
    (n.sorts.map SortOrder.property ++ n.unordered).Nodup := by
  obtain ⟨simplified, stripped, sorts, -, rfl, -, hsorts, rfl⟩ := ofQuery_eq_ok.mp h
  have hleft : ((stripKey keyProperty simplified
      (simplifiedSorts keyProperty simplified q.sorts)).2.map SortOrder.property).Nodup :=
    nodup_simplifiedSorts.sublist (stripKey_isPrefix.sublist.map _)
  have hnames : (sorts.map SortOrder.property).Nodup := by
    rcases anchorSorts_eq_ok hsorts with rfl | ⟨name, -, rfl⟩
    · exact hleft
    · exact List.nodup_singleton _
  refine List.nodup_append.mpr ⟨hnames, (nodup_eraseDups _).filter _, ?_⟩
  intro name hname other hother heq
  obtain ⟨s, hs, rfl⟩ := List.mem_map.mp hname
  have hnone := (List.mem_filter.mp hother).2
  rw [← heq, Bool.not_eq_true', List.any_eq_false] at hnone
  exact hnone s hs (beq_self_eq_true _)

/-- **Distinct names.** The parts of a normal form repeat no name. -/
theorem distinct_of_ofQuery (h : ofQuery q keyProperty = .ok n) : n.Distinct := by
  have hpostfix := nodup_postfix h
  obtain ⟨simplified, stripped, sorts, -, rfl, -, hsorts, rfl⟩ := ofQuery_eq_ok.mp h
  refine ⟨nodup_eraseDups _, ?_, (List.nodup_append.mp hpostfix).2.1⟩
  unfold postfixNames
  split
  · exact nodup_eraseDups _
  · exact hpostfix

/-! ## Names of an index -/

/-- An index lists equalities, among them all that the postfix has too, and then the postfix. -/
structure Lists (n : NormalForm) (index : Index) (before after : List String) : Prop where
  names      : index.names = before ++ after
  once       : before.Nodup
  equalities : before ⊆ n.equalities
  postfixes  : after.Perm n.postfixNames
  shared     : ∀ name ∈ n.equalities, name ∈ n.postfixNames → name ∈ before

/-- Such an index repeats no name exactly if no equality is on a property of the postfix. -/
theorem Lists.nodup_iff {before after : List String} (h : n.Lists index before after)
    (hd : n.Distinct) : index.names.Nodup ↔ n.Apart := by
  rw [h.names, List.nodup_append']
  have hafter : after.Nodup := h.postfixes.nodup_iff.mpr hd.postfixes
  constructor
  · rintro ⟨-, -, hdisjoint⟩ name hequality hpostfix
    exact hdisjoint (h.shared name hequality hpostfix) (h.postfixes.mem_iff.mpr hpostfix)
  · intro hapart
    refine ⟨h.once, hafter, fun name hbefore hname => ?_⟩
    exact hapart (h.equalities hbefore) (h.postfixes.mem_iff.mp hname)

theorem eraseDups_perm {names : List String} (h : names.Nodup) : names.eraseDups.Perm names :=
  (List.perm_ext_iff_of_nodup (nodup_eraseDups names) h).mpr fun _ => List.mem_eraseDups

theorem preferred_unordered_perm {names : List String} (h : names.Nodup) :
    ((IndexComponent.unordered names).preferred.map IndexProperty.name).Perm names := by
  rw [IndexComponent.preferred, List.map_map]
  show ((names.eraseDups.mergeSort (· ≤ ·)).map id).Perm names
  rw [List.map_id]
  exact (List.mergeSort_perm _ _).trans (eraseDups_perm h)

section Ordered

variable {names before after : List String} {rs : Remainders} {r : Remainder}

/-- The names in alphabetical order are the only ones that are in it. -/
theorem sortedNames_eq (hperm : names.Perm before) (h : before.Pairwise (· < ·)) :
    sortedNames names = before :=
  ((List.mergeSort_perm ..).trans hperm).eq_of_pairwise' (List.pairwise_mergeSort' (· ≤ ·) names)
    (h.imp le_of_lt)

theorem preferred_unordered_eq (hperm : names.Perm before) (h : before.Pairwise (· < ·)) :
    (IndexComponent.unordered names).preferred = before.map .ascending := by
  have hnodup : names.Nodup := hperm.nodup_iff.mpr (h.imp ne_of_lt)
  exact congrArg (List.map IndexProperty.ascending)
    (sortedNames_eq ((eraseDups_perm hnodup).trans hperm) h)

theorem neededProperties_eq (hgeo : n.isGeospatial = false) (hequalities : n.equalities.Perm before)
    (hbefore : before.Pairwise (· < ·)) (hunordered : n.unordered.Perm after)
    (hafter : after.Pairwise (· < ·)) :
    n.neededProperties
      = before.map .ascending ++ n.orderedPostfix.preferred ++ after.map .ascending := by
  rw [neededProperties, hgeo, if_neg Bool.false_ne_true, unorderedPostfix,
    preferred_unordered_eq hequalities hbefore, preferred_unordered_eq hunordered hafter]

/-- An index is needed if it lists several properties and the query is no join. -/
theorem neededIndex_eq {properties : List IndexProperty} (h : n.neededProperties = properties)
    (hseveral : 1 < properties.length) (hasked : n.filters ≠ []) (hjoin : n.isJoin = false) :
    n.neededIndex = some ⟨n.kind, n.hasAncestor, properties⟩ := by
  have hbuiltIn : n.isBuiltIn = false := by
    simp [isBuiltIn, h, Nat.not_le.mpr hseveral]
  simp [neededIndex, hasked, hjoin, hbuiltIn, h]

/-- The least index to add, if an ending helps. -/
theorem minimalIndex_eq {needed : Index} {cost : Nat} (hneeded : n.neededIndex = some needed)
    (hgeo : n.isGeospatial = false) (hrs : n.remainders [] declared = some rs)
    (hbest : rs.best? cost = some (ending, r)) (hperm : r.equalities.Perm before)
    (h : before.Pairwise (· < ·)) :
    n.minimalIndex cost declared
      = some ⟨n.kind, r.ancestor, before.map .ascending ++ ending⟩ := by
  rw [minimalIndex_of_remainders hneeded hgeo hrs, hbest]
  show some (n.indexFor ending r) = _
  rw [indexFor, sortedNames_eq hperm h]

end Ordered

/-- The index that is needed by itself lists all equalities. -/
theorem lists_neededIndex (hd : n.Distinct) (h : n.neededIndex = some index) :
    ∃ before after, n.Lists index before after := by
  suffices hperm : ∃ before after, index.names = before ++ after ∧ before.Perm n.equalities
      ∧ after.Perm n.postfixNames by
    obtain ⟨before, after, hnames, hbefore, hafter⟩ := hperm
    exact ⟨before, after, hnames, hbefore.nodup_iff.mpr hd.equalities, hbefore.subset, hafter,
      fun name hname _ => hbefore.mem_iff.mpr hname⟩
  rw [eq_of_neededIndex h, Index.names, neededProperties, postfixNames]
  split
  · refine ⟨_, _, List.map_append, ?_, ?_⟩
    all_goals
      rw [List.map_map]
      show ((sortedNames _).map id).Perm _
      rw [List.map_id]
      exact List.mergeSort_perm _ _
  · rw [List.append_assoc]
    refine ⟨_, _, List.map_append, preferred_unordered_perm hd.equalities, ?_⟩
    rw [List.map_append, orderedPostfix_preferred, sortProperties, List.map_map]
    exact (preferred_unordered_perm hd.unordered).append_left _

theorem names_of_keptBy {keeping : List IndexProperty}
    (h : List.Forall₂ SortOrder.KeptBy sorts keeping) :
    keeping.map IndexProperty.name = sorts.map SortOrder.property := by
  induction h with
  | nil => rfl
  | cons hkept _ ih => rw [List.map_cons, List.map_cons, ih, hkept.1]

/-- An ending lists the postfix. -/
theorem names_ending_perm (hd : n.Distinct) (hgeo : n.isGeospatial = false)
    {keeping others : List IndexProperty} (h : n.IsEnding keeping others) :
    ((keeping ++ others).map IndexProperty.name).Perm n.postfixNames := by
  rw [postfixNames, hgeo, if_neg Bool.false_ne_true, List.map_append, names_of_keptBy h.sorts]
  refine List.Perm.append_left _ ?_
  exact (List.perm_ext_iff_of_nodup h.once hd.unordered).mpr h.names

/-- An index that is made of what an ending leaves lists what is left and the ending. An equality
    of the postfix is always left, for a declared index that names it before its ending would name
    it twice. -/
theorem lists_indexFor (hd : n.Distinct) (hgeo : n.isGeospatial = false)
    (hdeclared : ∀ index ∈ declared, index.names.Nodup) (hserved : n.Served ending declared) :
    ∃ before after, n.Lists (n.indexFor ending (n.uncovered ending declared)) before after := by
  obtain ⟨served, -, leading, hserve⟩ := hserved
  obtain ⟨keeping, others, rfl, hending⟩ := (serve?_eq_some_iff_usable.mp hserve).ending
  have hperm := names_ending_perm hd hgeo hending
  have hmem : ∀ name, name ∈ sortedNames (n.uncovered (keeping ++ others) declared).equalities ↔
      name ∈ n.equalities ∧ ¬ declared.any (n.namesBefore (keeping ++ others) name) = true := by
    intro name
    rw [sortedNames, List.mem_mergeSort, uncovered, List.mem_filter, Bool.not_eq_true',
      Bool.not_eq_true]
  refine ⟨_, _, ?_, ?_, fun name hname => ((hmem name).mp hname).1, hperm, ?_⟩
  · rw [Index.names, indexFor, List.map_append, List.map_map]
    show List.map id _ ++ _ = _
    rw [List.map_id]
  · exact (List.mergeSort_perm _ _).nodup_iff.mpr (hd.equalities.filter _)
  · -- a declared index that names the equality has the property in its ending again
    intro name hequality hpostfix
    refine (hmem name).mpr ⟨hequality, fun hnamed => ?_⟩
    obtain ⟨index, hindex, hbefore⟩ := List.any_eq_true.mp hnamed
    obtain ⟨leading', husable, hleading⟩ := namesBefore_iff_usable.mp hbefore
    have hnodup := hdeclared index hindex
    rw [Index.names, husable.cut, List.map_append, List.nodup_append'] at hnodup
    exact hnodup.2.2 hleading (hperm.mem_iff.mpr hpostfix)

/-- The least index to add lists equalities and the postfix. -/
theorem lists_minimalIndex {cost : Nat} (hd : n.Distinct)
    (hdeclared : ∀ index ∈ declared, index.names.Nodup)
    (h : n.minimalIndex cost declared = some index) :
    ∃ before after, n.Lists index before after := by
  rcases minimalIndex_eq_some h with hneeded | ⟨hgeo, ending, hserved, rfl⟩
  · exact lists_neededIndex hd hneeded
  · exact lists_indexFor hd hgeo hdeclared hserved

end NormalForm

/-! ## Queries -/

/-- Whether a test asks for membership in no values, which the backend takes for an equality. -/
def Predicate.isNever (p : Predicate) : Bool :=
  match p.test with
  | .oneOf [] => true
  | _ => false

/-- No equality of a query is on a property that an index may list elsewhere: one that bears an
    inequality, a presence test or a region, or that is sorted by if the equality fixes nothing. -/
def Query.Unmixed (q : Query) : Prop :=
  ∀ p ∈ q.allPredicates, NormalForm.isEquality p = true →
    (∀ r ∈ q.allPredicates, r.property = p.property →
      r.isInequality = false ∧ r.isPresence = false ∧ NormalForm.isRegion r = false)
    ∧ (p.isNever = true → ∀ s ∈ q.sorts, s.property ≠ p.property)

instance (q : Query) : Decidable q.Unmixed := List.decidableBAll _ _

namespace NormalForm

variable {q : Query} {n : NormalForm} {keyProperty name : String} {ps simplified : List Predicate}

/-- A simplified equality that is none with one value is membership in nothing, as it was before. -/
theorem isNever_of_simplify {p p' : Predicate} (hp : p.IsNative) (h : simplify p = .ok p')
    (hequality : isEquality p' = true) (hfixed : p'.isEquality = false) : p.isNever = true := by
  obtain ⟨property, test⟩ := p'
  cases test with
  | relation r v => cases r <;> first | cases hequality; done | cases hfixed
  | present v | inside v => cases hequality
  | oneOf values =>
      obtain ⟨rfl, hne⟩ := simplify_oneOf h rfl
      obtain ⟨choices, hchoices, hfew⟩ := hp.settled
      obtain ⟨kept, hkept, rfl⟩ := (choices?_oneOf rfl).mp hchoices
      obtain ⟨-, rfl⟩ := Value.distinct_eq_ok.mp hkept
      have hnil : values.eraseDups = [] := by
        have := hfew _ rfl
        rw [← List.length_eq_zero_iff]
        omega
      cases values with
      | nil => rfl
      | cons v vs =>
          have hv : v ∈ v :: vs := List.mem_cons_self
          obtain ⟨w, hw, -⟩ := exists_mem_eraseDupsBy (r := (· == ·)) hv
          have hw' : w ∈ (v :: vs).eraseDups := hw
          rw [hnil] at hw'
          cases hw'

/-- What brings a property into the postfix: a test that is no equality, a sort on a property that
    no value fixes, or a group. -/
inductive Brings (q : Query) (simplified : List Predicate) (name : String) : Prop where
  | test (r : Predicate) (mem : r ∈ simplified) (property : r.property = name)
      (kind : r.isInequality = true ∨ r.isPresence = true ∨ isRegion r = true)
  | sort (s : SortOrder) (mem : s ∈ q.sorts) (property : s.property = name)
      (free : name ∉ propertiesWith Predicate.isEquality simplified)
  | group (mem : name ∈ q.groupBy)

/-- Where the names of a normal form come from. -/
theorem sources_of_ofQuery (h : ofQuery q keyProperty = .ok n) :
    ∃ simplified, simplifiedFilters q = .ok simplified
      ∧ (∀ name ∈ n.equalities, ∃ p ∈ simplified, isEquality p = true ∧ p.property = name)
      ∧ ∀ name ∈ n.postfixNames, Brings q simplified name := by
  obtain ⟨simplified, stripped, sorts, hsim, rfl, -, hsorts, rfl⟩ := ofQuery_eq_ok.mp h
  have hleft : ∀ (test : Predicate → Bool) (name : String), name ∈ propertiesWith test
      (stripKey keyProperty simplified (simplifiedSorts keyProperty simplified q.sorts)).1 →
      ∃ r ∈ simplified, test r = true ∧ r.property = name :=
    fun test name hname => mem_propertiesWith.mp (propertiesWith_stripKey_subset hname)
  refine ⟨simplified, hsim, fun name hname => hleft _ _ (List.mem_eraseDups.mp hname), ?_⟩
  intro name hname
  unfold postfixNames at hname
  split at hname
  · obtain ⟨r, hr, hregion, hproperty⟩ := hleft _ _ (List.mem_eraseDups.mp hname)
    exact .test r hr hproperty (.inr (.inr hregion))
  rcases List.mem_append.mp hname with hsorted | hunordered
  · obtain ⟨s, hs, hproperty⟩ := List.mem_map.mp hsorted
    rcases anchorSorts_eq_ok hsorts with rfl | ⟨anchor, hanchor, rfl⟩
    · have hs := stripKey_isPrefix.subset hs
      by_cases hfixed : name ∈ propertiesWith Predicate.isEquality simplified
      · -- a sort that is kept on a fixed property has an inequality beside it
        obtain ⟨r, hr, hinequality, hrProperty⟩ :=
          mem_propertiesWith.mp (mem_simplifiedSorts hs (hproperty ▸ hfixed))
        exact .test r hr (hrProperty.trans hproperty) (.inl hinequality)
      · exact .sort s (simplifiedSorts_subset hs) hproperty hfixed
    · obtain rfl := List.mem_singleton.mp hs
      obtain rfl : anchor = name := hproperty
      obtain ⟨r, hr, hinequality, hproperty⟩ := hleft _ _ (List.mem_eraseDups.mp hanchor)
      exact .test r hr hproperty (.inl hinequality)
  · rcases List.mem_append.mp (List.mem_eraseDups.mp (List.mem_filter.mp hunordered).1)
      with hpresent | hgrouped
    · obtain ⟨r, hr, hpresence, hproperty⟩ := hleft _ _ hpresent
      exact .test r hr hproperty (.inr (.inl hpresence))
    · exact .group (List.mem_eraseDups.mp (List.mem_filter.mp hgrouped).1)

/-- The equalities of a legal query that is not mixed stand apart. -/
theorem apart_of_unmixed (hcheck : q.check keyProperty = .ok ())
    (h : ofQuery q keyProperty = .ok n) (hunmixed : q.Unmixed) : n.Apart := by
  obtain ⟨ps, hps, hlegal⟩ := Query.legal_of_check hcheck
  rw [Query.Unmixed, Query.allPredicates_of_predicates hps] at hunmixed
  obtain ⟨simplified, hsim, hequalities, hbrings⟩ := sources_of_ofQuery h
  intro name hequality hpostfix
  obtain ⟨p', hp', hequal, rfl⟩ := hequalities name hequality
  obtain ⟨p, hp, hsimplify⟩ := exists_simplify hps hsim hp'
  have halike := simplify_alike hsimplify
  have hpEqual : isEquality p = true := halike.equality.symm.trans hequal
  obtain ⟨hothers, hnever⟩ := hunmixed p hp hpEqual
  cases hbrings _ hpostfix with
  | test r' hr' hproperty hkind =>
      obtain ⟨r, hr, hsimplify'⟩ := exists_simplify hps hsim hr'
      have halike' := simplify_alike hsimplify'
      have hsame : r.property = p.property := by
        rw [← halike'.property, hproperty, halike.property]
      obtain ⟨hinequality, hpresence, hregion⟩ := hothers r hr hsame
      rw [halike'.inequality, halike'.presence, halike'.region, hinequality, hpresence,
        hregion] at hkind
      simp at hkind
  | sort s hs hproperty hfree =>
      -- the equality fixes no value, so it is membership in nothing
      have hfixed : p'.isEquality = false := by
        rw [← Bool.not_eq_true]
        exact fun hfix => hfree (mem_propertiesWith.mpr ⟨p', hp', hfix, rfl⟩)
      have hempty := isNever_of_simplify (hlegal.admits p hp).native hsimplify hequal hfixed
      exact hnever hempty s hs (hproperty.trans halike.property)
  | group hgroup =>
      rw [halike.property] at hgroup
      exact ((hlegal.admits p hp).free hpEqual).2 hgroup

/-- **Names of indexes.** For a legal query with a normal form, the index that is needed by itself
    repeats no name exactly if the equalities stand apart, and so does the least index to add to
    indexes that repeat none. They stand apart if the query is not mixed. -/
theorem nodup_names_iff (hcheck : q.check keyProperty = .ok ())
    (h : ofQuery q keyProperty = .ok n) :
    (∀ index, n.neededIndex = some index → (index.names.Nodup ↔ n.Apart))
      ∧ (∀ cost declared index, (∀ d ∈ declared, d.names.Nodup) →
        n.minimalIndex cost declared = some index → (index.names.Nodup ↔ n.Apart))
      ∧ (q.Unmixed → n.Apart) := by
  have hd := distinct_of_ofQuery h
  refine ⟨fun index hneeded => ?_, fun cost declared index hdeclared hminimal => ?_,
    apart_of_unmixed hcheck h⟩
  · obtain ⟨before, after, hlists⟩ := lists_neededIndex hd hneeded
    exact hlists.nodup_iff hd
  · obtain ⟨before, after, hlists⟩ := lists_minimalIndex hd hdeclared hminimal
    exact hlists.nodup_iff hd

end NormalForm

/-- The large parcels of one owner that are weighed, from the largest on. -/
def Query.parcels : Query where
  kind := some "Parcel"
  filter := some (.node .all [.leaf (.equals "owner" (.int 1)), .leaf (.equals "state" (.int 2)),
    .leaf (.above "size" (.int 5)), .leaf ⟨"weight", .present .null⟩])
  sorts := [⟨"size", .descending⟩]

/-- What an index must cover of the parcels. -/
def NormalForm.parcels : NormalForm where
  kind := some "Parcel"
  hasAncestor := false
  filters := [.equals "owner" (.int 1), .equals "state" (.int 2), .above "size" (.int 5),
    ⟨"weight", .present .null⟩]
  sorts := [⟨"size", .descending⟩]
  equalities := ["owner", "state"]
  unordered := ["weight"]
  regions := []
  hasKeyProperty := false
  equalityCount := 2

/-- Parcels by one property, from the largest on. -/
def Index.parcelsBy (name : String) : Index where
  kind := some "Parcel"
  properties := [.ascending name, ⟨"size", some .descending, none⟩, .ascending "weight"]

/-- Beside an index by owner the parcels need one by state, which repeats no name. -/
theorem NormalForm.nodup_names_parcels : Query.parcels.check defaultKeyProperty = .ok ()
    ∧ ofQuery .parcels defaultKeyProperty = .ok .parcels
    ∧ NormalForm.parcels.minimalIndex 2 [.parcelsBy "owner"] = some (.parcelsBy "state")
    ∧ (Index.parcelsBy "state").names.Nodup := by
  have hcheck : Query.parcels.check defaultKeyProperty = .ok () := by
    rfl
  have hnormal : ofQuery .parcels defaultKeyProperty = .ok .parcels := by
    rfl
  have hlisted : NormalForm.parcels.neededProperties = _ :=
    neededProperties_eq rfl (List.Perm.refl ["owner", "state"]) (by decide)
      (List.Perm.refl ["weight"]) (by decide)
  have hneeded := neededIndex_eq hlisted (by decide) (by decide) rfl
  have hrs : NormalForm.parcels.remainders [] [.parcelsBy "owner"]
      = some [([⟨"size", some .descending, none⟩, .ascending "weight"], ⟨["state"], false⟩)] := rfl
  have hminimal : NormalForm.parcels.minimalIndex 2 [.parcelsBy "owner"]
      = some (.parcelsBy "state") :=
    minimalIndex_eq hneeded rfl hrs rfl (List.Perm.refl ["state"]) (by decide)
  obtain ⟨-, hnames, hapart⟩ := nodup_names_iff hcheck hnormal
  exact ⟨hcheck, hnormal, hminimal, (hnames 2 _ _ (by decide) hminimal).mpr (hapart (by decide))⟩

/-- Items that have one value exactly and a greater one at the same time. -/
def Query.mixed : Query where
  kind := some "Item"
  filter := some (.node .all [.leaf (.equals "a" (.int 1)), .leaf (.above "a" (.int 0)),
    .leaf (.equals "b" (.int 2))])

/-- What an index must cover of the items. -/
def NormalForm.mixed : NormalForm where
  kind := some "Item"
  hasAncestor := false
  filters := [.equals "a" (.int 1), .above "a" (.int 0), .equals "b" (.int 2)]
  sorts := [⟨"a", .ascending⟩]
  equalities := ["a", "b"]
  unordered := []
  regions := []
  hasKeyProperty := false
  equalityCount := 2

/-- The index that they need lists the property of both tests twice. -/
theorem NormalForm.names_repeated_mixed : Query.mixed.check defaultKeyProperty = .ok ()
    ∧ ∃ n, ofQuery .mixed defaultKeyProperty = .ok n ∧ ∃ index, n.neededIndex = some index
      ∧ n.minimalIndex 2 [] = some index ∧ index.names = ["a", "b", "a"]
      ∧ ¬ index.names.Nodup := by
  have hlisted : NormalForm.mixed.neededProperties = _ :=
    neededProperties_eq rfl (List.Perm.refl ["a", "b"]) (by decide) (List.Perm.refl []) (by decide)
  have hneeded := neededIndex_eq hlisted (by decide) (by decide) rfl
  exact ⟨rfl, .mixed, rfl, _, hneeded, (minimalIndex_nil rfl).trans hneeded, rfl, by decide⟩

end EntityQuery
