import Mathlib.Data.List.Sort
import Mathlib.Data.String.Basic
import EntityQuery.Proofs.Index.Pooling

/-!
# Agreement — normal forms that need the same indexes

Two normal forms agree if they have the same sorts, the same other properties up to order, and the
same answers to the few questions that the shortcuts ask. Their tests may have other values, and one
may have more of them. Then they need the same index, whatever is declared: indexes list the
properties that have no order of their own by name, and what declared indexes leave uncovered is
gone through in step, the same indexes with the same endings leaving the same names.

* **`NormalForm.Agrees.neededIndex`** — the same full index is needed.
* **`NormalForm.Agrees.minimalIndex`** — the same index has to be added to those declared.
-/

namespace EntityQuery

/-- Names in alphabetical order are the same however they stood. -/
theorem sortedNames_congr {names others : List String} (h : names.Perm others) :
    sortedNames names = sortedNames others :=
  ((List.mergeSort_perm names _).trans (h.trans (List.mergeSort_perm others _).symm)).eq_of_pairwise'
    (List.pairwise_mergeSort' (· ≤ ·) names) (List.pairwise_mergeSort' (· ≤ ·) others)

theorem eraseDups_perm_of_perm {names others : List String} (h : names.Perm others) :
    names.eraseDups.Perm others.eraseDups := by
  rw [List.perm_ext_iff_of_nodup (nodup_eraseDups names) (nodup_eraseDups others)]
  intro name
  rw [List.mem_eraseDups, List.mem_eraseDups, h.mem_iff]

namespace IndexComponent

variable {names others : List String}

theorem size_unordered_congr (h : names.Perm others) :
    (unordered names).size = (unordered others).size :=
  (eraseDups_perm_of_perm h).length_eq

theorem accepts_unordered_congr (h : names.Perm others) (ps : List IndexProperty) :
    (unordered names).accepts ps = (unordered others).accepts ps := by
  have hcontains : ∀ name, names.contains name = others.contains name := by
    intro name
    rw [Bool.eq_iff_iff, List.contains_iff_mem, List.contains_iff_mem, h.mem_iff]
  rw [accepts, accepts, size_unordered_congr h, h.all_eq]
  simp only [hcontains]

theorem preferred_unordered_congr (h : names.Perm others) :
    (unordered names).preferred = (unordered others).preferred :=
  congrArg (List.map IndexProperty.ascending) (sortedNames_congr (eraseDups_perm_of_perm h))

end IndexComponent

/-! ## Remainders in step -/

namespace Remainder

/-- Two remainders with the same equalities, in whatever order. -/
structure Same (r s : Remainder) : Prop where
  equalities : r.equalities.Perm s.equalities
  ancestor   : r.ancestor = s.ancestor

variable {r s : Remainder}

theorem Same.without (h : r.Same s) (leading : List IndexProperty) (ancestor : Bool) :
    (r.without leading ancestor).Same (s.without leading ancestor) where
  equalities := h.equalities.filter _
  ancestor := by rw [Remainder.without, Remainder.without, h.ancestor]

theorem Same.isNothing_eq (h : r.Same s) : r.isNothing = s.isNothing := by
  rw [isNothing, isNothing, h.equalities.isEmpty_eq, h.ancestor]

theorem Same.cost_eq (h : r.Same s) (weight : Nat) : r.cost weight = s.cost weight := by
  rw [cost, cost, h.equalities.length_eq, h.ancestor]

/-- An index leaves a remainder as it is if it names none of its equalities and does not have the
    ancestor that remains. -/
theorem without_eq_self_iff {leading : List IndexProperty} {ancestor : Bool} :
    r.without leading ancestor = r ↔
      (∀ name ∈ r.equalities, (!leading.any (·.name == name)) = true)
        ∧ (r.ancestor && !ancestor) = r.ancestor := by
  obtain ⟨equalities, remaining⟩ := r
  rw [Remainder.without, Remainder.mk.injEq, List.filter_eq_self]

theorem Same.without_eq_self_iff (h : r.Same s) {leading : List IndexProperty} {ancestor : Bool} :
    r.without leading ancestor = r ↔ s.without leading ancestor = s := by
  rw [Remainder.without_eq_self_iff, Remainder.without_eq_self_iff, h.ancestor]
  simp only [h.equalities.mem_iff]

end Remainder

namespace Remainders

/-- One ending, and the same remainder for it. -/
def SameEntry (e f : List IndexProperty × Remainder) : Prop := e.1 = f.1 ∧ e.2.Same f.2

variable {rs ss : Remainders} {ending : List IndexProperty} {r s whole whole' : Remainder}

theorem lookup_congr (h : List.Forall₂ SameEntry rs ss) (hwhole : whole.Same whole')
    (ending : List IndexProperty) :
    ((rs.lookup ending).getD whole).Same ((ss.lookup ending).getD whole') := by
  induction h with
  | nil => exact hwhole
  | @cons e f rs ss hef _ ih =>
      obtain ⟨key, r⟩ := e
      obtain ⟨key', s⟩ := f
      obtain ⟨rfl, hsame⟩ : key = key' ∧ r.Same s := hef
      rw [List.lookup_cons, List.lookup_cons]
      cases ending == key with
      | true => exact hsame
      | false => exact ih

theorem put_congr (h : List.Forall₂ SameEntry rs ss) (hr : r.Same s) :
    List.Forall₂ SameEntry (rs.put ending r) (ss.put ending s) := by
  induction h with
  | nil => exact .cons ⟨rfl, hr⟩ .nil
  | @cons e f rs ss hef hrest ih =>
      rw [put, put, hef.1]
      split
      · exact .cons ⟨rfl, hr⟩ hrest
      · exact .cons hef ih

theorem best?_congr (h : List.Forall₂ SameEntry rs ss) (weight : Nat) :
    Option.Rel SameEntry (rs.best? weight) (ss.best? weight) := by
  induction h with
  | nil => exact .none
  | @cons e f rs ss hef _ ih =>
      rw [best?, best?]
      generalize best? weight rs = best, best? weight ss = best' at ih
      cases ih with
      | none => exact .some hef
      | @some b c hbc =>
          simp only [hbc.2.cost_eq weight, hef.2.cost_eq weight]
          split
          · exact .some hbc
          · exact .some hef

end Remainders

/-! ## Normal forms -/

namespace NormalForm

/-- What indexes list is the same in two normal forms, and so is what the shortcuts ask. -/
structure Agrees (m n : NormalForm) : Prop where
  kind           : m.kind = n.kind
  hasAncestor    : m.hasAncestor = n.hasAncestor
  sorts          : m.sorts = n.sorts
  equalities     : m.equalities.Perm n.equalities
  unordered      : m.unordered.Perm n.unordered
  regions        : m.regions.Perm n.regions
  hasKeyProperty : m.hasKeyProperty = n.hasKeyProperty
  untested       : m.filters.isEmpty = n.filters.isEmpty
  join           : m.isJoin = n.isJoin

namespace Agrees

variable {m n : NormalForm}

theorem isGeospatial (h : m.Agrees n) : m.isGeospatial = n.isGeospatial := by
  rw [NormalForm.isGeospatial, NormalForm.isGeospatial, h.regions.isEmpty_eq]

theorem sortProperties (h : m.Agrees n) : m.sortProperties = n.sortProperties := by
  rw [NormalForm.sortProperties, NormalForm.sortProperties, h.sorts]

theorem neededProperties (h : m.Agrees n) : m.neededProperties = n.neededProperties := by
  simp only [NormalForm.neededProperties, h.isGeospatial, sortedNames_congr h.equalities,
    sortedNames_congr h.regions, IndexComponent.preferred_unordered_congr h.equalities,
    orderedPostfix, unorderedPostfix, h.sortProperties,
    IndexComponent.preferred_unordered_congr h.unordered]

theorem isBuiltIn (h : m.Agrees n) : m.isBuiltIn = n.isBuiltIn := by
  simp only [NormalForm.isBuiltIn, hasKind, h.kind, h.hasAncestor, h.neededProperties,
    h.isGeospatial, h.hasKeyProperty]

/-- **Full indexes.** Normal forms that agree need the same index by themselves. -/
theorem neededIndex (h : m.Agrees n) : m.neededIndex = n.neededIndex := by
  simp only [NormalForm.neededIndex, h.untested, h.sorts, h.join, h.isBuiltIn, h.kind,
    h.hasAncestor, h.neededProperties]

/-- The same indexes serve, cut in two in the same place. -/
theorem serve? (h : m.Agrees n) (index : Index) : m.serve? index = n.serve? index := by
  have hmiddle : matchEnd m.unorderedPostfix = matchEnd n.unorderedPostfix := by
    funext ps
    rw [matchEnd, matchEnd, unorderedPostfix, unorderedPostfix,
      IndexComponent.size_unordered_congr h.unordered,
      IndexComponent.accepts_unordered_congr h.unordered]
  have hpostfix : m.matchPostfix index.properties = n.matchPostfix index.properties := by
    rw [matchPostfix, matchPostfix, hmiddle, orderedPostfix, orderedPostfix, h.sortProperties]
  have hcontains : ∀ name, m.equalities.contains name = n.equalities.contains name := by
    intro name
    rw [Bool.eq_iff_iff, List.contains_iff_mem, List.contains_iff_mem, h.equalities.mem_iff]
  simp only [NormalForm.serve?, h.kind, h.hasAncestor, hpostfix, hcontains]

theorem wholeRemainder (h : m.Agrees n) : m.wholeRemainder.Same n.wholeRemainder :=
  ⟨h.equalities, h.hasAncestor⟩

/-- The declared indexes leave the same for the same endings. -/
theorem remainders (h : m.Agrees n) {rs ss : Remainders}
    (hrs : List.Forall₂ Remainders.SameEntry rs ss) (declared : List Index) :
    Option.Rel (List.Forall₂ Remainders.SameEntry)
      (m.remainders rs declared) (n.remainders ss declared) := by
  induction declared generalizing rs ss with
  | nil => exact .some hrs
  | cons index rest ih =>
      rw [NormalForm.remainders, NormalForm.remainders, h.serve? index]
      cases n.serve? index with
      | none => exact ih hrs
      | some cut =>
          obtain ⟨leading, ending⟩ := cut
          have hcurrent := Remainders.lookup_congr hrs h.wholeRemainder ending
          have hleft := hcurrent.without leading index.ancestor
          simp only [hleft.isNothing_eq, hcurrent.without_eq_self_iff]
          split
          · exact .none
          · split
            · exact ih hrs
            · exact ih (Remainders.put_congr hrs hleft)

theorem indexFor (h : m.Agrees n) {r s : Remainder} (hr : r.Same s)
    (ending : List IndexProperty) : m.indexFor ending r = n.indexFor ending s := by
  rw [NormalForm.indexFor, NormalForm.indexFor, h.kind, hr.ancestor,
    sortedNames_congr hr.equalities]

/-- **Least indexes.** Normal forms that agree need the same index next to those declared. -/
theorem minimalIndex (h : m.Agrees n) (weight : Nat) (declared : List Index) :
    m.minimalIndex weight declared = n.minimalIndex weight declared := by
  rw [NormalForm.minimalIndex, NormalForm.minimalIndex, h.neededIndex, h.isGeospatial]
  cases n.neededIndex with
  | none => rfl
  | some needed =>
      dsimp only
      split
      · rfl
      · have hremainders := h.remainders .nil declared
        generalize m.remainders [] declared = left, n.remainders [] declared = left' at hremainders
        cases hremainders with
        | none => rfl
        | @some rs ss hrs =>
            have hbest := Remainders.best?_congr hrs weight
            dsimp only
            generalize rs.best? weight = best, ss.best? weight = best' at hbest
            cases hbest with
            | none => rfl
            | @some e f hef =>
                obtain ⟨ending, r⟩ := e
                obtain ⟨ending', s⟩ := f
                obtain ⟨rfl, hsame⟩ : ending = ending' ∧ r.Same s := hef
                exact congrArg some (h.indexFor hsame ending)

end Agrees

end NormalForm

end EntityQuery
