import Mathlib.Data.List.Sort
import Mathlib.Data.String.Basic
import EntityQuery.Proofs.Index.Names

/-!
# The least index to add — least among all endings

The least index to add is made of what one ending leaves uncovered. The ending is found by going
through the declared indexes one by one and keeping what remains for each ending that has been of
help; the first of those that leave least is taken. None of this has to be known to say which ending
it is. Whether an ending helps, and what it leaves, can be read off the declared indexes of use with
it (`Leaves`), and an ending that does not help leaves the most there is. So what is taken leaves
least among all endings whatever, and of several that leave as much it is the one that helps first.

* **`Remainders.best?_eq_some`** — the first entry of those that leave least.
* **`NormalForm.Ranked.remainders`** — the endings that are kept are those that help, in the order
  in which they begin to help.
* **`NormalForm.minimalIndex_optimal`** — the least index to add, said of the declared indexes.
-/

namespace EntityQuery

namespace Remainders

variable {weight : Nat} {rs : Remainders} {b : List IndexProperty × Remainder}

@[simp] theorem best?_eq_none_iff : rs.best? weight = none ↔ rs = [] := by
  cases rs with
  | nil => exact iff_of_true rfl rfl
  | cons e es =>
      refine iff_of_false ?_ (List.cons_ne_nil e es)
      rw [best?]
      split
      · exact Option.some_ne_none e
      · split <;> exact Option.some_ne_none _

/-- What is taken leaves less than what is before it, and no more than what is after it. -/
theorem best?_eq_some (h : rs.best? weight = some b) :
    ∃ before after, rs = before ++ b :: after
      ∧ (∀ e ∈ before, b.2.cost weight < e.2.cost weight)
      ∧ ∀ e ∈ after, b.2.cost weight ≤ e.2.cost weight := by
  induction rs generalizing b with
  | nil => cases h
  | cons e es ih =>
      rw [best?] at h
      split at h
      · rename_i hnone
        obtain rfl := Option.some.inj h
        rw [best?_eq_none_iff.mp hnone]
        exact ⟨[], [], rfl, List.forall_mem_nil _, List.forall_mem_nil _⟩
      · rename_i c hc
        obtain ⟨before, after, rfl, hbefore, hafter⟩ := ih hc
        split at h
        · rename_i hless
          obtain rfl := Option.some.inj h
          exact ⟨e :: before, after, rfl, List.forall_mem_cons.mpr ⟨hless, hbefore⟩, hafter⟩
        · rename_i hmore
          obtain rfl := Option.some.inj h
          have hle := Nat.not_lt.mp hmore
          refine ⟨[], before ++ c :: after, rfl, List.forall_mem_nil _, ?_⟩
          exact List.forall_mem_append.mpr ⟨fun f hf => hle.trans (hbefore f hf).le,
            List.forall_mem_cons.mpr ⟨hle, fun f hf => hle.trans (hafter f hf)⟩⟩

/-- An ending that is put down keeps its place, and a new one comes last. -/
@[simp] theorem keys_put {ending : List IndexProperty} {r : Remainder} :
    (rs.put ending r).map Prod.fst
      = if ending ∈ rs.map Prod.fst then rs.map Prod.fst else rs.map Prod.fst ++ [ending] := by
  induction rs with
  | nil => rfl
  | cons e es ih =>
      rw [put]
      by_cases he : e.1 = ending
      · rw [if_pos he, List.map_cons, List.map_cons, he, if_pos List.mem_cons_self]
      · rw [if_neg he, List.map_cons, ih, List.map_cons]
        simp only [List.mem_cons, Ne.symm he, false_or]
        split <;> rfl

end Remainders

namespace NormalForm

variable {n : NormalForm} {ending e f : List IndexProperty} {declared more seen : List Index}
  {rs : Remainders} {index : Index}

/-! ## Endings that help -/

/-- Declared indexes help with an ending if they leave less than all there is to cover. -/
def Helps (n : NormalForm) (ending : List IndexProperty) (declared : List Index) : Prop :=
  n.uncovered ending declared ≠ n.wholeRemainder

/-- All is left exactly if no index of use names an equality or has the ancestor. -/
theorem not_helps_iff : ¬ n.Helps ending declared ↔
    (∀ name ∈ n.equalities, ∀ index ∈ declared, n.namesBefore ending name index = false)
      ∧ (n.hasAncestor = true → ∀ index ∈ declared, n.bearsAncestor ending index = false) := by
  rw [Helps, not_not, uncovered, wholeRemainder, Remainder.mk.injEq, List.filter_eq_self]
  simp only [Bool.not_eq_true', List.any_eq_false, Bool.not_eq_true, Bool.and_eq_left_iff_imp]

theorem Helps.mono (hsub : declared ⊆ more) (h : n.Helps ending declared) :
    n.Helps ending more := by
  by_contra hmore
  obtain ⟨hnames, hbears⟩ := not_helps_iff.mp hmore
  exact not_helps_iff.mpr ⟨fun name hname index hi => hnames name hname index (hsub hi),
    fun ha index hi => hbears ha index (hsub hi)⟩ h

/-- An ending is of help before another one: some of the first indexes help with it alone. -/
def HelpsBefore (n : NormalForm) (declared : List Index) (e f : List IndexProperty) : Prop :=
  ∃ first, first <+: declared ∧ n.Helps e first ∧ ¬ n.Helps f first

theorem HelpsBefore.append (h : n.HelpsBefore seen e f) : n.HelpsBefore (seen ++ more) e f := by
  obtain ⟨first, hfirst, he, hf⟩ := h
  exact ⟨first, hfirst.trans (List.prefix_append seen more), he, hf⟩

/-- The endings that are kept help, the earlier ones before the later ones. -/
structure Ranked (n : NormalForm) (seen : List Index) (endings : List (List IndexProperty)) :
    Prop where
  helps : ∀ e ∈ endings, n.Helps e seen
  order : endings.Pairwise (n.HelpsBefore seen)

namespace Ranked

variable {endings : List (List IndexProperty)}

theorem append (h : n.Ranked seen endings) : n.Ranked (seen ++ more) endings where
  helps e he := (h.helps e he).mono (List.subset_append_left ..)
  order := h.order.imp HelpsBefore.append

/-- An ending that has just begun to help is ranked last. -/
theorem concat (h : n.Ranked seen endings) (hnew : ¬ n.Helps ending seen)
    (hhelps : n.Helps ending (seen ++ more)) : n.Ranked (seen ++ more) (endings ++ [ending]) where
  helps := List.forall_mem_append.mpr
    ⟨h.append.helps, List.forall_mem_singleton.mpr hhelps⟩
  order := by
    refine List.pairwise_append.mpr ⟨h.append.order, List.pairwise_singleton .., ?_⟩
    intro e he f hf
    rw [List.mem_singleton.mp hf]
    exact ⟨seen, List.prefix_append seen more, h.helps e he, hnew⟩

end Ranked

/-- To go on through indexes is to take the first one into account, and then the others. -/
theorem remainders_cons_eq_some {rest : List Index} {rs' : Remainders} :
    n.remainders rs (index :: rest) = some rs' ↔
      ∃ next, n.remainders rs [index] = some next ∧ n.remainders next rest = some rs' := by
  simp only [remainders]
  split
  · simp
  · split
    · simp
    · split <;> simp

/-- One index leaves the endings as they are, or it helps with the one that is put down. -/
theorem keys_of_remainders (t : Tally n seen rs) {next : Remainders}
    (h : n.remainders rs [index] = some next) :
    next = rs ∨ ∃ ending r, next = rs.put ending r ∧ n.Helps ending (seen ++ [index]) := by
  simp only [remainders] at h
  split at h
  · exact .inl (Option.some.inj h).symm
  · rename_i leading ending hserve
    rw [t.current ending, ← uncovered_append_of_serve hserve] at h
    split at h
    · cases h
    · split at h
      · exact .inl (Option.some.inj h).symm
      · rename_i hchanged
        refine .inr ⟨ending, _, (Option.some.inj h).symm, fun hwhole => ?_⟩
        -- where all is left, all was left before, and nothing has changed
        have hbefore : ¬ n.Helps ending seen := fun hhelps =>
          hhelps.mono (List.subset_append_left seen [index]) hwhole
        exact hchanged (hwhole.trans (not_not.mp hbefore).symm)

/-- One index keeps the ranking. -/
theorem Ranked.step (t : Tally n seen rs) (hr : n.Ranked seen (rs.map Prod.fst))
    {next : Remainders} (h : n.remainders rs [index] = some next) :
    n.Ranked (seen ++ [index]) (next.map Prod.fst) := by
  rcases keys_of_remainders t h with rfl | ⟨ending, r, rfl, hhelps⟩
  · exact hr.append
  · rw [Remainders.keys_put]
    split
    · exact hr.append
    · rename_i hnew
      exact hr.concat (not_not.mpr (t.others ending hnew)) hhelps

/-- **The endings that are kept** help, and stand in the order in which they begin to. -/
theorem Ranked.remainders (t : Tally n seen rs) (hr : n.Ranked seen (rs.map Prod.fst))
    {rest : List Index} {rs' : Remainders} (h : n.remainders rs rest = some rs') :
    n.Ranked (seen ++ rest) (rs'.map Prod.fst) := by
  induction rest generalizing seen rs with
  | nil =>
      obtain rfl := Option.some.inj h
      rwa [List.append_nil]
  | cons index rest ih =>
      obtain ⟨next, hnext, h⟩ := remainders_cons_eq_some.mp h
      rw [List.append_cons]
      rcases t.remainders [index] with ⟨hnone, -⟩ | ⟨next', hnext', t'⟩
      · rw [hnone] at hnext
        cases hnext
      · obtain rfl := Option.some.inj (hnext.symm.trans hnext')
        exact ih t' (hr.step t hnext) h

/-! ## What an ending leaves -/

/-- What declared indexes leave of a query for an ending: the equalities that none of use with this
    ending names before it, and the ancestor if the query has one and none of them does. -/
structure Leaves (n : NormalForm) (ending : List IndexProperty) (declared : List Index)
    (r : Remainder) : Prop where
  once       : r.equalities.Nodup
  equalities : ∀ name, name ∈ r.equalities ↔ name ∈ n.equalities
    ∧ ¬ ∃ index ∈ declared, ∃ leading, n.Usable index leading ending
      ∧ name ∈ leading.map IndexProperty.name
  ancestor   : r.ancestor = true ↔ n.hasAncestor = true
    ∧ ¬ ∃ index ∈ declared, ∃ leading, n.Usable index leading ending ∧ index.ancestor = true

theorem leaves_uncovered (hd : n.Distinct) (ending : List IndexProperty) (declared : List Index) :
    n.Leaves ending declared (n.uncovered ending declared) where
  once := hd.equalities.filter _
  equalities name := by
    simp only [uncovered, List.mem_filter, Bool.not_eq_true', ← Bool.not_eq_true,
      List.any_eq_true, namesBefore_iff_usable]
  ancestor := by
    simp only [uncovered, Bool.and_eq_true, Bool.not_eq_true', ← Bool.not_eq_true,
      List.any_eq_true, bearsAncestor_iff_usable]

/-- An ending leaves no more than all there is to cover. -/
theorem cost_uncovered_le (weight : Nat) :
    (n.uncovered ending declared).cost weight ≤ n.wholeRemainder.cost weight := by
  have hnames : (n.uncovered ending declared).equalities.length ≤ n.equalities.length :=
    List.length_filter_le ..
  have hancestor : (n.uncovered ending declared).ancestor = true → n.hasAncestor = true :=
    fun h => (Bool.and_eq_true_iff.mp h).1
  refine Nat.add_le_add hnames ?_
  show _ ≤ if n.hasAncestor = true then weight else 0
  split
  · rename_i h
    rw [if_pos (hancestor h)]
  · exact Nat.zero_le _

/-- Of the entries of a tally, the one taken leaves least among all endings, and helps before those
    that leave as much. -/
theorem Ranked.best? {weight : Nat} {b : List IndexProperty × Remainder} (t : Tally n declared rs)
    (hr : n.Ranked declared (rs.map Prod.fst)) (h : rs.best? weight = some b) :
    (∀ other, b.2.cost weight ≤ (n.uncovered other declared).cost weight)
      ∧ ∀ other, other ≠ b.1 → (n.uncovered other declared).cost weight = b.2.cost weight →
        n.HelpsBefore declared b.1 other := by
  have hb := mem_of_best? h
  have hleaves := (t.kept b hb).2
  obtain ⟨before, after, rfl, hbefore, hafter⟩ := Remainders.best?_eq_some h
  rw [List.map_append, List.map_cons] at hr
  have hlater := (List.pairwise_cons.mp (List.pairwise_append.mp hr.order).2.1).1
  have hhelps : n.Helps b.1 declared :=
    hr.helps b.1 (List.mem_append_right _ List.mem_cons_self)
  -- an ending is not kept, or its entry is before the one taken, this one itself, or after it
  have hplace : ∀ other, ¬ n.Helps other declared
      ∨ b.2.cost weight < (n.uncovered other declared).cost weight
      ∨ other = b.1
      ∨ other ∈ after.map Prod.fst
        ∧ b.2.cost weight ≤ (n.uncovered other declared).cost weight := by
    intro other
    by_cases hother : other ∈ (before ++ b :: after).map Prod.fst
    · obtain ⟨entry, hentry, rfl⟩ := List.mem_map.mp hother
      rw [← (t.kept entry hentry).2]
      rcases List.mem_append.mp hentry with hmem | hmem
      · exact .inr (.inl (hbefore entry hmem))
      · rcases List.mem_cons.mp hmem with rfl | hmem
        · exact .inr (.inr (.inl rfl))
        · exact .inr (.inr (.inr ⟨List.mem_map_of_mem hmem, hafter entry hmem⟩))
    · exact .inl (not_not.mpr (t.others other hother))
  constructor
  · intro other
    rcases hplace other with hnot | hless | rfl | ⟨-, hle⟩
    · rw [not_not.mp hnot, hleaves]
      exact cost_uncovered_le weight
    · exact hless.le
    · exact (congrArg (Remainder.cost weight) hleaves).le
    · exact hle
  · intro other hne hcost
    rcases hplace other with hnot | hless | heq | ⟨hmem, -⟩
    · exact ⟨declared, List.prefix_refl _, hhelps, hnot⟩
    · exact absurd hcost hless.ne'
    · exact absurd heq hne
    · exact hlater other hmem

/-! ## The least index -/

/-- The names that an index for a remainder lists first: in strict alphabetical order. -/
theorem sortedNames_strict {names : List String} (h : names.Nodup) :
    (sortedNames names).Pairwise (· < ·) := by
  have hsorted : (sortedNames names).Pairwise (· ≤ ·) := List.pairwise_mergeSort' (· ≤ ·) names
  exact (hsorted.and ((List.mergeSort_perm ..).nodup_iff.mpr h)).imp
    fun h => lt_of_le_of_ne h.1 h.2

/-- An index to add comes from the remainders of all declared indexes. -/
theorem exists_remainders {weight : Nat} (hgeo : n.isGeospatial = false)
    (h : n.minimalIndex weight declared = some index) :
    ∃ needed rs, n.neededIndex = some needed ∧ Tally n declared rs
      ∧ n.Ranked declared (rs.map Prod.fst)
      ∧ index = match rs.best? weight with
        | none => needed
        | some (e, r) => n.indexFor e r := by
  have hopen : n.minimalIndex weight declared ≠ none := by
    rw [h]
    exact Option.some_ne_none index
  rw [ne_eq, minimalIndex_eq_none_iff, not_or] at hopen
  obtain ⟨hneeded, hcovered⟩ := hopen
  obtain ⟨needed, hneeded⟩ := Option.ne_none_iff_exists'.mp hneeded
  rcases Tally.nil.remainders declared with ⟨-, hcov⟩ | ⟨rs, hrs, t⟩
  · exact absurd ⟨hgeo, hcov⟩ hcovered
  · have hnone : n.Ranked [] (([] : Remainders).map Prod.fst) :=
      ⟨List.forall_mem_nil _, List.Pairwise.nil⟩
    refine ⟨needed, rs, hneeded, t, hnone.remainders Tally.nil hrs, ?_⟩
    rw [minimalIndex_of_remainders hneeded hgeo hrs] at h
    exact (Option.some.inj h).symm

/-- **The least index to add is least.** If no ending helps, it is the full index of the query.
    Otherwise it is made of what some ending that helps leaves, by name, and of this ending; no
    ending at all leaves what costs less, and if another one leaves what costs as much, then this
    one is of help before it. -/
theorem minimalIndex_optimal {q : Query} {keyProperty : String} {weight : Nat}
    (hn : ofQuery q keyProperty = .ok n) (hgeo : n.isGeospatial = false)
    (h : n.minimalIndex weight declared = some index) :
    (∀ ending, n.Leaves ending declared (n.uncovered ending declared))
      ∧ ((∀ ending, ¬ n.Helps ending declared) → n.neededIndex = some index)
      ∧ ((∃ ending, n.Helps ending declared) → ∃ (ending : List IndexProperty)
          (names : List String), n.Helps ending declared
        ∧ names.Pairwise (· < ·)
        ∧ (∀ name, name ∈ names ↔ name ∈ (n.uncovered ending declared).equalities)
        ∧ index = ⟨n.kind, (n.uncovered ending declared).ancestor,
            names.map .ascending ++ ending⟩
        ∧ (∀ other, (n.uncovered ending declared).cost weight
            ≤ (n.uncovered other declared).cost weight)
        ∧ ∀ other, other ≠ ending → (n.uncovered other declared).cost weight
            = (n.uncovered ending declared).cost weight → n.HelpsBefore declared ending other) := by
  have hleaves := leaves_uncovered (distinct_of_ofQuery hn)
  obtain ⟨needed, rs, hneeded, t, hranked, rfl⟩ := exists_remainders hgeo h
  refine ⟨fun ending => hleaves ending declared, fun hnone => ?_, fun ⟨e, he⟩ => ?_⟩
  · -- an entry would have an ending that helps
    have hbest : rs.best? weight = none := by
      rw [Remainders.best?_eq_none_iff, List.eq_nil_iff_forall_not_mem]
      exact fun entry hentry => hnone entry.1 (hranked.helps _ (List.mem_map_of_mem hentry))
    rw [hbest, hneeded]
  · have hkept : e ∈ rs.map Prod.fst := by
      by_contra hother
      exact he (t.others e hother)
    obtain ⟨entry, hentry, -⟩ := List.mem_map.mp hkept
    cases hbest : rs.best? weight with
    | none =>
        rw [Remainders.best?_eq_none_iff.mp hbest] at hentry
        cases hentry
    | some best =>
        obtain ⟨ending, r⟩ := best
        obtain ⟨hleast, hfirst⟩ := hranked.best? t hbest
        have hmem := mem_of_best? hbest
        obtain rfl : r = n.uncovered ending declared := (t.kept _ hmem).2
        refine ⟨ending, sortedNames (n.uncovered ending declared).equalities,
          hranked.helps _ (List.mem_map_of_mem hmem),
          sortedNames_strict (hleaves ending declared).once, fun name => List.mem_mergeSort, rfl,
          hleast, hfirst⟩

end NormalForm

/-- Chapters below an ancestor, from the last page on, and by title backwards. -/
def Index.chaptersBelow : Index where
  kind := some "Chapter"
  ancestor := true
  properties := [⟨"page", some .descending, none⟩, ⟨"title", some .descending, none⟩]

/-- Where an ancestor weighs as much as two equalities, what the index of the books leaves costs
    three, and what the one below an ancestor leaves costs two. So the index to add ends like this
    one. -/
theorem NormalForm.minimalIndex_optimal_chapters :
    NormalForm.ofQuery .chapters defaultKeyProperty = .ok .chapters
      ∧ chapters.isGeospatial = false
      ∧ chapters.minimalIndex 2 [.chaptersBy "book" false, .chaptersBelow]
        = some ⟨some "Chapter", false, [.ascending "author", .ascending "book",
            ⟨"page", some .descending, none⟩, ⟨"title", some .descending, none⟩]⟩
      ∧ ∃ ending, chapters.Helps ending [.chaptersBy "book" false, .chaptersBelow]
        ∧ (chapters.uncovered ending [.chaptersBy "book" false, .chaptersBelow]).cost 2
          ≤ (chapters.uncovered [⟨"page", some .descending, none⟩, .ascending "title"]
              [.chaptersBy "book" false, .chaptersBelow]).cost 2
        ∧ (chapters.uncovered [⟨"page", some .descending, none⟩, .ascending "title"]
              [.chaptersBy "book" false, .chaptersBelow]).cost 2 = 3 := by
  have hlisted : chapters.neededProperties = _ :=
    neededProperties_eq rfl (List.Perm.swap "author" "book" []) (by decide)
      (List.Perm.refl ["title"]) (by decide)
  have hneeded := neededIndex_eq hlisted (by decide) (by decide) rfl
  have hrs : chapters.remainders [] [.chaptersBy "book" false, .chaptersBelow]
      = some [([⟨"page", some .descending, none⟩, .ascending "title"], ⟨["author"], true⟩),
          ([⟨"page", some .descending, none⟩, ⟨"title", some .descending, none⟩],
            ⟨["book", "author"], false⟩)] := rfl
  have hindex : chapters.minimalIndex 2 [.chaptersBy "book" false, .chaptersBelow]
      = some ⟨some "Chapter", false, [.ascending "author", .ascending "book",
          ⟨"page", some .descending, none⟩, ⟨"title", some .descending, none⟩]⟩ :=
    minimalIndex_eq (r := ⟨["book", "author"], false⟩) hneeded rfl hrs rfl
      (List.Perm.swap "author" "book" []) (by decide)
  have hcost : (chapters.uncovered [⟨"page", some .descending, none⟩, .ascending "title"]
      [.chaptersBy "book" false, .chaptersBelow]).cost 2 = 3 := by
    decide
  have hhelps : chapters.Helps [⟨"page", some .descending, none⟩, .ascending "title"]
      [.chaptersBy "book" false, .chaptersBelow] := by
    unfold Helps
    decide
  have hform : NormalForm.ofQuery .chapters defaultKeyProperty = .ok chapters := rfl
  obtain ⟨-, -, hsome⟩ := minimalIndex_optimal hform rfl hindex
  obtain ⟨ending, -, hending, -, -, -, hleast, -⟩ := hsome ⟨_, hhelps⟩
  exact ⟨hform, rfl, hindex, ending, hending, hleast _, hcost⟩

end EntityQuery
