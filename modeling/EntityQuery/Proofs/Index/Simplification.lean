import Mathlib.Tactic.FinCases
import EntityQuery.Proofs.Execution.EntityOrder
import EntityQuery.Proofs.Execution.Sorted
import EntityQuery.Proofs.Fanout.Splitting
import EntityQuery.Proofs.Index.Reduction
import EntityQuery.Proofs.Value.Alike

/-!
# Simplification — tests and sorts that change nothing

Before a query is brought to its normal form its tests are simplified, and sorts are dropped that
should make no difference. Here a query is answered with the entities that pass all tests, sorted,
and this answer is the same before and after.

The tests keep their truth: membership in one value is equality with it, and of tests that are one
the first says it all. A sort may be dropped where the entities that are left are *tied*, that is,
have equal values in its property. An equality ties all entities that pass it; a sort on the same
property leaves to later ones only entities that are tied in it; and entities tied in the key are
one entity.

* **`NormalForm.all_simplified`** — the simplified tests are passed by the same entities.
* **`NormalForm.order_simplifiedSorts`** — the sorts that are left put these into the same order.
* **`NormalForm.answer_simplified`** — the answer is the same.
-/

namespace EntityQuery

variable {α : Type} {access : Access α} {cmp : Comparator} {occurs : Value → Prop}
  {view : α → View} {keyProperty : String} {q : Query} {ps simplified : List Predicate}
  {s : SortOrder} {sorts rest : List SortOrder} {entities : List α} {a b : α}

namespace NormalForm

/-! ## Tests -/

/-- A test is simplified to one that a set can hold exactly if a set can hold it. -/
theorem exists_simplify_iff {p : Predicate} :
    (∃ p', simplify p = .ok p' ∧ p'.keyable = true) ↔ p.keyable = true := by
  constructor
  · rintro ⟨p', hp', hkeyable⟩
    rcases simplify_eq_ok hp' with rfl | ⟨values, v, htest, hkept, -⟩
    · exact hkeyable
    · rw [Predicate.keyable, htest]
      exact (Value.allKeyable_eq_all values).trans (Value.distinct_eq_ok.mp hkept).1
  · intro hkeyable
    obtain ⟨property, test⟩ := p
    cases test with
    | oneOf values =>
        have hall : values.all Value.keyable = true :=
          (Value.allKeyable_eq_all values).symm.trans hkeyable
        have hchoices : Predicate.choices? ⟨property, .oneOf values⟩
            = .ok (some values.eraseDups) :=
          choices?_eq_ok.mpr ⟨values, rfl, Value.distinct_eq_ok.mpr ⟨hall, rfl⟩⟩
        rw [simplify, hchoices]
        cases hkept : values.eraseDups with
        | nil => exact ⟨_, rfl, hkeyable⟩
        | cons v rest =>
            cases rest with
            | nil =>
                have hv : v ∈ values.eraseDups := by
                  rw [hkept]
                  exact List.mem_cons_self
                exact ⟨_, rfl, List.all_eq_true.mp hall v (mem_of_mem_eraseDupsBy hv)⟩
            | cons w rest => exact ⟨_, rfl, hkeyable⟩
    | _ => exact ⟨_, rfl, hkeyable⟩

/-- A simplified test has the truth that it had. -/
theorem passes_simplify (h : cmp.Consistent occurs) {v : View} {p p' : Predicate}
    (hs : simplify p = .ok p') (hp : p.Occurs occurs v) :
    p'.Occurs occurs v ∧ p'.passes cmp v = p.passes cmp v := by
  rcases simplify_eq_ok hs with rfl | ⟨values, w, htest, hkept, rfl⟩
  · exact ⟨hp, rfl⟩
  · obtain ⟨property, test⟩ := p
    obtain rfl : test = .oneOf values := htest
    have hw : w ∈ values := (Splitter.mem_of_distinct hkept).1 List.mem_cons_self
    refine ⟨List.forall_mem_singleton.mpr (hp w hw), ?_⟩
    have hiff : (∃ x ∈ [w], cmp.order (v.value property) x = .eq)
        ↔ ∃ x ∈ values, cmp.order (v.value property) x = .eq :=
      Splitter.any_distinct_values h hp hkept
    rw [Bool.eq_iff_iff]
    show (cmp.order (v.value property) w == .eq) = true
      ↔ (values.any fun x => cmp.order (v.value property) x == .eq) = true
    simpa using hiff

/-- The tests of a query are simplified exactly if sets can hold them. -/
theorem exists_simplifiedFilters_iff (hps : q.predicates = .ok ps) :
    (∃ simplified, simplifiedFilters q = .ok simplified) ↔ ∀ p ∈ ps, p.keyable = true := by
  constructor
  · rintro ⟨simplified, hsim⟩ p hp
    obtain ⟨mapped, hmapped, hkeyable, -⟩ := (simplifiedFilters_eq_ok hps).mp hsim
    obtain ⟨p', hp', hs⟩ := ok_of_mapM_eq_ok hmapped hp
    exact exists_simplify_iff.mp ⟨p', hs, hkeyable p' hp'⟩
  · intro hkeyable
    have hsimplify := fun p hp => exists_simplify_iff.mpr (hkeyable p hp)
    obtain ⟨mapped, hmapped⟩ := exists_mapM_eq_ok fun p hp => (hsimplify p hp).imp fun _ h => h.1
    refine ⟨_, (simplifiedFilters_eq_ok hps).mpr ⟨mapped, hmapped, ?_, rfl⟩⟩
    intro p' hp'
    obtain ⟨p, hp, hs⟩ := (mem_of_mapM_eq_ok hmapped).mp hp'
    obtain ⟨p'', hs', hk⟩ := hsimplify p hp
    rwa [Except.ok.inj (hs.symm.trans hs')]

/-- **Simplified tests** are passed together exactly if the tests that they come from are. -/
theorem all_simplified (h : cmp.Consistent occurs) (hps : q.predicates = .ok ps)
    (hsim : simplifiedFilters q = .ok simplified) {v : View} (hocc : ∀ p ∈ ps, p.Occurs occurs v) :
    (∀ p ∈ simplified, p.Occurs occurs v)
      ∧ simplified.all (Predicate.passes cmp v) = ps.all (Predicate.passes cmp v) := by
  obtain ⟨mapped, hmapped, -, rfl⟩ := (simplifiedFilters_eq_ok hps).mp hsim
  have hmappedOccurs : ∀ p' ∈ mapped, p'.Occurs occurs v := by
    intro p' hp'
    obtain ⟨p, hp, hs⟩ := (mem_of_mapM_eq_ok hmapped).mp hp'
    exact (passes_simplify h hs (hocc p hp)).1
  refine ⟨fun p' hp' => hmappedOccurs p' (mem_of_mem_eraseDupsBy hp'), ?_⟩
  rw [Clause.all_eraseDups (Predicate.passes_respects h) hmappedOccurs, Bool.eq_iff_iff,
    List.all_eq_true, List.all_eq_true]
  constructor
  · intro hall p hp
    obtain ⟨p', hp', hs⟩ := ok_of_mapM_eq_ok hmapped hp
    rw [← (passes_simplify h hs (hocc p hp)).2]
    exact hall p' hp'
  · intro hall p' hp'
    obtain ⟨p, hp, hs⟩ := (mem_of_mapM_eq_ok hmapped).mp hp'
    rw [(passes_simplify h hs (hocc p hp)).2]
    exact hall p hp

end NormalForm

/-! ## Ties -/

/-- Two entities have equal values of a property. -/
def Tied (cmp : Comparator) (view : α → View) (a b : α) (name : String) : Prop :=
  cmp.order ((view a).value name) ((view b).value name) = .eq

/-- The key of an entity and the values it is sorted by are those that a filter looks at. -/
structure Viewed (access : Access α) (occurs : Value → Prop) (view : α → View)
    (keyProperty : String) (sorts : List SortOrder) (a : α) : Prop where
  key    : access.keyOf a = .ok ((view a).value keyProperty)
    ∧ occurs ((view a).value keyProperty)
  values : ∀ s ∈ sorts, access.valueOf a s.property = .ok ((view a).value s.property)
    ∧ occurs ((view a).value s.property)

namespace Viewed

theorem subset (h : Viewed access occurs view keyProperty sorts a) (hsub : rest ⊆ sorts) :
    Viewed access occurs view keyProperty rest a :=
  ⟨h.key, fun s hs => h.values s (hsub hs)⟩

theorem comparable (h : Viewed access occurs view keyProperty sorts a) :
    access.Comparable occurs sorts a :=
  ⟨⟨_, h.key⟩, fun s hs => ⟨_, h.values s hs⟩⟩

/-- The first sort decides, and the others if the entities are tied in it. -/
theorem order_cons (hcmp : cmp.Consistent occurs)
    (ha : Viewed access occurs view keyProperty (s :: rest) a)
    (hb : Viewed access occurs view keyProperty (s :: rest) b) :
    access.order cmp (s :: rest) a b
      = ((cmp.inDirection s.direction).order ((view a).value s.property)
          ((view b).value s.property)).then (access.order cmp rest a b) := by
  obtain ⟨hx, hxOccurs⟩ := ha.values s List.mem_cons_self
  obtain ⟨hy, hyOccurs⟩ := hb.values s List.mem_cons_self
  exact Access.order_cons hcmp hx hy hxOccurs hyOccurs

theorem order_cons_of_tied (hcmp : cmp.Consistent occurs)
    (ha : Viewed access occurs view keyProperty (s :: rest) a)
    (hb : Viewed access occurs view keyProperty (s :: rest) b)
    (htied : Tied cmp view a b s.property) :
    access.order cmp (s :: rest) a b = access.order cmp rest a b := by
  rw [order_cons hcmp ha hb, Comparator.order_inDirection_eq.mpr htied]
  rfl

/-- What comes after a sort matters to entities only if they are tied in it. -/
theorem order_cons_congr (hcmp : cmp.Consistent occurs)
    (ha : Viewed access occurs view keyProperty (s :: sorts) a)
    (hb : Viewed access occurs view keyProperty (s :: sorts) b) (hsub : rest ⊆ sorts)
    (h : Tied cmp view a b s.property →
      access.order cmp rest a b = access.order cmp sorts a b) :
    access.order cmp (s :: rest) a b = access.order cmp (s :: sorts) a b := by
  have hcons : s :: rest ⊆ s :: sorts := List.cons_subset_cons s hsub
  rw [order_cons hcmp ha hb, order_cons hcmp (ha.subset hcons) (hb.subset hcons)]
  cases ho : (cmp.inDirection s.direction).order ((view a).value s.property)
      ((view b).value s.property) with
  | eq => rw [h (Comparator.order_inDirection_eq.mp ho)]
  | lt => rfl
  | gt => rfl

end Viewed

namespace NormalForm

/-! ## Sorts -/

theorem effectiveSorts_subset {fixed : String → Bool} {seen : List String} :
    effectiveSorts keyProperty fixed seen sorts ⊆ sorts := by
  induction sorts generalizing seen with
  | nil => exact List.Subset.refl _
  | cons s rest ih =>
      rw [effectiveSorts]
      split
      · exact List.subset_cons_of_subset s ih
      · split
        · exact List.cons_subset_cons s (List.nil_subset rest)
        · exact List.cons_subset_cons s ih

theorem simplifiedSorts_subset : simplifiedSorts keyProperty simplified sorts ⊆ sorts := by
  unfold simplifiedSorts
  dsimp only
  split
  · exact List.nil_subset sorts
  · exact effectiveSorts_subset

/-- Dropping sorts leaves the order of two entities as it is, if they are tied in what is fixed and
    in what has been sorted by before, and are one entity if they are tied in the key. -/
theorem order_effectiveSorts (hcmp : cmp.Consistent occurs) {fixed : String → Bool}
    (hfixed : ∀ name, fixed name = true → Tied cmp view a b name)
    (hkey : Tied cmp view a b keyProperty → a = b)
    (ha : Viewed access occurs view keyProperty sorts a)
    (hb : Viewed access occurs view keyProperty sorts b) {seen : List String}
    (hseen : ∀ name ∈ seen, Tied cmp view a b name) :
    access.order cmp (effectiveSorts keyProperty fixed seen sorts) a b
      = access.order cmp sorts a b := by
  induction sorts generalizing seen with
  | nil => rfl
  | cons s rest ih =>
      have ha' := ha.subset (List.subset_cons_self s rest)
      have hb' := hb.subset (List.subset_cons_self s rest)
      rw [effectiveSorts]
      split
      · rename_i hdrop
        have htied : Tied cmp view a b s.property := by
          rcases Bool.or_eq_true_iff.mp hdrop with hmem | hfix
          · exact hseen _ (List.contains_iff_mem.mp hmem)
          · exact hfixed _ hfix
        rw [ih ha' hb' hseen, Viewed.order_cons_of_tied hcmp ha hb htied]
      · split
        · rename_i hname
          refine Viewed.order_cons_congr hcmp ha hb (List.nil_subset rest) fun htied => ?_
          -- entities tied in the key are one, which is equal to itself in every order
          obtain rfl : a = b := hkey (hname ▸ htied)
          rw [Access.order_self hcmp ha'.comparable,
            Access.order_self hcmp (ha'.subset (List.nil_subset rest)).comparable]
        · refine Viewed.order_cons_congr hcmp ha hb effectiveSorts_subset fun htied => ?_
          exact ih ha' hb' (List.forall_mem_cons.mpr ⟨htied, hseen⟩)

/-- An equality ties all entities that pass it. -/
theorem tied_of_equality (hcmp : cmp.Consistent occurs) {name : String}
    (hname : name ∈ propertiesWith Predicate.isEquality ps)
    (haOccurs : ∀ p ∈ ps, p.Occurs occurs (view a)) (hbOccurs : ∀ p ∈ ps, p.Occurs occurs (view b))
    (ha : ps.all (Predicate.passes cmp (view a)) = true)
    (hb : ps.all (Predicate.passes cmp (view b)) = true) : Tied cmp view a b name := by
  obtain ⟨⟨property, test⟩, hp, rfl⟩ := List.mem_map.mp hname
  obtain ⟨hp, hequal⟩ := List.mem_filter.mp hp
  cases test with
  | relation r v =>
      cases r with
      | equal =>
          obtain ⟨hv, hx⟩ := haOccurs _ hp v List.mem_cons_self
          obtain ⟨-, hy⟩ := hbOccurs _ hp v List.mem_cons_self
          have hxv : cmp.order ((view a).value property) v = .eq :=
            eq_of_beq (List.all_eq_true.mp ha _ hp)
          have hyv : cmp.order ((view b).value property) v = .eq :=
            eq_of_beq (List.all_eq_true.mp hb _ hp)
          rw [Tied, hcmp.order_left hx hv hy hxv, hcmp.order_swap hy hv, hyv]
          rfl
      | _ => cases hequal
  | _ => cases hequal

/-- **Sorts that are left** put entities that pass the tests into the order that they had. -/
theorem order_simplifiedSorts (hcmp : cmp.Consistent occurs)
    (hkey : Tied cmp view a b keyProperty → a = b)
    (ha : Viewed access occurs view keyProperty sorts a)
    (hb : Viewed access occurs view keyProperty sorts b)
    (hties : ∀ name ∈ propertiesWith Predicate.isEquality simplified, Tied cmp view a b name) :
    access.order cmp (simplifiedSorts keyProperty simplified sorts) a b
      = access.order cmp sorts a b := by
  unfold simplifiedSorts
  dsimp only
  split
  · rename_i hequal
    -- an equality on the key leaves one entity
    obtain rfl : a = b := hkey (hties _ (List.contains_iff_mem.mp hequal))
    rw [Access.order_self hcmp ha.comparable,
      Access.order_self hcmp (ha.subset (List.nil_subset sorts)).comparable]
  · refine order_effectiveSorts hcmp ?_ hkey ha hb (List.forall_mem_nil _)
    intro name hname
    rw [Bool.and_eq_true] at hname
    exact hties name (List.contains_iff_mem.mp hname.1)

end NormalForm

/-! ## Answers -/

/-- The entities that pass all tests, in the order of the sorts. -/
def Access.answer (access : Access α) (cmp : Comparator) (view : α → View) (ps : List Predicate)
    (sorts : List SortOrder) (entities : List α) : Except Fault (List α) :=
  access.sort cmp sorts (entities.filter fun a => ps.all (Predicate.passes cmp (view a)))

/-- Entities that a query can be put to: their keys are pairwise different under the comparator, and
    all values that are compared occur. -/
structure Answerable (access : Access α) (cmp : Comparator) (occurs : Value → Prop)
    (view : α → View) (keyProperty : String) (ps : List Predicate) (sorts : List SortOrder)
    (entities : List α) : Prop where
  viewed   : ∀ a ∈ entities, Viewed access occurs view keyProperty sorts a
  apart    : entities.Pairwise fun a b => ¬ Tied cmp view a b keyProperty
  operands : ∀ a ∈ entities, ∀ p ∈ ps, p.Occurs occurs (view a)

/-- Entities that are tied in the key are one. -/
theorem Answerable.eq_of_tied (hcmp : cmp.Consistent occurs)
    (h : Answerable access cmp occurs view keyProperty ps sorts entities) (ha : a ∈ entities)
    (hb : b ∈ entities) (htied : Tied cmp view a b keyProperty) : a = b := by
  rcases eq_or_of_pairwise h.apart ha hb with heq | hab | hba
  · exact heq
  · exact absurd htied hab
  · refine absurd ?_ hba
    rw [Tied, hcmp.order_swap (h.viewed a ha).key.2 (h.viewed b hb).key.2, htied]
    rfl

namespace NormalForm

/-- **Simplification keeps the answer.** The tests of a query are simplified exactly if sets can
    hold them. Then the simplified tests and the sorts that are left have the answer that the tests
    and sorts of the query have: the entities that pass the tests, in the order of the sorts. -/
theorem answer_simplified (hps : q.predicates = .ok ps) (hcmp : cmp.Consistent occurs)
    (hes : Answerable access cmp occurs view keyProperty ps q.sorts entities) :
    ((∃ simplified, simplifiedFilters q = .ok simplified) ↔ ∀ p ∈ ps, p.keyable = true)
      ∧ ∀ simplified, simplifiedFilters q = .ok simplified →
        ∃ rows, access.answer cmp view ps q.sorts entities = .ok rows
          ∧ access.answer cmp view simplified (simplifiedSorts keyProperty simplified q.sorts)
            entities = .ok rows
          ∧ rows.Perm (entities.filter fun a => ps.all (Predicate.passes cmp (view a)))
          ∧ rows.Pairwise (access.NotAfter cmp q.sorts) := by
  refine ⟨exists_simplifiedFilters_iff hps, fun simplified hsim => ?_⟩
  -- the same entities are selected, so it is left that they have the same order, and that only an
  -- entity and itself are equal in it
  have htests := fun a ha => all_simplified hcmp hps hsim (hes.operands a ha)
  have hselected : (entities.filter fun a => simplified.all (Predicate.passes cmp (view a)))
      = entities.filter fun a => ps.all (Predicate.passes cmp (view a)) :=
    List.filter_congr fun a ha => (htests a ha).2
  have hmem : ∀ a ∈ entities.filter fun a => ps.all (Predicate.passes cmp (view a)),
      a ∈ entities ∧ simplified.all (Predicate.passes cmp (view a)) = true := by
    intro a ha
    obtain ⟨ha, hpass⟩ := List.mem_filter.mp ha
    exact ⟨ha, (htests a ha).2.trans hpass⟩
  rw [Access.answer, Access.answer, hselected]
  refine Access.sort_eq_sort hcmp ?_ ?_ ?_ ?_
  · intro a ha
    exact (hes.viewed a (hmem a ha).1).comparable
  · intro a ha
    exact ((hes.viewed a (hmem a ha).1).subset simplifiedSorts_subset).comparable
  · intro a ha b hb
    obtain ⟨ha, haPass⟩ := hmem a ha
    obtain ⟨hb, hbPass⟩ := hmem b hb
    refine order_simplifiedSorts hcmp (hes.eq_of_tied hcmp ha hb) (hes.viewed a ha)
      (hes.viewed b hb) ?_
    intro name hname
    exact tied_of_equality hcmp hname (htests a ha).1 (htests b hb).1 haPass hbPass
  · intro a ha b hb heq
    obtain ⟨ha, -⟩ := hmem a ha
    obtain ⟨hb, -⟩ := hmem b hb
    have hview := hes.viewed a ha
    have hview' := hes.viewed b hb
    exact hes.eq_of_tied hcmp ha hb (Access.order_keys_eq hcmp hview.key.1 hview'.key.1
      hview.comparable hview'.comparable heq)

end NormalForm

/-! ## Songs of one singer -/

/-- Songs of one singer, named twice, by title from the last on. The other sorts change nothing: the
    singer is fixed, the title is sorted by already, and the key tells all songs apart. -/
def Query.songs : Query where
  kind := some "Song"
  filter := some (.node .all [.leaf ⟨"singer", .oneOf [.text "Ann", .text "Ann"]⟩,
    .leaf (.equals "singer" (.text "Ann"))])
  sorts := [⟨"singer", .ascending⟩, ⟨"title", .descending⟩, ⟨"title", .ascending⟩,
    ⟨"__key__", .descending⟩, ⟨"album", .ascending⟩]

/-- A song by its number. -/
def Fields.song (number : Int) (singer title album : String) : Fields :=
  [("__key__", .key (.root "" "Song" (.number number))), ("singer", .text singer),
    ("title", .text title), ("album", .text album)]

def Fields.songs : List Fields :=
  [.song 1 "Ann" "Dawn" "Hills", .song 2 "Bob" "Dusk" "Hills", .song 3 "Ann" "Dusk" "Lakes",
    .song 4 "Ann" "Dawn" "Lakes"]

/-- The values that occur in songs. -/
def Value.OfSong (v : Value) : Prop :=
  (∃ s, v = .text s) ∨ ∃ number, v = .key (.root "" "Song" (.number number))

theorem Value.compare_consistent_ofSong : Comparator.Consistent compare OfSong := by
  refine compare_consistent ?_ ?_ ?_
  · rintro _ (⟨s, rfl⟩ | ⟨i, rfl⟩)
    · rfl
    · rfl
  · rintro _ _ (⟨s, rfl⟩ | ⟨i, rfl⟩) (⟨t, rfl⟩ | ⟨j, rfl⟩) ⟨k, l, hk, hl, htwins⟩
    · cases hk
    · cases hk
    · cases hl
    · obtain rfl := key.inj hk
      obtain rfl := key.inj hl
      -- keys at the root have nothing above them, so those of one path are equal
      obtain ⟨hne, -, hpath⟩ := htwins
      cases hpath
      exact hne rfl
  · rintro _ _ (⟨s, rfl⟩ | ⟨i, rfl⟩) - ⟨t, u, ht, -, -⟩
    · cases ht
    · cases ht

/-- The query can be put to the songs. -/
theorem Answerable.songs : Answerable (Access.fields defaultKeyProperty) Value.compare Value.OfSong
    View.ofFields defaultKeyProperty
    [⟨"singer", .oneOf [.text "Ann", .text "Ann"]⟩, .equals "singer" (.text "Ann")]
    Query.songs.sorts Fields.songs := by
  have hsong : ∀ a ∈ Fields.songs, ∃ number singer title album,
      a = Fields.song number singer title album := by
    intro a ha
    fin_cases ha <;> exact ⟨_, _, _, _, rfl⟩
  constructor
  · intro a ha
    obtain ⟨number, singer, title, album, rfl⟩ := hsong a ha
    refine ⟨⟨rfl, .inr ⟨number, rfl⟩⟩, ?_⟩
    intro s hs
    fin_cases hs
    · exact ⟨rfl, .inl ⟨singer, rfl⟩⟩
    · exact ⟨rfl, .inl ⟨title, rfl⟩⟩
    · exact ⟨rfl, .inl ⟨title, rfl⟩⟩
    · exact ⟨rfl, .inr ⟨number, rfl⟩⟩
    · exact ⟨rfl, .inl ⟨album, rfl⟩⟩
  · unfold Tied
    decide
  · intro a ha p hp v hv
    obtain ⟨number, singer, title, album, rfl⟩ := hsong a ha
    have hv : v = .text "Ann" ∧ p.property = "singer" := by
      fin_cases hp
      · fin_cases hv <;> exact ⟨rfl, rfl⟩
      · exact ⟨List.mem_singleton.mp hv, rfl⟩
    obtain ⟨rfl, hproperty⟩ := hv
    rw [hproperty]
    exact ⟨.inl ⟨"Ann", rfl⟩, .inl ⟨singer, rfl⟩⟩

/-- Two tests and five sorts give the songs that one test and two sorts give. -/
theorem NormalForm.answer_simplified_songs :
    simplifiedFilters Query.songs = .ok [.equals "singer" (.text "Ann")]
      ∧ simplifiedSorts defaultKeyProperty [.equals "singer" (.text "Ann")] Query.songs.sorts
        = [⟨"title", .descending⟩, ⟨"__key__", .descending⟩]
      ∧ (Access.fields defaultKeyProperty).answer Value.compare View.ofFields
          [⟨"singer", .oneOf [.text "Ann", .text "Ann"]⟩, .equals "singer" (.text "Ann")]
          Query.songs.sorts Fields.songs
        = .ok [.song 3 "Ann" "Dusk" "Lakes", .song 4 "Ann" "Dawn" "Lakes",
            .song 1 "Ann" "Dawn" "Hills"] := by
  have hsim : simplifiedFilters Query.songs = .ok [.equals "singer" (.text "Ann")] := by
    rfl
  have hrows : (Access.fields defaultKeyProperty).answer Value.compare View.ofFields
      [.equals "singer" (.text "Ann")] [⟨"title", .descending⟩, ⟨"__key__", .descending⟩]
      Fields.songs = .ok [.song 3 "Ann" "Dusk" "Lakes", .song 4 "Ann" "Dawn" "Lakes",
        .song 1 "Ann" "Dawn" "Hills"] := by
    with_unfolding_all rfl
  obtain ⟨rows, hbefore, hafter, -, -⟩ :=
    (answer_simplified rfl Value.compare_consistent_ofSong .songs).2 _ hsim
  obtain rfl := Except.ok.inj (hafter.symm.trans hrows)
  exact ⟨hsim, rfl, hbefore⟩

end EntityQuery
