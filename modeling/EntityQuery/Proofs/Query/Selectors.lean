import EntityQuery.Proofs.Index.Existence
import EntityQuery.Proofs.Key.Spelling
import EntityQuery.Proofs.Query.Legality

/-!
# Keys in selectors — which spelled keys a comparison is made with

The comparison records of a document become the comparisons of its selector
(`Selector.read?_comparisons`) and these the predicates of a filter (`Selector.toFilter_predicates`),
each time one for one and in their order. A record that spells a key becomes this key, whatever the
operator is, containment apart. But it has to stand by itself: a list is taken as it is, so the
records in the list of a membership test stay records, and no legal query asks so for its key.

* **`Selector.comparedValue_key`** — a spelled key by itself.
* **`Query.ofSelectors_keys`** — spelled keys in a whole document.
* **`Query.check_ne_ok_of_spellsKeys`** — listed keys do not make a legal query.
-/

namespace EntityQuery

namespace Selector

/-! ## Comparisons -/

/-- A property, an operator and the value as it is written. -/
structure Comparison where
  property : String
  operator : Operator
  value    : Value

mutual

/-- The comparisons of a selector, from left to right. -/
def comparisons : Selector → List Comparison
  | .comparison property op value => [⟨property, op, value⟩]
  | .logical _ parts => allComparisons parts
termination_by structural s => s

def allComparisons : List Selector → List Comparison
  | [] => []
  | s :: ss => comparisons s ++ allComparisons ss
termination_by structural ss => ss

end

mutual

/-- Whether every logical join has parts. -/
def populated : Selector → Bool
  | .comparison _ _ _ => true
  | .logical _ parts => !parts.isEmpty && allPopulated parts
termination_by structural s => s

def allPopulated : List Selector → Bool
  | [] => true
  | s :: ss => populated s && allPopulated ss
termination_by structural ss => ss

end

namespace Comparison

variable {c : Comparison} {p : Predicate}

/-- Whatever its number is, the comparison becomes a predicate. -/
def Converts (c : Comparison) : Prop :=
  ∀ number, ∃ v t, comparedValue number c.operator c.value = .ok v ∧ Test.of c.operator v = .ok t

/-- A predicate that a comparison becomes under some number. -/
def Becomes (c : Comparison) (p : Predicate) : Prop :=
  p.property = c.property ∧ ∃ number v,
    comparedValue number c.operator c.value = .ok v ∧ Test.of c.operator v = .ok p.test

/-- The value spells a key by itself. -/
def SpellsKey (c : Comparison) (k : Key) : Prop :=
  c.operator ≠ .oneOf ∧ c.operator ≠ .inside ∧ Key.Spells c.value k

/-- The value is a list, of a membership test, of which each item spells a key. -/
def SpellsKeys (c : Comparison) (ks : List Key) : Prop :=
  c.operator = .oneOf ∧ ∃ items, c.value = .list items ∧ List.Forall₂ Key.Spells items ks

/-- A predicate that asks what a comparison asks. A key that is spelled by itself is this key, and
    in a list the keys stay as they are spelled. -/
structure Keeps (c : Comparison) (p : Predicate) : Prop where
  property : p.property = c.property
  operator : p.test.operator = c.operator
  key      : ∀ k, c.SpellsKey k → p.test.value = .key k
  list     : ∀ ks, c.SpellsKeys ks →
    p.test.value = c.value ∧ (p.test.value = .list (ks.map .key) ↔ ks = [])

end Comparison

/-- A record that spells a key is compared as this key. -/
theorem comparedValue_key {op : Operator} {v : Value} {k : Key} (number : Nat)
    (hop : op ≠ .inside) (h : Key.Spells v k) : comparedValue number op v = .ok (.key k) := by
  have hread := Key.read?_of_spells h
  obtain ⟨fields, rfl, hkind, hid⟩ := h.labelled
  rw [Value.field?] at hkind hid
  cases op with
  | inside => exact absurd rfl hop
  | _ => simp only [comparedValue, hkind, hid, Bool.and_self, if_true, hread]

/-- A list is compared as it is. -/
@[simp] theorem comparedValue_list (number : Nat) (op : Operator) (items : List Value) :
    comparedValue number op (.list items) = .ok (.list items) := by
  cases op <;> rfl

end Selector

/-- A test is of its operator and is written with its value. -/
theorem Test.of_eq_ok {op : Operator} {v : Value} {t : Test} (h : Test.of op v = .ok t) :
    t.operator = op ∧ t.value = v := by
  cases op with
  | oneOf =>
      cases v with
      | list vs =>
          obtain rfl := Except.ok.inj h
          exact ⟨rfl, rfl⟩
      | _ => cases h
  | _ =>
      obtain rfl := Except.ok.inj h
      exact ⟨rfl, rfl⟩

/-- A membership test is one in the list that it is written with. -/
theorem Test.eq_oneOf {t : Test} {items : List Value} (hoperator : t.operator = .oneOf)
    (hvalue : t.value = .list items) : t = .oneOf items := by
  cases t with
  | oneOf values => rw [Value.list.inj hvalue]
  | _ => cases hoperator

/-- Only a membership test asks for a value of some form. -/
theorem Test.exists_of {op : Operator} (h : op ≠ .oneOf) (v : Value) :
    ∃ t, Test.of op v = .ok t := by
  cases op with
  | oneOf => exact absurd rfl h
  | _ => exact ⟨_, rfl⟩

namespace Selector

/-- No list of records is a list of keys. -/
theorem list_eq_keys_iff {items : List Value} {ks : List Key}
    (h : List.Forall₂ Key.Spells items ks) : Value.list items = .list (ks.map .key) ↔ ks = [] := by
  cases h with
  | nil => exact iff_of_true rfl rfl
  | cons hv _ =>
      obtain ⟨fields, rfl, -⟩ := hv.labelled
      exact iff_of_false (by simp) (List.cons_ne_nil _ _)

namespace Comparison

variable {c : Comparison} {p : Predicate}

/-- A comparison becomes a predicate that asks the same. -/
theorem Becomes.keeps (h : c.Becomes p) : c.Keeps p := by
  obtain ⟨hproperty, number, v, hv, htest⟩ := h
  obtain ⟨hoperator, hvalue⟩ := Test.of_eq_ok htest
  refine ⟨hproperty, hoperator, ?_, ?_⟩
  · rintro k ⟨-, hinside, hspells⟩
    rw [comparedValue_key number hinside hspells] at hv
    rw [hvalue, Except.ok.inj hv]
  · rintro ks ⟨-, items, hitems, hspells⟩
    rw [hitems, comparedValue_list] at hv
    rw [hvalue, ← Except.ok.inj hv, hitems]
    exact ⟨rfl, list_eq_keys_iff hspells⟩

theorem SpellsKey.converts {k : Key} (h : c.SpellsKey k) : c.Converts := by
  obtain ⟨honeOf, hinside, hspells⟩ := h
  intro number
  obtain ⟨t, ht⟩ := Test.exists_of honeOf (.key k)
  exact ⟨_, t, comparedValue_key number hinside hspells, ht⟩

theorem SpellsKeys.converts {ks : List Key} (h : c.SpellsKeys ks) : c.Converts := by
  obtain ⟨honeOf, items, hitems, -⟩ := h
  intro number
  rw [hitems, comparedValue_list, honeOf]
  exact ⟨_, _, rfl, rfl⟩

end Comparison

/-! ## Selectors and their filters -/

variable {s : Selector} {ss : List Selector}

mutual

/-- The predicates of a filter are those that its comparisons become, in their order. -/
theorem toFilter_predicates : ∀ {s : Selector} {number : Nat} {f : Filter},
    s.toFilter number = .ok f → List.Forall₂ Comparison.Becomes s.comparisons f.predicates
  | .comparison property op value, number, f, h => by
      obtain ⟨v, hv, h⟩ := bind_eq_ok.mp h
      obtain ⟨t, ht, h⟩ := bind_eq_ok.mp h
      obtain rfl := Except.ok.inj h
      exact .cons ⟨rfl, number, v, hv, ht⟩ .nil
  | .logical c parts, number, f, h => by
      obtain ⟨fs, hfs, h⟩ := bind_eq_ok.mp h
      rw [Filter.composite] at h
      split at h
      · cases h
      · obtain rfl := Except.ok.inj h
        exact toFilters_predicates hfs

theorem toFilters_predicates : ∀ {ss : List Selector} {number : Nat} {fs : List Filter},
    toFilters number ss = .ok fs →
      List.Forall₂ Comparison.Becomes (allComparisons ss) (Filter.allPredicates fs)
  | [], _, _, h => by
      obtain rfl := Except.ok.inj h
      exact .nil
  | s :: ss, number, fs, h => by
      obtain ⟨f, hf, h⟩ := bind_eq_ok.mp h
      obtain ⟨rest, hrest, h⟩ := bind_eq_ok.mp h
      obtain rfl := Except.ok.inj h
      exact List.rel_append (toFilter_predicates hf) (toFilters_predicates hrest)

end

mutual

/-- A selector stands for a filter if its comparisons become predicates and its joins have parts. -/
theorem exists_toFilter : ∀ {s : Selector} (number : Nat), s.populated = true →
    (∀ c ∈ s.comparisons, c.Converts) → ∃ f, s.toFilter number = .ok f
  | .comparison property op value, number, _, h => by
      obtain ⟨v, t, hv, ht⟩ := h _ List.mem_cons_self number
      exact ⟨_, bind_eq_ok.mpr ⟨v, hv, bind_eq_ok.mpr ⟨t, ht, rfl⟩⟩⟩
  | .logical c parts, number, hparts, h => by
      obtain ⟨hne, hparts⟩ := Bool.and_eq_true_iff.mp hparts
      obtain ⟨fs, hfs, hlength⟩ := exists_toFilters number hparts h
      have hne' : fs.isEmpty = false := by
        rw [Bool.not_eq_true', List.isEmpty_eq_false_iff, ← List.length_pos_iff] at hne
        rw [List.isEmpty_eq_false_iff, ← List.length_pos_iff, hlength]
        exact hne
      refine ⟨.node c fs, bind_eq_ok.mpr ⟨fs, hfs, ?_⟩⟩
      rw [Filter.composite, hne', if_neg Bool.false_ne_true]

theorem exists_toFilters : ∀ {ss : List Selector} (number : Nat), allPopulated ss = true →
    (∀ c ∈ allComparisons ss, c.Converts) →
      ∃ fs, toFilters number ss = .ok fs ∧ fs.length = ss.length
  | [], _, _, _ => ⟨[], rfl, rfl⟩
  | s :: ss, number, hparts, h => by
      obtain ⟨hs, hss⟩ := Bool.and_eq_true_iff.mp hparts
      obtain ⟨f, hf⟩ := exists_toFilter number hs fun c hc => h c (List.mem_append_left _ hc)
      obtain ⟨fs, hfs, hlength⟩ := exists_toFilters (number + s.size) hss
        fun c hc => h c (List.mem_append_right _ hc)
      exact ⟨f :: fs, bind_eq_ok.mpr ⟨f, hf, bind_eq_ok.mpr ⟨fs, hfs, rfl⟩⟩,
        congrArg (· + 1) hlength⟩

end

/-! ## Documents and their selectors -/

/-- A record that says of itself that it is a comparison, and this one. -/
structure IsComparison (fields : List (String × Value)) (c : Comparison) : Prop where
  type     : hasType "comparison" fields = true
  only     : Value.hasOnly ["type", "field", "op", "value"] fields = true
  property : (Value.field? fields "field").bind Value.asText? = some c.property
  operator : (Value.field? fields "op").bind (Value.asWord? operatorAliases Operator.ofWord?)
    = some c.operator
  value    : Value.fieldOrNull fields "value" = c.value

mutual

/-- The records of comparisons in a filter, from left to right. -/
def comparisonRecords : Value → List (List (String × Value))
  | .record fields =>
    if hasType "comparison" fields then [fields] else comparisonRecordsOfParts fields
  | _ => []
termination_by structural v => v

def comparisonRecordsOfParts : List (String × Value) → List (List (String × Value))
  | [] => []
  | f :: fs =>
    if f.1 = "clauses" then comparisonRecordsOfList f.2 else comparisonRecordsOfParts fs
termination_by structural fields => fields

def comparisonRecordsOfList : Value → List (List (String × Value))
  | .list items => allComparisonRecords items
  | _ => []
termination_by structural v => v

def allComparisonRecords : List Value → List (List (String × Value))
  | [] => []
  | v :: vs => comparisonRecords v ++ allComparisonRecords vs
termination_by structural vs => vs

end

theorem IsComparison.unique {fields : List (String × Value)} {c d : Comparison}
    (hc : IsComparison fields c) (hd : IsComparison fields d) : c = d := by
  obtain ⟨property, op, value⟩ := c
  obtain rfl := Option.some.inj (hc.property.symm.trans hd.property)
  obtain rfl := Option.some.inj (hc.operator.symm.trans hd.operator)
  obtain rfl := hc.value.symm.trans hd.value
  rfl

/-- What is read as a comparison is a record of one. -/
theorem isComparison_of_readComparison? {fields : List (String × Value)} {s : Selector}
    (htype : hasType "comparison" fields = true) (h : readComparison? fields = some s) :
    ∃ c, IsComparison fields c ∧ s.comparisons = [c] := by
  rw [readComparison?] at h
  split at h
  · cases h
  · next honly =>
    obtain ⟨v, hv, h⟩ := Option.bind_eq_some_iff.mp h
    obtain ⟨property, hproperty, h⟩ := Option.bind_eq_some_iff.mp h
    obtain ⟨w, hw, h⟩ := Option.bind_eq_some_iff.mp h
    obtain ⟨op, hop, h⟩ := Option.bind_eq_some_iff.mp h
    obtain rfl := Option.some.inj h
    refine ⟨⟨property, op, Value.fieldOrNull fields "value"⟩, ⟨htype, ?_, ?_, ?_, rfl⟩, rfl⟩
    · simpa using honly
    · exact Option.bind_eq_some_iff.mpr ⟨v, hv, hproperty⟩
    · exact Option.bind_eq_some_iff.mpr ⟨w, hw, hop⟩

mutual

/-- The comparisons of a selector are those of its records, in their order. -/
theorem read?_comparisons : ∀ {v : Value} {s : Selector}, read? v = some s →
    List.Forall₂ IsComparison (comparisonRecords v) s.comparisons
  | .record fields, s, h => by
      rw [read?] at h
      rw [comparisonRecords]
      split at h
      · next htype =>
        obtain ⟨c, hc, hs⟩ := isComparison_of_readComparison? htype h
        rw [if_pos htype, hs]
        exact .cons hc .nil
      · next htype =>
        rw [if_neg htype]
        split at h
        · obtain ⟨c, -, h⟩ := Option.bind_eq_some_iff.mp h
          obtain ⟨parts, hparts, h⟩ := Option.bind_eq_some_iff.mp h
          obtain rfl := Option.some.inj h
          exact readParts?_comparisons hparts
        · cases h

theorem readParts?_comparisons : ∀ {fields : List (String × Value)} {ss : List Selector},
    readParts? fields = some ss →
      List.Forall₂ IsComparison (comparisonRecordsOfParts fields) (allComparisons ss)
  | [], _, h => by
      obtain rfl := Option.some.inj h
      exact .nil
  | f :: fs, ss, h => by
      rw [readParts?] at h
      rw [comparisonRecordsOfParts]
      split at h
      · next hname =>
        rw [if_pos hname]
        exact readList?_comparisons h
      · next hname =>
        rw [if_neg hname]
        exact readParts?_comparisons h

theorem readList?_comparisons : ∀ {v : Value} {ss : List Selector}, readList? v = some ss →
    List.Forall₂ IsComparison (comparisonRecordsOfList v) (allComparisons ss)
  | .list _, _, h => readAll?_comparisons h

theorem readAll?_comparisons : ∀ {vs : List Value} {ss : List Selector}, readAll? vs = some ss →
    List.Forall₂ IsComparison (allComparisonRecords vs) (allComparisons ss)
  | [], _, h => by
      obtain rfl := Option.some.inj h
      exact .nil
  | v :: vs, ss, h => by
      obtain ⟨s, hs, h⟩ := Option.bind_eq_some_iff.mp h
      obtain ⟨rest, hrest, h⟩ := Option.bind_eq_some_iff.mp h
      obtain rfl := Option.some.inj h
      exact List.rel_append (read?_comparisons hs) (readAll?_comparisons hrest)

end

end Selector

namespace Selection

/-- The records of comparisons in a document, from left to right. -/
def comparisonRecords : Value → List (List (String × Value))
  | .record fields => Selector.comparisonRecords (Value.fieldOrNull fields "filters")
  | _ => []

def comparisons (s : Selection) : List Selector.Comparison := s.filter.elim [] Selector.comparisons

def populated (s : Selection) : Bool := s.filter.elim true Selector.populated

theorem readField?_filter {fields : List (String × Value)} {s : Selection}
    (h : read? (.record fields) = some s) :
    Value.readField? fields "filters" none (Value.asOptional? Selector.read?) = some s.filter := by
  rw [read?] at h
  split at h
  · cases h
  · obtain ⟨_, _, h⟩ := Option.bind_eq_some_iff.mp h
    obtain ⟨filter, hfilter, h⟩ := Option.bind_eq_some_iff.mp h
    obtain ⟨_, _, h⟩ := Option.bind_eq_some_iff.mp h
    obtain ⟨_, _, h⟩ := Option.bind_eq_some_iff.mp h
    obtain ⟨_, _, h⟩ := Option.bind_eq_some_iff.mp h
    obtain ⟨_, _, h⟩ := Option.bind_eq_some_iff.mp h
    obtain ⟨_, _, h⟩ := Option.bind_eq_some_iff.mp h
    obtain rfl := Option.some.inj h
    exact hfilter

theorem read?_comparisons {document : Value} {s : Selection} (h : read? document = some s) :
    List.Forall₂ Selector.IsComparison (comparisonRecords document) s.comparisons := by
  cases document with
  | record fields =>
      have hfilter := readField?_filter h
      rw [Value.readField?] at hfilter
      rw [comparisonRecords, Value.fieldOrNull, comparisons]
      cases hfield : Value.field? fields "filters" with
      | none =>
          rw [hfield] at hfilter
          rw [← Option.some.inj hfilter]
          exact .nil
      | some v =>
          rw [hfield] at hfilter
          cases v with
          | record _ =>
              obtain ⟨selector, hselector, hs⟩ := Option.map_eq_some_iff.mp hfilter
              rw [← hs]
              exact Selector.read?_comparisons hselector
          | null =>
              rw [← Option.some.inj hfilter]
              exact .nil
          | _ => cases hfilter
  | _ => cases h

theorem toQuery_predicates {s : Selection} {q : Query} (h : s.toQuery = .ok q) :
    List.Forall₂ Selector.Comparison.Becomes s.comparisons q.allPredicates := by
  rw [toQuery] at h
  rw [comparisons]
  cases hs : s.filter with
  | none =>
      rw [hs] at h
      obtain rfl := Except.ok.inj h
      exact .nil
  | some selector =>
      rw [hs] at h
      obtain ⟨filter, hfilter, h⟩ := bind_eq_ok.mp h
      obtain ⟨f, hf, rfl⟩ := map_eq_ok.mp hfilter
      obtain rfl := Except.ok.inj h
      exact Selector.toFilter_predicates hf

theorem exists_toQuery {s : Selection} (hparts : s.populated = true)
    (h : ∀ c ∈ s.comparisons, c.Converts) : ∃ q, s.toQuery = .ok q := by
  rw [populated] at hparts
  rw [comparisons] at h
  rw [toQuery]
  cases hs : s.filter with
  | none => exact ⟨_, rfl⟩
  | some selector =>
      rw [hs] at hparts h
      obtain ⟨f, hf⟩ := Selector.exists_toFilter 0 hparts h
      exact ⟨_, bind_eq_ok.mpr ⟨some f, map_eq_ok.mpr ⟨f, hf, rfl⟩, rfl⟩⟩

end Selection

namespace Query

/-- The comparison records of a document are the predicates of its query, one for one, and each
    predicate keeps what its record asks. -/
theorem predicates_keep {document : Value} {q : Query} (hq : ofSelectors document = .ok q) :
    List.Forall₂ (fun fields p => ∃ c, Selector.IsComparison fields c ∧ c.Keeps p)
      (Selection.comparisonRecords document) q.allPredicates := by
  rw [ofSelectors] at hq
  cases hs : Selection.read? document with
  | none =>
      rw [hs] at hq
      cases hq
  | some s =>
      rw [hs] at hq
      refine forall₂_comp ?_ (Selection.read?_comparisons hs) (Selection.toQuery_predicates hq)
      exact fun fields c p hc hp => ⟨c, hc, hp.keeps⟩

/-- A query with a list of spelled keys for its key is not legal, for what it lists are no keys. -/
theorem check_ne_ok_of_spellsKeys {document : Value} {q : Query} {fields : List (String × Value)}
    {c : Selector.Comparison} {ks : List Key} (hq : ofSelectors document = .ok q)
    (hfields : fields ∈ Selection.comparisonRecords document)
    (hc : Selector.IsComparison fields c) (hspells : c.SpellsKeys ks) (hne : ks ≠ []) :
    q.check c.property ≠ .ok () := by
  intro hcheck
  obtain ⟨ps, hps, hlegal⟩ := legal_of_check hcheck
  obtain ⟨p, hp, d, hd, hkeeps⟩ := exists_right_of_forall₂ (predicates_keep hq) hfields
  obtain rfl := hc.unique hd
  rw [allPredicates_of_predicates hps] at hp
  have hvalue := (hkeeps.list ks hspells).1
  obtain ⟨honeOf, items, hitems, hitemsSpell⟩ := hspells
  have htest : p.test = .oneOf items :=
    Test.eq_oneOf (hkeeps.operator.trans honeOf) (hvalue.trans hitems)
  have hkeys : ∀ v ∈ items, v.isKey = true := by
    have hpresence : p.isPresence = false := by rw [Predicate.isPresence, htest]
    have hasked : p.asked = items := by rw [Predicate.asked, htest]
    rw [← hasked]
    exact (hlegal.admits p hp).keys hkeeps.property hpresence
  cases hitemsSpell with
  | nil => exact hne rfl
  | cons hv _ =>
      obtain ⟨record, rfl, -⟩ := hv.labelled
      exact Bool.false_ne_true (hkeys _ List.mem_cons_self)

/-- **Keys in a document**. The comparison records of a document are the predicates of its query,
    one for one, and each predicate keeps what its record asks, with a key in the place of a record
    that spells it, and with lists as they are. No comparison with keys stands in the way of a query:
    a document whose shape can be read has one if its joins have parts and the other comparisons
    become predicates. -/
theorem ofSelectors_keys (document : Value) :
    (∀ q, ofSelectors document = .ok q →
        List.Forall₂ (fun fields p => ∃ c, Selector.IsComparison fields c ∧ c.Keeps p)
          (Selection.comparisonRecords document) q.allPredicates)
      ∧ ∀ s, Selection.read? document = some s → s.populated = true →
        (∀ fields ∈ Selection.comparisonRecords document, ∃ c, Selector.IsComparison fields c
          ∧ ((∃ k, c.SpellsKey k) ∨ (∃ ks, c.SpellsKeys ks) ∨ c.Converts)) →
        ∃ q, ofSelectors document = .ok q := by
  constructor
  · exact fun q hq => predicates_keep hq
  · intro s hs hparts hrecords
    rw [ofSelectors, hs]
    refine Selection.exists_toQuery hparts fun c hc => ?_
    obtain ⟨fields, hfields, hfieldsc⟩ := exists_left_of_forall₂ (Selection.read?_comparisons hs) hc
    obtain ⟨d, hd, hspells⟩ := hrecords fields hfields
    obtain rfl := hfieldsc.unique hd
    rcases hspells with ⟨k, hk⟩ | ⟨ks, hks⟩ | h
    · exact hk.converts
    · exact hks.converts
    · exact h

/-- A mall, and a shop in it. -/
def mall : Key := .root "eu" "Mall" (.name "x")

def shop : Key := .child mall "eu" "Shop" (.number 7)

/-- The record of the shops after this one. -/
def shopsAfter : List (String × Value) :=
  [("type", .text "comparison"), ("field", .text "__key__"), ("op", .text "GT"),
    ("value", shop.document)]

/-- The record of the shops that a mall owns. -/
def shopsOwned : List (String × Value) :=
  [("type", .text "comparison"), ("field", .text "owner"), ("op", .text " eq "),
    ("value", mall.document)]

/-- The shops after this one that the mall owns. -/
def shopsDocument : Value :=
  .record [("kind", .text "Shop"), ("filters", .record [("type", .text "logical"),
    ("clauses", .list [.record shopsAfter, .record [("type", .text "logical"), ("op", .text "OR"),
      ("clauses", .list [.record shopsOwned])]])])]

theorem shopsAfter_isComparison : Selector.IsComparison shopsAfter
    ⟨"__key__", .relation .greater, shop.document⟩ :=
  ⟨by decide, by decide, rfl, by decide, rfl⟩

theorem shopsOwned_isComparison : Selector.IsComparison shopsOwned
    ⟨"owner", .relation .equal, mall.document⟩ :=
  ⟨by decide, by decide, rfl, by decide, rfl⟩

/-- The shop and the mall stand in the query as keys. -/
theorem ofSelectors_keys_shops : ∃ q a b, ofSelectors shopsDocument = .ok q
    ∧ q.allPredicates = [a, b]
    ∧ a.test.value = .key shop ∧ b.test.value = .key mall := by
  obtain ⟨hkeeps, hquery⟩ := ofSelectors_keys shopsDocument
  have hrecords : Selection.comparisonRecords shopsDocument = [shopsAfter, shopsOwned] := rfl
  have hread : (Selection.read? shopsDocument).isSome = true := by decide
  obtain ⟨s, hs⟩ := Option.isSome_iff_exists.mp hread
  have hparts : (Selection.read? shopsDocument).all Selection.populated = true := by decide
  rw [hs] at hparts
  have hshop : Selector.Comparison.SpellsKey ⟨"__key__", .relation .greater, shop.document⟩ shop :=
    ⟨by decide, by decide, Key.spells_document shop⟩
  have hmall : Selector.Comparison.SpellsKey ⟨"owner", .relation .equal, mall.document⟩ mall :=
    ⟨by decide, by decide, Key.spells_document mall⟩
  have hspelled : ∀ fields ∈ Selection.comparisonRecords shopsDocument,
      ∃ c, Selector.IsComparison fields c
        ∧ ((∃ k, c.SpellsKey k) ∨ (∃ ks, c.SpellsKeys ks) ∨ c.Converts) := by
    rw [hrecords, List.forall_mem_cons, List.forall_mem_singleton]
    exact ⟨⟨_, shopsAfter_isComparison, .inl ⟨_, hshop⟩⟩,
      ⟨_, shopsOwned_isComparison, .inl ⟨_, hmall⟩⟩⟩
  obtain ⟨q, hq⟩ := hquery s hs hparts hspelled
  have hpredicates := hkeeps q hq
  rw [hrecords] at hpredicates
  generalize hps : q.allPredicates = ps at hpredicates
  rcases hpredicates with _ | ⟨⟨c, hc, ha⟩, _ | ⟨⟨d, hd, hb⟩, _ | _⟩⟩
  obtain rfl := hc.unique shopsAfter_isComparison
  obtain rfl := hd.unique shopsOwned_isComparison
  exact ⟨q, _, _, hq, hps, ha.key _ hshop, hb.key _ hmall⟩

/-- A task and one of a project, as records and as keys. -/
def taskRecords : List Value :=
  [.record [("kind", .text "Task"), ("id", .int 1)],
    .record [("kind", .text "Task"), ("id", .text "b"),
      ("parent", .record [("kind", .text "Project"), ("id", .int 7)])]]

def taskKeys : List Key :=
  [.root "" "Task" (.number 1), .child (.root "" "Project" (.number 7)) "" "Task" (.name "b")]

/-- The record of the tasks that are listed. -/
def tasksListed : List (String × Value) :=
  [("type", .text "comparison"), ("field", .text "__key__"), ("op", .text "in"),
    ("value", .list taskRecords)]

theorem taskRecords_spell : List.Forall₂ Key.Spells taskRecords taskKeys := by
  have hproject : Key.Spells (.record [("kind", .text "Project"), ("id", .int 7)])
      (.root "" "Project" (.number 7)) :=
    .root ⟨by decide, by decide, rfl, rfl, rfl⟩ rfl
  refine .cons (.root ⟨by decide, by decide, rfl, rfl, rfl⟩ rfl) (.cons ?_ .nil)
  exact .child ⟨by decide, by decide, rfl, rfl, rfl⟩ rfl hproject

/-- The records in a list spell keys, and the query has the records in their place. -/
theorem ofSelectors_tasksListed :
    Selector.IsComparison tasksListed ⟨"__key__", .oneOf, .list taskRecords⟩
      ∧ Selector.Comparison.SpellsKeys ⟨"__key__", .oneOf, .list taskRecords⟩ taskKeys
      ∧ ∃ q p, ofSelectors (.record [("kind", .text "Task"), ("filters", .record tasksListed)])
          = .ok q
        ∧ q.filter = some (.leaf p) ∧ p.test.value = .list taskRecords
        ∧ p.test.value ≠ .list (taskKeys.map .key) := by
  refine ⟨⟨by decide, by decide, rfl, by decide, rfl⟩, ⟨rfl, _, rfl, taskRecords_spell⟩, ?_⟩
  refine ⟨{ kind := some "Task", filter := some (.leaf ⟨"__key__", .oneOf taskRecords⟩) },
    ⟨"__key__", .oneOf taskRecords⟩, ?_, rfl, rfl, ?_⟩
  · rfl
  · rw [Test.value, ne_eq, Selector.list_eq_keys_iff taskRecords_spell]
    exact List.cons_ne_nil _ _

end Query

end EntityQuery
