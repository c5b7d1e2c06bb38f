import EntityQuery.Proofs.Catalog.RoundTrip

/-!
# Entries — what is read of an entry, written and read again

An index can be read of an entry exactly if each of its properties has a direction or a mode. However
the entry spells them, what is read of it can be written and read again, in any place of any catalog.
A writer leaves out ascending directions, and next to no mode the reader fills them in again. Next to
a mode nothing is filled in, and so a geospatial property that was declared as ascending comes back
without a direction. Nothing else is lost.

* **`Index.exists_ofEntry_iff`** — which indexes are read of entries.
* **`IndexProperty.settled_of_said`** — what comes back of a property that was read.
* **`Index.ofEntry_document_of_ofEntry`** — what comes back of an index that was read, and when it
  is the same one.
-/

namespace EntityQuery

namespace IndexProperty

variable {p : IndexProperty}

/-- A property is geospatial, and ascending all the same. -/
def IsRising (p : IndexProperty) : Prop :=
  p.isGeospatial = true ∧ p.direction = some .ascending

instance : DecidablePred IsRising := fun _ => inferInstanceAs (Decidable (_ ∧ _))

/-- The property, without its direction if it is geospatial and ascending. -/
def levelled (p : IndexProperty) : IndexProperty :=
  if p.IsRising then { p with direction := none } else p

@[simp] theorem levelled_eq_self_iff : p.levelled = p ↔ ¬ p.IsRising := by
  rw [levelled]
  split
  · rename_i hrising
    refine iff_of_false (fun h => ?_) (not_not_intro hrising)
    have hdirection : none = p.direction := congrArg IndexProperty.direction h
    rw [hrising.2] at hdirection
    cases hdirection
  · rename_i hlevel
    exact iff_of_true rfl hlevel

/-- A property with a direction or a mode loses an ascending direction next to a mode when it is
    written and read, and nothing else. -/
theorem settled_of_said (h : p.direction ≠ none ∨ p.mode ≠ none) : p.settled = p.levelled := by
  obtain ⟨name, direction, mode⟩ := p
  cases mode with
  | none =>
      have hdirection : direction ≠ none := h.resolve_right (not_not_intro rfl)
      obtain ⟨d, rfl⟩ := Option.ne_none_iff_exists'.mp hdirection
      rfl
  | some mode =>
      cases mode
      rcases direction with _ | (_ | _) <;> rfl

/-- The record of a property with its direction, whichever it is. -/
def declaration (p : IndexProperty) : Value :=
  .record ([("name", .text p.name)]
    ++ (match p.direction with
      | some direction => [("direction", .text direction.word)]
      | none => [])
    ++ (match p.mode with
      | some mode => [("mode", .text mode.word)]
      | none => []))

/-- A property with a direction or a mode is read of its declaration as it was. -/
theorem read?_completeProperty_declaration (h : p.direction ≠ none ∨ p.mode ≠ none) :
    read? (Index.completeProperty p.declaration) = some p := by
  obtain ⟨name, direction, mode⟩ := p
  rcases direction with _ | (_ | _) <;> rcases mode with _ | (_ | _)
  · exact absurd rfl (h.resolve_right (not_not_intro rfl))
  all_goals rfl

end IndexProperty

namespace Index

variable {path : Option String} {position : Nat} {entry : Value} {index : Index}

/-! ## Which indexes are read of entries -/

/-- The entry of an index with all that it says. -/
def declaration (index : Index) : Value :=
  .record [("kind", match index.kind with
      | some kind => .text kind
      | none => .null),
    ("ancestor", .bool index.ancestor),
    ("properties", .list (index.properties.map IndexProperty.declaration))]

/-- The declaration of an index, with other documents in the place of its properties. -/
theorem read?_declaration (index : Index) (items : List Value) :
    ∃ fields, index.declaration = .record fields
      ∧ entryProperties fields
        = .ok ((index.properties.map IndexProperty.declaration).map completeProperty)
      ∧ read? (.record (Yaml.setField "properties" (.list items) fields))
        = (items.mapM IndexProperty.read?).map fun properties =>
          ⟨index.kind, index.ancestor, properties⟩ := by
  obtain ⟨kind, ancestor, properties⟩ := index
  refine ⟨_, rfl, ?_, ?_⟩
  · cases properties <;> rfl
  · rw [Option.map_eq_bind]
    cases kind <;> rfl

/-- An index whose properties have a direction or a mode is read of its declaration as it was. -/
theorem ofEntry_declaration (path : Option String) (position : Nat)
    (h : ∀ p ∈ index.properties, p.direction ≠ none ∨ p.mode ≠ none) :
    ofEntry path position index.declaration = .ok index := by
  obtain ⟨fields, hfields, hproperties, hread⟩ := index.read?_declaration
    ((index.properties.map IndexProperty.declaration).map completeProperty)
  have hback : ((index.properties.map IndexProperty.declaration).map completeProperty).mapM
      IndexProperty.read? = some (index.properties.map id) :=
    mapM_read?_map fun p hp => IndexProperty.read?_completeProperty_declaration (h p hp)
  rw [hback, List.map_id] at hread
  rw [hfields]
  exact ofEntry_of_read? hproperties hread

/-- An index is read of some entry exactly if its properties have a direction or a mode. -/
theorem exists_ofEntry_iff : (∃ path position entry, ofEntry path position entry = .ok index)
    ↔ ∀ p ∈ index.properties, p.direction ≠ none ∨ p.mode ≠ none := by
  constructor
  · rintro ⟨path, position, entry, h⟩
    exact said_of_ofEntry h
  · intro h
    exact ⟨none, 0, _, ofEntry_declaration none 0 h⟩

/-! ## What comes back of them -/

/-- The index, without directions of geospatial properties that are ascending. -/
def levelled (index : Index) : Index :=
  { index with properties := index.properties.map IndexProperty.levelled }

@[simp] theorem levelled_eq_self_iff :
    index.levelled = index ↔ ∀ p ∈ index.properties, ¬ p.IsRising := by
  rw [levelled, mapProperties_eq_self_iff]
  simp only [IndexProperty.levelled_eq_self_iff]

/-- **Entries.** What is read of an entry can be written, and read again in any place. It comes back
    with its kind, its ancestor flag and its properties in their order, of which those that are
    geospatial and ascending have lost their direction. So it comes back as it was exactly if it
    has none of these, and from then on always; and it always would if all directions were
    written. -/
theorem ofEntry_document_of_ofEntry (h : ofEntry path position entry = .ok index) :
    (∀ path position, ofEntry path position index.document = .ok index.levelled)
    ∧ (∀ path position, ofEntry path position index.document = .ok index
      ↔ ∀ p ∈ index.properties, ¬ p.IsRising)
    ∧ (∀ path position, ofEntry path position index.levelled.document = .ok index.levelled)
    ∧ ∀ path position, ofEntry path position index.declaration = .ok index := by
  have hsettled : index.settled = index.levelled :=
    congrArg (Index.mk index.kind index.ancestor) (List.map_congr_left fun p hp =>
      IndexProperty.settled_of_said (said_of_ofEntry h p hp))
  have hback : ∀ path position, ofEntry path position index.document = .ok index.levelled := by
    intro path position
    rw [ofEntry_document, hsettled]
  refine ⟨hback, fun path position => ?_, fun path position => ?_, fun path position => ?_⟩
  · rw [hback, Except.ok.injEq, levelled_eq_self_iff]
  · rw [ofEntry_document, ← hsettled, settled_settled]
  · exact ofEntry_declaration path position (said_of_ofEntry h)

/-- An entry for shops around a place by price, with or without a direction for the place. -/
def shopsEntry (direction : List (String × Value)) : Value :=
  .record [("kind", .text "Shop"), ("ancestor", .text " TRUE "),
    ("properties", .list [
      .record ([("name", .text "place"), ("mode", .text "geospatial")] ++ direction),
      .record [("name", .text "price"), ("direction", .text "Ascending")]])]

/-- The index for shops around a place by price. -/
def shopsByPrice (direction : Option Direction) : Index :=
  ⟨some "Shop", true, [⟨"place", direction, some .geospatial⟩, .ascending "price"]⟩

/-- Without a direction for the place the index comes back, though it is spelled in another way. -/
theorem ofEntry_document_of_ofEntry_shops :
    ofEntry none 0 (shopsEntry []) = .ok (shopsByPrice none)
      ∧ ofEntry none 0 (shopsByPrice none).document = .ok (shopsByPrice none) := by
  have hentry : ofEntry none 0 (shopsEntry []) = .ok (shopsByPrice none) := by
    rfl
  obtain ⟨-, hsame, -⟩ := ofEntry_document_of_ofEntry hentry
  exact ⟨hentry, (hsame none 0).mpr (by decide)⟩

/-- An ascending direction for the place is lost. -/
theorem shopsByPrice_levelled :
    ofEntry none 0 (shopsEntry [("direction", .text "asc")]) = .ok (shopsByPrice (some .ascending))
      ∧ ofEntry none 0 (shopsByPrice (some .ascending)).document = .ok (shopsByPrice none)
      ∧ shopsByPrice none ≠ shopsByPrice (some .ascending) :=
  ⟨rfl, rfl, by decide⟩

end Index

end EntityQuery
