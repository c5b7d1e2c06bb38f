import EntityQuery.Catalog
import EntityQuery.Proofs.Outcome

/-!
# Reading catalogs — what a document that is no catalog ends in

A document can have anything where a list of indexes, an entry or a property is expected. Nearly all
of it is reported as a fault of the catalog, with the number of the entry: a document that is no
record, indexes that are no list, entries that are no records, and all that is found out when an
index is read. One place is looked at before that: the properties of an entry are gone through, and
a value that has no members, such as a number, stops the reading there and then.

* **`readEntries_eq_error`** — reading stops at the first entry that has a fault.
* **`ofDocument_reported_iff`** — faults are reported unless properties have no members.
-/

namespace EntityQuery

variable {path : Option String}

/-- A fault that is reported as one of the catalog read from a path. -/
def Fault.IsReport (path : Option String) (f : Fault) : Prop := ∃ cause, f = .catalog path cause

/-- Whether a document has members that can be gone through. -/
def Value.isCollection : Value → Bool
  | .list _ | .text _ | .bytes _ | .record _ => true
  | _ => false

namespace Index

/-- The properties of an entry count as something, but have no members. -/
def Memberless (entry : Value) : Prop :=
  ∃ fields, entry = .record fields
    ∧ (Value.fieldOrNull fields "properties").isPresent = true
    ∧ (Value.fieldOrNull fields "properties").isCollection = false

/-- Going through the properties of an entry fails only where they have no members. -/
theorem entryProperties_eq_error {fields : List (String × Value)} {f : Fault} :
    entryProperties fields = .error f ↔
      f = .propertiesNotCollection ∧ Memberless (.record fields) := by
  have hmemberless : Memberless (.record fields)
      ↔ (Value.fieldOrNull fields "properties").isPresent = true
        ∧ (Value.fieldOrNull fields "properties").isCollection = false := by
    constructor
    · rintro ⟨fields', hfields, h⟩
      rwa [Value.record.inj hfields]
    · exact fun h => ⟨fields, rfl, h⟩
  rw [hmemberless, entryProperties]
  generalize Value.fieldOrNull fields "properties" = v
  by_cases hpresent : v.isPresent = true
  · rw [if_neg (by simp [hpresent]), and_iff_right hpresent]
    cases v <;> simp [Value.isCollection, @eq_comm _ Fault.propertiesNotCollection]
  · rw [if_pos (by simp [hpresent])]
    exact ⟨fun h => (by cases h), fun h => absurd h.2.1 hpresent⟩

/-- The fault of an entry is reported, but for properties without members. -/
theorem ofEntry_eq_error {position : Nat} {entry : Value} {f : Fault}
    (h : ofEntry path position entry = .error f) :
    f.IsReport path ∨ f = .propertiesNotCollection ∧ Memberless entry := by
  cases entry with
  | record fields =>
      rw [ofEntry] at h
      rcases bind_eq_error.mp h with hproperties | ⟨properties, -, hread⟩
      · exact .inr (entryProperties_eq_error.mp hproperties)
      · split at hread
        · cases hread
        · exact .inl ⟨_, (Except.error.inj hread).symm⟩
  | _ => exact .inl ⟨_, (Except.error.inj h).symm⟩

/-- The properties of an entry are gone through before anything else is looked at. -/
theorem ofEntry_of_memberless {entry : Value} (h : Memberless entry) (position : Nat) :
    ofEntry path position entry = .error .propertiesNotCollection := by
  obtain ⟨fields, rfl, hfields⟩ := h
  exact bind_eq_error.mpr
    (.inl (entryProperties_eq_error.mpr ⟨rfl, fields, rfl, hfields⟩))

end Index

namespace Catalog

/-- Reading stops at the first entry that has a fault. -/
theorem readEntries_eq_error {entries : List Value} {i : Nat} {f : Fault} :
    readEntries path i entries = .error f ↔ ∃ before entry after,
      entries = before ++ entry :: after ∧ (∃ indexes, readEntries path i before = .ok indexes)
        ∧ Index.ofEntry path (i + before.length) entry = .error f := by
  induction entries generalizing i with
  | nil =>
      constructor
      · intro h
        cases h
      · rintro ⟨before, entry, after, h, -⟩
        cases before <;> cases h
  | cons first rest ih =>
      rw [readEntries, bind_eq_error]
      constructor
      · rintro (hfirst | ⟨index, hindex, hrest⟩)
        · exact ⟨[], first, rest, rfl, ⟨[], rfl⟩, hfirst⟩
        · -- the first entry is one of those before the fault
          rcases bind_eq_error.mp hrest with hrest | ⟨indexes, -, hdone⟩
          · obtain ⟨before, entry, after, rfl, ⟨indexes, hbefore⟩, hentry⟩ := ih.mp hrest
            refine ⟨first :: before, entry, after, rfl, ⟨index :: indexes, ?_⟩, ?_⟩
            · exact bind_eq_ok.mpr ⟨index, hindex, bind_eq_ok.mpr ⟨indexes, hbefore, rfl⟩⟩
            · rwa [List.length_cons, Nat.add_comm before.length, ← Nat.add_assoc]
          · cases hdone
      · rintro ⟨before, entry, after, hsplit, ⟨indexes, hbefore⟩, hentry⟩
        cases before with
        | nil =>
            obtain ⟨rfl, rfl⟩ := List.cons.inj hsplit
            exact .inl hentry
        | cons first' before =>
            obtain ⟨rfl, rfl⟩ := List.cons.inj hsplit
            obtain ⟨index, hindex, hbefore⟩ := bind_eq_ok.mp hbefore
            obtain ⟨indexes, hbefore, -⟩ := bind_eq_ok.mp hbefore
            refine .inr ⟨index, hindex, bind_eq_error.mpr (.inl (ih.mpr ?_))⟩
            refine ⟨before, entry, after, rfl, ⟨indexes, hbefore⟩, ?_⟩
            rwa [List.length_cons, Nat.add_comm before.length, ← Nat.add_assoc] at hentry

/-- The catalog of a document, of which the first entries were declared by hand. -/
def ofDocument (path : Option String) (manualCount : Nat) (document : Option Value) :
    Except Fault Catalog :=
  entriesOf path document >>= ofEntries path manualCount

/-- A text gives the catalog of its document, if the part above the marker can be read too. -/
theorem ofText_eq_ofDocument {text : String} {document : Option Value}
    (hread : Yaml.read text = .ok document)
    (habove : ∀ above, aboveMarker? text = some above →
      ∃ manual, entries path above = .ok manual) :
    ∃ manualCount, ofText text path = ofDocument path manualCount document := by
  have hentries : entries path text = entriesOf path document := by
    rw [entries, hread]
  rw [ofText, hentries]
  cases hall : entriesOf path document with
  | error f =>
      refine ⟨0, ?_⟩
      rw [ofDocument, hall]
      rfl
  | ok all =>
      cases hmarker : aboveMarker? text with
      | none =>
          refine ⟨all.length, ?_⟩
          rw [ofDocument, hall]
          rfl
      | some above =>
          obtain ⟨manual, hmanual⟩ := habove above hmarker
          refine ⟨manual.length, ?_⟩
          rw [ofDocument, hall]
          simp only [hmanual]
          rfl

/-- Some entry has properties without members, and all entries before it can be read. -/
def Stuck (path : Option String) (document : Option Value) : Prop :=
  ∃ before entry after, entriesOf path document = .ok (before ++ entry :: after)
    ∧ (∃ indexes, readEntries path 0 before = .ok indexes) ∧ Index.Memberless entry

/-- A document without a list of entries is reported. -/
theorem entriesOf_eq_error {document : Option Value} {f : Fault}
    (h : entriesOf path document = .error f) : f.IsReport path := by
  unfold entriesOf at h
  split at h
  · cases h
  · cases h
  · simp only at h
    split at h
    · cases h
    · split at h
      · cases h
      · exact ⟨_, (Except.error.inj h).symm⟩
  · exact ⟨_, (Except.error.inj h).symm⟩

/-- The fault of a document is that of its list of entries or that of the first bad entry. -/
theorem ofDocument_eq_error {manualCount : Nat} {document : Option Value} {f : Fault}
    (h : ofDocument path manualCount document = .error f) :
    f.IsReport path ∨ f = .propertiesNotCollection ∧ Stuck path document := by
  rcases bind_eq_error.mp h with hentries | ⟨entries, hentries, hread⟩
  · exact .inl (entriesOf_eq_error hentries)
  · rcases bind_eq_error.mp hread with hread | ⟨indexes, -, hdone⟩
    · obtain ⟨before, entry, after, rfl, hbefore, hentry⟩ := readEntries_eq_error.mp hread
      rcases Index.ofEntry_eq_error hentry with hreport | ⟨hfault, hentry⟩
      · exact .inl hreport
      · exact .inr ⟨hfault, before, entry, after, hentries, hbefore, hentry⟩
    · cases hdone

theorem ofDocument_of_stuck {document : Option Value} (h : Stuck path document)
    (manualCount : Nat) :
    ofDocument path manualCount document = .error .propertiesNotCollection := by
  obtain ⟨before, entry, after, hentries, hbefore, hentry⟩ := h
  refine bind_eq_error.mpr (.inr ⟨_, hentries, bind_eq_error.mpr (.inl ?_)⟩)
  exact readEntries_eq_error.mpr
    ⟨before, entry, after, rfl, hbefore, Index.ofEntry_of_memberless hentry _⟩

/-- **Malformed catalogs.** Reading a document gives a catalog or reports a fault of it, exactly
    unless the properties of an entry have no members and nothing before that entry is at fault.
    Then reading stops without a report. -/
theorem ofDocument_reported_iff (path : Option String) (manualCount : Nat)
    (document : Option Value) :
    (((∃ c, ofDocument path manualCount document = .ok c)
        ∨ ∃ cause, ofDocument path manualCount document = .error (.catalog path cause))
      ↔ ¬ Stuck path document)
    ∧ (Stuck path document
      → ofDocument path manualCount document = .error .propertiesNotCollection) := by
  refine ⟨⟨?_, fun hnot => ?_⟩, fun hstuck => ofDocument_of_stuck hstuck manualCount⟩
  · intro hreported hstuck
    rw [ofDocument_of_stuck hstuck] at hreported
    rcases hreported with ⟨c, hc⟩ | ⟨cause, hcause⟩
    · cases hc
    · cases hcause
  · cases hdocument : ofDocument path manualCount document with
    | ok c => exact .inl ⟨c, rfl⟩
    | error f =>
        rcases ofDocument_eq_error hdocument with ⟨cause, rfl⟩ | ⟨-, hstuck⟩
        · exact .inr ⟨cause, rfl⟩
        · exact absurd hstuck hnot

/-- The document with one entry, of which the properties are a number. -/
def counted : Value :=
  .record [("indexes", .list [.record [("kind", .text "Person"), ("properties", .int 5)]])]

/-- A number in the place of properties is not reported. -/
theorem ofDocument_counted_unreported :
    ofDocument none 1 (some counted) = .error .propertiesNotCollection
      ∧ ∀ cause, ofDocument none 1 (some counted) ≠ .error (.catalog none cause) := by
  have hcounted : ofDocument none 1 (some counted) = .error .propertiesNotCollection := by
    rfl
  refine ⟨hcounted, fun cause h => ?_⟩
  rw [hcounted] at h
  cases h

end Catalog

end EntityQuery
