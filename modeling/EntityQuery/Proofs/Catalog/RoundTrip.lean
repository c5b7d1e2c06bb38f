import EntityQuery.Proofs.Catalog.Document
import EntityQuery.Proofs.Catalog.Reading
import EntityQuery.Proofs.Index.Geospatial
import EntityQuery.Proofs.Planner.Convergence

/-!
# Round trips — indexes that are written to a catalog and read back

A catalog leaves ascending directions out when it is written, and fills them in when it is read, for
properties that have neither a direction nor a mode. What comes back of a property is therefore not
always what was there: an index *settles* when it is written and read for the first time. Indexes
that were read from a catalog have a direction or a mode for each property, and so do the indexes
recommended next to them, except that a full index for regions lists the properties that bear
equalities with neither. Such an index comes back as another one, and is recommended again.

* **`Index.ofEntry_document`** — what comes back of an index.
* **`Catalog.ofText_toText`** — what comes back of a catalog.
* **`NormalForm.recommended_survives_iff`** — which recommended indexes come back as they were.
-/

namespace EntityQuery

/-- What is read of a list is read of its elements. -/
theorem exists_of_mapM_eq_some {α β : Type} {f : α → Option β} {xs : List α} {ys : List β}
    (h : xs.mapM f = some ys) {y : β} (hy : y ∈ ys) : ∃ x ∈ xs, f x = some y := by
  induction xs generalizing ys with
  | nil =>
      obtain rfl := Option.some.inj h
      cases hy
  | cons x xs ih =>
      rw [List.mapM_cons] at h
      obtain ⟨z, hz, h⟩ := Option.bind_eq_some_iff.mp h
      obtain ⟨zs, hzs, h⟩ := Option.bind_eq_some_iff.mp h
      obtain rfl := Option.some.inj h
      rcases List.mem_cons.mp hy with rfl | hy
      · exact ⟨x, List.mem_cons_self, hz⟩
      · obtain ⟨x', hx', hread⟩ := ih hzs hy
        exact ⟨x', List.mem_cons_of_mem x hx', hread⟩

namespace Value

variable {fields : List (String × Value)} {name : String}

@[simp] theorem field?_setField {v : Value} :
    field? (Yaml.setField name v fields) name = some v := by
  induction fields with
  | nil => simp [Yaml.setField, field?]
  | cons f fs ih =>
      obtain ⟨key, w⟩ := f
      rw [Yaml.setField]
      split
      · simp [field?]
      · rename_i hne
        rw [field?, List.lookup_cons, beq_eq_false_iff_ne.mpr (Ne.symm hne)]
        exact ih

/-- An optional field that reads as nothing is null or missing. -/
theorem isNull_of_readField? {α : Type} {read : Value → Option α}
    (h : readField? fields name none (asOptional? read) = some none) :
    (fieldOrNull fields name).isNull = true := by
  rw [fieldOrNull]
  rw [readField?] at h
  cases hfield : field? fields name with
  | none => rfl
  | some v =>
      rw [hfield] at h
      cases v with
      | null => rfl
      | _ => simp [asOptional?] at h

end Value

namespace IndexProperty

/-- What a catalog gives back of a property that is written to it. Without a mode it has a
    direction, and with a mode it keeps a direction only if that is descending. -/
def settled (p : IndexProperty) : IndexProperty :=
  match p.mode with
  | none => { p with direction := some (p.direction.getD .ascending) }
  | some _ => { p with direction := if p.direction = some .descending then p.direction else none }

/-- A property comes back from a catalog as it settles. -/
@[simp] theorem read?_completeProperty_document (p : IndexProperty) :
    read? (Index.completeProperty p.document) = some p.settled := by
  obtain ⟨name, direction, mode⟩ := p
  rcases direction with _ | (_ | _) <;> rcases mode with _ | (_ | _) <;> rfl

@[simp] theorem settled_settled (p : IndexProperty) : p.settled.settled = p.settled := by
  obtain ⟨name, direction, mode⟩ := p
  rcases direction with _ | (_ | _) <;> rcases mode with _ | (_ | _) <;> rfl

/-- A property comes back as it was if it has a direction or a mode, and not both an ascending
    direction and a mode. -/
@[simp] theorem settled_eq_self_iff {p : IndexProperty} :
    p.settled = p ↔ (p.mode = none → p.direction ≠ none)
      ∧ (p.mode ≠ none → p.direction ≠ some .ascending) := by
  obtain ⟨name, direction, mode⟩ := p
  rcases direction with _ | (_ | _) <;> rcases mode with _ | (_ | _) <;> simp [settled]

theorem read?_eq_some {fields : List (String × Value)} {p : IndexProperty}
    (h : read? (.record fields) = some p) :
    Value.readField? fields "direction" none (Value.asOptional? Direction.read?) = some p.direction
      ∧ Value.readField? fields "mode" none
        (Value.asOptional? (Value.asWord? [] IndexMode.ofWord?)) = some p.mode := by
  rw [read?] at h
  split at h
  · cases h
  · obtain ⟨_, -, h⟩ := Option.bind_eq_some_iff.mp h
    obtain ⟨_, -, h⟩ := Option.bind_eq_some_iff.mp h
    obtain ⟨direction, hdirection, h⟩ := Option.bind_eq_some_iff.mp h
    obtain ⟨mode, hmode, h⟩ := Option.bind_eq_some_iff.mp h
    obtain rfl := Option.some.inj h
    exact ⟨hdirection, hmode⟩

/-- A property that is read from an entry has a direction or a mode. -/
theorem said_of_read? {v : Value} {p : IndexProperty}
    (h : read? (Index.completeProperty v) = some p) : p.direction ≠ none ∨ p.mode ≠ none := by
  cases v with
  | record fields =>
      rw [Index.completeProperty] at h
      split at h
      · -- neither was there, so the direction has been filled in
        refine .inl fun hnone => ?_
        obtain ⟨hdirection, -⟩ := read?_eq_some h
        rw [Value.readField?, Value.field?_setField, hnone] at hdirection
        revert hdirection
        decide
      · rename_i hthere
        by_contra hsilent
        rw [not_or, not_not, not_not] at hsilent
        obtain ⟨hdirection, hmode⟩ := read?_eq_some h
        rw [hsilent.1] at hdirection
        rw [hsilent.2] at hmode
        refine hthere ?_
        rw [Value.isNull_of_readField? hdirection, Value.isNull_of_readField? hmode]
        rfl
  | _ => cases h

end IndexProperty

namespace Index

/-- What a catalog gives back of an index that is written to it. -/
def settled (index : Index) : Index :=
  { index with properties := index.properties.map IndexProperty.settled }

/-- Properties are read one by one, in whatever way they are written. -/
theorem mapM_read?_map {write : IndexProperty → Value} {back : IndexProperty → IndexProperty}
    {properties : List IndexProperty}
    (h : ∀ p ∈ properties, IndexProperty.read? (completeProperty (write p)) = some (back p)) :
    ((properties.map write).map completeProperty).mapM IndexProperty.read?
      = some (properties.map back) := by
  induction properties with
  | nil => rfl
  | cons p ps ih =>
      obtain ⟨hp, hps⟩ := List.forall_mem_cons.mp h
      rw [List.map_cons, List.map_cons, List.mapM_cons, hp, ih hps]
      rfl

/-- The record of an index, with other documents in the place of its properties. -/
theorem read?_document (index : Index) (items : List Value) :
    ∃ fields, index.document = .record fields
      ∧ entryProperties fields
        = .ok ((index.properties.map IndexProperty.document).map completeProperty)
      ∧ read? (.record (Yaml.setField "properties" (.list items) fields))
        = (items.mapM IndexProperty.read?).map fun properties =>
          ⟨index.kind, index.ancestor, properties⟩ := by
  obtain ⟨kind, ancestor, properties⟩ := index
  refine ⟨_, rfl, ?_, ?_⟩
  · cases kind <;> cases ancestor <;> cases properties <;> rfl
  · rw [Option.map_eq_bind]
    cases kind <;> cases ancestor <;> cases properties <;> rfl

/-- An entry is read with its properties made complete. -/
theorem ofEntry_of_read? {path : Option String} {position : Nat} {fields : List (String × Value)}
    {items : List Value} {index : Index} (hitems : entryProperties fields = .ok items)
    (hread : read? (.record (Yaml.setField "properties" (.list items) fields)) = some index) :
    ofEntry path position (.record fields) = .ok index := by
  refine bind_eq_ok.mpr ⟨items, hitems, ?_⟩
  rw [hread]
  rfl

/-- An index comes back from a catalog as it settles, in whatever place. -/
@[simp] theorem ofEntry_document (path : Option String) (position : Nat) (index : Index) :
    ofEntry path position index.document = .ok index.settled := by
  obtain ⟨fields, hfields, hproperties, hread⟩ := index.read?_document
    ((index.properties.map IndexProperty.document).map completeProperty)
  rw [mapM_read?_map fun p _ => p.read?_completeProperty_document] at hread
  rw [hfields]
  exact ofEntry_of_read? hproperties hread

/-- The properties of an entry are gone through one by one, each made complete. -/
theorem exists_completeProperty {fields : List (String × Value)} {items : List Value}
    (h : entryProperties fields = .ok items) : ∀ v ∈ items, ∃ w, completeProperty w = v := by
  unfold entryProperties at h
  dsimp only at h
  split at h
  · obtain rfl := Except.ok.inj h
    exact List.forall_mem_nil _
  · split at h
    · obtain rfl := Except.ok.inj h
      exact fun v hv => (List.mem_map.mp hv).imp fun _ hw => hw.2
    -- members of other collections are no records, and complete as they stand
    · obtain rfl := Except.ok.inj h
      intro v hv
      obtain ⟨c, -, rfl⟩ := List.mem_map.mp hv
      exact ⟨.text _, rfl⟩
    · obtain rfl := Except.ok.inj h
      intro v hv
      obtain ⟨o, -, rfl⟩ := List.mem_map.mp hv
      exact ⟨.int _, rfl⟩
    · obtain rfl := Except.ok.inj h
      intro v hv
      obtain ⟨f, -, rfl⟩ := List.mem_map.mp hv
      exact ⟨.text _, rfl⟩
    · cases h

/-- The properties of a record are read one by one. -/
theorem mapM_of_read? {fields : List (String × Value)} {items : List Value} {index : Index}
    (h : read? (.record (Yaml.setField "properties" (.list items) fields)) = some index) :
    items.mapM IndexProperty.read? = some index.properties := by
  rw [read?] at h
  split at h
  · cases h
  · obtain ⟨kind, -, h⟩ := Option.bind_eq_some_iff.mp h
    obtain ⟨ancestor, -, h⟩ := Option.bind_eq_some_iff.mp h
    obtain ⟨properties, hproperties, h⟩ := Option.bind_eq_some_iff.mp h
    obtain rfl := Option.some.inj h
    rwa [Value.readField?, Value.field?_setField] at hproperties

/-- The properties of an index that is read from an entry have a direction or a mode. -/
theorem said_of_ofEntry {path : Option String} {position : Nat} {entry : Value} {index : Index}
    (h : ofEntry path position entry = .ok index) :
    ∀ p ∈ index.properties, p.direction ≠ none ∨ p.mode ≠ none := by
  cases entry with
  | record fields =>
      obtain ⟨items, hitems, h⟩ := bind_eq_ok.mp h
      split at h
      · rename_i index' hread
        obtain rfl := Except.ok.inj h
        intro p hp
        obtain ⟨v, hv, hp⟩ := exists_of_mapM_eq_some (mapM_of_read? hread) hp
        obtain ⟨w, rfl⟩ := exists_completeProperty hitems v hv
        exact IndexProperty.said_of_read? hp
      · cases h
  | _ => cases h

@[simp] theorem settled_settled (index : Index) : index.settled.settled = index.settled := by
  rw [settled, settled, List.map_map]
  exact congrArg (Index.mk index.kind index.ancestor)
    (List.map_congr_left fun p _ => p.settled_settled)

/-- An index stays as it is exactly if its properties do. -/
theorem mapProperties_eq_self_iff {f : IndexProperty → IndexProperty} {index : Index} :
    { index with properties := index.properties.map f } = index
      ↔ ∀ p ∈ index.properties, f p = p := by
  obtain ⟨kind, ancestor, properties⟩ := index
  have hmap : properties.map f = properties.map id ↔ ∀ p ∈ properties, f p = id p :=
    List.map_inj_left
  rw [List.map_id] at hmap
  rw [Index.mk.injEq, and_iff_right rfl, and_iff_right rfl]
  exact hmap

@[simp] theorem settled_eq_self_iff {index : Index} :
    index.settled = index ↔ ∀ p ∈ index.properties, p.settled = p :=
  mapProperties_eq_self_iff

end Index

/-! ## Catalogs -/

namespace Catalog

variable {c : Catalog} {path : Option String}

/-- No line that is written for the indexes declared by hand looks like the marker. -/
def Unmarked (c : Catalog) : Prop :=
  (Text.lines { c with generated := [] }.toText).any isMarker = false

instance : Decidable c.Unmarked := inferInstanceAs (Decidable (_ = _))

/-- A text that spells some indexes has their records for entries. -/
theorem entries_of_read {text : String} {indexes : List Index}
    (h : Yaml.read text = .ok (some (documentOf indexes))) :
    entries path text = .ok (indexes.map Index.document) := by
  rw [entries, h]
  cases indexes <;> rfl

/-- Indexes come back from their records as they settle, wherever these stand. -/
@[simp] theorem readEntries_documents (i : Nat) (indexes : List Index) :
    readEntries path i (indexes.map Index.document) = .ok (indexes.map Index.settled) := by
  induction indexes generalizing i with
  | nil => rfl
  | cons index rest ih =>
      exact bind_eq_ok.mpr ⟨_, index.ofEntry_document path i, bind_eq_ok.mpr ⟨_, ih (i + 1), rfl⟩⟩

/-- **Writing and reading.** A catalog that is written and read again has the same indexes in both
    parts, as they settle. -/
theorem ofText_toText (h : c.Unmarked) (path : Option String) :
    ofText c.toText path
      = .ok ⟨c.manual.map Index.settled, c.generated.map Index.settled⟩ := by
  have hwhole : entries path c.toText = .ok (c.indexes.map Index.document) :=
    entries_of_read c.read_toText
  have hmanual : entries path { c with generated := [] }.toText
      = .ok (c.manual.map Index.document) := by
    have hindexes : { c with generated := [] }.indexes = c.manual := List.append_nil _
    rw [entries_of_read { c with generated := [] }.read_toText, hindexes]
  have hread : ofEntries path c.manual.length (c.indexes.map Index.document)
      = .ok ⟨c.manual.map Index.settled, c.generated.map Index.settled⟩ := by
    refine bind_eq_ok.mpr ⟨_, readEntries_documents 0 c.indexes, ?_⟩
    rw [indexes, List.map_append, ← List.length_map (f := Index.settled), List.take_left,
      List.drop_left]
    rfl
  refine bind_eq_ok.mpr ⟨_, hwhole, ?_⟩
  rw [aboveMarker?_toText c h]
  by_cases hgenerated : c.generated = []
  · -- without a marker everything has been declared by hand
    have hcount : (c.indexes.map Index.document).length = c.manual.length := by
      rw [indexes, hgenerated, List.append_nil, List.length_map]
    rw [if_pos hgenerated]
    exact bind_eq_ok.mpr ⟨_, congrArg Except.ok hcount, hread⟩
  · rw [if_neg hgenerated]
    refine bind_eq_ok.mpr ⟨c.manual.length, ?_, hread⟩
    rw [hmanual]
    exact congrArg Except.ok (List.length_map ..)

/-- Adding an index changes nothing exactly if it is there. -/
@[simp] theorem withGenerated_eq_self_iff {index : Index} :
    c.withGenerated [index] = c ↔ index ∈ c.indexes := by
  constructor
  · intro h
    have hsub := c.subset_withGenerated [index]
    rw [h] at hsub
    exact hsub List.mem_cons_self
  · intro h
    exact c.withGenerated_eq_self_of_subset (List.cons_subset.mpr ⟨h, List.nil_subset _⟩)

end Catalog

/-! ## Recommended indexes -/

namespace NormalForm

variable {n : NormalForm} {index : Index} {declared : List Index}

/-- A property with a direction alone comes back as it was. -/
theorem settled_of_directed {p : IndexProperty} (hmode : p.mode = none)
    (hdirection : p.direction ≠ none) : p.settled = p :=
  IndexProperty.settled_eq_self_iff.mpr ⟨fun _ => hdirection, fun h => absurd hmode h⟩

theorem settled_preferred (c : IndexComponent) : ∀ p ∈ c.preferred, p.settled = p := by
  intro p hp
  cases c with
  | ordered properties =>
      obtain ⟨wanted, -, rfl⟩ := List.mem_map.mp hp
      exact settled_of_directed rfl (Option.some_ne_none _)
  | unordered names =>
      obtain ⟨name, -, rfl⟩ := List.mem_map.mp hp
      exact settled_of_directed rfl (Option.some_ne_none _)

/-- A query asks for regions and for equalities, so that an index for it lists properties without a
    direction. -/
def IsUndirected (n : NormalForm) : Prop := n.isGeospatial = true ∧ n.equalities ≠ []

/-- The full index of a query comes back unless it lists properties without a direction. -/
theorem settled_neededIndex_iff (h : n.neededIndex = some index) :
    index.settled = index ↔ ¬ n.IsUndirected := by
  rw [Index.settled_eq_self_iff, eq_of_neededIndex h]
  show (∀ p ∈ n.neededProperties, _) ↔ _
  rw [neededProperties, IsUndirected]
  cases hgeo : n.isGeospatial with
  | true =>
      rw [if_pos rfl, and_iff_right rfl, not_not, List.forall_mem_append]
      constructor
      · rintro ⟨hequal, -⟩
        rw [List.eq_nil_iff_forall_not_mem]
        intro name hname
        have hsettled := hequal _ (List.mem_map_of_mem (List.mem_mergeSort.mpr hname))
        exact (IndexProperty.settled_eq_self_iff.mp hsettled).1 rfl rfl
      · intro hnil
        rw [hnil]
        refine ⟨?_, fun p hp => ?_⟩
        · rw [sortedNames, List.mergeSort_nil]
          exact List.forall_mem_nil _
        · obtain ⟨name, -, rfl⟩ := List.mem_map.mp hp
          rfl
  | false =>
      rw [if_neg Bool.false_ne_true]
      refine iff_of_true ?_ fun h => Bool.false_ne_true h.1
      exact List.forall_mem_append.mpr ⟨List.forall_mem_append.mpr
        ⟨settled_preferred _, settled_preferred _⟩, settled_preferred _⟩

/-- An ending of declared indexes, which were read from entries, comes back. -/
theorem settled_of_served {ending : List IndexProperty}
    (hdeclared : ∀ d ∈ declared, ∀ p ∈ d.properties, p.direction ≠ none ∨ p.mode ≠ none)
    (h : n.Served ending declared) : ∀ p ∈ ending, p.settled = p := by
  obtain ⟨d, hd, leading, hserve⟩ := h
  have husable := serve?_eq_some_iff_usable.mp hserve
  intro p hp
  have hsaid := hdeclared d hd p (by
    rw [husable.cut]
    exact List.mem_append_right _ hp)
  have hmode : p.mode = none := by
    have hplain := husable.plain p hp
    rcases hmode : p.mode with _ | (_ | _)
    · rfl
    · rw [IndexProperty.isGeospatial, hmode] at hplain
      cases hplain
  exact settled_of_directed hmode (hsaid.resolve_right fun h => h hmode)

/-- A recommended index comes back unless it lists properties without a direction. -/
theorem settled_recommended_iff {weight : Nat}
    (hdeclared : ∀ d ∈ declared, ∀ p ∈ d.properties, p.direction ≠ none ∨ p.mode ≠ none)
    (h : n.neededIndex = some index ∨ n.minimalIndex weight declared = some index) :
    index.settled = index ↔ ¬ n.IsUndirected := by
  have hcases : n.neededIndex = some index ∨ n.isGeospatial = false ∧ ∃ e, n.Served e declared
      ∧ index = n.indexFor e (n.uncovered e declared) := h.elim .inl minimalIndex_eq_some
  rcases hcases with hneeded | ⟨hgeo, ending, hserved, rfl⟩
  · exact settled_neededIndex_iff hneeded
  · refine iff_of_true ?_ fun h => Bool.false_ne_true (hgeo ▸ h.1)
    rw [Index.settled_eq_self_iff, indexFor]
    refine List.forall_mem_append.mpr ⟨fun p hp => ?_, settled_of_served hdeclared hserved⟩
    obtain ⟨name, -, rfl⟩ := List.mem_map.mp hp
    exact settled_of_directed rfl (Option.some_ne_none _)

/-- **Recommendations survive a catalog** exactly if they list no property without a direction and
    without a mode. -/
theorem recommended_survives_iff {weight : Nat}
    (hdeclared : ∀ d ∈ declared, ∃ path position entry, Index.ofEntry path position entry = .ok d)
    (h : n.neededIndex = some index ∨ n.minimalIndex weight declared = some index) :
    (∀ path position,
      Index.ofEntry path position index.document = .ok index ↔ ¬ n.IsUndirected)
    ∧ ∀ (path : Option String) (c : Catalog), c.Unmarked →
      ∃ again, Catalog.ofText (c.withGenerated [index]).toText path = .ok again
        ∧ (again.withGenerated [index] = again ↔ ¬ n.IsUndirected) := by
  have hsettled : index.settled = index ↔ ¬ n.IsUndirected := by
    refine settled_recommended_iff (fun d hd => ?_) h
    obtain ⟨path, position, entry, hentry⟩ := hdeclared d hd
    exact Index.said_of_ofEntry hentry
  refine ⟨fun path position => ?_, fun path c hc => ?_⟩
  · rw [Index.ofEntry_document, Except.ok.injEq, hsettled]
  · refine ⟨_, Catalog.ofText_toText (c := c.withGenerated [index]) hc path, ?_⟩
    rw [Catalog.withGenerated_eq_self_iff, ← hsettled, Catalog.indexes, ← List.map_append]
    constructor
    · -- what has come back once stays as it is
      intro hmem
      obtain ⟨d, -, rfl⟩ := List.mem_map.mp hmem
      exact d.settled_settled
    · intro heq
      have hmem := c.subset_withGenerated [index] List.mem_cons_self
      exact List.mem_map.mpr ⟨index, hmem, heq⟩

end NormalForm

/-- The tasks below a project, from the latest on. -/
def Query.projectTasks : Query where
  kind := some "Task"
  sorts := [⟨"time", .descending⟩]
  ancestor := some (.root "" "Project" (.number 1))

/-- The index by time for tasks, below an ancestor or anywhere. -/
def Index.tasksByTime (ancestor : Bool) : Index :=
  ⟨some "Task", ancestor, [⟨"time", some .descending, none⟩]⟩

/-- Next to an index for all tasks, the one below an ancestor is recommended, and survives. -/
theorem NormalForm.recommended_survives_tasks :
    ∃ n, ofQuery .projectTasks defaultKeyProperty = .ok n
    ∧ n.minimalIndex 2 [Index.tasksByTime false] = some (Index.tasksByTime true)
    ∧ ∃ again, Catalog.ofText (Catalog.withGenerated {} [Index.tasksByTime true]).toText none
        = .ok again
      ∧ again.withGenerated [Index.tasksByTime true] = again := by
  have hminimal : ∃ n, ofQuery .projectTasks defaultKeyProperty = .ok n
      ∧ n.minimalIndex 2 [Index.tasksByTime false] = some (Index.tasksByTime true)
      ∧ n.isGeospatial = false :=
    ⟨_, rfl, by decide +kernel, rfl⟩
  obtain ⟨n, hn, hminimal, hgeo⟩ := hminimal
  have hdeclared : ∀ d ∈ [Index.tasksByTime false],
      ∃ path position entry, Index.ofEntry path position entry = .ok d :=
    List.forall_mem_singleton.mpr ⟨none, 0, _, Index.ofEntry_document none 0 (.tasksByTime false)⟩
  obtain ⟨-, hcatalog⟩ := recommended_survives_iff hdeclared (.inr hminimal)
  obtain ⟨again, hagain, hsame⟩ := hcatalog none {} (by decide +kernel)
  refine ⟨n, hn, hminimal, again, hagain, hsame.mpr fun h => ?_⟩
  exact Bool.false_ne_true (hgeo.symm.trans h.1)

/-- The shops with a tag that lie around a place. -/
def Query.shops : Query where
  kind := some "Shop"
  filter := some (.node .all [.leaf (.equals "tag" (.int 1)),
    .leaf ⟨"place", .inside (.circle ⟨.ofInt 10, .ofInt 20, by decide, by decide⟩ (.ofInt 500))⟩])

/-- The full index for the shops, with a property that has neither a direction nor a mode. -/
def Index.shops : Index :=
  ⟨some "Shop", false, [⟨"tag", none, none⟩, ⟨"place", none, some .geospatial⟩]⟩

/-- The index for the shops comes back with a direction, and is added a second time. -/
theorem NormalForm.recommended_lost_shops : ∃ n again, ofQuery .shops defaultKeyProperty = .ok n
    ∧ n.neededIndex = some Index.shops
    ∧ (∀ path position, Index.ofEntry path position Index.shops.document ≠ .ok Index.shops)
    ∧ Catalog.ofText (Catalog.withGenerated {} [Index.shops]).toText none = .ok again
    ∧ again.withGenerated [Index.shops] ≠ again := by
  have hread := Catalog.ofText_toText (c := .withGenerated {} [.shops]) (by decide +kernel) none
  refine ⟨_, ⟨[], [Index.shops.settled]⟩, rfl, by decide +kernel, ?_, hread, by decide⟩
  intro path position h
  rw [Index.ofEntry_document] at h
  exact absurd (Except.ok.inj h) (by decide)

end EntityQuery
