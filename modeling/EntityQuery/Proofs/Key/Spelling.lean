import EntityQuery.Query.Selectors

/-!
# Spelled keys — records that stand for keys

In a document a key is a record of kind and id, and perhaps of a namespace and a parent, which is
such a record again (`Key.Spells`). Its fields may stand in any order. Reading a record goes through
the fields one after the other and collects what each says; as no field stands twice, the parts that
are collected are those that are looked up by name (`Key.Says`). So every record that spells a key
is read as this key, with all that is above it.

* **`Key.readParts?_of_says`** — what is collected from fields.
* **`Key.read?_of_spells`** — a record that spells a key is read as it.
-/

namespace EntityQuery

namespace Value

variable {α : Type} {fields : List (String × Value)} {name : String} {v : Value} {default : α}
  {read : Value → Option α}

@[simp] theorem readField?_cons_self :
    readField? ((name, v) :: fields) name default read = read v := by
  rw [readField?, field?, List.lookup_cons_self]

theorem readField?_cons_of_ne {other : String} (h : other ≠ name) :
    readField? ((other, v) :: fields) name default read = readField? fields name default read := by
  rw [readField?, readField?, field?, List.lookup_cons, beq_eq_false_iff_ne.mpr h.symm]
  rfl

theorem field?_eq_none (h : name ∉ fields.map Prod.fst) : field? fields name = none := by
  rw [field?, List.lookup_eq_none_iff]
  intro f hf
  rw [bne_iff_ne]
  rintro rfl
  exact h (List.mem_map_of_mem hf)

theorem readField?_of_notMem (h : name ∉ fields.map Prod.fst) :
    readField? fields name default read = some default := by
  rw [readField?, field?_eq_none h]

end Value

/-- An id as it stands in a document. -/
def KeyId.document : KeyId → Value
  | .number n => .int n
  | .name s => .text s

namespace Key

variable {fields : List (String × Value)} {known parts : Parts}

/-- The names of the fields of a key. -/
def fieldNames : List String := ["kind", "id", "namespace", "parent"]

/-! ## What fields say -/

/-- The parts of a key after fields that each say one of them. What they are silent on stays as it
    is known. -/
structure Says (known : Parts) (fields : List (String × Value)) (parts : Parts) : Prop where
  once   : (fields.map Prod.fst).Nodup
  named  : ∀ f ∈ fields, f.1 ∈ fieldNames
  kind   : Value.readField? fields "kind" known.kind (fun v => some <$> v.asText?) = some parts.kind
  id     : Value.readField? fields "id" known.id (fun v => some <$> readId? v) = some parts.id
  space  : Value.readField? fields "namespace" known.space Value.asText? = some parts.space
  parent : Value.readField? fields "parent" known.parent
    (fun v => if v.isNull then some known.parent else some <$> read? v) = some parts.parent

theorem readParts?_kind {v : Value} {s : String} (h : v.asText? = some s) :
    readParts? known (("kind", v) :: fields) = readParts? { known with kind := some s } fields := by
  simp [readParts?, h]

theorem readParts?_id {v : Value} {i : KeyId} (h : readId? v = some i) :
    readParts? known (("id", v) :: fields) = readParts? { known with id := some i } fields := by
  simp [readParts?, h]

theorem readParts?_namespace {v : Value} {s : String} (h : v.asText? = some s) :
    readParts? known (("namespace", v) :: fields) = readParts? { known with space := s } fields := by
  simp [readParts?, h]

theorem readParts?_parent_null {v : Value} (h : v.isNull = true) :
    readParts? known (("parent", v) :: fields) = readParts? known fields := by
  simp [readParts?, h]

theorem readParts?_parent {v : Value} {k : Key} (hnull : ¬ v.isNull = true) (h : read? v = some k) :
    readParts? known (("parent", v) :: fields)
      = readParts? { known with parent := some k } fields := by
  simp [readParts?, hnull, h]

/-- Going through the fields of a key collects what they say. -/
theorem readParts?_of_says (h : Says known fields parts) : readParts? known fields = some parts := by
  induction fields generalizing known with
  | nil =>
      obtain ⟨kind, id, parent, space⟩ := parts
      obtain rfl : known.kind = kind := Option.some.inj h.kind
      obtain rfl : known.id = id := Option.some.inj h.id
      obtain rfl : known.space = space := Option.some.inj h.space
      obtain rfl : known.parent = parent := Option.some.inj h.parent
      rfl
  | cons f fields ih =>
      obtain ⟨name, v⟩ := f
      obtain ⟨hnot, honce⟩ := List.nodup_cons.mp h.once
      obtain ⟨hname, hnamed⟩ := List.forall_mem_cons.mp h.named
      have hkind := h.kind
      have hid := h.id
      have hspace := h.space
      have hparent := h.parent
      simp only [fieldNames, List.mem_cons, List.not_mem_nil, or_false] at hname
      rcases hname with rfl | rfl | rfl | rfl
      · rw [Value.readField?_cons_self, Option.map_eq_map, Option.map_eq_some_iff] at hkind
        obtain ⟨s, hs, hkind⟩ := hkind
        rw [Value.readField?_cons_of_ne (by decide)] at hid hspace hparent
        have hrest : Says { known with kind := some s } fields parts :=
          ⟨honce, hnamed, by rw [Value.readField?_of_notMem hnot, hkind], hid, hspace, hparent⟩
        rw [readParts?_kind hs, ih hrest]
      · rw [Value.readField?_cons_self, Option.map_eq_map, Option.map_eq_some_iff] at hid
        obtain ⟨i, hi, hid⟩ := hid
        rw [Value.readField?_cons_of_ne (by decide)] at hkind hspace hparent
        have hrest : Says { known with id := some i } fields parts :=
          ⟨honce, hnamed, hkind, by rw [Value.readField?_of_notMem hnot, hid], hspace, hparent⟩
        rw [readParts?_id hi, ih hrest]
      · rw [Value.readField?_cons_self] at hspace
        rw [Value.readField?_cons_of_ne (by decide)] at hkind hid hparent
        have hrest : Says { known with space := parts.space } fields parts :=
          ⟨honce, hnamed, hkind, hid, Value.readField?_of_notMem hnot, hparent⟩
        rw [readParts?_namespace hspace, ih hrest]
      · rw [Value.readField?_cons_self] at hparent
        rw [Value.readField?_cons_of_ne (by decide)] at hkind hid hspace
        by_cases hnull : v.isNull = true
        · rw [if_pos hnull] at hparent
          have hrest : Says known fields parts :=
            ⟨honce, hnamed, hkind, hid, hspace, by rw [Value.readField?_of_notMem hnot, hparent]⟩
          rw [readParts?_parent_null hnull, ih hrest]
        · rw [if_neg hnull, Option.map_eq_map, Option.map_eq_some_iff] at hparent
          obtain ⟨k, hk, hparent⟩ := hparent
          have hrest : Says { known with parent := some k } fields parts :=
            ⟨honce, hnamed, hkind, hid, hspace, by rw [Value.readField?_of_notMem hnot, hparent]⟩
          rw [readParts?_parent hnull hk, ih hrest]

/-! ## Records that spell keys -/

/-- What the fields of a record say of the key itself, the keys above it apart. -/
structure Labels (fields : List (String × Value)) (space kind : String) (id : KeyId) : Prop where
  once  : (fields.map Prod.fst).Nodup
  named : ∀ f ∈ fields, f.1 ∈ fieldNames
  kind  : Value.field? fields "kind" = some (.text kind)
  id    : Value.field? fields "id" = some id.document
  space : (Value.field? fields "namespace").getD (.text "") = .text space

/-- A record that spells a key: kind and id, a namespace if it is not empty, and the parent, which
    is a record of this kind too. -/
inductive Spells : Value → Key → Prop where
  | root {fields : List (String × Value)} {space kind : String} {id : KeyId}
      (labels : Labels fields space kind id) (parent : Value.fieldOrNull fields "parent" = .null) :
      Spells (.record fields) (.root space kind id)
  | child {fields : List (String × Value)} {space kind : String} {id : KeyId} {v : Value}
      {above : Key} (labels : Labels fields space kind id)
      (parent : Value.field? fields "parent" = some v) (spelled : Spells v above) :
      Spells (.record fields) (.child above space kind id)

theorem Labels.collected {space kind : String} {id : KeyId} {parent? : Option Key}
    (h : Labels fields space kind id)
    (hparent : Value.readField? fields "parent" none
      (fun v => if v.isNull then some none else some <$> read? v) = some parent?) :
    Says {} fields { kind := some kind, id := some id, parent := parent?, space := space } where
  once := h.once
  named := h.named
  kind := by
    rw [Value.readField?, h.kind]
    rfl
  id := by
    rw [Value.readField?, h.id]
    cases id <;> rfl
  space := by
    have hspace := h.space
    rw [Value.readField?]
    cases hfield : Value.field? fields "namespace" with
    | none =>
        rw [hfield] at hspace
        exact congrArg some (Value.text.inj hspace)
    | some v =>
        rw [hfield] at hspace
        obtain rfl : v = .text space := hspace
        rfl
  parent := hparent

/-- What spells a key is a record that has a kind and an id. -/
theorem Spells.labelled {v : Value} {k : Key} (h : Spells v k) : ∃ fields, v = .record fields
    ∧ (Value.field? fields "kind").isSome = true ∧ (Value.field? fields "id").isSome = true := by
  cases h with
  | root labels _ => exact ⟨_, rfl, by rw [labels.kind]; rfl, by rw [labels.id]; rfl⟩
  | child labels _ _ => exact ⟨_, rfl, by rw [labels.kind]; rfl, by rw [labels.id]; rfl⟩

theorem Spells.not_isNull {v : Value} {k : Key} (h : Spells v k) : ¬ v.isNull = true := by
  cases h <;> exact Bool.false_ne_true

/-- **Reading a spelled key** gives this key, with all keys above it. -/
theorem read?_of_spells {v : Value} {k : Key} (h : Spells v k) : read? v = some k := by
  induction h with
  | @root fields space kind id labels parent =>
      have hparent : Value.readField? fields "parent" none
          (fun v => if v.isNull then some none else some <$> read? v) = some none := by
        rw [Value.fieldOrNull] at parent
        rw [Value.readField?]
        cases hfield : Value.field? fields "parent" with
        | none => rfl
        | some v =>
            rw [hfield] at parent
            obtain rfl : v = .null := parent
            rfl
      rw [read?, readParts?_of_says (labels.collected hparent)]
      rfl
  | @child fields space kind id v above labels parent spelled ih =>
      have hparent : Value.readField? fields "parent" none
          (fun v => if v.isNull then some none else some <$> read? v) = some (some above) := by
        rw [Value.readField?, parent]
        show (if v.isNull then some none else some <$> read? v) = _
        rw [if_neg spelled.not_isNull, ih]
        rfl
      rw [read?, readParts?_of_says (labels.collected hparent)]
      rfl

/-- The record that spells a key with all its fields in their usual order. -/
def document : Key → Value
  | .root space kind id =>
      .record [("kind", .text kind), ("id", id.document), ("namespace", .text space)]
  | .child above space kind id =>
      .record [("kind", .text kind), ("id", id.document), ("namespace", .text space),
        ("parent", above.document)]

/-- Every key can be spelled. -/
theorem spells_document : ∀ k : Key, Spells k.document k
  | .root space kind id => by
      refine .root ⟨?_, ?_, rfl, rfl, rfl⟩ rfl
      · show ["kind", "id", "namespace"].Nodup
        decide
      · simp [fieldNames]
  | .child above space kind id => by
      refine .child ⟨?_, ?_, rfl, rfl, rfl⟩ rfl (spells_document above)
      · show ["kind", "id", "namespace", "parent"].Nodup
        decide
      · simp [fieldNames]

end Key

end EntityQuery
