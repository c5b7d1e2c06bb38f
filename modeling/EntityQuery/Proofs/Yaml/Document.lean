import EntityQuery.Proofs.Yaml.Node
import EntityQuery.Proofs.Yaml.Printer
import EntityQuery.Proofs.Outcome
import EntityQuery.Yaml.Document

/-!
# Documents — printed values are read back

Each text of a printed value stands for itself, in quotes or not, and each name for the field that
it is printed for. The tree of the value therefore has no faults, on whatever level, and fields of
different names keep their places when they are put together.

* **`Yaml.spelt_of_printed`** — the tree of a printed value holds that value.
* **`Yaml.read_of_arrives`** — the document of a text that is cut into the tokens of a value.
* **`Yaml.read_render`** — a value that is printed as a document is read back.
-/

namespace EntityQuery.Yaml

/-! ## Scalars -/

theorem integerScalar_ne_text (cs : List Char) (i : Int) (s : String) :
    integerScalar cs i ≠ .text s := by
  rw [integerScalar]
  split <;> exact Scalar.noConfusion

theorem timeScalar_ne_text (t : Timestamp) (s : String) : timeScalar t ≠ .text s := by
  rw [timeScalar]
  split <;> exact Scalar.noConfusion

/-- A word stands for no other text than itself. -/
theorem eq_of_ofPlain {word s : String} (h : Scalar.ofPlain word = .text s) : s = word := by
  rw [Scalar.ofPlain] at h
  iterate 5
    split at h
    · cases h
  split at h
  · cases h
  · exact absurd h (integerScalar_ne_text _ _ s)
  · exact absurd h (timeScalar_ne_text _ s)
  · split at h
    · cases h
    · exact (Scalar.text.inj h).symm

theorem ofPlain_of_isPlainText {word : String} (h : isPlainText word = true) :
    Scalar.ofPlain word = .text word := by
  rw [isPlainText] at h
  split at h
  · rename_i s hs
    rw [hs, eq_of_ofPlain hs]
  · cases h

/-- A text stands for itself, quoted or not. -/
@[simp] theorem scalarValue_text (s : String) :
    scalarValue s (styleOf s == .plain) = .ok (.text s) := by
  rw [scalarValue]
  cases hstyle : styleOf s with
  | plain =>
      have hplain := ofPlain_of_isPlainText (wordlike_of_styleOf hstyle).2.1
      simp [hplain]
  | single | double => rfl

/-- A name is the name of a field, and not the key under which other mappings are taken over. -/
theorem IsName.fieldName_eq {name : String} (h : IsName name) :
    fieldName (.scalar name true) = .ok name ∧ isMergeKey (.scalar name true) = false := by
  have htext := (wordlike_of_styleOf h.plain).2.1
  have hplain := ofPlain_of_isPlainText htext
  constructor
  · simp [fieldName, scalarValue, hplain, bind, Except.bind, pure, Except.pure]
  · rw [isMergeKey]
    rintro ⟨⟩
    exact absurd htext (by decide)

/-! ## Trees -/

namespace Tree

/-- A tree without faults. -/
inductive Sound : Tree → Prop
  | scalar (v : Value) : Sound (.scalar (.ok v))
  | sequence {items : List Tree} (h : ∀ t ∈ items, Sound t) : Sound (.sequence items)
  | mapping {pairs : Pairs} (hname : ∀ p ∈ pairs, ∃ name, p.1 = .ok name)
      (h : ∀ p ∈ pairs, Sound p.2) : Sound (.mapping pairs)

theorem Sound.scalarFault?_eq {t : Tree} (h : t.Sound) : t.scalarFault? = none := by
  cases h <;> rfl

theorem Sound.ownFault?_eq {t : Tree} (h : t.Sound) : t.ownFault? = none := by
  cases h with
  | scalar => rfl
  | sequence h => exact List.findSome?_eq_none_iff.mpr fun t ht => (h t ht).scalarFault?_eq
  | mapping hname h =>
      refine List.findSome?_eq_none_iff.mpr fun p hp => ?_
      obtain ⟨name, hname⟩ := hname p hp
      rw [pairFault?, hname]
      exact (h p hp).scalarFault?_eq

theorem Sound.of_mem_parts {t part : Tree} (h : t.Sound) (hpart : part ∈ t.parts) :
    part.Sound := by
  cases h with
  | scalar => cases hpart
  | sequence h => exact h part (List.mem_filter.mp hpart).1
  | mapping hname h =>
      obtain ⟨p, hp, rfl⟩ := List.mem_map.mp (List.mem_filter.mp hpart).1
      exact h p hp

/-- No fault is found in trees without faults, on whatever level. -/
theorem firstFault?_eq_none {level : List Tree} (h : ∀ t ∈ level, t.Sound) (depth : Nat) :
    firstFault? depth level = none := by
  induction depth generalizing level with
  | zero => rfl
  | succ depth ih =>
      have hlevel : level.findSome? ownFault? = none :=
        List.findSome?_eq_none_iff.mpr fun t ht => (h t ht).ownFault?_eq
      rw [firstFault?, hlevel, Option.none_or]
      refine ih fun part hpart => ?_
      obtain ⟨t, ht, hpart⟩ := List.mem_flatMap.mp hpart
      exact (h t ht).of_mem_parts hpart

end Tree

/-! ## Values -/

theorem setField_of_notMem {name : String} {v : Value} {fields : List (String × Value)}
    (h : name ∉ fields.map (·.1)) : setField name v fields = fields ++ [(name, v)] := by
  induction fields with
  | nil => rfl
  | cons f fs ih =>
      rw [List.map_cons, List.mem_cons, not_or] at h
      rw [setField, if_neg (Ne.symm h.1), ih h.2, List.cons_append]

/-- Fields of different names keep their places. -/
theorem ofPairs_of_nodup {fields : List (String × Value)} (h : (fields.map (·.1)).Nodup) :
    ofPairs fields = fields := by
  -- the induction carries the fields that have been put in their places before
  have hfold : ∀ (fs done : List (String × Value)), ((done ++ fs).map (·.1)).Nodup →
      fs.foldl (fun fields f => setField f.1 f.2 fields) done = done ++ fs := by
    intro fs
    induction fs with
    | nil => exact fun done _ => (List.append_nil done).symm
    | cons f fs ih =>
        intro done hnodup
        have hf : f.1 ∉ done.map (·.1) := by
          rw [List.map_append, List.map_cons] at hnodup
          exact fun hmem => (List.nodup_append.mp hnodup).2.2 _ hmem _ List.mem_cons_self rfl
        rw [List.foldl_cons, setField_of_notMem hf, ih _ (by rwa [List.append_assoc]),
          List.append_assoc]
        rfl
  exact hfold fields [] h

/-- A node spells a value if its tree has no faults, and that value. -/
def Spelt (v : Value) : Prop := (nodeOf v).tree.Sound ∧ (nodeOf v).tree.value = v

theorem spelt_items {vs : List Value} (h : ∀ v ∈ vs, Spelt v) :
    (∀ t ∈ trees (nodesOf vs), t.Sound) ∧ Tree.values (trees (nodesOf vs)) = vs := by
  induction vs with
  | nil => exact ⟨List.forall_mem_nil _, rfl⟩
  | cons v vs ih =>
      obtain ⟨hv, hvs⟩ := List.forall_mem_cons.mp h
      obtain ⟨hsound, hvalues⟩ := ih hvs
      refine ⟨List.forall_mem_cons.mpr ⟨hv.1, hsound⟩, ?_⟩
      show (nodeOf v).tree.value :: Tree.values (trees (nodesOf vs)) = _
      rw [hv.2, hvalues]

theorem spelt_fields {fs : List (String × Value)} (hname : ∀ f ∈ fs, IsName f.1)
    (h : ∀ f ∈ fs, Spelt f.2) :
    ∃ pairs, pairTrees? (pairNodes fs) = some ([], pairs) ∧ (Tree.mapping pairs).Sound
      ∧ Tree.fields pairs = fs := by
  induction fs with
  | nil => exact ⟨[], rfl, .mapping (List.forall_mem_nil _) (List.forall_mem_nil _), rfl⟩
  | cons f fs ih =>
      obtain ⟨hf, hfs⟩ := List.forall_mem_cons.mp h
      obtain ⟨hname, hnames⟩ := List.forall_mem_cons.mp hname
      obtain ⟨pairs, hpairs, hsound, hfields⟩ := ih hnames hfs
      obtain ⟨hfieldName, hmerge⟩ := hname.fieldName_eq
      refine ⟨(.ok f.1, (nodeOf f.2).tree) :: pairs, ?_, ?_, ?_⟩
      · rw [pairNodes, pairTrees?, hmerge, if_neg Bool.false_ne_true, hpairs, hfieldName]
        rfl
      · cases hsound with
        | mapping hnamed hsound =>
            exact .mapping (List.forall_mem_cons.mpr ⟨⟨_, rfl⟩, hnamed⟩)
              (List.forall_mem_cons.mpr ⟨hf.1, hsound⟩)
      · rw [Tree.fields]
        dsimp only
        rw [hf.2, hfields]

/-- **Values.** The node of a printed value spells that value. -/
theorem spelt_of_printed {column : Nat} {v : Value} (h : Printed column v) : Spelt v := by
  induction h with
  | text s =>
      have htree : (nodeOf (.text s)).tree = .scalar (.ok (.text s)) :=
        congrArg Tree.scalar (scalarValue_text s)
      exact ⟨htree ▸ .scalar _, by rw [htree]; rfl⟩
  | null =>
      have htree : (nodeOf .null).tree = .scalar (.ok .null) := rfl
      exact ⟨htree ▸ .scalar _, rfl⟩
  | list hne hblock _ ih =>
      obtain ⟨hsound, hvalues⟩ := spelt_items ih
      exact ⟨.sequence hsound, congrArg Value.list hvalues⟩
  | @record _ fields hne hnodup hname _ ih =>
      obtain ⟨pairs, hpairs, hsound, hfields⟩ := spelt_fields hname ih
      have htree : (nodeOf (.record fields)).tree = .mapping pairs := by
        show Tree.ofPairs? (pairTrees? (pairNodes fields)) = _
        rw [hpairs]
        rfl
      refine ⟨htree ▸ hsound, ?_⟩
      rw [htree, Tree.value, hfields, ofPairs_of_nodup hnodup]

/-! ## Texts -/

/-- Simple characters can stand in a document, and are no mark of the byte order. -/
theorem isPrintable_of_isSimple {c : Char} (h : isSimple c = true) :
    isPrintable c = true ∧ c ≠ '\ufeff' := by
  refine ⟨?_, fun hc => absurd h (by rw [hc]; decide)⟩
  rw [isSimple, Bool.or_eq_true] at h
  rcases h with h | h
  · rw [eq_of_beq h]
    decide
  · rw [isPrintable, h, Bool.or_true, Bool.true_or, Bool.true_or]

/-- The block of a document ends with its text. -/
theorem readAll_end (t : Token) (ts : List Token) {place : Cursor} (hrest : place.rest = [])
    (fuel : Nat) :
    ∃ l, Layout.readAll (fuel + 1) ((((({} : Blocks).enter 0 t).push ts)).layout place true) = .ok l
      ∧ l.tokens = t :: (ts ++ [.blockEnd]) := by
  have hbegins : Begins place.rest := by
    rw [hrest]
    intro c hc
    cases hc
  have hpeek : ((((({} : Blocks).enter 0 t).push ts)).layout place true).cursor.peek = none := by
    show place.rest[0]? = none
    rw [hrest]
    rfl
  rw [readAll_begins hbegins rfl, closeBlocks_of_le (Int.natCast_nonneg _), hpeek]
  exact ⟨_, rfl, rfl⟩

/-- A text that leads to its end is cut into tokens. -/
theorem tokens_of_arrives {text : String} {t : Token} {ts : List Token}
    (hsimple : Simple text.toList)
    (h : Arrives (({} : Blocks).layout { rest := text.toList } true)
      ((({} : Blocks).enter 0 t).push ts) 0 []) :
    tokens text = .ok (t :: (ts ++ [.blockEnd])) := by
  obtain ⟨place, hplace, -, n, hn, hread⟩ := h
  have hprintable : text.toList.all isPrintable = true :=
    List.all_eq_true.mpr fun c hc => (isPrintable_of_isSimple (hsimple c hc)).1
  have hhead : (text.toList.head? == some '\ufeff') = false := by
    rw [beq_eq_false_iff_ne]
    intro hhead
    exact (isPrintable_of_isSimple (hsimple _ (List.mem_of_mem_head? hhead))).2 rfl
  -- no more steps were taken than there are characters, so one is left for the end of the text
  obtain ⟨fuel, hfuel⟩ : ∃ fuel, text.toList.length + 2 = n + (fuel + 1) :=
    ⟨text.toList.length + 1 - n, by
      have hn : n + place.rest.length ≤ text.toList.length := hn
      omega⟩
  obtain ⟨l, hend, htokens⟩ := readAll_end t ts hplace fuel
  have hall : Layout.readAll (text.toList.length + 2) { cursor := { rest := text.toList } }
      = .ok l := by
    rw [hfuel]
    exact (hread (fuel + 1)).trans hend
  rw [tokens, hprintable, hhead]
  exact bind_eq_ok.mpr ⟨l, hall, congrArg Except.ok htokens⟩

/-- The document of a text that is cut into the tokens of a value is that value. -/
theorem read_of_arrives {text : String} {v : Value} (hsimple : Simple text.toList)
    (hprinted : Printed 0 v) (hblock : isBlock v = true)
    (h : Arrives (({} : Blocks).layout { rest := text.toList } true)
      ((({} : Blocks).enter 0 (opening v)).push (tokensOf v)) 0 []) :
    read text = .ok (some v) := by
  obtain ⟨hsound, hvalue⟩ := spelt_of_printed hprinted
  have htokens : tokens text = .ok (asBlock v (tokensOf v)) := tokens_of_arrives hsimple h
  have hfault : Tree.firstFault? (text.length + 1) [(nodeOf v).tree] = none :=
    Tree.firstFault?_eq_none (List.forall_mem_singleton.mpr hsound) _
  rw [read]
  refine bind_eq_ok.mpr ⟨_, htokens, ?_⟩
  rw [ofTokens?_asBlock hprinted hblock]
  refine bind_eq_ok.mpr ⟨_, rfl, ?_⟩
  dsimp only
  rw [hfault, hvalue]
  rfl

theorem toList_render {v : Value} (h : lines 0 v ≠ []) :
    (render v).toList = block 0 (lines 0 v) ++ ['\n'] := by
  have hflat : ∀ {ls : List (List Char)}, ls ≠ [] →
      ls.flatMap (· ++ ['\n']) = block 0 ls ++ ['\n'] := by
    intro ls hls
    induction ls with
    | nil => exact absurd rfl hls
    | cons l ls ih =>
        cases ls with
        | nil => simp
        | cons m ms =>
            rw [List.flatMap_cons, ih (List.cons_ne_nil m ms), block_cons l (List.cons_ne_nil m ms)]
            simp [newLine]
  rw [render, String.toList_ofList, hflat h]

/-- **Printing and reading.** A list or record that is printed as a document is read back. -/
theorem read_render {v : Value} (h : Printed 0 v) (hblock : isBlock v = true) :
    read (render v) = .ok (some v) := by
  refine read_of_arrives (simple_render v) h hblock ?_
  exact tokenized_of_printed h hblock Leads.last
    (Nat.le_refl 0) (by decide) rfl (toList_render (lines_ne_nil h 0))

end EntityQuery.Yaml
