import EntityQuery.Proofs.Yaml.Token

/-!
# Blocks — the tokens of printed values

The lines of a value stand at a column, and what comes after them leads to a column that is not
further to the right than the block around it. Reading them gives the tokens of the value: those of
its entries or fields, between the marks of a block of its own, which a list does without that
stands at the column of its key. Entry by entry and field by field, reading arrives where the next
one begins.

* **`Yaml.tokenized_of_printed`** — the tokens that the lines of a value are cut into.
-/

namespace EntityQuery.Yaml

/-! ## Lines -/

/-- Lines below one another, from a column on. -/
def block (column : Nat) (ls : List (List Char)) : List Char := (newLine column).intercalate ls

variable {column : Nat}

@[simp] theorem block_singleton (l : List Char) : block column [l] = l :=
  List.intercalate_singleton

theorem block_cons (l : List Char) {ls : List (List Char)} (h : ls ≠ []) :
    block column (l :: ls) = l ++ (newLine column ++ block column ls) := by
  rw [block, List.intercalate_cons_of_ne_nil h, List.append_assoc]
  rfl

theorem block_append {ls ms : List (List Char)} (hls : ls ≠ []) (hms : ms ≠ []) :
    block column (ls ++ ms) = block column ls ++ (newLine column ++ block column ms) := by
  induction ls with
  | nil => exact absurd rfl hls
  | cons l ls ih =>
      cases ls with
      | nil => rw [List.singleton_append, block_cons l hms, block_singleton]
      | cons m ls =>
          have hmore : m :: ls ++ ms ≠ [] :=
            List.append_ne_nil_of_left_ne_nil (List.cons_ne_nil _ _) _
          rw [List.cons_append, block_cons l hmore, ih (List.cons_ne_nil _ _),
            block_cons l (List.cons_ne_nil m ls)]
          simp only [List.append_assoc]

/-- Lines that are indented behind a mark stand two columns further to the right. -/
theorem block_indented (column : Nat) (first l : List Char) (ls : List (List Char)) :
    block column ((first ++ l) :: ls.map fun l => ' ' :: ' ' :: l)
      = first ++ block (column + 2) (l :: ls) := by
  have hnewLine : newLine (column + 2) = newLine column ++ [' ', ' '] := by
    rw [newLine, newLine, List.replicate_add]
    rfl
  induction ls generalizing first l with
  | nil => rw [List.map_nil, block_singleton, block_singleton]
  | cons m ms ih =>
      have hmore : block column ((' ' :: ' ' :: m) :: ms.map fun l => ' ' :: ' ' :: l)
          = [' ', ' '] ++ block (column + 2) (m :: ms) := ih [' ', ' '] m
      rw [List.map_cons, block_cons _ (List.cons_ne_nil _ _), hmore, block_cons l
        (List.cons_ne_nil _ _), hnewLine]
      simp only [List.append_assoc]

/-! ## Values -/

/-- Where the lines of a field's value stand. -/
def fieldColumn (column : Nat) (v : Value) : Nat :=
  if isBlock v && !isList v then column + 2 else column

@[simp] theorem fieldColumn_list (column : Nat) (items : List Value) :
    fieldColumn column (.list items) = column := by
  rw [fieldColumn, isList, Bool.not_true, Bool.and_false, if_neg Bool.false_ne_true]

/-- A value whose lines at a column can be read: texts, nulls, and lists and records that are not
    empty. The entries of lists are again lists or records, and the names of fields are short words
    without repetition. -/
inductive Printed : Nat → Value → Prop
  | text {column : Nat} (s : String) (h : column + 2 < width) : Printed column (.text s)
  | null {column : Nat} : Printed column .null
  | list {column : Nat} {items : List Value} (hne : items ≠ [])
      (hblock : ∀ v ∈ items, isBlock v = true) (h : ∀ v ∈ items, Printed (column + 2) v) :
      Printed column (.list items)
  | record {column : Nat} {fields : List (String × Value)} (hne : fields ≠ [])
      (hnodup : (fields.map (·.1)).Nodup) (hname : ∀ f ∈ fields, IsName f.1)
      (h : ∀ f ∈ fields, Printed (fieldColumn column f.2) f.2) : Printed column (.record fields)

/-- The token that opens a block for a value. -/
def opening : Value → Token
  | .list _ => .blockSequence
  | _ => .blockMapping

/-- The tokens of a value as a block of its own. -/
def asBlock (v : Value) (ts : List Token) : List Token := opening v :: (ts ++ [.blockEnd])

mutual

/-- The tokens of a value without the marks of a block. -/
def tokensOf : Value → List Token
  | .list items => entryTokens items
  | .record fields => fieldTokens fields
  | .text s => [.scalar s (styleOf s == .plain)]
  | _ => [.scalar "null" true]
termination_by structural v => v

def entryTokens : List Value → List Token
  | [] => []
  | v :: vs => .entry :: (asBlock v (tokensOf v) ++ entryTokens vs)
termination_by structural vs => vs

def fieldTokens : List (String × Value) → List Token
  | [] => []
  | f :: fs =>
    .key :: .scalar f.1 true :: .value ::
      ((if isBlock f.2 && !isList f.2 then asBlock f.2 (tokensOf f.2) else tokensOf f.2)
        ++ fieldTokens fs)
termination_by structural fs => fs

end

/-- The tokens of a field's value. -/
def valueTokens (v : Value) : List Token :=
  if isBlock v && !isList v then asBlock v (tokensOf v) else tokensOf v

@[simp] theorem valueTokens_list (items : List Value) :
    valueTokens (.list items) = entryTokens items := by
  rw [valueTokens, isList, Bool.not_true, Bool.and_false, if_neg Bool.false_ne_true, tokensOf]

@[simp] theorem entryTokens_append (vs ws : List Value) :
    entryTokens (vs ++ ws) = entryTokens vs ++ entryTokens ws := by
  induction vs with
  | nil => rfl
  | cons v vs ih =>
      rw [List.cons_append, entryTokens, ih, entryTokens, List.cons_append, List.append_assoc]

/-! ## Reading the lines of a value -/

variable {b : Blocks} {cur place : Cursor} {rest follow : List Char} {n : Nat}

/-- A block ends where something stands further to the left. -/
theorem reaches_close {t : Token} {ts : List Token} (hindent : b.indent < column)
    (hrest : Begins place.rest) (hn : place.column ≤ b.indent) :
    Reaches (((b.enter column t).push ts).layout place true)
      ((b.push (t :: (ts ++ [.blockEnd]))).layout place true) := by
  -- at the place, the same blocks end from both layouts: the first has one more, which ends there
  have hclose : (((b.enter column t).push ts).layout place true).closeBlocks place.column
      = ((b.push (t :: (ts ++ [.blockEnd]))).layout place true).closeBlocks place.column := by
    have hend : ¬ (column : Int) ≤ place.column := by omega
    rw [b.enter_of_lt hindent]
    show (if (column : Int) ≤ place.column then _ else Layout.closeBlocks.go _ b.outer _)
      = Layout.closeBlocks.go _ b.outer _
    rw [if_neg hend]
    simp [Blocks.layout, Blocks.push, Layout.push]
  exact Reaches.of_step (Nat.le_refl _) fun fuel => readAll_closed hrest hrest rfl rfl hclose

theorem fieldLines_ne_nil {fs : List (String × Value)} (h : fs ≠ []) (c : Nat) :
    fieldLines c fs ≠ [] := by
  obtain ⟨f, fs, rfl⟩ := List.exists_cons_of_ne_nil h
  rw [fieldLines]
  refine List.append_ne_nil_of_left_ne_nil ?_ _
  split
  · exact List.cons_ne_nil _ _
  · split <;> exact List.cons_ne_nil _ _

theorem entryLines_ne_nil {vs : List Value} (hne : vs ≠ [])
    (h : ∀ v ∈ vs, ∀ c, lines c v ≠ []) (c : Nat) : entryLines c vs ≠ [] := by
  obtain ⟨v, vs, rfl⟩ := List.exists_cons_of_ne_nil hne
  rw [entryLines]
  refine List.append_ne_nil_of_left_ne_nil ?_ _
  split
  · obtain ⟨l, ls, hls⟩ := List.exists_cons_of_ne_nil (h v List.mem_cons_self (c + 2))
    rw [hls]
    exact List.cons_ne_nil _ _
  · exact List.cons_ne_nil _ _

theorem lines_ne_nil {v : Value} (h : Printed column v) (c : Nat) : lines c v ≠ [] := by
  induction h generalizing c with
  | text | null => exact List.cons_ne_nil _ _
  | list hne _ _ ih => exact entryLines_ne_nil hne ih c
  | record hne => exact fieldLines_ne_nil hne c

/-- What comes below some lines of a column: more lines of it, or what follows them all. -/
def below (column : Nat) (ms : List (List Char)) (follow : List Char) : List Char :=
  if ms = [] then follow else newLine column ++ (block column ms ++ follow)

theorem block_below {ls : List (List Char)} (hls : ls ≠ []) (ms : List (List Char)) :
    block column (ls ++ ms) ++ follow = block column ls ++ below column ms follow := by
  rw [below]
  by_cases hms : ms = []
  · rw [if_pos hms, hms, List.append_nil]
  · rw [if_neg hms, block_append hls hms, List.append_assoc, List.append_assoc]

theorem Leads.begins (h : Leads follow n rest) : Begins rest := by
  cases h with
  | line h => exact h
  | comment _ h => exact h

/-- Reading goes on in a column of a later line, with more tokens. -/
def Arrives (l : Layout) (b : Blocks) (n : Nat) (rest : List Char) : Prop :=
  ∃ place, place.rest = rest ∧ place.column = n ∧ Reaches l (b.layout place true)

theorem Arrives.of_reaches {l l' : Layout} (h : Reaches l l') (h' : Arrives l' b n rest) :
    Arrives l b n rest := by
  obtain ⟨place, hplace, hcolumn, hreaches⟩ := h'
  exact ⟨place, hplace, hcolumn, h.trans hreaches⟩

/-- What has been read of a block is the block when it ends. -/
theorem Arrives.close {l : Layout} {t : Token} {ts : List Token} (hindent : b.indent < column)
    (hrest : Begins rest) (hn : n ≤ b.indent)
    (h : Arrives l ((b.enter column t).push ts) n rest) :
    Arrives l (b.push (t :: (ts ++ [.blockEnd]))) n rest := by
  obtain ⟨place, rfl, rfl, hreaches⟩ := h
  exact ⟨place, rfl, rfl, hreaches.trans (reaches_close hindent hrest hn)⟩

/-- The lines of an entry, as they stand behind its dash. -/
theorem block_entryLines {v : Value} (h : Printed (column + 2) v) (hblock : isBlock v = true)
    (vs : List Value) (follow : List Char) :
    block column (entryLines column (v :: vs)) ++ follow
      = '-' :: ' ' :: (block (column + 2) (lines (column + 2) v)
        ++ below column (entryLines column vs) follow) := by
  obtain ⟨l, ls, hls⟩ := List.exists_cons_of_ne_nil (lines_ne_nil h (column + 2))
  rw [entryLines, if_pos hblock, hls, indented, block_below (List.cons_ne_nil _ _),
    block_indented]
  rfl

/-- The lines of a field's value, as they stand behind the colon. -/
def valueText (column nameLength : Nat) (v : Value) : List Char :=
  if !isBlock v then ' ' :: scalarFrom (column + 2) (column + nameLength + 2) v
  else newLine (fieldColumn column v) ++ block (fieldColumn column v)
    (lines (fieldColumn column v) v)

/-- Behind the colon comes a gap. -/
@[simp] theorem endsWord_valueText (nameLength : Nat) (v : Value) (rest : List Char) :
    endsWord (valueText column nameLength v ++ rest).head? = true := by
  rw [valueText]
  split <;> rfl

theorem block_fieldLines {f : String × Value} (hname : IsName f.1)
    (h : Printed (fieldColumn column f.2) f.2) (fs : List (String × Value)) (follow : List Char) :
    block column (fieldLines column (f :: fs)) ++ follow
      = f.1.toList ++ ':' :: (valueText column f.1.toList.length f.2
        ++ below column (fieldLines column fs) follow) := by
  have hprint : textFrom 0 0 f.1 = f.1.toList := by
    rw [textFrom, hname.plain]
    exact hname.plainFrom_eq 0 0 none
  rw [fieldLines, hprint]
  cases hblock : isBlock f.2 with
  | false =>
      simp only [Bool.not_false, if_true, valueText, hblock]
      rw [block_below (List.cons_ne_nil _ _), block_singleton, List.length_append]
      simp [Nat.add_assoc]
  | true =>
      obtain ⟨l, ls, hls⟩ := List.exists_cons_of_ne_nil
        (lines_ne_nil h (fieldColumn column f.2))
      cases hlist : isList f.2 with
      | true =>
          have hcolumn : fieldColumn column f.2 = column := by rw [fieldColumn, hblock, hlist]; rfl
          rw [hcolumn] at hls
          simp only [Bool.not_true, Bool.false_eq_true, if_false, if_true, valueText, hblock,
            hcolumn]
          rw [block_below (List.cons_ne_nil _ _), hls, block_cons _ (List.cons_ne_nil _ _)]
          simp
      | false =>
          have hcolumn : fieldColumn column f.2 = column + 2 := by
            rw [fieldColumn, hblock, hlist]
            rfl
          have hnewLine : newLine (column + 2) = newLine column ++ [' ', ' '] := by
            rw [newLine, newLine, List.replicate_add]
            rfl
          have hindented : block column ((' ' :: ' ' :: l) :: ls.map fun l => ' ' :: ' ' :: l)
              = [' ', ' '] ++ block (column + 2) (l :: ls) := block_indented column [' ', ' '] l ls
          rw [hcolumn] at hls
          simp only [Bool.not_true, Bool.false_eq_true, if_false, valueText, hblock, hcolumn]
          rw [block_below (List.cons_ne_nil _ _), hls, List.map_cons,
            block_cons _ (List.cons_ne_nil _ _), hindented, hnewLine]
          simp

theorem begins_entryLines {vs : List Value} (hne : vs ≠ [])
    (hblock : ∀ v ∈ vs, isBlock v = true) (h : ∀ v ∈ vs, Printed (column + 2) v)
    (follow : List Char) : Begins (block column (entryLines column vs) ++ follow) := by
  obtain ⟨v, vs, rfl⟩ := List.exists_cons_of_ne_nil hne
  rw [block_entryLines (h v List.mem_cons_self) (hblock v List.mem_cons_self)]
  exact .cons (by decide)

theorem begins_fieldLines {fs : List (String × Value)} (hne : fs ≠ [])
    (hname : ∀ f ∈ fs, IsName f.1) (h : ∀ f ∈ fs, Printed (fieldColumn column f.2) f.2)
    (follow : List Char) : Begins (block column (fieldLines column fs) ++ follow) := by
  obtain ⟨f, fs, rfl⟩ := List.exists_cons_of_ne_nil hne
  have hname := hname f List.mem_cons_self
  rw [block_fieldLines hname (h f List.mem_cons_self)]
  obtain ⟨c, cs, hhead, -, hbegins⟩ := exists_beginsWord hname.wordlike
    (wordlike_of_styleOf hname.plain).2.2.1 0 0 none
    (':' :: (valueText column f.1.toList.length f.2 ++ below column (fieldLines column fs) follow))
  rw [hname.plainFrom_eq] at hhead
  rwa [hhead]

theorem begins_lines {v : Value} (hblock : isBlock v = true) (h : Printed column v)
    (follow : List Char) : Begins (block column (lines column v) ++ follow) := by
  cases h with
  | text => cases hblock
  | null => cases hblock
  | list hne hblocks hitems => exact begins_entryLines hne hblocks hitems follow
  | record hne hnodup hnames hfields => exact begins_fieldLines hne hnames hfields follow

theorem begins_textFrom (indent column : Nat) (s : String) (follow : List Char) :
    Begins (textFrom indent column s ++ follow) := by
  rw [textFrom]
  cases hstyle : styleOf s with
  | plain =>
      obtain ⟨hs, -, hmark, -⟩ := wordlike_of_styleOf hstyle
      obtain ⟨c, cs, hhead, -, hbegins⟩ := exists_beginsWord hs hmark indent column none follow
      dsimp only
      rwa [hhead]
  | single | double => exact .cons (by decide)

/-- The lines below lead to the column they stand at. -/
theorem leads_below {ms : List (List Char)} (hms : ms ≠ [])
    (hbegins : Begins (block column ms ++ follow)) :
    Leads (below column ms follow) column (block column ms ++ follow) := by
  rw [below, if_neg hms]
  exact .line hbegins

theorem wordlike_null : Wordlike "null".toList where
  inline := fun c hc => by
    have hall : "null".toList.all (fun c => isSimple c && c != '\n') = true := by decide
    simpa using List.all_eq_true.mp hall c hc
  begins := ⟨'n', rfl, by decide⟩
  closes := by decide
  colon := fun _ h => absurd (List.cons.inj h).1 (by decide)
  marks := rfl

/-- A text or null behind a colon. -/
theorem arrives_scalar {v : Value} {k : Nat} (h : Printed column v) (hblock : isBlock v = false)
    (hfollow : Leads follow n rest) (hn : n ≤ column) (hindent : b.indent = column)
    (hcolumn : column < cur.column)
    (hcur : cur.rest = ' ' :: (scalarFrom (column + 2) k v ++ follow)) :
    Arrives (b.layout cur false) (b.push (tokensOf v)) n rest := by
  have hspace : ∀ {cs : List Char}, cur.rest = ' ' :: cs → Begins cs →
      Reaches (b.layout cur false)
        (b.layout ⟨cs, cur.index + 1, cur.line, cur.column + 1⟩ false) :=
    fun hcs hbegins => reaches_spaces (n := 1) hbegins hcs
  cases h with
  | text s hwidth =>
      refine Arrives.of_reaches (hspace hcur (begins_textFrom _ _ s follow)) ?_
      exact exists_reaches_text (column + 2) k hfollow (by omega) (by omega) hwidth
        (by dsimp only; omega) rfl
  | null =>
      have hprint : scalarFrom (column + 2) k .null
          = plainFrom (column + 2) k none "null".toList := by
        have hwhole : "null".toList.all (· != ' ') = true := by decide
        have hchunk := plainFrom_chunk (column + 2) k none
          (fun c hc => bne_iff_ne.mp (List.all_eq_true.mp hwhole c hc)) []
        rw [List.append_nil] at hchunk
        rw [hchunk]
        rfl
      rw [hprint] at hcur
      refine Arrives.of_reaches (hspace hcur (.cons (by decide))) ?_
      exact exists_reaches_word (column + 2) k wordlike_null rfl hfollow (by omega) (by omega)
        (by dsimp only; omega) rfl
  | list hne =>
      rw [isBlock, List.isEmpty_eq_false_iff.mpr hne] at hblock
      cases hblock
  | record hne =>
      rw [isBlock, List.isEmpty_eq_false_iff.mpr hne] at hblock
      cases hblock

/-- A value whose lines at a column are cut into its tokens, up to what they lead to. A block of its
    own is opened for them unless one is open at that column. -/
def Tokenized (column : Nat) (v : Value) : Prop :=
  ∀ {n : Nat} {b : Blocks} {cur : Cursor} {follow rest : List Char}, Leads follow n rest →
    n ≤ column → b.indent ≤ column → cur.column = column →
    cur.rest = block column (lines column v) ++ follow →
    Arrives (b.layout cur true) ((b.enter column (opening v)).push (tokensOf v)) n rest

/-- A dash and a space lead to what stands behind them. -/
theorem exists_reaches_dash {cs : List Char} (hcs : Begins cs) (hindent : b.indent ≤ cur.column)
    (hcur : cur.rest = '-' :: ' ' :: cs) :
    ∃ place, place.rest = cs ∧ place.column = cur.column + 2 ∧ Reaches (b.layout cur true)
      (((b.enter cur.column .blockSequence).push [.entry]).layout place true) := by
  have hnext : cur.next = ⟨' ' :: cs, cur.index + 1, cur.line, cur.column + 1⟩ :=
    Cursor.skip_append (w := ['-']) hcur (List.forall_mem_singleton.mpr (by decide))
  have hspace : cur.next.rest = List.replicate 1 ' ' ++ cs := by rw [hnext]; rfl
  exact ⟨_, rfl, by rw [hnext], (reaches_entry hcur hindent).trans (reaches_spaces hcs hspace)⟩

/-- One entry, up to what is below its lines. -/
theorem arrives_entry {v : Value} {vs : List Value} (h : Printed (column + 2) v)
    (hblock : isBlock v = true) (htokenized : Tokenized (column + 2) v)
    (hleads : Leads (below column (entryLines column vs) follow) n rest) (hn : n ≤ column)
    (hindent : b.indent ≤ column) (hcolumn : cur.column = column)
    (hcur : cur.rest = block column (entryLines column (v :: vs)) ++ follow) :
    Arrives (b.layout cur true)
      ((b.enter column .blockSequence).push (.entry :: asBlock v (tokensOf v))) n rest := by
  rw [block_entryLines h hblock] at hcur
  obtain ⟨place, hplace, hplaceColumn, hdash⟩ := exists_reaches_dash (b := b)
    (begins_lines hblock h _) (by rw [hcolumn]; exact hindent) hcur
  rw [hcolumn] at hplaceColumn hdash
  have hdashed : ((b.enter column .blockSequence).push [.entry]).indent = column :=
    b.indent_enter hindent _
  have hlines := htokenized (b := (b.enter column .blockSequence).push [.entry]) hleads
    (Nat.le_add_right_of_le hn) (by omega) hplaceColumn hplace
  have hclosed := hlines.close (by omega) hleads.begins (by omega)
  rw [Blocks.push_push] at hclosed
  exact Arrives.of_reaches hdash hclosed

theorem arrives_entries {vs : List Value} (hne : vs ≠ []) (hblock : ∀ v ∈ vs, isBlock v = true)
    (h : ∀ v ∈ vs, Printed (column + 2) v) (htokenized : ∀ v ∈ vs, Tokenized (column + 2) v)
    (hfollow : Leads follow n rest) (hn : n ≤ column) (hindent : b.indent ≤ column)
    (hcolumn : cur.column = column)
    (hcur : cur.rest = block column (entryLines column vs) ++ follow) :
    Arrives (b.layout cur true) ((b.enter column .blockSequence).push (entryTokens vs)) n rest := by
  induction vs generalizing b cur with
  | nil => exact absurd rfl hne
  | cons v vs ih =>
      obtain ⟨hv, hvs⟩ := List.forall_mem_cons.mp htokenized
      obtain ⟨hfirst, hblocks⟩ := List.forall_mem_cons.mp hblock
      obtain ⟨hprinted, hmore⟩ := List.forall_mem_cons.mp h
      by_cases hnil : vs = []
      · subst hnil
        have hleads : Leads (below column (entryLines column []) follow) n rest := hfollow
        have hlast := arrives_entry hprinted hfirst hv hleads hn hindent hcolumn hcur
        rwa [← List.append_nil (asBlock v (tokensOf v))] at hlast
      · -- this entry ends where the next one begins, in the block that it opened for all of them
        have hleads := leads_below
          (entryLines_ne_nil hnil (fun v hv => lines_ne_nil (hmore v hv)) column)
          (begins_entryLines hnil hblocks hmore follow)
        obtain ⟨place, hplace, hplaceColumn, hreaches⟩ :=
          arrives_entry hprinted hfirst hv hleads (Nat.le_refl _) hindent hcolumn hcur
        have hindent : ((b.enter column .blockSequence).push
            (.entry :: asBlock v (tokensOf v))).indent = column := b.indent_enter hindent _
        have hrest := ih hnil hblocks hmore hvs (Int.le_of_eq hindent) hplaceColumn hplace
        rw [Blocks.enter_self _ hindent, Blocks.push_push] at hrest
        exact Arrives.of_reaches hreaches hrest

/-- The value of a field, up to what is below its lines. -/
theorem arrives_value {v : Value} {nameLength : Nat} (h : Printed (fieldColumn column v) v)
    (htokenized : isBlock v = true → Tokenized (fieldColumn column v) v)
    (hleads : Leads follow n rest) (hn : n ≤ column) (hindent : b.indent = column)
    (hcolumn : column < cur.column) (hcur : cur.rest = valueText column nameLength v ++ follow) :
    Arrives (b.layout cur false) (b.push (valueTokens v)) n rest := by
  rw [valueText] at hcur
  rw [valueTokens]
  cases hblock : isBlock v with
  | false =>
      have hcolumns : fieldColumn column v = column := by rw [fieldColumn, hblock]; rfl
      rw [hcolumns] at h
      rw [hblock] at hcur
      exact arrives_scalar h hblock hleads hn hindent hcolumn hcur
  | true =>
      have hline : Leads cur.rest (fieldColumn column v)
          (block (fieldColumn column v) (lines (fieldColumn column v) v) ++ follow) := by
        rw [hcur, hblock]
        show Leads (newLine _ ++ block _ _ ++ _) _ _
        rw [List.append_assoc]
        exact .line (begins_lines hblock h _)
      obtain ⟨place, hplace, hplaceColumn, hreaches⟩ := hline.exists_reaches b false rfl
      refine Arrives.of_reaches hreaches ?_
      have hcolumns : column ≤ fieldColumn column v := by
        rw [fieldColumn]
        split <;> omega
      have hlines := htokenized hblock (b := b) hleads (by omega) (by omega) hplaceColumn hplace
      -- a list stands at the column of its key, where the block of the mapping is open
      cases hlist : isList v with
      | true =>
          have hcolumns : fieldColumn column v = column := by rw [fieldColumn, hblock, hlist]; rfl
          rwa [hcolumns, Blocks.enter_self _ hindent] at hlines
      | false =>
          have hcolumns : fieldColumn column v = column + 2 := by
            rw [fieldColumn, hblock, hlist]
            rfl
          rw [hcolumns] at hlines
          exact hlines.close (by omega) hleads.begins (by omega)

/-- One field, up to what is below its lines. -/
theorem arrives_field {f : String × Value} {fs : List (String × Value)} (hname : IsName f.1)
    (h : Printed (fieldColumn column f.2) f.2)
    (htokenized : isBlock f.2 = true → Tokenized (fieldColumn column f.2) f.2)
    (hleads : Leads (below column (fieldLines column fs) follow) n rest) (hn : n ≤ column)
    (hindent : b.indent ≤ column) (hcolumn : cur.column = column)
    (hcur : cur.rest = block column (fieldLines column (f :: fs)) ++ follow) :
    Arrives (b.layout cur true) ((b.enter column .blockMapping).push
      (.key :: .scalar f.1 true :: .value :: valueTokens f.2)) n rest := by
  rw [block_fieldLines hname h] at hcur
  obtain ⟨place, hplace, hplaceColumn, hkey⟩ := exists_reaches_key (b := b) hname
    (endsWord_valueText _ _ _) hcur (by rw [hcolumn]; exact hindent)
  rw [hcolumn] at hplaceColumn hkey
  have hkeyed : ((b.enter column .blockMapping).push [.key, .scalar f.1 true, .value]).indent
      = column := b.indent_enter hindent _
  have hvalue := arrives_value h htokenized hleads hn hkeyed (by omega) hplace
  rw [Blocks.push_push] at hvalue
  exact Arrives.of_reaches hkey hvalue

theorem arrives_fields {fs : List (String × Value)} (hne : fs ≠ []) (hname : ∀ f ∈ fs, IsName f.1)
    (h : ∀ f ∈ fs, Printed (fieldColumn column f.2) f.2)
    (htokenized : ∀ f ∈ fs, isBlock f.2 = true → Tokenized (fieldColumn column f.2) f.2)
    (hfollow : Leads follow n rest) (hn : n ≤ column) (hindent : b.indent ≤ column)
    (hcolumn : cur.column = column)
    (hcur : cur.rest = block column (fieldLines column fs) ++ follow) :
    Arrives (b.layout cur true) ((b.enter column .blockMapping).push (fieldTokens fs)) n rest := by
  induction fs generalizing b cur with
  | nil => exact absurd rfl hne
  | cons f fs ih =>
      obtain ⟨hf, hfs⟩ := List.forall_mem_cons.mp htokenized
      obtain ⟨hfirst, hnames⟩ := List.forall_mem_cons.mp hname
      obtain ⟨hprinted, hmore⟩ := List.forall_mem_cons.mp h
      by_cases hnil : fs = []
      · subst hnil
        have hleads : Leads (below column (fieldLines column []) follow) n rest := hfollow
        have hlast := arrives_field hfirst hprinted hf hleads hn hindent hcolumn hcur
        rwa [← List.append_nil (valueTokens f.2)] at hlast
      · have hleads := leads_below (fieldLines_ne_nil hnil column)
          (begins_fieldLines hnil hnames hmore follow)
        obtain ⟨place, hplace, hplaceColumn, hreaches⟩ :=
          arrives_field hfirst hprinted hf hleads (Nat.le_refl _) hindent hcolumn hcur
        have hindent : ((b.enter column .blockMapping).push
            (.key :: .scalar f.1 true :: .value :: valueTokens f.2)).indent = column :=
          b.indent_enter hindent _
        have hrest := ih hnil hnames hmore hfs (Int.le_of_eq hindent) hplaceColumn hplace
        rw [Blocks.enter_self _ hindent, Blocks.push_push] at hrest
        exact Arrives.of_reaches hreaches hrest

/-- **Tokens.** The lines of a printed list or record are cut into its tokens. -/
theorem tokenized_of_printed {v : Value} (h : Printed column v) (hblock : isBlock v = true) :
    Tokenized column v := by
  induction h with
  | text => cases hblock
  | null => cases hblock
  | list hne hblocks hitems ih =>
      intro n b cur follow rest hfollow hn hindent hcolumn hcur
      exact arrives_entries hne hblocks hitems (fun v hv => ih v hv (hblocks v hv)) hfollow hn
        hindent
        hcolumn hcur
  | record hne _ hname hfields ih =>
      intro n b cur follow rest hfollow hn hindent hcolumn hcur
      exact arrives_fields hne hname hfields ih hfollow hn hindent hcolumn hcur

end EntityQuery.Yaml
