import EntityQuery.Proofs.Yaml.Word
import EntityQuery.Yaml.Token

/-!
# Tokens — what is printed is cut into tokens

A printed document is read token by token. Between two tokens of it a reader is outside of brackets
and keeps no place that may still turn out to be a key, so what counts is the text that is left, the
column, and the blocks and tokens so far (`Blocks`). One lemma for each kind of token says how
reading goes on from there (`Reaches`).

* **`Yaml.reaches_entry`**, **`Yaml.exists_reaches_key`**, **`Yaml.exists_reaches_text`** — the
  tokens.
-/

namespace EntityQuery.Yaml

/-! ## Layouts between tokens -/

/-- The open blocks and the tokens so far. -/
structure Blocks where
  indent : Int := -1
  outer  : List Int := []
  tokens : List Token := []

namespace Blocks

/-- The layout at a place between two tokens. -/
def layout (b : Blocks) (cur : Cursor) (keyAllowed : Bool) : Layout :=
  { cursor := cur, indent := b.indent, outer := b.outer, keyAllowed := keyAllowed,
    tokens := b.tokens }

def push (b : Blocks) (ts : List Token) : Blocks := { b with tokens := b.tokens ++ ts }

/-- A block of a kind at a column, unless that is the column of the block around it. -/
def enter (b : Blocks) (column : Nat) (t : Token) : Blocks :=
  if b.indent < column then ⟨column, b.indent :: b.outer, b.tokens ++ [t]⟩ else b

variable (b : Blocks)

@[simp] theorem push_nil : b.push [] = b := by rw [push, List.append_nil]

@[simp] theorem push_push (ts us : List Token) : (b.push ts).push us = b.push (ts ++ us) := by
  rw [push, push, push, List.append_assoc]

/-- At the column of the block around it nothing is opened. -/
theorem enter_self {column : Nat} (h : b.indent = column) (t : Token) : b.enter column t = b :=
  if_neg (by rw [h]; exact Int.lt_irrefl _)

theorem enter_of_lt {column : Nat} (h : b.indent < column) (t : Token) :
    b.enter column t = ⟨column, b.indent :: b.outer, b.tokens ++ [t]⟩ := if_pos h

theorem indent_enter {column : Nat} (h : b.indent ≤ column) (t : Token) :
    (b.enter column t).indent = column := by
  rw [enter]
  split
  · rfl
  · omega

end Blocks

/-! ## Going on -/

/-- Reading goes on from one layout as from another, in no more steps than characters lie in
    between. -/
def Reaches (l l' : Layout) : Prop :=
  ∃ n, n + l'.cursor.rest.length ≤ l.cursor.rest.length
    ∧ ∀ fuel, Layout.readAll (n + fuel) l = Layout.readAll fuel l'

namespace Reaches

variable {l l' l'' : Layout}

theorem refl (l : Layout) : Reaches l l := ⟨0, by omega, fun fuel => by rw [Nat.zero_add]⟩

theorem trans (h : Reaches l l') (h' : Reaches l' l'') : Reaches l l'' := by
  obtain ⟨n, hn, hread⟩ := h
  obtain ⟨n', hn', hread'⟩ := h'
  exact ⟨n + n', by omega, fun fuel => by rw [Nat.add_assoc, hread, hread']⟩

/-- Reading goes on in the same way from layouts at which the same step is taken. -/
theorem of_step (hlength : l'.cursor.rest.length ≤ l.cursor.rest.length)
    (h : ∀ fuel, Layout.readAll (fuel + 1) l = Layout.readAll (fuel + 1) l') : Reaches l l' := by
  refine ⟨0, by omega, fun fuel => ?_⟩
  rw [Nat.zero_add]
  cases fuel with
  | zero => rfl
  | succ fuel => exact h fuel

end Reaches

variable {b : Blocks} {cur : Cursor} {cs rest follow : List Char} {c : Char} {keyAllowed : Bool}

/-! ## Gaps -/

section Gaps

variable {l : Layout} {fuel : Nat}

/-- Nothing is passed over where something begins. -/
theorem skipGap_begins (h : Begins l.cursor.rest) : l.skipGap (fuel + 1) = l := by
  have hstay : l.cursor.skipWhile (· == ' ') = l.cursor := by
    rw [Cursor.skipWhile]
    cases hrest : l.cursor.rest with
    | nil => rfl
    | cons c cs =>
        rw [List.takeWhile_cons_of_neg (p := (· == ' ')) fun hc =>
          (h c (by rw [hrest]; rfl)).1 (beq_iff_eq.mp hc)]
        rfl
  have hmark : (l.cursor.peek == some '#') = false := by
    rw [beq_eq_false_iff_ne, Cursor.peek, ← List.head?_eq_getElem?]
    exact fun hc => (h _ hc).2.1 rfl
  have hbreak : l.cursor.lineBreak? = none := Cursor.lineBreak?_none fun c hc => (h c hc).2.2
  rw [Layout.skipGap, hstay, hmark, if_neg Bool.false_ne_true, hbreak]
  rfl

/-- A line end is passed over, and a key may stand after it. -/
theorem skipGap_feed (h : l.cursor.rest = '\n' :: cs) (hbrackets : l.brackets = 0) :
    l.skipGap (fuel + 1)
      = { l with cursor := l.cursor.next, keyAllowed := true }.skipGap fuel := by
  have hstay : l.cursor.skipWhile (· == ' ') = l.cursor := by
    rw [Cursor.skipWhile, h]
    rfl
  rw [Layout.skipGap, hstay, Cursor.peek_cons h, if_neg (by decide), Cursor.lineBreak?_feed h,
    hbrackets]
  simp

/-- A comment is passed over with the end of its line. -/
theorem skipGap_comment (fuel : Nat) {note : List Char} (hnote : ∀ c ∈ note, isBreak c = false)
    (h : l.cursor.rest = '#' :: (note ++ '\n' :: cs)) (hbrackets : l.brackets = 0) :
    ∃ cur, cur.rest = cs ∧ cur.column = 0
      ∧ l.skipGap (fuel + 1) = { l with cursor := cur, keyAllowed := true }.skipGap fuel := by
  have hstay : l.cursor.skipWhile (· == ' ') = l.cursor := by
    rw [Cursor.skipWhile, h]
    rfl
  have hend : (l.cursor.skipWhile (!isBreak ·)).rest = '\n' :: cs := by
    rw [Cursor.rest_skipWhile, h]
    show (note ++ '\n' :: cs).dropWhile (!isBreak ·) = _
    rw [List.dropWhile_append_of_pos fun c hc => by rw [hnote c hc]; rfl]
    rfl
  refine ⟨(l.cursor.skipWhile (!isBreak ·)).next, ?_, ?_, ?_⟩
  · rw [Cursor.next_feed hend]
  · rw [Cursor.next_feed hend]
  · rw [Layout.skipGap, hstay, Cursor.peek_cons h, if_pos (beq_self_eq_true _)]
    rw [Cursor.lineBreak?_feed hend, hbrackets]
    simp

/-- Spaces are passed over up to where something begins. -/
theorem skipGap_spaces {n : Nat} (hcs : Begins cs)
    (h : l.cursor.rest = List.replicate n ' ' ++ cs) :
    l.skipGap (fuel + 1) = { l with
      cursor := ⟨cs, l.cursor.index + n, l.cursor.line, l.cursor.column + n⟩ } := by
  have hspaces : l.cursor.rest.takeWhile (· == ' ') = List.replicate n ' ' := by
    rw [h, List.takeWhile_append_of_pos fun c hc =>
      beq_iff_eq.mpr (List.eq_of_mem_replicate hc)]
    cases cs with
    | nil => exact List.append_nil _
    | cons c cs =>
        rw [List.takeWhile_cons_of_neg (p := (· == ' ')) fun hc => (hcs c rfl).1 (beq_iff_eq.mp hc),
          List.append_nil]
  have hskip := Cursor.skip_append h fun c hc => by
    rw [List.eq_of_mem_replicate hc]
    decide
  rw [List.length_replicate] at hskip
  have hmark : ((⟨cs, l.cursor.index + n, l.cursor.line, l.cursor.column + n⟩ : Cursor).peek
      == some '#') = false := by
    rw [beq_eq_false_iff_ne, Cursor.peek, ← List.head?_eq_getElem?]
    exact fun hc => (hcs _ hc).2.1 rfl
  have hbreak : (⟨cs, l.cursor.index + n, l.cursor.line, l.cursor.column + n⟩ : Cursor).lineBreak?
      = none := Cursor.lineBreak?_none fun c hc => (hcs c hc).2.2
  rw [Layout.skipGap, Cursor.skipWhile, hspaces, List.length_replicate, hskip, hmark,
    if_neg Bool.false_ne_true, hbreak]
  rfl

/-- Reading goes on alike where gaps lead to the same place. -/
theorem readAll_congr {l' : Layout}
    (h : l.skipGap (l.cursor.rest.length + 1) = l'.skipGap (l'.cursor.rest.length + 1)) :
    Layout.readAll (fuel + 1) l = Layout.readAll (fuel + 1) l' := by
  rw [Layout.readAll, Layout.readAll, h]

end Gaps

/-- A comment leads to where the next line begins. -/
theorem exists_reaches_comment (b : Blocks) (keyAllowed : Bool) {note : List Char}
    (hnote : ∀ c ∈ note, isBreak c = false)
    (hrest : Begins rest) (hcur : cur.rest = '#' :: (note ++ '\n' :: rest)) :
    ∃ place, place.rest = rest ∧ place.column = 0
      ∧ Reaches (b.layout cur keyAllowed) (b.layout place true) := by
  have hlength : cur.rest.length = note.length + (rest.length + 1) + 1 := by
    rw [hcur, List.length_cons, List.length_append, List.length_cons]
  obtain ⟨place, hplace, hcolumn, hskip⟩ := skipGap_comment (l := b.layout cur keyAllowed)
    cur.rest.length hnote hcur rfl
  refine ⟨place, hplace, hcolumn, Reaches.of_step ?_ fun fuel => readAll_congr ?_⟩
  · show place.rest.length ≤ cur.rest.length
    rw [hplace]
    omega
  · have hbegins : Begins (b.layout place true).cursor.rest := by
      rw [← hplace] at hrest
      exact hrest
    rw [skipGap_begins hbegins]
    show (b.layout cur keyAllowed).skipGap (cur.rest.length + 1) = _
    rw [hskip, hlength]
    exact skipGap_begins hbegins

/-- Behind a line end reading goes on in the next line, where a key may stand. -/
theorem reaches_feed (h : cur.rest = '\n' :: cs) :
    Reaches (b.layout cur keyAllowed) (b.layout cur.next true) := by
  have hnext := Cursor.next_feed h
  refine Reaches.of_step ?_ fun fuel => readAll_congr ?_
  · show cur.next.rest.length ≤ cur.rest.length
    rw [hnext, h]
    exact Nat.le_succ _
  · show (b.layout cur keyAllowed).skipGap (cur.rest.length + 1) = _
    rw [skipGap_feed h rfl, h]
    show (b.layout cur.next true).skipGap (cs.length + 1) = _
    rw [hnext]
    rfl

theorem reaches_spaces {n : Nat} (hcs : Begins cs) (h : cur.rest = List.replicate n ' ' ++ cs) :
    Reaches (b.layout cur keyAllowed)
      (b.layout ⟨cs, cur.index + n, cur.line, cur.column + n⟩ keyAllowed) := by
  refine Reaches.of_step ?_ fun fuel => readAll_congr ?_
  · show cs.length ≤ cur.rest.length
    rw [h, List.length_append]
    omega
  · rw [skipGap_spaces hcs h, skipGap_begins hcs]
    rfl

/-- Reading goes on where a line end leads to, and a key may stand there. -/
theorem Leads.exists_reaches (b : Blocks) (keyAllowed : Bool) {n : Nat} (h : Leads cs n rest)
    (hcur : cur.rest = cs) :
    ∃ place, place.rest = rest ∧ place.column = n
      ∧ Reaches (b.layout cur keyAllowed) (b.layout place true) := by
  cases h with
  | line h =>
      have hnext := Cursor.next_feed hcur
      refine ⟨_, rfl, ?_, (reaches_feed hcur).trans (reaches_spaces h (by rw [hnext]))⟩
      rw [hnext]
      exact Nat.zero_add n
  | comment hnote h =>
      have hnext := Cursor.next_feed hcur
      have hbehind := Cursor.next_feed
        (show cur.next.rest = '\n' :: '#' :: (_ ++ '\n' :: rest) by rw [hnext])
      obtain ⟨place, hplace, hcolumn, hreaches⟩ := exists_reaches_comment b true hnote h
        (show cur.next.next.rest = '#' :: (_ ++ '\n' :: rest) by rw [hbehind])
      exact ⟨place, hplace, hcolumn,
        (reaches_feed hcur).trans ((reaches_feed (by rw [hnext])).trans hreaches)⟩

/-- Reading goes on where a word lands. -/
theorem Lands.exists_reaches {n : Nat} (h : Lands cur n rest) :
    ∃ place, place.rest = rest ∧ place.column = n
      ∧ Reaches (b.layout cur true) (b.layout place true) := by
  obtain ⟨hrest, ⟨hcur, hcolumn⟩ | ⟨rfl, note, hcur, hnote⟩⟩ := h
  · exact ⟨cur, hcur, hcolumn, Reaches.refl _⟩
  · exact exists_reaches_comment b true hnote hrest hcur

/-! ## Tokens -/

/-- No block ends at a column further to the right. -/
theorem closeBlocks_of_le {l : Layout} {column : Int} (h : l.indent ≤ column) :
    l.closeBlocks column = l := by
  rw [Layout.closeBlocks]
  split
  · rfl
  · cases l.outer with
    | nil => exact if_pos h
    | cons i is => exact if_pos h

/-- Where something begins, blocks end first. -/
theorem readAll_begins {l : Layout} {fuel : Nat} (hbegins : Begins l.cursor.rest)
    (hkeys : l.dropStale = some l) :
    Layout.readAll (fuel + 1) l
      = match (l.closeBlocks l.cursor.column).cursor.peek with
        | none => readable ((l.closeBlocks l.cursor.column).closeBlocks (-1)).dropKey
        | some c => (l.closeBlocks l.cursor.column).readToken c >>= Layout.readAll fuel := by
  rw [Layout.readAll]
  dsimp only
  rw [skipGap_begins hbegins, hkeys]
  rfl

/-- Reading goes on alike where the same blocks are left. -/
theorem readAll_closed {l l' : Layout} {fuel : Nat} (hl : Begins l.cursor.rest)
    (hl' : Begins l'.cursor.rest) (hkeys : l.dropStale = some l) (hkeys' : l'.dropStale = some l')
    (h : l.closeBlocks l.cursor.column = l'.closeBlocks l'.cursor.column) :
    Layout.readAll (fuel + 1) l = Layout.readAll (fuel + 1) l' := by
  rw [readAll_begins hl hkeys, readAll_begins hl' hkeys', h]

/-- One token is read where one begins, if no place has to become a key and no block ends. -/
theorem Reaches.of_token {l l' : Layout} (hcur : l.cursor.rest = c :: cs)
    (hbegins : Begins l.cursor.rest) (hkeys : l.dropStale = some l)
    (hindent : l.indent ≤ l.cursor.column) (htoken : l.readToken c = .ok l')
    (hshorter : l'.cursor.rest.length < l.cursor.rest.length) : Reaches l l' := by
  refine ⟨1, by omega, fun fuel => ?_⟩
  rw [Nat.add_comm, readAll_begins hbegins hkeys, closeBlocks_of_le hindent,
    Cursor.peek_cons hcur]
  dsimp only
  rw [htoken]
  rfl

theorem isMarker_eq_false {d e : Char} (h : cur.rest = c :: e :: cs) (he : e ≠ d) :
    cur.isMarker d = false := by
  have htake : (cur.rest.take 3 == [d, d, d]) = false := by
    rw [beq_eq_false_iff_ne, h]
    intro heq
    exact he (List.cons.inj (List.cons.inj heq).2).1
  rw [Cursor.isMarker, htake, Bool.false_and]

/-- Outside of brackets a block is opened where it has to be. -/
theorem openHere_layout (t : Token) :
    (b.layout cur true).openHere t = some ((b.enter cur.column t).layout cur true) := by
  have hopens : (b.layout cur true).opens cur.column = decide (b.indent < cur.column) := rfl
  show (if (b.layout cur true).opens cur.column then
      some (((b.layout cur true).openBlock cur.column).push t)
    else some (b.layout cur true)) = _
  rw [hopens, Blocks.enter]
  by_cases h : b.indent < cur.column
  · rw [decide_eq_true h, if_pos rfl, if_pos h]
    rfl
  · rw [decide_eq_false h, if_neg Bool.false_ne_true, if_neg h]

/-- A dash opens a sequence, unless one is open at its column, and begins an entry. -/
theorem reaches_entry (h : cur.rest = '-' :: ' ' :: cs) (hindent : b.indent ≤ cur.column) :
    Reaches (b.layout cur true)
      (((b.enter cur.column .blockSequence).push [.entry]).layout cur.next true) := by
  have hbegins : Begins (b.layout cur true).cursor.rest := by
    show Begins cur.rest
    rw [h]
    exact .cons (by decide)
  refine Reaches.of_token h hbegins rfl hindent ?_ ?_
  · have halone : endsWord (cur.peek 1) = true := by
      rw [Cursor.peek, h]
      rfl
    have hentry : (b.layout cur true).readToken '-' = readable (b.layout cur true).entry := by
      show readable ((b.layout cur true).readUnquoted? '-') = _
      have hmarker : (b.layout cur true).cursor.isMarker '-' = false :=
        isMarker_eq_false h (by decide)
      have hmarker' : (b.layout cur true).cursor.isMarker '.' = false :=
        isMarker_eq_false h (by decide)
      have halone' : endsWord ((b.layout cur true).cursor.peek 1) = true := halone
      rw [Layout.readUnquoted?]
      simp [hmarker, hmarker', halone']
    rw [hentry, Layout.entry, openHere_layout]
    rfl
  · show cur.next.rest.length < cur.rest.length
    rw [Cursor.rest_next, h]
    exact Nat.lt_succ_self _

/-- A character begins a word unless it is a mark, or a sign that a gap follows. -/
structure BeginsWord (c : Char) (cs : List Char) : Prop where
  ink  : endsWord (some c) = false
  mark : openingMarks.contains c = false
  sign : c = '?' ∨ c = ':' ∨ c = '-' → endsWord cs.head? = false

namespace BeginsWord

theorem ne_mark (h : BeginsWord c cs) {d : Char} (hd : openingMarks.contains d = true) :
    (c == d) = false := by
  rw [beq_eq_false_iff_ne]
  rintro rfl
  exact Bool.false_ne_true (h.mark.symm.trans hd)

variable {l : Layout}

/-- No sign stands alone here. -/
theorem sign_alone (h : BeginsWord c cs) (hcur : l.cursor.rest = c :: cs) {d : Char}
    (hd : d = '?' ∨ d = ':' ∨ d = '-') : (c == d && endsWord (l.cursor.peek 1)) = false := by
  have hnext : l.cursor.peek 1 = cs.head? := by
    rw [Cursor.peek, hcur, List.head?_eq_getElem?]
    rfl
  by_cases hc : c = d
  · rw [hnext, h.sign (hc ▸ hd), Bool.and_false]
  · rw [beq_eq_false_iff_ne.mpr hc, Bool.false_and]

/-- Apart from the signs, what a word cannot begin with is what a printed text does not begin
    with. -/
theorem beginsWord (h : BeginsWord c cs) (hcur : l.cursor.rest = c :: cs)
    (hbrackets : l.brackets = 0) : l.beginsWord c = true := by
  rw [Layout.beginsWord, h.ink, hbrackets]
  by_cases hc : c = '?' ∨ c = ':' ∨ c = '-'
  · have hnext : l.cursor.peek 1 = cs.head? := by
      rw [Cursor.peek, hcur, List.head?_eq_getElem?]
      rfl
    rw [hnext, h.sign hc]
    rcases hc with rfl | rfl | rfl <;> decide
  · have hall : Layout.marks.all (['?', ':', '-'] ++ openingMarks).contains = true := by decide
    have hmarks : Layout.marks.contains c = false := by
      rw [← Bool.not_eq_true]
      intro hmark
      have hmem := List.contains_iff_mem.mp
        (List.all_eq_true.mp hall c (List.contains_iff_mem.mp hmark))
      rcases List.mem_append.mp hmem with hsign | hmark
      · exact hc (by simpa using hsign)
      · exact Bool.false_ne_true (h.mark.symm.trans (List.contains_iff_mem.mpr hmark))
    rw [hmarks]
    rfl

end BeginsWord

/-- A word is read where one begins, and no document does. -/
theorem readToken_word {l : Layout} (h : BeginsWord c cs) (hcur : l.cursor.rest = c :: cs)
    (hbrackets : l.brackets = 0)
    (hmarker : l.cursor.column = 0 →
      l.cursor.isMarker '-' = false ∧ l.cursor.isMarker '.' = false) :
    l.readToken c = readable l.plainScalar := by
  have hdocument : ∀ d, d = '-' ∨ d = '.' →
      (l.cursor.column == 0 && l.cursor.isMarker d) = false := by
    intro d hd
    by_cases hcolumn : l.cursor.column = 0
    · rcases hd with rfl | rfl
      · rw [(hmarker hcolumn).1, Bool.and_false]
      · rw [(hmarker hcolumn).2, Bool.and_false]
    · rw [beq_eq_false_iff_ne.mpr hcolumn, Bool.false_and]
  rw [Layout.readToken, h.ne_mark (d := '\'') rfl, h.ne_mark (d := '"') rfl,
    if_neg Bool.false_ne_true, if_neg Bool.false_ne_true, Layout.readUnquoted?]
  simp only [h.ne_mark (d := '%') rfl, h.ne_mark (d := '[') rfl, h.ne_mark (d := '{') rfl,
    h.ne_mark (d := ']') rfl, h.ne_mark (d := '}') rfl, h.ne_mark (d := ',') rfl,
    hdocument '-' (.inl rfl), hdocument '.' (.inr rfl), hbrackets,
    h.sign_alone hcur (d := '-') (.inr (.inr rfl)), h.sign_alone hcur (d := '?') (.inl rfl),
    h.sign_alone hcur (d := ':') (.inr (.inl rfl)), h.beginsWord hcur hbrackets, Bool.false_and,
    Bool.false_or, Bool.false_eq_true, if_false, if_true, bne_self_eq_false]

/-- A text that is printed without quotes begins a word. -/
theorem exists_beginsWord {s : List Char} (h : Wordlike s) (hmark : beginsWithMark s = false)
    (indent column : Nat) (before : Option Char) (follow : List Char) :
    ∃ c cs, plainFrom indent column before s ++ follow = c :: cs ∧ BeginsWord c cs
      ∧ Begins (c :: cs) := by
  obtain ⟨c, hc, hspace, hnote⟩ := h.begins
  cases s with
  | nil => cases hc
  | cons d s =>
      obtain rfl := Option.some.inj hc
      have hink := h.endsWord_of_mem List.mem_cons_self hspace
      obtain ⟨hopening, hsign⟩ := Bool.or_eq_false_iff.mp hmark
      refine ⟨d, plainFrom indent (column + 1) (some d) s ++ follow,
        by rw [plainFrom_cons hspace]; rfl,
        ⟨hink, hopening, fun hd => ?_⟩, fun e he => ?_⟩
      · have hsigns : (d == '?' || d == ':' || d == '-') = true := by
          rcases hd with rfl | rfl | rfl <;> rfl
        rw [hsigns, Bool.true_and] at hsign
        cases s with
        | nil => cases hsign
        | cons e s =>
            have he : e ≠ ' ' := by
              rintro rfl
              cases hsign
            rw [plainFrom_cons he]
            exact hsign
      · obtain rfl := Option.some.inj he
        exact ⟨hspace, hnote, (Bool.or_eq_false_iff.mp hink).2⟩

@[simp] theorem insertIdx_length {α : Type} (xs ys : List α) (a : α) :
    (xs ++ ys).insertIdx xs.length a = xs ++ a :: ys := by
  induction xs with
  | nil => rfl
  | cons x xs ih => rw [List.cons_append, List.length_cons, List.insertIdx_succ_cons, ih]; rfl

/-- A name of a field that is printed as it is: one chunk, and short enough for a key. -/
structure IsName (name : String) : Prop where
  plain : styleOf name = .plain
  whole : ' ' ∉ name.toList
  short : name.toList.length ≤ 1024

/-- No word goes on at a colon. -/
theorem gap_colon (h : cur.rest = ':' :: cs) : gap cur = (none, cur, false) := by
  have hspaces : cur.rest.takeWhile (· == ' ') = [] := by
    rw [h]
    rfl
  have hbreak : (cur.skip 0).lineBreak? = none := Cursor.lineBreak?_cons h (by decide)
  rw [gap]
  dsimp only
  rw [hspaces, List.length_nil, hbreak]
  rfl

namespace IsName

variable {name : String}

theorem wordlike (h : IsName name) : Wordlike name.toList := (wordlike_of_styleOf h.plain).1

theorem firstChunk_eq (h : IsName name) : firstChunk name.toList = name.toList := by
  have htake : (name.toList ++ []).takeWhile (· != ' ') = name.toList ++ [].takeWhile (· != ' ') :=
    List.takeWhile_append_of_pos fun c hc => bne_iff_ne.mpr fun hspace => h.whole (hspace ▸ hc)
  rwa [List.append_nil, List.takeWhile_nil, List.append_nil] at htake

/-- A name is printed as it is. -/
theorem plainFrom_eq (h : IsName name) (indent column : Nat) (before : Option Char) :
    plainFrom indent column before name.toList = name.toList := by
  have hprint := plainFrom_chunk indent column before
    (w := name.toList) (fun c hc hspace => h.whole (hspace ▸ hc)) []
  rwa [List.append_nil, plainFrom, List.append_nil] at hprint

/-- A name before a colon is read as a word. -/
theorem wordFrom_eq (h : IsName name) (hcs : endsWord cs.head? = true)
    (hcur : cur.rest = name.toList ++ ':' :: cs) {threshold : Int} {fuel : Nat} :
    wordFrom false threshold (fuel + 1) cur
      = (name.toList, cur.skip name.toList.length, false) := by
  have hs := h.wordlike
  have hchunk : chunk false cur.rest = name.toList := by
    rw [hcur]
    refine chunk_append (fun c hc => hs.endsWord_of_mem hc fun hspace => h.whole (hspace ▸ hc)) ?_
      (chunk_colon hcs)
    rw [← h.firstChunk_eq]
    exact hs.getLast_firstChunk
  have hne : name.toList ≠ [] := by
    rw [← h.firstChunk_eq]
    exact hs.firstChunk_ne_nil
  have hmark : (cur.peek == some '#') = false := by
    obtain ⟨c, hc, -, hnote⟩ := hs.begins
    rw [beq_eq_false_iff_ne, Cursor.peek, hcur, ← List.head?_eq_getElem?, List.head?_append,
      Option.mem_def.mp hc]
    exact fun hc => hnote (Option.some.inj hc)
  have hcolon : (cur.skip name.toList.length).rest = ':' :: cs := by
    simp [hcur]
  rw [wordFrom, hmark, if_neg Bool.false_ne_true, hchunk, List.isEmpty_eq_false_iff.mpr hne,
    if_neg Bool.false_ne_true, gap_colon hcolon]

theorem length_pos (h : IsName name) : 0 < name.toList.length :=
  List.length_pos_iff.mpr (by
    rw [← h.firstChunk_eq]
    exact h.wordlike.firstChunk_ne_nil)

/-- A name stands within its line. -/
theorem skip_eq (h : IsName name) (hcur : cur.rest = name.toList ++ cs) :
    cur.skip name.toList.length = ⟨cs, cur.index + name.toList.length, cur.line,
      cur.column + name.toList.length⟩ :=
  Cursor.skip_append hcur fun c hc =>
    have hc := h.wordlike.inline c hc
    inline_of_isSimple hc.1 hc.2

/-- No mark of a document is a name before a colon. -/
theorem isMarker_eq_false (h : IsName name) {d : Char} (hd : d = '-' ∨ d = '.')
    (hcur : cur.rest = name.toList ++ ':' :: cs) : cur.isMarker d = false := by
  have htake : (cur.rest.take 3 == [d, d, d]) = false := by
    have hmarker := (wordlike_of_styleOf h.plain).2.2.2
    have hcolon : d ≠ ':' := by
      rcases hd with rfl | rfl <;> decide
    rw [beq_eq_false_iff_ne, hcur]
    intro htake
    -- the colon is among the three characters unless the name has three itself
    match hname : name.toList with
    | [] =>
        rw [hname] at htake
        exact hcolon (List.cons.inj htake).1.symm
    | [_] =>
        rw [hname] at htake
        exact hcolon (List.cons.inj (List.cons.inj htake).2).1.symm
    | [_, _] =>
        rw [hname] at htake
        exact hcolon (List.cons.inj (List.cons.inj (List.cons.inj htake).2).2).1.symm
    | e :: f :: g :: _ =>
        have hthree : name.toList.take 3 = [d, d, d] := by
          rw [hname] at htake ⊢
          exact htake
        rw [beginsLikeMarker, hthree] at hmarker
        rcases hd with rfl | rfl
        · cases hmarker
        · cases hmarker
  rw [Cursor.isMarker, htake, Bool.false_and]

end IsName

/-- A key that has been read, at its colon. -/
def Blocks.atColon (b : Blocks) (cur : Cursor) (name : String) : Layout :=
  { (b.push [.scalar name true]).layout (cur.skip name.toList.length) false with
    keys := [(0, ⟨b.tokens.length, b.indent == cur.column, cur.index, cur.line, cur.column⟩)] }

/-- A word is read, and its place kept where it may turn out to be a key. -/
theorem plainScalar_eq {l l' : Layout} {text : String} {after : Cursor} {newLine : Bool}
    (hkeep : l.keepKey = some l')
    (hword : word (l'.brackets != 0) (l'.indent + 1) l'.cursor = (text, after, newLine)) :
    l.plainScalar
      = some (({ l' with keyAllowed := newLine }.push (.scalar text true)).moveTo after) := by
  rw [Layout.plainScalar, hkeep]
  dsimp only [Option.bind_eq_bind, Option.bind_some]
  rw [hword]
  rfl

theorem plainScalar_name {name : String} (h : IsName name) (hcs : endsWord cs.head? = true)
    (hcur : cur.rest = name.toList ++ ':' :: cs) :
    (b.layout cur true).plainScalar = some (b.atColon cur name) := by
  have hword : word false (b.indent + 1) cur = (name, cur.skip name.toList.length, false) := by
    rw [word, h.wordFrom_eq hcs hcur]
    dsimp only
    rw [String.ofList_toList]
  have hkeep : (b.layout cur true).keepKey = some { b.layout cur true with
      keys := [(0, ⟨b.tokens.length, b.indent == cur.column, cur.index, cur.line, cur.column⟩)] } :=
    rfl
  exact plainScalar_eq hkeep hword

/-- A colon makes what is before it a key, and opens a mapping unless one is open at its column. -/
theorem value_atColon {name : String} :
    (b.atColon cur name).value
      = some (((b.enter cur.column .blockMapping).push [.key, .scalar name true, .value]).layout
          (cur.skip name.toList.length).next false) := by
  -- the key, and the block if one is opened, are put in at the place that was kept for the name
  have hkey : (b.tokens ++ [Token.scalar name true]).insertIdx b.tokens.length .key
      = b.tokens ++ [.key, .scalar name true] := insertIdx_length ..
  have hblock : (b.tokens ++ [Token.key, .scalar name true]).insertIdx b.tokens.length .blockMapping
      = b.tokens ++ [.blockMapping, .key, .scalar name true] := insertIdx_length ..
  by_cases hopens : b.indent < cur.column
  · rw [b.enter_of_lt hopens]
    simp [Layout.value, Blocks.atColon, Blocks.layout, Blocks.push, Layout.insert, Layout.opens,
      Layout.openBlock, Layout.push, Layout.moveTo, hopens, hkey, hblock]
  · rw [Blocks.enter, if_neg hopens]
    simp [Layout.value, Blocks.atColon, Blocks.layout, Blocks.push, Layout.insert, Layout.opens,
      Layout.push, Layout.moveTo, hopens, hkey]

/-- A name before a colon is read, and its place kept. -/
theorem reaches_atColon {name : String} (h : IsName name) (hcs : endsWord cs.head? = true)
    (hcur : cur.rest = name.toList ++ ':' :: cs) (hindent : b.indent ≤ cur.column) :
    Reaches (b.layout cur true) (b.atColon cur name) := by
  obtain ⟨c, ds, hhead, hword, hbegins⟩ := exists_beginsWord h.wordlike
    (wordlike_of_styleOf h.plain).2.2.1 0 0 none (':' :: cs)
  rw [h.plainFrom_eq, ← hcur] at hhead
  rw [← hhead] at hbegins
  refine Reaches.of_token hhead hbegins rfl hindent ?_ ?_
  · rw [readToken_word hword hhead rfl fun _ =>
      ⟨h.isMarker_eq_false (.inl rfl) hcur, h.isMarker_eq_false (.inr rfl) hcur⟩,
      plainScalar_name h hcs hcur]
    rfl
  · show (cur.skip name.toList.length).rest.length < cur.rest.length
    have hpos := h.length_pos
    rw [h.skip_eq hcur, hcur, List.length_append]
    dsimp only
    omega

/-- The name is short and in the same line, so its place may still turn out to be a key. -/
theorem dropStale_atColon {name : String} (h : IsName name)
    (hcur : cur.rest = name.toList ++ ':' :: cs) :
    (b.atColon cur name).dropStale = some (b.atColon cur name) := by
  have hfresh : (b.atColon cur name).isStale
      ⟨b.tokens.length, b.indent == cur.column, cur.index, cur.line, cur.column⟩ = false := by
    show (cur.line != (cur.skip name.toList.length).line
      || decide (1024 < (cur.skip name.toList.length).index - cur.index)) = false
    rw [h.skip_eq hcur]
    dsimp only
    rw [bne_self_eq_false, Bool.false_or, Nat.add_sub_cancel_left]
    exact decide_eq_false (Nat.not_lt.mpr h.short)
  have hkeys : (b.atColon cur name).keys
      = [(0, ⟨b.tokens.length, b.indent == cur.column, cur.index, cur.line, cur.column⟩)] := rfl
  rw [Layout.dropStale, hkeys]
  simp only [List.any_cons, List.any_nil, hfresh, Bool.false_and, Bool.or_false,
    Bool.false_eq_true, if_false, List.filter_cons, List.filter_nil, Bool.not_false, if_true]
  rfl

/-- The colon behind a name makes it a key. -/
theorem reaches_colon {name : String} (h : IsName name) (hcs : endsWord cs.head? = true)
    (hcur : cur.rest = name.toList ++ ':' :: cs) (hindent : b.indent ≤ cur.column) :
    Reaches (b.atColon cur name) (((b.enter cur.column .blockMapping).push
      [.key, .scalar name true, .value]).layout (cur.skip name.toList.length).next false) := by
  have hrest : (b.atColon cur name).cursor.rest = ':' :: cs := by
    show (cur.skip name.toList.length).rest = _
    rw [h.skip_eq hcur]
  refine Reaches.of_token hrest ?_ (dropStale_atColon h hcur) ?_ ?_ ?_
  · rw [hrest]
    exact .cons (by decide)
  · show b.indent ≤ ((cur.skip name.toList.length).column : Int)
    rw [h.skip_eq hcur]
    dsimp only
    omega
  · have halone : endsWord ((b.atColon cur name).cursor.peek 1) = true := by
      rw [Cursor.peek, hrest, ← hcs, List.head?_eq_getElem?]
      rfl
    have hcolumn : ((b.atColon cur name).cursor.column == 0) = false := by
      show ((cur.skip name.toList.length).column == 0) = false
      rw [h.skip_eq hcur, beq_eq_false_iff_ne]
      exact Nat.ne_of_gt (Nat.lt_of_lt_of_le h.length_pos (Nat.le_add_left _ _))
    have hvalue : (b.atColon cur name).readUnquoted? ':' = (b.atColon cur name).value := by
      rw [Layout.readUnquoted?]
      simp [halone, hcolumn]
    show readable ((b.atColon cur name).readUnquoted? ':') = _
    rw [hvalue, value_atColon]
    rfl
  · rw [hrest]
    show (cur.skip name.toList.length).next.rest.length < (':' :: cs).length
    rw [Cursor.rest_next, h.skip_eq hcur]
    exact Nat.lt_succ_self _

/-- A name and a colon are a key of the mapping at their column, which is opened unless it is
    open. -/
theorem exists_reaches_key {name : String} (h : IsName name) (hcs : endsWord cs.head? = true)
    (hcur : cur.rest = name.toList ++ ':' :: cs) (hindent : b.indent ≤ cur.column) :
    ∃ place, place.rest = cs ∧ place.column = cur.column + name.toList.length + 1
      ∧ Reaches (b.layout cur true) (((b.enter cur.column .blockMapping).push
          [.key, .scalar name true, .value]).layout place false) := by
  refine ⟨(cur.skip name.toList.length).next, ?_, ?_,
    (reaches_atColon h hcs hcur hindent).trans (reaches_colon h hcs hcur hindent)⟩
  · rw [h.skip_eq hcur]
    rfl
  · rw [h.skip_eq hcur]
    rfl

variable {indent column n : Nat}

/-- A value that is printed without quotes is a scalar. -/
theorem exists_reaches_word (indent column : Nat) {text : String} (hs : Wordlike text.toList)
    (hmark : beginsWithMark text.toList = false) (hfollow : Leads follow n rest)
    (hn : n ≤ b.indent) (hindent : b.indent < indent) (hcolumn : b.indent < cur.column)
    (hcur : cur.rest = plainFrom indent column none text.toList ++ follow) :
    ∃ place, place.rest = rest ∧ place.column = n ∧ Reaches (b.layout cur false)
      ((b.push [.scalar text true]).layout place true) := by
  obtain ⟨c, ds, hhead, hword, hbegins⟩ := exists_beginsWord hs hmark indent column none follow
  have hfirst : cur.rest = c :: ds := by rw [hcur, hhead]
  obtain ⟨after, hread, hlands, hlength⟩ := exists_wordFrom hs (b.indent + 1) hfollow
    (by omega) (by omega) hcur (by omega)
    (Nat.lt_succ_self cur.rest.length)
  obtain ⟨place, hplace, hplaceColumn, hreaches⟩ := hlands.exists_reaches
    (b := b.push [.scalar text true])
  refine ⟨place, hplace, hplaceColumn, Reaches.trans ?_ hreaches⟩
  have hscalar : (b.layout cur false).plainScalar
      = some ((b.push [.scalar text true]).layout after true) := by
    have hkeep : (b.layout cur false).keepKey = some (b.layout cur false) := rfl
    refine plainScalar_eq hkeep ?_
    show word false (b.indent + 1) cur = _
    rw [word, hread]
    dsimp only
    rw [String.ofList_toList]
  refine Reaches.of_token hfirst (by rw [← hfirst] at hbegins; exact hbegins) rfl
    (Int.le_of_lt hcolumn) ?_ ?_
  · rw [readToken_word hword hfirst rfl fun hzero => ?_, hscalar]
    · rfl
    · have hzero : cur.column = 0 := hzero
      omega
  · obtain ⟨d, es, hprint, -⟩ := exists_head_plainFrom indent column none hs
    show after.rest.length < cur.rest.length
    rw [hcur, hprint, List.length_append, List.length_cons]
    omega

/-- Quoted text is read where a key cannot stand. -/
theorem quotedScalar_eq {text : String} {double : Bool} {after : Cursor}
    (h : quoted double cur = .ok (text, after)) :
    (b.layout cur false).quotedScalar double
      = .ok ((b.push [.scalar text false]).layout after false) :=
  bind_eq_ok.mpr ⟨b.layout cur false, rfl, bind_eq_ok.mpr ⟨(text, after), h, rfl⟩⟩

/-- A text that is printed as a value is a scalar. -/
theorem exists_reaches_text (indent column : Nat) {text : String} (hfollow : Leads follow n rest)
    (hn : n ≤ b.indent)
    (hindent : b.indent < indent) (hwidth : indent < width) (hcolumn : b.indent < cur.column)
    (hcur : cur.rest = textFrom indent column text ++ follow) :
    ∃ place, place.rest = rest ∧ place.column = n ∧ Reaches (b.layout cur false)
      ((b.push [.scalar text (styleOf text == .plain)]).layout place true) := by
  -- a word takes the gap behind it along; a quoted text ends with its quote
  by_cases hstyle : styleOf text = .plain
  · obtain ⟨hs, -, hmark, -⟩ := wordlike_of_styleOf hstyle
    rw [textFrom, hstyle] at hcur
    rw [hstyle]
    exact exists_reaches_word indent column hs hmark hfollow hn hindent hcolumn hcur
  · have hend : follow.head? ≠ some '\'' := by
      cases hfollow <;> exact fun h => absurd (Option.some.inj h) (by decide)
    obtain ⟨mark, cs, hprint, hmark, hquoted⟩ := exists_quoted column
      (by omega) hwidth hend hstyle
    rw [hprint, List.cons_append] at hcur
    obtain ⟨after, hafter, hread⟩ := hquoted cur hcur
    obtain ⟨place, hplace, hplaceColumn, hreaches⟩ := hfollow.exists_reaches
      (b.push [.scalar text false]) false hafter
    rw [beq_eq_false_iff_ne.mpr hstyle]
    refine ⟨place, hplace, hplaceColumn, Reaches.trans ?_ hreaches⟩
    refine Reaches.of_token hcur ?_ rfl (Int.le_of_lt hcolumn) ?_ ?_
    · show Begins cur.rest
      rw [hcur]
      exact .cons (by rcases hmark with rfl | rfl <;> decide)
    · rcases hmark with rfl | rfl
      · exact quotedScalar_eq hread
      · exact quotedScalar_eq hread
    · show after.rest.length < cur.rest.length
      rw [hafter, hcur, List.length_cons, List.length_append]
      omega

end EntityQuery.Yaml
