import EntityQuery.Proofs.Yaml.Quoted
import EntityQuery.Yaml.Word

/-!
# Words — what is printed without quotes is read back

A text that stands without quotes is read chunk by chunk, with the gaps in between: spaces, or a
line end and the indentation of the next line, which stand for a space. It ends where the next line
that says something is not indented far enough, or is a comment. Where the reader is then, and where
it is led by white space and comments in general, is described by `Leads` and `Lands`.

* **`Yaml.exists_wordFrom`** — a printed text is read back, and the reader lands at the next line.
-/

namespace EntityQuery.Yaml

variable {cs follow rest : List Char} {c : Char} {cur : Cursor}

/-! ## Columns -/

namespace Cursor

/-- Some characters of one line are passed over. -/
theorem skip_append {w : List Char} (h : cur.rest = w ++ cs)
    (hw : ∀ c ∈ w, isBreak c = false ∧ c ≠ '\ufeff') :
    cur.skip w.length = ⟨cs, cur.index + w.length, cur.line, cur.column + w.length⟩ := by
  induction w generalizing cur with
  | nil =>
      obtain ⟨rest, index, line, column⟩ := cur
      obtain rfl : rest = cs := h
      rfl
  | cons c w ih =>
      obtain ⟨hc, hw⟩ := List.forall_mem_cons.mp hw
      have hnext : cur.next = ⟨w ++ cs, cur.index + 1, cur.line, cur.column + 1⟩ := by
        rw [next, h]
        simp [hc.1, hc.2]
      rw [List.length_cons, skip, ih (by rw [hnext]) hw, hnext]
      simp only [Cursor.mk.injEq, true_and]
      omega

/-- A line feed is passed over. -/
theorem next_feed (h : cur.rest = '\n' :: cs) :
    cur.next = ⟨cs, cur.index + 1, cur.line + 1, 0⟩ := by
  rw [next, h]
  rfl

end Cursor

/-- Simple characters other than line feeds take a column each. -/
theorem inline_of_isSimple (h : isSimple c = true) (hc : c ≠ '\n') :
    isBreak c = false ∧ c ≠ '\ufeff' := by
  have hother : ∀ d, isSimple d = false → c ≠ d := by
    rintro d hd rfl
    exact Bool.false_ne_true (hd.symm.trans h)
  exact ⟨by simp [isBreak, hc, hother '\r' rfl, hother '\x85' rfl, hother '\u2028' rfl,
    hother '\u2029' rfl], hother _ rfl⟩

/-! ## Behind a line -/

/-- Whether a token, or nothing, comes first: neither white space nor a comment. -/
def Begins (cs : List Char) : Prop := ∀ c ∈ cs.head?, c ≠ ' ' ∧ c ≠ '#' ∧ isBreak c = false

theorem Begins.cons (h : c ≠ ' ' ∧ c ≠ '#' ∧ isBreak c = false) : Begins (c :: cs) := by
  intro d hd
  obtain rfl := Option.some.inj hd
  exact h

/-- A line end leads to the next line that says something, over its indentation, or over an empty
    line and a comment. -/
inductive Leads : List Char → Nat → List Char → Prop
  | line {n : Nat} {rest : List Char} (h : Begins rest) :
      Leads ('\n' :: (List.replicate n ' ' ++ rest)) n rest
  | comment {note rest : List Char} (hnote : ∀ c ∈ note, isBreak c = false) (h : Begins rest) :
      Leads ('\n' :: '\n' :: '#' :: (note ++ '\n' :: rest)) 0 rest

/-- The last line end of a text leads to its end. -/
theorem Leads.last : Leads ['\n'] 0 [] :=
  .line (n := 0) fun _ hc => nomatch hc

/-- A word ends at a place of the next line that says something, or at the comment before it. -/
def Lands (cur : Cursor) (column : Nat) (rest : List Char) : Prop :=
  Begins rest ∧ ((cur.rest = rest ∧ cur.column = column)
    ∨ (column = 0 ∧ ∃ note, cur.rest = '#' :: (note ++ '\n' :: rest)
      ∧ ∀ c ∈ note, isBreak c = false))

theorem Leads.endsWord {n : Nat} (h : Leads cs n rest) : endsWord cs.head? = true := by
  cases h <;> rfl

/-- The indentation of a line is passed over. -/
theorem blankLines_spaces {n : Nat} (hcs : ∀ c ∈ cs.head?, c ≠ ' ' ∧ isBreak c = false)
    (h : cur.rest = List.replicate n ' ' ++ cs) {fuel : Nat} (hfuel : cur.rest.length ≤ fuel) :
    ∃ after, blankLines fuel cur = (some [], after) ∧ after.rest = cs
      ∧ after.column = cur.column + n := by
  induction n generalizing cur fuel with
  | zero =>
      refine ⟨cur, ?_, h, rfl⟩
      cases fuel with
      | zero => rfl
      | succ fuel =>
          have hbreak : cur.lineBreak? = none := Cursor.lineBreak?_none fun c hc => by
            rw [h] at hc
            exact (hcs c hc).2
          have hpeek : (cur.peek == some ' ') = false := by
            rw [beq_eq_false_iff_ne, Cursor.peek, h, List.replicate_zero, List.nil_append,
              ← List.head?_eq_getElem?]
            exact fun hspace => (hcs _ hspace).1 rfl
          rw [blankLines, hpeek, if_neg Bool.false_ne_true, hbreak]
  | succ n ih =>
      have hcur : cur.rest = ' ' :: (List.replicate n ' ' ++ cs) := h
      obtain ⟨fuel, rfl, hfuel⟩ := exists_fuel hcur hfuel
      have hnext : cur.next
          = ⟨List.replicate n ' ' ++ cs, cur.index + 1, cur.line, cur.column + 1⟩ :=
        Cursor.skip_append (w := [' ']) hcur (List.forall_mem_singleton.mpr (by decide))
      have hfuel : cur.next.rest.length ≤ fuel := by rwa [hnext]
      obtain ⟨after, hblank, hafter, hcolumn⟩ := ih
        (show cur.next.rest = List.replicate n ' ' ++ cs by rw [hnext]) hfuel
      refine ⟨after, ?_, hafter, ?_⟩
      · rw [blankLines, Cursor.peek_cons hcur, if_pos (beq_self_eq_true _), hblank]
      · rw [hcolumn, hnext]
        show cur.column + 1 + n = cur.column + (n + 1)
        omega

/-- A gap at a line end. -/
theorem gap_feed (h : cur.rest = '\n' :: cs) : gap cur
    = if cur.next.isSeparator then (none, cur.next, true)
      else
        let (more, after) := blankLines cs.length cur.next
        (more.map (folded '\n'), after, true) := by
  have hnext : cur.next.rest = cs := by rw [Cursor.next_feed h]
  have hspaces : cur.rest.takeWhile (· == ' ') = [] := by
    rw [h]
    rfl
  have hstay : cur.skip ([] : List Char).length = cur := rfl
  rw [gap]
  dsimp only
  rw [hspaces, hstay, Cursor.lineBreak?_feed h]
  dsimp only
  rw [hnext]

/-- A line end leads to the next line. -/
theorem exists_gap_line {n : Nat} (h : Begins rest)
    (hcur : cur.rest = '\n' :: (List.replicate n ' ' ++ rest)) :
    ∃ first after, gap cur = (first, after, true) ∧ after.rest = rest ∧ after.column = n := by
  have hnext := Cursor.next_feed hcur
  rw [gap_feed hcur]
  by_cases hseparator : cur.next.isSeparator = true
  · -- only an unindented line looks like the mark of a document
    have hn : n = 0 := by
      by_contra hn
      obtain ⟨m, rfl⟩ := Nat.exists_eq_succ_of_ne_zero hn
      exact Bool.false_ne_true ((Cursor.isSeparator_cons (by rw [hnext]; rfl)
        (by decide : ' ' ≠ '-' ∧ ' ' ≠ '.')).symm.trans hseparator)
    subst hn
    rw [if_pos hseparator]
    exact ⟨none, cur.next, rfl, by rw [hnext]; rfl, by rw [hnext]⟩
  · obtain ⟨after, hblank, hafter, hcolumn⟩ := blankLines_spaces
      (fun c hc => ⟨(h c hc).1, (h c hc).2.2⟩)
      (show cur.next.rest = List.replicate n ' ' ++ rest by rw [hnext]) (Nat.le_refl _)
    rw [hnext, Nat.zero_add] at hcolumn
    rw [if_neg hseparator]
    rw [hnext] at hblank ⊢
    rw [hblank]
    exact ⟨_, after, rfl, hafter, hcolumn⟩

/-- Two line ends lead to the comment behind them. -/
theorem gap_comment (hcur : cur.rest = '\n' :: '\n' :: '#' :: cs) :
    gap cur = (some ['\n'], cur.next.next, true) ∧ cur.next.next.rest = '#' :: cs := by
  have hnext : cur.next.rest = '\n' :: '#' :: cs := by rw [Cursor.next_feed hcur]
  have hbehind : cur.next.next.rest = '#' :: cs := by rw [Cursor.next_feed hnext]
  have hseparator : cur.next.isSeparator = false := Cursor.isSeparator_cons hnext (by decide)
  have hseparator' : cur.next.next.isSeparator = false :=
    Cursor.isSeparator_cons hbehind (by decide)
  have hbreak : cur.next.next.lineBreak? = none := Cursor.lineBreak?_cons hbehind (by decide)
  have hblank : blankLines ('\n' :: '#' :: cs).length cur.next = (some ['\n'], cur.next.next) := by
    rw [List.length_cons, blankLines, Cursor.peek_cons hnext, if_neg (by decide),
      Cursor.lineBreak?_feed hnext]
    dsimp only
    rw [hseparator', if_neg Bool.false_ne_true, List.length_cons, blankLines,
      Cursor.peek_cons hbehind, if_neg (by decide), hbreak]
    rfl
  rw [gap_feed hcur, hseparator, if_neg Bool.false_ne_true, hblank]
  exact ⟨rfl, hbehind⟩

/-- A line end leads to the next line, or to the comment before it, and so ends a word there unless
    that line is indented. -/
theorem exists_gap {n : Nat} (h : Leads cs n rest) (hcur : cur.rest = cs) :
    ∃ first after, gap cur = (first, after, true) ∧ Lands after n rest
      ∧ after.rest.length ≤ cs.length
      ∧ (first = none ∨ after.peek = some '#' ∨ after.column = n) := by
  cases h with
  | line h =>
      obtain ⟨first, after, hgap, hafter, hcolumn⟩ := exists_gap_line h hcur
      refine ⟨first, after, hgap, ⟨h, .inl ⟨hafter, hcolumn⟩⟩, ?_, .inr (.inr hcolumn)⟩
      rw [hafter, List.length_cons, List.length_append]
      omega
  | @comment note _ hnote h =>
      obtain ⟨hgap, hafter⟩ := gap_comment hcur
      refine ⟨_, _, hgap, ⟨h, .inr ⟨rfl, note, hafter, hnote⟩⟩, ?_,
        .inr (.inl (Cursor.peek_cons hafter))⟩
      rw [hafter]
      exact Nat.le_add_right _ 2

/-! ## Chunks -/

/-- A text that can stand without quotes: it begins and ends with a chunk, no chunk ends with a
    colon, and none but the first begins like a comment. -/
structure Wordlike (s : List Char) : Prop where
  inline : ∀ c ∈ s, isSimple c = true ∧ c ≠ '\n'
  begins : ∃ c ∈ s.head?, c ≠ ' ' ∧ c ≠ '#'
  closes : s.getLast? ≠ some ' '
  colon  : ∀ cs, s = ':' :: cs → endsWord cs.head? = false
  marks  : holdsMark s = false

/-- A chunk ends at a gap, and at a colon before one. -/
theorem chunk_of_endsWord (h : endsWord cs.head? = true) : chunk false cs = [] := by
  cases cs with
  | nil => rfl
  | cons c cs => exact if_pos h

theorem chunk_colon (h : endsWord cs.head? = true) : chunk false (':' :: cs) = [] := by
  rw [chunk, if_neg (by decide), h]
  rfl

/-- The characters up to the end of a chunk are one if no colon comes last. -/
theorem chunk_append {w : List Char} (hw : ∀ c ∈ w, endsWord (some c) = false)
    (hcolon : w.getLast? ≠ some ':') (hcs : chunk false cs = []) :
    chunk false (w ++ cs) = w := by
  induction w with
  | nil => exact hcs
  | cons c w ih =>
      obtain ⟨hc, hw⟩ := List.forall_mem_cons.mp hw
      have hmore : (c == ':' && endsWord (w ++ cs).head?) = false := by
        cases w with
        | nil =>
            have hc : c ≠ ':' := fun h => hcolon (congrArg some h)
            rw [beq_eq_false_iff_ne.mpr hc, Bool.false_and]
        | cons d w =>
            rw [List.cons_append, List.head?_cons, (List.forall_mem_cons.mp hw).1, Bool.and_false]
      rw [List.cons_append, chunk, hc, if_neg Bool.false_ne_true]
      simp only [Bool.false_and, Bool.or_false]
      rw [hmore, if_neg Bool.false_ne_true, if_neg Bool.false_ne_true, ih hw]
      intro hlast
      cases w with
      | nil => cases hlast
      | cons d w => exact hcolon (by rwa [List.getLast?_cons_cons])

theorem holdsMark_append {s t : List Char} (h : holdsMark (s ++ t) = false) :
    holdsMark t = false := by
  induction s with
  | nil => exact h
  | cons c s ih =>
      refine ih ?_
      cases hst : s ++ t with
      | nil => rfl
      | cons d u =>
          rw [List.cons_append, hst, holdsMark] at h
          exact (Bool.or_eq_false_iff.mp h).2

/-- The characters of a text before its first space. -/
def firstChunk (s : List Char) : List Char := s.takeWhile (· != ' ')

namespace Wordlike

variable {s : List Char}

theorem endsWord_of_mem (h : Wordlike s) (hc : c ∈ s) (hspace : c ≠ ' ') :
    endsWord (some c) = false :=
  endsWord_of_isSimple (h.inline c hc).1 hspace (h.inline c hc).2

theorem mem_firstChunk (hc : c ∈ firstChunk s) : c ∈ s ∧ c ≠ ' ' := by
  refine ⟨(List.takeWhile_prefix _).subset hc, ?_⟩
  rw [← bne_iff_ne]
  exact List.all_eq_true.mp List.all_takeWhile c hc

theorem firstChunk_ne_nil (h : Wordlike s) : firstChunk s ≠ [] := by
  obtain ⟨c, hc, hspace, -⟩ := h.begins
  cases s with
  | nil => cases hc
  | cons d s =>
      obtain rfl := Option.some.inj hc
      rw [firstChunk, List.takeWhile_cons_of_pos (p := (· != ' ')) (bne_iff_ne.mpr hspace)]
      exact List.cons_ne_nil _ _

/-- The first chunk is the text, or stands before a space. -/
theorem eq_firstChunk_or (s : List Char) :
    s = firstChunk s ∨ ∃ ds, s = firstChunk s ++ ' ' :: ds := by
  have hsplit : firstChunk s ++ s.dropWhile (· != ' ') = s := List.takeWhile_append_dropWhile
  cases hdrop : s.dropWhile (· != ' ') with
  | nil =>
      rw [hdrop, List.append_nil] at hsplit
      exact .inl hsplit.symm
  | cons d ds =>
      obtain rfl : d = ' ' := by
        have hd := List.head?_dropWhile_not (· != ' ') s
        rw [hdrop] at hd
        simpa using hd
      rw [hdrop] at hsplit
      exact .inr ⟨ds, hsplit.symm⟩

/-- No chunk ends with a colon. -/
theorem getLast_firstChunk (h : Wordlike s) : (firstChunk s).getLast? ≠ some ':' := by
  intro hlast
  obtain ⟨ds, hds⟩ := List.getLast?_eq_some_iff.mp hlast
  obtain ⟨rest, hgap, hs⟩ : ∃ rest, endsWord rest.head? = true ∧ s = ds ++ ':' :: rest := by
    rcases eq_firstChunk_or s with hwhole | ⟨rest, hmore⟩
    · exact ⟨[], rfl, by rw [hwhole, hds]⟩
    · refine ⟨' ' :: rest, rfl, ?_⟩
      rw [hds, List.append_assoc] at hmore
      exact hmore
  rcases List.eq_nil_or_concat ds with rfl | ⟨es, e, rfl⟩
  · exact Bool.false_ne_true ((h.colon rest hs).symm.trans hgap)
  · have hmarks := h.marks
    rw [hs, List.concat_eq_append, List.append_assoc] at hmarks
    have hpair := holdsMark_append hmarks
    rw [List.singleton_append, holdsMark, hgap] at hpair
    simp at hpair

/-- What stands behind a space is such a text itself, if it does not begin with one. -/
theorem behind_space {u : List Char} {e : Char} {es : List Char}
    (h : Wordlike (u ++ ' ' :: e :: es)) (he : e ≠ ' ') : Wordlike (e :: es) := by
  have hmarks := holdsMark_append h.marks
  rw [holdsMark] at hmarks
  simp only [Bool.or_eq_false_iff] at hmarks
  obtain ⟨⟨hcolon, hnote⟩, hmore⟩ := hmarks
  refine ⟨fun c hc => h.inline c (by simp [List.mem_cons.mp hc]), ⟨e, rfl, he, ?_⟩, ?_, ?_, hmore⟩
  · rintro rfl
    exact Bool.false_ne_true (hnote.symm.trans rfl)
  · intro hspace
    refine h.closes ?_
    rw [List.getLast?_append, List.getLast?_cons_cons, hspace]
    rfl
  · intro cs hcs
    obtain ⟨rfl, rfl⟩ := List.cons.inj hcs
    rwa [beq_self_eq_true, Bool.true_and] at hcolon

/-- Spaces are followed by something else, or by nothing. -/
theorem exists_spaces (ds : List Char) :
    ∃ k more, ds = List.replicate k ' ' ++ more ∧ ∀ e ∈ more.head?, e ≠ ' ' := by
  induction ds with
  | nil => exact ⟨0, [], rfl, fun e he => nomatch he⟩
  | cons d ds ih =>
      by_cases hd : d = ' '
      · obtain ⟨k, more, rfl, hmore⟩ := ih
        exact ⟨k + 1, more, by rw [hd]; rfl, hmore⟩
      · refine ⟨0, d :: ds, rfl, fun e he => ?_⟩
        obtain rfl := Option.some.inj he
        exact hd

/-- A text is one chunk, or goes on behind spaces as a text of its own. -/
theorem split (h : Wordlike s) : s = firstChunk s ∨ ∃ k more,
    s = firstChunk s ++ (List.replicate (k + 1) ' ' ++ more) ∧ Wordlike more := by
  refine (eq_firstChunk_or s).imp_right ?_
  rintro ⟨ds, hs⟩
  obtain ⟨k, more, rfl, hmore⟩ := exists_spaces ds
  refine ⟨k, more, hs, ?_⟩
  -- the last space of the gap, which does not end the text
  have hlast : s = firstChunk s ++ List.replicate k ' ' ++ ' ' :: more := by
    have hreplicate : ' ' :: (List.replicate k ' ' ++ more)
        = List.replicate k ' ' ++ ' ' :: more := by
      rw [← List.cons_append, ← List.replicate_succ, List.replicate_succ', List.append_assoc]
      rfl
    rwa [hreplicate, ← List.append_assoc] at hs
  cases more with
  | nil => exact absurd (by rw [hlast, List.getLast?_concat]) h.closes
  | cons e es =>
      rw [hlast] at h
      exact h.behind_space (hmore e rfl)

end Wordlike

/-! ## Printed words -/

variable {indent column : Nat} {before : Option Char}

theorem plainFrom_cons (hc : c ≠ ' ') (s : List Char) :
    plainFrom indent column before (c :: s) = c :: plainFrom indent (column + 1) (some c) s := by
  rw [plainFrom, beq_eq_false_iff_ne.mpr hc, Bool.false_and, Bool.false_and,
    if_neg Bool.false_ne_true]

/-- A chunk is printed as it is. -/
theorem plainFrom_chunk (indent column : Nat) (before : Option Char) {w : List Char}
    (hw : ∀ c ∈ w, c ≠ ' ') (t : List Char) :
    plainFrom indent column before (w ++ t)
      = w ++ plainFrom indent (column + w.length) (w.getLast?.or before) t := by
  induction w generalizing column before with
  | nil => rfl
  | cons c w ih =>
      obtain ⟨hc, hw⟩ := List.forall_mem_cons.mp hw
      have hlast : (c :: w).getLast?.or before = w.getLast?.or (some c) := by
        cases w with
        | nil => rfl
        | cons d w => rw [List.getLast?_cons_cons]; simp [List.getLast?_cons]
      rw [List.cons_append, plainFrom_cons hc, ih _ _ hw, hlast, List.length_cons, Nat.add_assoc,
        Nat.add_comm 1]
      rfl

/-- Further spaces are printed as they are. -/
theorem plainFrom_spaces (k : Nat) (t : List Char) :
    plainFrom indent column (some ' ') (List.replicate k ' ' ++ t)
      = List.replicate k ' ' ++ plainFrom indent (column + k) (some ' ') t := by
  induction k generalizing column with
  | zero => rfl
  | succ k ih =>
      rw [List.replicate_succ, List.cons_append, plainFrom]
      simp [isLone, ih, Nat.add_assoc, Nat.add_comm 1 k]

/-- A gap between chunks is printed as it is, or as a line end if it is one space. -/
theorem plainFrom_gap (indent column : Nat) (before : Option Char) (k : Nat) (t : List Char) :
    (∃ column', plainFrom indent column before (List.replicate (k + 1) ' ' ++ t)
        = List.replicate (k + 1) ' ' ++ plainFrom indent column' (some ' ') t)
    ∨ (k = 0 ∧ plainFrom indent column before (List.replicate (k + 1) ' ' ++ t)
        = newLine indent ++ plainFrom indent indent (some ' ') t) := by
  rw [List.replicate_succ, List.cons_append, plainFrom]
  split
  · rename_i hfold
    cases k with
    | zero => exact .inr ⟨rfl, rfl⟩
    | succ k =>
        -- a space before another one is not alone
        have hlone : isLone before (some ' ') = true := (Bool.and_eq_true_iff.mp hfold).2
        rw [isLone] at hlone
        exact absurd (Bool.and_eq_true_iff.mp hlone).2 (by decide)
  · rw [plainFrom_spaces]
    exact .inl ⟨_, rfl⟩

/-- A printed text begins with its first chunk. Behind a gap of one space or more the rest follows,
    behind the same spaces or in the next line. -/
theorem plainFrom_split (indent column : Nat) (before : Option Char) {s : List Char}
    (h : Wordlike s) :
    ∃ tail, plainFrom indent column before s = firstChunk s ++ tail
      ∧ ((s = firstChunk s ∧ tail = []) ∨ ∃ k more column',
        s = firstChunk s ++ (List.replicate (k + 1) ' ' ++ more) ∧ Wordlike more
          ∧ (tail = List.replicate (k + 1) ' ' ++ plainFrom indent column' (some ' ') more
            ∨ (k = 0 ∧ tail = newLine indent ++ plainFrom indent column' (some ' ') more))) := by
  have hprint := fun t => plainFrom_chunk indent column before
    (fun c hc => (Wordlike.mem_firstChunk (s := s) hc).2) t
  rcases h.split with hs | ⟨k, more, hs, hmore⟩
  · refine ⟨[], ?_, .inl ⟨hs, rfl⟩⟩
    have hend := hprint []
    rw [List.append_nil, ← hs] at hend
    rw [← hs]
    exact hend
  · have hmiddle := hprint (List.replicate (k + 1) ' ' ++ more)
    rw [← hs] at hmiddle
    refine ⟨_, hmiddle, .inr ?_⟩
    rcases plainFrom_gap indent (column + (firstChunk s).length)
      ((firstChunk s).getLast?.or before) k more with ⟨column', hgap⟩ | ⟨hk, hgap⟩
    · exact ⟨k, more, column', hs, hmore, .inl hgap⟩
    · exact ⟨k, more, indent, hs, hmore, .inr ⟨hk, hgap⟩⟩

/-- A printed text begins with the first character of the text. -/
theorem exists_head_plainFrom (indent column : Nat) (before : Option Char) {s : List Char}
    (h : Wordlike s) :
    ∃ c cs, plainFrom indent column before s = c :: cs ∧ c ≠ ' ' ∧ c ≠ '#' ∧ isBreak c = false := by
  obtain ⟨c, hc, hspace, hmark⟩ := h.begins
  cases s with
  | nil => cases hc
  | cons d s =>
      obtain rfl := Option.some.inj hc
      exact ⟨d, _, plainFrom_cons hspace s, hspace, hmark,
        (Bool.or_eq_false_iff.mp (h.endsWord_of_mem List.mem_cons_self hspace)).2⟩

/-- The first chunk of a printed text is that of the text. -/
theorem chunk_plainFrom {s : List Char} (h : Wordlike s) (hfollow : endsWord follow.head? = true) :
    chunk false (plainFrom indent column before s ++ follow) = firstChunk s := by
  obtain ⟨tail, hprint, htail⟩ := plainFrom_split indent column before h
  rw [hprint, List.append_assoc]
  refine chunk_append (fun c hc => h.endsWord_of_mem (Wordlike.mem_firstChunk hc).1
    (Wordlike.mem_firstChunk hc).2) h.getLast_firstChunk (chunk_of_endsWord ?_)
  rcases htail with ⟨-, rfl⟩ | ⟨k, more, column', -, -, rfl | ⟨-, rfl⟩⟩
  · exact hfollow
  · rfl
  · rfl

/-! ## Reading words -/

/-- The last chunk of a word. -/
theorem exists_wordFrom_chunk {w : List Char} {n : Nat} {threshold : Int} (fuel : Nat)
    (hcur : cur.rest = w ++ follow) (hchunk : chunk false cur.rest = w) (hw : w ≠ [])
    (hmark : cur.peek ≠ some '#') (hfollow : Leads follow n rest) (hn : n < threshold) :
    ∃ after, wordFrom false threshold (fuel + 1) cur = (w, after, true) ∧ Lands after n rest
      ∧ after.rest.length ≤ follow.length := by
  have hbehind : (cur.skip w.length).rest = follow := by
    simp [hcur]
  obtain ⟨first, after, hgap, hlands, hlength, hstop⟩ := exists_gap hfollow hbehind
  refine ⟨after, ?_, hlands, hlength⟩
  rw [wordFrom, beq_eq_false_iff_ne.mpr hmark, if_neg Bool.false_ne_true, hchunk,
    List.isEmpty_eq_false_iff.mpr hw, if_neg Bool.false_ne_true, hgap]
  cases first with
  | none => rfl
  | some spaces =>
      have hcond : (after.peek == some '#' || (!false && decide ((after.column : Int) < threshold))
          || (chunk false after.rest).isEmpty) = true := by
        rcases hstop with h | h | h
        · cases h
        · rw [h]
          rfl
        · rw [h, decide_eq_true hn]
          simp
      dsimp only
      rw [if_pos hcond]

/-- A chunk that is not the last one. -/
theorem wordFrom_gap {w spaces text : List Char} {place after : Cursor} {newLine last : Bool}
    {threshold : Int} {fuel : Nat} (hchunk : chunk false cur.rest = w) (hw : w ≠ [])
    (hmark : cur.peek ≠ some '#') (hgap : gap (cur.skip w.length) = (some spaces, place, newLine))
    (hplace : place.peek ≠ some '#') (hcolumn : threshold ≤ place.column)
    (hmore : chunk false place.rest ≠ [])
    (hread : wordFrom false threshold fuel place = (text, after, last)) :
    wordFrom false threshold (fuel + 1) cur = (w ++ spaces ++ text, after, last) := by
  have hcond : (place.peek == some '#' || (!false && decide ((place.column : Int) < threshold))
      || (chunk false place.rest).isEmpty) = false := by
    rw [beq_eq_false_iff_ne.mpr hplace, decide_eq_false (Int.not_lt.mpr hcolumn),
      List.isEmpty_eq_false_iff.mpr hmore]
    rfl
  rw [wordFrom, beq_eq_false_iff_ne.mpr hmark, if_neg Bool.false_ne_true, hchunk,
    List.isEmpty_eq_false_iff.mpr hw, if_neg Bool.false_ne_true, hgap]
  dsimp only
  rw [hcond, if_neg Bool.false_ne_true, hread]

/-- A gap within a line. -/
theorem gap_spaces {k : Nat} (hcs : ∀ c ∈ cs.head?, c ≠ ' ' ∧ isBreak c = false)
    (h : cur.rest = List.replicate (k + 1) ' ' ++ cs) :
    gap cur = (some (List.replicate (k + 1) ' '),
      ⟨cs, cur.index + (k + 1), cur.line, cur.column + (k + 1)⟩, false) := by
  have hspaces : cur.rest.takeWhile (· == ' ') = List.replicate (k + 1) ' ' := by
    rw [h, List.takeWhile_append_of_pos fun c hc =>
      beq_iff_eq.mpr (List.eq_of_mem_replicate hc)]
    cases cs with
    | nil => exact List.append_nil _
    | cons c cs =>
        rw [List.takeWhile_cons_of_neg (p := (· == ' ')) fun hc => (hcs c rfl).1 (beq_iff_eq.mp hc),
          List.append_nil]
  have hskip := Cursor.skip_append h fun c hc => by
    rw [List.eq_of_mem_replicate hc]
    decide
  rw [List.length_replicate] at hskip
  have hbreak : (⟨cs, cur.index + (k + 1), cur.line, cur.column + (k + 1)⟩ : Cursor).lineBreak?
      = none := Cursor.lineBreak?_none fun c hc => (hcs c hc).2
  rw [gap]
  dsimp only
  rw [hspaces, List.length_replicate, hskip, hbreak]
  rfl

/-- A gap that goes over a line end to an indented line. -/
theorem exists_gap_newLine (hindent : 0 < indent)
    (hcs : ∀ c ∈ cs.head?, c ≠ ' ' ∧ isBreak c = false) (h : cur.rest = newLine indent ++ cs) :
    ∃ after, gap cur = (some [' '], after, true) ∧ after.rest = cs ∧ after.column = indent := by
  have hnext := Cursor.next_feed h
  have hseparator : cur.next.isSeparator = false := by
    obtain ⟨m, rfl⟩ := Nat.exists_eq_succ_of_ne_zero (Nat.ne_of_gt hindent)
    exact Cursor.isSeparator_cons (by rw [hnext]; rfl) (by decide : ' ' ≠ '-' ∧ ' ' ≠ '.')
  obtain ⟨after, hblank, hafter, hcolumn⟩ := blankLines_spaces hcs
    (show cur.next.rest = List.replicate indent ' ' ++ cs by rw [hnext]; rfl) (Nat.le_refl _)
  rw [hnext, Nat.zero_add] at hcolumn
  refine ⟨after, ?_, hafter, hcolumn⟩
  rw [gap_feed h, hseparator, if_neg Bool.false_ne_true]
  rw [hnext] at hblank ⊢
  rw [hblank]
  rfl

/-- Behind a chunk a gap stands for the spaces of the text, in the line or over a line end. -/
theorem exists_gap_plainFrom {k : Nat} {more tail : List Char} {threshold : Int}
    (hmore : Wordlike more) (hindent : threshold ≤ indent) (hpos : 0 < indent)
    (hcolumn : threshold ≤ cur.column) (hcur : cur.rest = tail ++ follow)
    (htail : tail = List.replicate (k + 1) ' ' ++ plainFrom indent column (some ' ') more
      ∨ (k = 0 ∧ tail = newLine indent ++ plainFrom indent column (some ' ') more)) :
    ∃ place broken, gap cur = (some (List.replicate (k + 1) ' '), place, broken)
      ∧ place.rest = plainFrom indent column (some ' ') more ++ follow
      ∧ threshold ≤ place.column ∧ place.rest.length < cur.rest.length := by
  obtain ⟨c, ds, hhead, hspace, -, hbreak⟩ := exists_head_plainFrom indent column (some ' ') hmore
  have hink : ∀ d ∈ (plainFrom indent column (some ' ') more ++ follow).head?,
      d ≠ ' ' ∧ isBreak d = false := by
    intro d hd
    rw [hhead] at hd
    obtain rfl := Option.some.inj hd
    exact ⟨hspace, hbreak⟩
  rcases htail with rfl | ⟨rfl, rfl⟩
  · rw [List.append_assoc] at hcur
    refine ⟨_, false, gap_spaces hink hcur, rfl, by dsimp only; omega, ?_⟩
    rw [hcur]
    simp only [List.length_append, List.length_replicate]
    omega
  · rw [List.append_assoc] at hcur
    obtain ⟨place, hgap, hplace, hplaceColumn⟩ := exists_gap_newLine hpos hink hcur
    refine ⟨place, true, hgap, hplace, by rw [hplaceColumn]; exact hindent, ?_⟩
    rw [hplace, hcur, newLine]
    simp only [List.length_append, List.length_cons]
    omega

/-- **Words.** A text that is printed without quotes is read back up to where the line end after it
    leads, if it goes on far enough to the right. -/
theorem exists_wordFrom {s : List Char} (hs : Wordlike s) {n : Nat} (threshold : Int)
    (hfollow : Leads follow n rest) (hn : n < threshold) (hindent : threshold ≤ indent)
    (hcur : cur.rest = plainFrom indent column before s ++ follow)
    (hcolumn : threshold ≤ cur.column) {fuel : Nat} (hfuel : cur.rest.length < fuel) :
    ∃ after, wordFrom false threshold fuel cur = (s, after, true) ∧ Lands after n rest
      ∧ after.rest.length ≤ follow.length := by
  have hpos : 0 < indent := by omega
  induction hlength : s.length using Nat.strongRecOn generalizing s cur column before fuel with
  | ind m ih =>
      obtain ⟨fuel, rfl⟩ := Nat.exists_eq_succ_of_ne_zero (Nat.ne_zero_of_lt hfuel)
      have hchunk : chunk false cur.rest = firstChunk s := by
        rw [hcur]
        exact chunk_plainFrom hs hfollow.endsWord
      have hmark : cur.peek ≠ some '#' := by
        obtain ⟨c, cs, hhead, -, hc, -⟩ := exists_head_plainFrom indent column before hs
        rw [Cursor.peek_cons (by rw [hcur, hhead]; rfl)]
        exact fun h => hc (Option.some.inj h)
      obtain ⟨tail, hprint, htail⟩ := plainFrom_split indent column before hs
      rw [hprint, List.append_assoc] at hcur
      have hskip := Cursor.skip_append hcur fun c hc =>
        have hc := hs.inline c (Wordlike.mem_firstChunk hc).1
        inline_of_isSimple hc.1 hc.2
      rcases htail with ⟨hwhole, rfl⟩ | ⟨k, more, column', hsplit, hmore, htail⟩
      · obtain ⟨after, hread, hlands⟩ := exists_wordFrom_chunk fuel hcur hchunk
          hs.firstChunk_ne_nil hmark hfollow hn
        exact ⟨after, by rw [hread, ← hwhole], hlands⟩
      · have hbehind : (cur.skip (firstChunk s).length).rest = tail ++ follow := by rw [hskip]
        have hfurther : threshold ≤ (cur.skip (firstChunk s).length).column := by
          rw [hskip]
          dsimp only
          omega
        obtain ⟨place, broken, hgap, hplace, hright, hshorter⟩ :=
          exists_gap_plainFrom hmore hindent hpos hfurther hbehind htail
        have hless : more.length < m := by
          rw [← hlength, hsplit, List.length_append, List.length_append, List.length_replicate]
          omega
        have hrest : place.rest.length < fuel := by
          rw [hbehind] at hshorter
          rw [hcur, List.length_append] at hfuel
          omega
        obtain ⟨after, hread, hlands⟩ := ih _ hless hmore hplace hright hrest rfl
        refine ⟨after, ?_, hlands⟩
        obtain ⟨c, ds, hhead, -, hnote, -⟩ := exists_head_plainFrom indent column' (some ' ') hmore
        have hpeek : place.peek = some c := Cursor.peek_cons (by rw [hplace, hhead]; rfl)
        have hchunkMore : chunk false place.rest = firstChunk more := by
          rw [hplace]
          exact chunk_plainFrom hmore hfollow.endsWord
        rw [wordFrom_gap hchunk hs.firstChunk_ne_nil hmark hgap
          (by rw [hpeek]; exact fun h => hnote (Option.some.inj h)) hright
          (by rw [hchunkMore]; exact hmore.firstChunk_ne_nil) hread, List.append_assoc, ← hsplit]

/-- A text that is printed without quotes can stand so. -/
theorem wordlike_of_styleOf {s : String} (h : styleOf s = .plain) :
    Wordlike s.toList ∧ isPlainText s = true ∧ beginsWithMark s.toList = false
      ∧ beginsLikeMarker s.toList = false := by
  rw [styleOf] at h
  split at h
  · cases h
  · rename_i hfold
    split at h
    · cases h
    · rename_i hmarks
      simp only [Bool.or_eq_true, not_or, Bool.not_eq_true', Bool.not_eq_false,
        Bool.not_eq_true] at hfold hmarks
      obtain ⟨⟨⟨⟨⟨hplain, hpadded⟩, hfeed⟩, hbegins⟩, hholds⟩, hmarker⟩ := hmarks
      obtain ⟨hhead, hlast⟩ := Bool.or_eq_false_iff.mp hpadded
      refine ⟨⟨fun c hc => ⟨List.all_eq_true.mp hfold.1.1 c hc, ?_⟩, ?_, ?_, ?_, hholds⟩, hplain,
        hbegins, hmarker⟩
      · rintro rfl
        exact Bool.false_ne_true (hfeed.symm.trans (List.contains_iff_mem.mpr hc))
      · cases hs : s.toList with
        | nil =>
            have hnil : s = "" := by rw [← String.ofList_toList (s := s), hs]
            rw [hnil] at hplain
            exact absurd hplain (by decide)
        | cons c cs =>
            rw [hs] at hhead hbegins
            refine ⟨c, rfl, ?_, ?_⟩
            · rintro rfl
              exact Bool.false_ne_true hhead.symm
            · rintro rfl
              exact Bool.false_ne_true hbegins.symm
      · intro hspace
        rw [hspace] at hlast
        exact Bool.false_ne_true hlast.symm
      · intro cs hs
        rw [hs, beginsWithMark] at hbegins
        exact (Bool.or_eq_false_iff.mp hbegins).2

end EntityQuery.Yaml
