import Mathlib.Algebra.Group.Nat.Defs
import EntityQuery.Proofs.Outcome
import EntityQuery.Proofs.Yaml.Printer
import EntityQuery.Yaml.Quoted

/-!
# Quoted texts — what is printed between quotes is read back

Between quotes a reader goes from character to character, but takes white space and line ends in
one go. What the characters up to a closing quote spell does not depend on the place they are read
at, so it is described as a relation, `Spells`, with one rule for each thing that may come next: a
character that stands for itself, a space, a line end with empty lines after it, an escape. Both
printers build their output by these rules.

* **`Yaml.folds_of_foldable`**, **`Yaml.resumes`** — the two printers.
* **`Yaml.exists_quoted`** — a text that is printed between quotes is read back.
-/

namespace EntityQuery.Yaml

/-! ## Places -/

namespace Cursor

variable {cur : Cursor} {cs : List Char} {c : Char}

@[simp] theorem rest_next (cur : Cursor) : cur.next.rest = cur.rest.tail := by
  rw [next]
  split
  · rename_i h
    rw [h]
    rfl
  · rename_i c cs h
    rw [h]
    split <;> rfl

@[simp] theorem rest_skip (n : Nat) (cur : Cursor) : (cur.skip n).rest = cur.rest.drop n := by
  induction n generalizing cur with
  | zero => rfl
  | succ n ih => rw [skip, ih, rest_next, List.drop_tail]

/-- Behind all characters of a class. -/
theorem rest_skipWhile (p : Char → Bool) (cur : Cursor) :
    (cur.skipWhile p).rest = cur.rest.dropWhile p := by
  rw [skipWhile, rest_skip]
  have hsplit := List.takeWhile_append_dropWhile (p := p) (l := cur.rest)
  calc cur.rest.drop (cur.rest.takeWhile p).length
      = (cur.rest.takeWhile p ++ cur.rest.dropWhile p).drop (cur.rest.takeWhile p).length := by
        rw [hsplit]
    _ = cur.rest.dropWhile p := List.drop_left ..

theorem peek_cons (h : cur.rest = c :: cs) : cur.peek = some c := by
  rw [peek, h]
  rfl

theorem lineBreak?_feed (h : cur.rest = '\n' :: cs) : cur.lineBreak? = some ('\n', cur.next) := by
  rw [lineBreak?, h]
  simp [isBreak]

theorem lineBreak?_none (h : ∀ c ∈ cur.rest.head?, isBreak c = false) : cur.lineBreak? = none := by
  rw [lineBreak?]
  split
  · rename_i _ hrest
    rw [hrest] at h
    exact absurd (h _ rfl) (by decide)
  · rename_i c cs _ hrest
    rw [hrest] at h
    have hc : isBreak c = false := h c rfl
    have hother : (c == '\u2028' || c == '\u2029') = false := by
      rw [isBreak, Bool.or_assoc] at hc
      exact (Bool.or_eq_false_iff.mp hc).2
    rw [hother, hc]
    rfl
  · rfl

/-- Only a dash or a point may begin or end a document. -/
theorem isSeparator_eq_false (h : ∀ c ∈ cur.rest.head?, c ≠ '-' ∧ c ≠ '.') :
    cur.isSeparator = false := by
  have hmarker : ∀ d, d = '-' ∨ d = '.' → cur.isMarker d = false := by
    intro d hd
    have htake : (cur.rest.take 3 == [d, d, d]) = false := by
      rw [beq_eq_false_iff_ne]
      intro heq
      cases hrest : cur.rest with
      | nil =>
          rw [hrest] at heq
          cases heq
      | cons c cs =>
          rw [hrest] at heq h
          obtain rfl := (List.cons.inj heq).1
          exact hd.elim (h c rfl).1 (h c rfl).2
    rw [isMarker, htake, Bool.false_and]
  rw [isSeparator, hmarker _ (.inl rfl), hmarker _ (.inr rfl)]
  rfl

theorem lineBreak?_cons (h : cur.rest = c :: cs) (hc : isBreak c = false) :
    cur.lineBreak? = none :=
  lineBreak?_none fun d hd => by
    rw [h] at hd
    obtain rfl := Option.some.inj hd
    exact hc

theorem isSeparator_cons (h : cur.rest = c :: cs) (hc : c ≠ '-' ∧ c ≠ '.') :
    cur.isSeparator = false :=
  isSeparator_eq_false fun d hd => by
    rw [h] at hd
    obtain rfl := Option.some.inj hd
    exact hc

end Cursor

/-! ## What quoted characters spell -/

/-- The characters up to a closing quote spell a text, and others are left after it, wherever they
    stand. -/
def Spells (double : Bool) (cs text rest : List Char) : Prop :=
  ∀ cur : Cursor, cur.rest = cs → ∀ fuel, cs.length < fuel →
    ∃ after, after.rest = rest ∧ quotedFrom double fuel cur = .ok (text, after)

/-- Whether a character stands for itself between quotes, and is no white space. -/
def isOwn (double : Bool) (c : Char) : Bool :=
  !isSpace c && !isBreak c && if double then c != '"' && c != '\\' else c != '\''

/-- Whatever white space comes first, a character in the same line comes after it. -/
def Firm (cs : List Char) : Prop := endsWord (cs.dropWhile isSpace).head? = false

variable {double : Bool} {c : Char} {cs text rest : List Char}

theorem firm_of_head (h : endsWord cs.head? = false) : Firm cs := by
  cases cs with
  | nil => cases h
  | cons c cs => rwa [Firm, List.dropWhile_cons_of_neg (by
      rw [(Bool.or_eq_false_iff.mp h).1]
      exact Bool.false_ne_true)]

theorem Firm.cons (hc : isSpace c = true) (h : Firm cs) : Firm (c :: cs) := by
  rwa [Firm, List.dropWhile_cons_of_pos hc]

theorem dropWhile_spaces {p : Char → Bool} {n : Nat} (hp : p ' ' = true)
    (hcs : ∀ c ∈ cs.head?, p c = false) : (List.replicate n ' ' ++ cs).dropWhile p = cs := by
  rw [List.dropWhile_append_of_pos fun c hc => by rwa [List.eq_of_mem_replicate hc]]
  cases cs with
  | nil => rfl
  | cons c cs => exact List.dropWhile_cons_of_neg (Bool.eq_false_iff.mp (hcs c rfl))

/-- Fuel for a place with a character is enough for a step and for the place after it. -/
theorem exists_fuel {cur : Cursor} {fuel : Nat} (h : cur.rest = c :: cs)
    (hfuel : cur.rest.length ≤ fuel) : ∃ f, fuel = f + 1 ∧ cs.length ≤ f := by
  rw [h, List.length_cons] at hfuel
  obtain ⟨f, rfl⟩ := Nat.exists_eq_succ_of_ne_zero (Nat.ne_zero_of_lt hfuel)
  exact ⟨f, rfl, Nat.le_of_succ_le_succ hfuel⟩

section Steps

variable {cur : Cursor} {fuel : Nat}

/-- One step between quotes, by the character at a place. -/
theorem quotedFrom_cons (h : cur.rest = c :: cs) : quotedFrom double (fuel + 1) cur
    = if !double && c == '\'' then
        if cs.head? == some '\'' then do
          let (text, after) ← quotedFrom double fuel (cur.skip 2)
          return ('\'' :: text, after)
        else return ([], cur.next)
      else if double && c == '"' then return ([], cur.next)
      else if double && c == '\\' then do
        let (chars, after) ← escaped cur
        let (text, after) ← quotedFrom double fuel after
        return (chars ++ text, after)
      else if isSpace c || isBreak c then
        match (cur.skipWhile isSpace).lineBreak? with
        | some (first, after) => do
          let (more, after) ← readable (emptyLines after.rest.length after)
          let (text, after) ← quotedFrom double fuel after
          return (folded first more ++ text, after)
        | none => do
          let (text, after) ← quotedFrom double fuel (cur.skipWhile isSpace)
          return (cur.rest.takeWhile isSpace ++ text, after)
      else do
        let (text, after) ← quotedFrom double fuel cur.next
        return (c :: text, after) := by
  have hnext : cur.peek 1 = cs.head? := by
    rw [Cursor.peek, h, List.head?_eq_getElem?]
    rfl
  rw [quotedFrom, Cursor.peek_cons h, hnext]
  rfl

theorem quotedFrom_own (h : cur.rest = c :: cs) (hc : isOwn double c = true) :
    quotedFrom double (fuel + 1) cur
    = do
      let (text, after) ← quotedFrom double fuel cur.next
      return (c :: text, after) := by
  have hown := hc
  simp only [isOwn, Bool.and_eq_true, Bool.not_eq_true'] at hown
  obtain ⟨⟨hspace, hbreak⟩, hquotes⟩ := hown
  rw [quotedFrom_cons h, hspace, hbreak]
  cases double <;> simp_all

/-- White space and line ends are no quotes and begin no escape. -/
theorem quotedFrom_blank (h : cur.rest = c :: cs) (hc : endsWord (some c) = true) :
    quotedFrom double (fuel + 1) cur
    = match (cur.skipWhile isSpace).lineBreak? with
      | some (first, after) => do
        let (more, after) ← readable (emptyLines after.rest.length after)
        let (text, after) ← quotedFrom double fuel after
        return (folded first more ++ text, after)
      | none => do
        let (text, after) ← quotedFrom double fuel (cur.skipWhile isSpace)
        return (cur.rest.takeWhile isSpace ++ text, after) := by
  have hquotes : ∀ d, endsWord (some d) = false → (c == d) = false := by
    intro d hd
    rw [beq_eq_false_iff_ne]
    rintro rfl
    exact Bool.false_ne_true (hd.symm.trans hc)
  have hblank : (isSpace c || isBreak c) = true := hc
  rw [quotedFrom_cons h, hquotes '\'' (by decide), hquotes '"' (by decide),
    hquotes '\\' (by decide), hblank, Bool.and_false, Bool.and_false]
  rfl

theorem quotedFrom_space (h : cur.rest = c :: cs) (hc : isSpace c = true) (hcs : Firm cs) :
    quotedFrom double (fuel + 1) cur
    = do
      let (text, after) ← quotedFrom double fuel (cur.skipWhile isSpace)
      return (cur.rest.takeWhile isSpace ++ text, after) := by
  have hbreak : (cur.skipWhile isSpace).lineBreak? = none := by
    refine Cursor.lineBreak?_none fun d hd => ?_
    rw [Cursor.rest_skipWhile, h, List.dropWhile_cons_of_pos hc] at hd
    rw [Firm, Option.mem_def.mp hd] at hcs
    exact (Bool.or_eq_false_iff.mp hcs).2
  rw [quotedFrom_blank h (Bool.or_eq_true_iff.mpr (.inl hc)), hbreak]

theorem quotedFrom_feed (h : cur.rest = '\n' :: cs) :
    quotedFrom double (fuel + 1) cur
    = do
      let (more, after) ← readable (emptyLines cs.length cur.next)
      let (text, after) ← quotedFrom double fuel after
      return (folded '\n' more ++ text, after) := by
  have hstay : cur.skipWhile isSpace = cur := by
    rw [Cursor.skipWhile, h]
    rfl
  rw [quotedFrom_blank h (by decide), hstay, Cursor.lineBreak?_feed h]
  dsimp only
  rw [Cursor.rest_next, h]
  rfl

/-- Empty lines are read up to a line with something in it. -/
theorem emptyLines_feeds {k n : Nat} (hn : 0 < n) (hcs : endsWord cs.head? = false)
    (h : cur.rest = List.replicate k '\n' ++ (List.replicate n ' ' ++ cs))
    (hfuel : cur.rest.length ≤ fuel) :
    ∃ after, after.rest = cs ∧ emptyLines fuel cur = some (List.replicate k '\n', after) := by
  have hink : ∀ c ∈ cs.head?, isSpace c = false ∧ isBreak c = false := by
    intro c hc
    rw [Option.mem_def.mp hc] at hcs
    exact Bool.or_eq_false_iff.mp hcs
  induction k generalizing cur fuel with
  | zero =>
      obtain ⟨m, rfl⟩ := Nat.exists_eq_succ_of_ne_zero (Nat.ne_of_gt hn)
      have hcur : cur.rest = ' ' :: (List.replicate m ' ' ++ cs) := h
      obtain ⟨fuel, rfl, -⟩ := exists_fuel hcur hfuel
      have hseparator : cur.isSeparator = false := Cursor.isSeparator_cons hcur (by decide)
      have hbehind : (cur.skipWhile isSpace).rest = cs := by
        rw [Cursor.rest_skipWhile, h]
        exact dropWhile_spaces rfl fun c hc => (hink c hc).1
      have hbreak : (cur.skipWhile isSpace).lineBreak? = none := by
        refine Cursor.lineBreak?_none fun c hc => ?_
        rw [hbehind] at hc
        exact (hink c hc).2
      refine ⟨_, hbehind, ?_⟩
      rw [emptyLines, hseparator, if_neg Bool.false_ne_true]
      dsimp only
      rw [hbreak]
      rfl
  | succ k ih =>
      have hcur : cur.rest = '\n' :: (List.replicate k '\n' ++ (List.replicate n ' ' ++ cs)) := h
      obtain ⟨fuel, rfl, hfuel⟩ := exists_fuel hcur hfuel
      have hseparator : cur.isSeparator = false := Cursor.isSeparator_cons hcur (by decide)
      have hstay : cur.skipWhile isSpace = cur := by
        rw [Cursor.skipWhile, hcur]
        rfl
      have hnext : cur.next.rest = List.replicate k '\n' ++ (List.replicate n ' ' ++ cs) := by
        simp [hcur]
      have hfuel : cur.next.rest.length ≤ fuel := by rwa [hnext]
      obtain ⟨after, hafter, hmore⟩ := ih hnext hfuel
      refine ⟨after, hafter, ?_⟩
      rw [emptyLines, hseparator, if_neg Bool.false_ne_true]
      dsimp only
      rw [hstay, Cursor.lineBreak?_feed hcur]
      dsimp only
      rw [hmore]
      rfl

end Steps

namespace Spells

/-- A rule for what begins with a character may take one step. -/
theorem of_step (h : ∀ cur : Cursor, cur.rest = c :: cs → ∀ fuel, cs.length < fuel →
      ∃ after, after.rest = rest ∧ quotedFrom double (fuel + 1) cur = .ok (text, after)) :
    Spells double (c :: cs) text rest := by
  intro cur hcur fuel hfuel
  obtain ⟨fuel, rfl⟩ := Nat.exists_eq_succ_of_ne_zero (Nat.ne_zero_of_lt hfuel)
  exact h cur hcur fuel (Nat.lt_of_succ_lt_succ hfuel)

/-- An apostrophe that is not doubled ends the text. -/
theorem apostrophe (h : rest.head? ≠ some '\'') : Spells false ('\'' :: rest) [] rest := by
  refine of_step fun cur hcur fuel _ => ⟨cur.next, by simp [hcur], ?_⟩
  rw [quotedFrom_cons hcur, beq_eq_false_iff_ne.mpr h]
  rfl

theorem doubled (h : Spells false cs text rest) :
    Spells false ('\'' :: '\'' :: cs) ('\'' :: text) rest := by
  refine of_step fun cur hcur fuel hfuel => ?_
  obtain ⟨after, hafter, hread⟩ := h (cur.skip 2) (by simp [hcur]) fuel
    (Nat.lt_of_succ_lt hfuel)
  refine ⟨after, hafter, ?_⟩
  rw [quotedFrom_cons hcur, hread]
  rfl

theorem quotationMark : Spells true ('"' :: rest) [] rest := by
  refine of_step fun cur hcur fuel _ => ⟨cur.next, by simp [hcur], ?_⟩
  rw [quotedFrom_cons hcur]
  rfl

theorem own (hc : isOwn double c = true) (h : Spells double cs text rest) :
    Spells double (c :: cs) (c :: text) rest := by
  refine of_step fun cur hcur fuel hfuel => ?_
  obtain ⟨after, hafter, hread⟩ := h cur.next (by simp [hcur]) fuel hfuel
  refine ⟨after, hafter, ?_⟩
  rw [quotedFrom_own hcur hc, hread]
  rfl

/-- White space stands for itself unless a line ends after it. -/
theorem space (hc : isSpace c = true) (hcs : Firm cs) (h : Spells double cs text rest) :
    Spells double (c :: cs) (c :: text) rest := by
  refine of_step fun cur hcur fuel hfuel => ?_
  have hrest : cur.next.rest = cs := by
    simp [hcur]
  have hgap : cur.rest.takeWhile isSpace = c :: cs.takeWhile isSpace := by
    rw [hcur, List.takeWhile_cons_of_pos hc]
  have hbehind : cur.skipWhile isSpace = cur.next.skipWhile isSpace := by
    rw [Cursor.skipWhile, hgap, Cursor.skipWhile, hrest]
    rfl
  rw [quotedFrom_space hcur hc hcs, hgap, hbehind]
  -- from its second character on, this is the same gap, or none is left
  cases hspace : cs.head?.any isSpace with
  | true =>
      obtain ⟨d, ds, rfl⟩ : ∃ d ds, cs = d :: ds := by
        cases cs with
        | nil => cases hspace
        | cons d ds => exact ⟨d, ds, rfl⟩
      have hd : isSpace d = true := hspace
      have hds : Firm ds := by rwa [Firm, List.dropWhile_cons_of_pos hd] at hcs
      obtain ⟨after, hafter, hread⟩ := h cur.next hrest (fuel + 1) (Nat.lt_succ_of_lt hfuel)
      rw [quotedFrom_space hrest hd hds, hrest] at hread
      obtain ⟨⟨text', after'⟩, hinner, hread⟩ := bind_eq_ok.mp hread
      obtain ⟨rfl, rfl⟩ := Prod.mk.inj (Except.ok.inj hread)
      refine ⟨after', hafter, ?_⟩
      rw [hinner]
      rfl
  | false =>
      have hnone : cs.takeWhile isSpace = [] := by
        cases cs with
        | nil => rfl
        | cons d ds => exact List.takeWhile_cons_of_neg (Bool.eq_false_iff.mp hspace)
      obtain ⟨after, hafter, hread⟩ := h cur.next hrest fuel hfuel
      refine ⟨after, hafter, ?_⟩
      have hstay : cur.next.skipWhile isSpace = cur.next := by
        rw [Cursor.skipWhile, hrest, hnone]
        rfl
      rw [hstay, hread, hnone]
      rfl

/-- A line end is a space, and of several the first is left out. -/
theorem feeds {k n : Nat} (hn : 0 < n) (hcs : endsWord cs.head? = false)
    (h : Spells double cs text rest) :
    Spells double ('\n' :: (List.replicate k '\n' ++ (List.replicate n ' ' ++ cs)))
      (folded '\n' (List.replicate k '\n') ++ text) rest := by
  refine of_step fun cur hcur fuel hfuel => ?_
  have hnext : cur.next.rest = List.replicate k '\n' ++ (List.replicate n ' ' ++ cs) := by
    simp [hcur]
  obtain ⟨line, hline, hmore⟩ := emptyLines_feeds hn hcs hnext
    (Nat.le_of_eq (congrArg List.length hnext))
  obtain ⟨after, hafter, hread⟩ := h line hline fuel (by
    refine Nat.lt_of_le_of_lt ?_ hfuel
    rw [List.length_append, List.length_append]
    omega)
  refine ⟨after, hafter, ?_⟩
  rw [quotedFrom_feed hcur, hmore]
  show (do
    let (text, after) ← quotedFrom double fuel line
    return (folded '\n' (List.replicate k '\n') ++ text, after)) = _
  rw [hread]
  rfl

/-- What a backslash begins stands for what it is read as. -/
theorem escape {ds chars : List Char}
    (hescaped : ∀ cur : Cursor, cur.rest = '\\' :: (ds ++ cs) →
      ∃ after, after.rest = cs ∧ escaped cur = .ok (chars, after))
    (h : Spells true cs text rest) :
    Spells true ('\\' :: (ds ++ cs)) (chars ++ text) rest := by
  refine of_step fun cur hcur fuel hfuel => ?_
  obtain ⟨place, hplace, hchars⟩ := hescaped cur hcur
  obtain ⟨after, hafter, hread⟩ := h place hplace fuel (by
    refine Nat.lt_of_le_of_lt ?_ hfuel
    rw [List.length_append]
    omega)
  refine ⟨after, hafter, ?_⟩
  rw [quotedFrom_cons hcur]
  show (do
    let (chars, after) ← escaped cur
    let (text, after) ← quotedFrom true fuel after
    return (chars ++ text, after)) = _
  rw [hchars]
  show (do
    let (text, after) ← quotedFrom true fuel place
    return (chars ++ text, after)) = _
  rw [hread]
  rfl

end Spells

/-! ## Apostrophes -/

/-- A text that can be folded: simple characters, and no space next to a line feed. -/
structure Foldable (cs : List Char) : Prop where
  simple      : Simple cs
  spaceBefore : holdsPair (· == ' ') (· == '\n') cs = false
  spaceBehind : holdsPair (· == '\n') (· == ' ') cs = false

/-- What holds of no pair in a text holds of no pair further on, and not of the first one. -/
theorem holdsPair_cons {p q : Char → Bool} (h : holdsPair p q (c :: cs) = false) :
    holdsPair p q cs = false ∧ (p c = true → ∀ d ∈ cs.head?, q d = false) := by
  cases cs with
  | nil => exact ⟨rfl, fun _ d hd => by cases hd⟩
  | cons d ds =>
      obtain ⟨hpair, hmore⟩ := Bool.or_eq_false_iff.mp h
      refine ⟨hmore, fun hc e he => ?_⟩
      obtain rfl := Option.some.inj he
      rwa [hc, Bool.true_and] at hpair

namespace Foldable

theorem tail (h : Foldable (c :: cs)) : Foldable cs :=
  ⟨h.simple.tail, (holdsPair_cons h.spaceBefore).1, (holdsPair_cons h.spaceBehind).1⟩

theorem behind_space (h : Foldable (' ' :: cs)) : cs.head? ≠ some '\n' := fun hfeed =>
  Bool.false_ne_true ((holdsPair_cons h.spaceBefore).2 rfl '\n' hfeed).symm

theorem behind_feed (h : Foldable ('\n' :: cs)) : cs.head? ≠ some ' ' := fun hspace =>
  Bool.false_ne_true ((holdsPair_cons h.spaceBehind).2 rfl ' ' hspace).symm

end Foldable

/-- A simple character other than a space and a line feed is within a word. -/
theorem endsWord_of_isSimple (hc : isSimple c = true) (hspace : c ≠ ' ') (hfeed : c ≠ '\n') :
    endsWord (some c) = false := by
  have hother : ∀ d, isSimple d = false → c ≠ d := by
    rintro d hd rfl
    exact Bool.false_ne_true (hd.symm.trans hc)
  simp [endsWord, isSpace, isBreak, hspace, hfeed, hother '\t' rfl, hother '\r' rfl,
    hother '\x85' rfl, hother '\u2028' rfl, hother '\u2029' rfl]

variable {indent column : Nat} {before : Option Char}

/-- A printed text begins in its line, unless it begins with white space. -/
theorem head_singleFrom (h : Simple cs) (hspace : cs.head? ≠ some ' ')
    (hfeed : cs.head? ≠ some '\n') :
    endsWord (singleFrom indent column before cs ++ '\'' :: rest).head? = false := by
  cases cs with
  | nil => rfl
  | cons c cs =>
      have hc : c ≠ ' ' ∧ c ≠ '\n' :=
        ⟨fun h => hspace (congrArg some h), fun h => hfeed (congrArg some h)⟩
      rw [singleFrom]
      split
      · rfl
      · rw [if_neg (by rw [beq_iff_eq]; exact hc.2),
          if_neg (by rw [beq_eq_false_iff_ne.mpr hc.1]; exact Bool.false_ne_true)]
        exact endsWord_of_isSimple h.head hc.1 hc.2

/-- Spaces in a row are printed as they are, up to something in the same line. -/
theorem firm_singleFrom (h : Foldable (' ' :: cs)) :
    Firm (singleFrom indent column (some ' ') cs ++ '\'' :: rest) := by
  induction cs generalizing column with
  | nil => exact firm_of_head rfl
  | cons c cs ih =>
      by_cases hc : c = ' '
      · subst hc
        have hstep : singleFrom indent column (some ' ') (' ' :: cs)
            = ' ' :: singleFrom indent (column + 1) (some ' ') cs := by
          rw [singleFrom]
          simp [isLone]
        rw [hstep]
        exact Firm.cons (c := ' ') rfl (ih h.tail)
      · refine firm_of_head (head_singleFrom h.tail.simple ?_ h.behind_space)
        exact fun h => hc (Option.some.inj h)

/-- What stands between line feeds and the next line of a text: its indentation, behind the last of
    them. -/
def indentation (indent : Nat) (cs : List Char) : List Char :=
  if cs.head? == some '\n' then [] else List.replicate indent ' '

/-- A printed text is read back, and so are line feeds before it, of which one was left out. -/
structure Folds (indent : Nat) (rest cs : List Char) : Prop where
  text  : ∀ column before, (before ≠ some '\n' ∨ cs.head? ≠ some '\n') →
    Spells false (singleFrom indent column before cs ++ '\'' :: rest) cs rest
  feeds : cs.head? ≠ some ' ' → ∀ column k,
    Spells false ('\n' :: (List.replicate (k + 1) '\n' ++ (indentation indent cs
        ++ (singleFrom indent column (some '\n') cs ++ '\'' :: rest))))
      (List.replicate (k + 1) '\n' ++ cs) rest

namespace Folds

/-- A lone space that is printed as a line end. -/
theorem lone (hindent : 0 < indent) (hfoldable : Foldable (' ' :: cs))
    (hlone : isLone before cs.head? = true) (h : Folds indent rest cs) :
    Spells false (newLine indent ++ (singleFrom indent indent (some ' ') cs ++ '\'' :: rest))
      (' ' :: cs) rest := by
  have hnext : cs.head? ≠ some ' ' := by
    intro hspace
    rw [isLone, hspace] at hlone
    exact Bool.false_ne_true ((Bool.and_false _).symm.trans hlone)
  have hfolded := Spells.feeds (k := 0) hindent
    (head_singleFrom hfoldable.tail.simple hnext hfoldable.behind_space)
    (h.text indent (some ' ') (.inl (by decide)))
  simpa [newLine, folded] using hfolded

theorem text_cons (hindent : 0 < indent) (hfoldable : Foldable (c :: cs))
    (h : Folds indent rest cs) (hbefore : before ≠ some '\n' ∨ (c :: cs).head? ≠ some '\n') :
    Spells false (singleFrom indent column before (c :: cs) ++ '\'' :: rest) (c :: cs) rest := by
  rw [singleFrom]
  split
  · rename_i hquote
    obtain rfl := beq_iff_eq.mp hquote
    exact (h.text _ _ (.inl (by decide))).doubled
  · rename_i hquote
    split
    · rename_i hfeed
      obtain rfl := beq_iff_eq.mp hfeed
      have hfirst : (before == some '\n') = false :=
        beq_eq_false_iff_ne.mpr (hbefore.resolve_right (not_not.mpr rfl))
      have hrun := h.feeds hfoldable.behind_feed indent 0
      simpa [hfirst, indentation] using hrun
    · rename_i hfeed
      have hink : c ≠ '\n' := fun hc => hfeed (beq_iff_eq.mpr hc)
      split
      · rename_i hfold
        simp only [Bool.and_eq_true, beq_iff_eq] at hfold
        obtain ⟨⟨rfl, -⟩, hlone⟩ := hfold
        rw [List.append_assoc]
        exact h.lone hindent hfoldable hlone
      · by_cases hspace : c = ' '
        · subst hspace
          exact (h.text _ _ (.inl (by decide))).space rfl (firm_singleFrom hfoldable)
        · refine (h.text _ _ (.inl fun hc => hink (Option.some.inj hc))).own ?_
          obtain ⟨hspace, hbreak⟩ := Bool.or_eq_false_iff.mp
            (endsWord_of_isSimple hfoldable.simple.head hspace hink)
          simpa [isOwn, hspace, hbreak] using hquote

theorem feeds_cons (hindent : 0 < indent) (hfoldable : Foldable (c :: cs))
    (h : Folds indent rest cs) (hspace : (c :: cs).head? ≠ some ' ') (column k : Nat) :
    Spells false ('\n' :: (List.replicate (k + 1) '\n' ++ (indentation indent (c :: cs)
        ++ (singleFrom indent column (some '\n') (c :: cs) ++ '\'' :: rest))))
      (List.replicate (k + 1) '\n' ++ c :: cs) rest := by
  by_cases hfeed : c = '\n'
  · -- one more of the line feeds in a row
    subst hfeed
    have hrun := h.feeds hfoldable.behind_feed indent (k + 1)
    rw [List.replicate_succ' (n := k + 1)] at hrun
    simpa [indentation, singleFrom] using hrun
  · have hpad : indentation indent (c :: cs) = List.replicate indent ' ' :=
      if_neg fun hc => hfeed (Option.some.inj (beq_iff_eq.mp hc))
    have hhead : (c :: cs).head? ≠ some '\n' := fun hc => hfeed (Option.some.inj hc)
    rw [hpad]
    exact Spells.feeds hindent (head_singleFrom hfoldable.simple hspace hhead)
      (h.text_cons hindent hfoldable (.inr hhead))

end Folds

/-- **Apostrophes.** What is printed between apostrophes is read back. -/
theorem folds_of_foldable (hindent : 0 < indent) (hrest : rest.head? ≠ some '\'')
    (h : Foldable cs) : Folds indent rest cs := by
  induction cs with
  | nil =>
      refine ⟨fun column before _ => Spells.apostrophe hrest, fun _ column k => ?_⟩
      exact Spells.feeds hindent rfl (Spells.apostrophe hrest)
  | cons c cs ih =>
      exact ⟨fun column before => (ih h.tail).text_cons hindent h,
        (ih h.tail).feeds_cons hindent h⟩

/-! ## Codes -/

theorem naturalFrom?_append (m : Nat) (ds es : List Char) :
    Text.naturalFrom? 16 m (ds ++ es)
      = (Text.naturalFrom? 16 m ds).bind fun m => Text.naturalFrom? 16 m es := by
  induction ds generalizing m with
  | nil => rfl
  | cons d ds ih =>
      rw [List.cons_append, Text.naturalFrom?, Text.naturalFrom?]
      cases Text.digit? 16 d with
      | none => rfl
      | some k => exact ih _

/-- The digits of a number are read as that number, behind others. -/
theorem naturalFrom?_toDigits (m n : Nat) :
    Text.naturalFrom? 16 m ((Nat.toDigits 16 n).map Char.toUpper)
      = some (m * 16 ^ (Nat.toDigits 16 n).length + n) := by
  have hdigit : ∀ k < 16, Text.digit? 16 (Nat.digitChar k).toUpper = some k := by decide
  induction n using Nat.strongRecOn with
  | ind n ih =>
      by_cases hn : n < 16
      · rw [Nat.toDigits_of_lt_base hn, List.map_singleton, Text.naturalFrom?, hdigit n hn]
        rfl
      · have hless : n / 16 < n := Nat.div_lt_self (by omega) (by decide)
        rw [Nat.toDigits_of_base_le (by decide) (by omega), List.map_append, naturalFrom?_append,
          ih _ hless, List.map_singleton, List.length_append, List.length_singleton, Nat.pow_succ]
        show (Text.digit? 16 (Nat.digitChar (n % 16)).toUpper).bind _ = _
        rw [hdigit _ (Nat.mod_lt n (by decide))]
        refine congrArg some ?_
        rw [Nat.add_mul, Nat.mul_assoc, Nat.add_assoc, Nat.div_add_mod']

/-- A code is read as its number, however wide it is. -/
@[simp] theorem natural?_code (w n : Nat) : Text.natural? 16 (code w n) = some n := by
  have hzeros : ∀ k ds, Text.naturalFrom? 16 0 (List.replicate k '0' ++ ds)
      = Text.naturalFrom? 16 0 ds := by
    intro k ds
    induction k with
    | zero => rfl
    | succ k ih => exact ih
  have hsome : (code w n).isEmpty = false := by
    rw [List.isEmpty_eq_false_iff, code]
    refine List.append_ne_nil_of_right_ne_nil _ fun hnil => ?_
    exact Nat.toDigits_ne_nil (List.map_eq_nil_iff.mp hnil)
  rw [Text.natural?, hsome, if_neg Bool.false_ne_true]
  rw [code, hzeros, naturalFrom?_toDigits, Nat.zero_mul, Nat.zero_add]

theorem length_code {w n : Nat} (hw : 0 < w) (hn : n < 16 ^ w) : (code w n).length = w := by
  have hdigits := (Nat.length_toDigits_le_iff (by decide : 1 < 16) hw).mpr hn
  rw [code, List.length_append, List.length_replicate, List.length_map]
  omega

@[simp] theorem charOfCode_code (w : Nat) (c : Char) : charOfCode (code w c.toNat) = .ok c := by
  rw [charOfCode, natural?_code]
  show (if h : c.toNat.isValidChar then _ else _) = _
  rw [dif_pos (show c.toNat.isValidChar from c.valid)]
  rfl

/-! ## Quotation marks -/

section Escapes

variable {cur : Cursor}

/-- What is read of an escape without a line end. -/
theorem escaped_eq_ok {d : Char} {result : List Char × Cursor} (h : cur.rest = '\\' :: d :: cs)
    (hd : isBreak d = false)
    (hresult : (match escapes.lookup d, codeWidths.lookup d with
      | some e, _ => return ([e], cur.next.next)
      | none, some width => do
        if (cs.take width).length < width then throw .malformed
        return ([← charOfCode (cs.take width)], cur.next.next.skip width)
      | none, none => throw .malformed : Except ReadFault (List Char × Cursor)) = .ok result) :
    escaped cur = .ok result := by
  have hnext : cur.next.rest = d :: cs := by
    simp [h]
  have hbehind : cur.next.next.rest = cs := by
    simp [h]
  have hbreak : cur.next.lineBreak? = none := Cursor.lineBreak?_cons hnext hd
  rw [escaped]
  dsimp only
  rw [hbreak]
  refine bind_eq_ok.mpr ⟨d, by rw [Cursor.peek_cons hnext]; rfl, ?_⟩
  rw [hbehind]
  exact hresult

theorem escaped_letter {d : Char} (h : cur.rest = '\\' :: d :: cs)
    (hletter : letters.lookup c = some d) :
    ∃ after, after.rest = cs ∧ escaped cur = .ok ([c], after) := by
  have hletters : ∀ p ∈ letters, isBreak p.2 = false ∧ escapes.lookup p.2 = some p.1 := by decide
  obtain ⟨l₁, l₂, hsplit, -⟩ := List.lookup_eq_some_iff.mp hletter
  obtain ⟨hbreak, hescape⟩ := hletters (c, d) (by rw [hsplit]; simp)
  refine ⟨cur.next.next, by simp [h], ?_⟩
  refine escaped_eq_ok h hbreak ?_
  rw [hescape]
  rfl

theorem escaped_code {d : Char} {w : Nat} (h : cur.rest = '\\' :: d :: (code w c.toNat ++ cs))
    (hd : (d, w) ∈ codeWidths) (hw : c.toNat < 16 ^ w) :
    ∃ after, after.rest = cs ∧ escaped cur = .ok ([c], after) := by
  have hwidths : ∀ p ∈ codeWidths, isBreak p.1 = false ∧ escapes.lookup p.1 = none
      ∧ codeWidths.lookup p.1 = some p.2 ∧ 0 < p.2 := by decide
  obtain ⟨hbreak, hescape, hcode, hpos⟩ := hwidths (d, w) hd
  have hlength := length_code hpos hw
  have htake : (code w c.toNat ++ cs).take w = code w c.toNat := List.take_left' hlength
  refine ⟨cur.next.next.skip w, ?_, ?_⟩
  · rw [Cursor.rest_skip, Cursor.rest_next, Cursor.rest_next, h]
    exact List.drop_left' hlength
  · refine escaped_eq_ok h hbreak ?_
    rw [hescape, hcode]
    dsimp only
    rw [htake, hlength, if_neg (Nat.lt_irrefl w), charOfCode_code]
    rfl

/-- An escaped character is read back. -/
theorem exists_escape {chars : List Char} (h : escape? c = some chars) :
    ∃ ds, chars = '\\' :: ds ∧ ∀ (cs : List Char) (cur : Cursor), cur.rest = '\\' :: (ds ++ cs) →
      ∃ after, after.rest = cs ∧ escaped cur = .ok ([c], after) := by
  rw [escape?] at h
  cases hletter : letters.lookup c with
  | some d =>
      rw [hletter] at h
      obtain rfl := Option.some.inj h
      exact ⟨[d], rfl, fun cs cur hcur => escaped_letter hcur hletter⟩
  | none =>
      rw [hletter] at h
      dsimp only at h
      split at h
      · cases h
      · split at h
        · rename_i hcode
          obtain rfl := Option.some.inj h
          exact ⟨_, rfl, fun cs cur hcur => escaped_code hcur (by decide) (Nat.lt_succ_of_le hcode)⟩
        · split at h
          · rename_i hcode
            obtain rfl := Option.some.inj h
            exact ⟨_, rfl, fun cs cur hcur =>
              escaped_code hcur (by decide) (Nat.lt_succ_of_le hcode)⟩
          · obtain rfl := Option.some.inj h
            have hlast : c.toNat < 0x110000 :=
              c.valid.elim (fun h => Nat.lt_trans h (by decide)) fun h => h.2
            exact ⟨_, rfl, fun cs cur hcur => escaped_code hcur (by decide) (by omega)⟩

/-- A backslash at the end of a line leaves the line end out, with the spaces after it. -/
theorem escaped_newLine {indent : Nat} (hindent : 0 < indent) (hcs : endsWord cs.head? = false)
    (h : cur.rest = '\\' :: (newLine indent ++ cs)) :
    ∃ after, after.rest = cs ∧ escaped cur = .ok ([], after) := by
  have hnext : cur.next.rest = '\n' :: (List.replicate indent ' ' ++ cs) := by
    simp [h, newLine]
  have hbehind : cur.next.next.rest
      = List.replicate 0 '\n' ++ (List.replicate indent ' ' ++ cs) := by
    simp [h, newLine]
  obtain ⟨after, hafter, hempty⟩ := emptyLines_feeds hindent hcs hbehind (Nat.le_refl _)
  refine ⟨after, hafter, ?_⟩
  rw [escaped]
  dsimp only
  rw [Cursor.lineBreak?_feed hnext]
  dsimp only
  rw [hempty]
  rfl

end Escapes

/-- A character that is written without an escape stands for itself, or is a space. -/
theorem isOwn_of_escape (h : escape? c = none) (hc : c ≠ ' ') : isOwn true c = true := by
  have hletter : ∀ d, (letters.lookup d).isSome = true → c ≠ d := by
    rintro d hd rfl
    obtain ⟨e, he⟩ := Option.isSome_iff_exists.mp hd
    rw [escape?, he] at h
    cases h
  obtain ⟨hspace, hbreak⟩ := Bool.or_eq_false_iff.mp
    (endsWord_of_isSimple (simple_escape.2 h) hc (hletter '\n' rfl))
  simp [isOwn, hspace, hbreak, hletter '"' rfl, hletter '\\' rfl]

namespace Spells

/-- A line that is broken behind a backslash goes on with the next character. -/
theorem broken (hindent : 0 < indent) (hcs : endsWord cs.head? = false)
    (h : Spells true cs text rest) : Spells true ('\\' :: (newLine indent ++ cs)) text rest :=
  h.escape fun _ hcur => escaped_newLine hindent hcs hcur

/-- A space at the beginning of such a line is escaped. -/
theorem escapedSpace (h : Spells true cs text rest) :
    Spells true ('\\' :: ' ' :: cs) (' ' :: text) rest := by
  have hescaped : ∀ cur : Cursor, cur.rest = '\\' :: ([' '] ++ cs) →
      ∃ after, after.rest = cs ∧ escaped cur = .ok ([' '], after) := fun cur hcur =>
    ⟨cur.next.next, by simp [hcur],
      escaped_eq_ok hcur rfl rfl⟩
  exact h.escape hescaped

end Spells

/-- A printed text is read back behind the characters that wait. -/
def Resumes (indent : Nat) (rest cs : List Char) : Prop :=
  ∀ column waiting first, ∃ tail,
    doubleFrom indent column waiting first cs ++ '"' :: rest = waiting ++ tail
      ∧ Spells true tail cs rest ∧ Firm tail ∧ (cs.head? ≠ some ' ' → endsWord tail.head? = false)

namespace Resumes

/-- What begins a line that was broken behind an escape. -/
def lineStart (cs : List Char) : List Char := if cs.head? == some ' ' then ['\\'] else []

/-- A line that is broken behind an escape is gone on with. -/
theorem broken (hindent : 0 < indent) (hwidth : indent < width) (h : Resumes indent rest cs)
    (hmore : Resumes indent rest cs.tail) :
    Spells true ('\\' :: (newLine indent ++ (lineStart cs
      ++ (doubleFrom indent (indent + (lineStart cs).length) [] false cs ++ '"' :: rest)))) cs
      rest := by
  by_cases hspace : cs.head? = some ' '
  · obtain ⟨ds, rfl⟩ : ∃ ds, cs = ' ' :: ds := by
      cases cs with
      | nil => cases hspace
      | cons d ds => exact ⟨ds, by rw [Option.some.inj hspace]⟩
    -- the space is printed behind its backslash, so the line is not broken again
    have hstep : doubleFrom indent (indent + 1) [] false (' ' :: ds)
        = doubleFrom indent (indent + 1) [' '] false ds := by
      rw [doubleFrom]
      simp [show escape? ' ' = none from rfl, Nat.not_lt.mpr (Nat.succ_le_of_lt hwidth)]
    obtain ⟨tail, htail, hspells, -⟩ := hmore (indent + 1) [' '] false
    have hspelt := hspells.escapedSpace.broken hindent rfl
    rw [List.tail_cons] at htail
    show Spells true ('\\' :: (newLine indent ++ (['\\']
      ++ (doubleFrom indent (indent + 1) [] false (' ' :: ds) ++ '"' :: rest)))) _ rest
    rw [hstep, htail]
    exact hspelt
  · have hnext : lineStart cs = [] := if_neg fun h => hspace (beq_iff_eq.mp h)
    obtain ⟨tail, htail, hspells, -, hink⟩ := h indent [] false
    rw [hnext, List.length_nil, Nat.add_zero, List.nil_append, htail]
    exact hspells.broken hindent (hink hspace)

theorem escape {chars : List Char} (hindent : 0 < indent) (hwidth : indent < width)
    (hescape : escape? c = some chars) (h : Resumes indent rest cs)
    (hmore : Resumes indent rest cs.tail) : Resumes indent rest (c :: cs) := by
  intro column waiting first
  obtain ⟨ds, rfl, hescaped⟩ := exists_escape hescape
  rw [doubleFrom, hescape]
  dsimp only
  split
  · refine ⟨'\\' :: (ds ++ '\\' :: (newLine indent ++ (lineStart cs
      ++ (doubleFrom indent (indent + (lineStart cs).length) [] false cs ++ '"' :: rest)))), ?_,
      (h.broken hindent hwidth hmore).escape (hescaped _), firm_of_head rfl, fun _ => rfl⟩
    show waiting ++ '\\' :: ds ++ '\\' :: newLine indent ++ lineStart cs
      ++ doubleFrom indent (indent + (lineStart cs).length) [] false cs ++ '"' :: rest = _
    simp only [List.append_assoc, List.cons_append]
  · obtain ⟨tail, htail, hspells, -⟩ := h (column + waiting.length + ('\\' :: ds).length) [] false
    refine ⟨'\\' :: (ds ++ tail), ?_, hspells.escape (hescaped tail), firm_of_head rfl,
      fun _ => rfl⟩
    simp only [List.append_assoc, htail, List.cons_append, List.nil_append]

/-- A character that stands for itself, and waits to be printed. -/
theorem own_cons {tail : List Char} (hescape : escape? c = none)
    (hspells : Spells true tail cs rest) (hfirm : Firm tail) :
    Spells true (c :: tail) (c :: cs) rest ∧ Firm (c :: tail)
      ∧ (c ≠ ' ' → endsWord (c :: tail).head? = false) := by
  by_cases hspace : c = ' '
  · subst hspace
    exact ⟨hspells.space rfl hfirm, hfirm.cons rfl, fun h => absurd rfl h⟩
  · have hown := isOwn_of_escape hescape hspace
    have hink : endsWord (some c) = false := by
      simp only [isOwn, Bool.and_eq_true, Bool.not_eq_true'] at hown
      exact Bool.or_eq_false_iff.mpr hown.1
    exact ⟨hspells.own hown, firm_of_head hink, fun _ => hink⟩

theorem own (hindent : 0 < indent) (hescape : escape? c = none) (h : Resumes indent rest cs) :
    Resumes indent rest (c :: cs) := by
  intro column waiting first
  rw [doubleFrom, hescape]
  dsimp only
  split
  · by_cases hspace : c = ' '
    · subst hspace
      obtain ⟨tail, htail, hspells, -⟩ := h (indent + 1) [' '] false
      refine ⟨'\\' :: (newLine indent ++ '\\' :: ' ' :: tail), ?_,
        hspells.escapedSpace.broken hindent rfl, firm_of_head rfl, fun _ => rfl⟩
      simp [htail]
    · obtain ⟨tail, htail, hspells, hfirm, -⟩ := h indent [c] false
      obtain ⟨hspells, -, hink⟩ := own_cons hescape hspells hfirm
      refine ⟨'\\' :: (newLine indent ++ c :: tail), ?_, hspells.broken hindent (hink hspace),
        firm_of_head rfl, fun _ => rfl⟩
      simp [hspace, htail]
  · obtain ⟨tail, htail, hspells, hfirm, -⟩ := h column (waiting ++ [c]) false
    obtain ⟨hspells, hfirm, hink⟩ := own_cons hescape hspells hfirm
    refine ⟨c :: tail, ?_, hspells, hfirm, fun h => hink fun hc => h (congrArg some hc)⟩
    rw [htail, List.append_assoc]
    rfl

end Resumes

/-- **Quotation marks.** What is printed between quotation marks is read back. -/
theorem resumes (hindent : 0 < indent) (hwidth : indent < width) (rest cs : List Char) :
    Resumes indent rest cs := by
  -- the induction is on the length, since behind a broken line a space is printed along with what
  -- comes after it
  induction hn : cs.length using Nat.strongRecOn generalizing cs with
  | ind n ih =>
      cases cs with
      | nil =>
          intro column waiting first
          exact ⟨'"' :: rest, rfl, Spells.quotationMark, firm_of_head rfl, fun _ => rfl⟩
      | cons c cs =>
          have hcs : cs.length < n := by
            rw [← hn]
            exact Nat.lt_succ_self _
          have h := ih _ hcs cs rfl
          cases hescape : escape? c with
          | none => exact h.own hindent hescape
          | some chars =>
              have htail : cs.tail.length < n := by
                rw [List.length_tail]
                omega
              exact Resumes.escape hindent hwidth hescape h (ih _ htail cs.tail rfl)

/-! ## Quoted texts -/

theorem foldable_of_styleOf {s : String} (h : styleOf s ≠ .double) : Foldable s.toList := by
  rw [styleOf] at h
  split at h
  · exact absurd rfl h
  · rename_i hfold
    simp only [Bool.or_eq_true, not_or, Bool.not_eq_true', Bool.not_eq_false,
      Bool.not_eq_true] at hfold
    exact ⟨List.all_eq_true.mp hfold.1.1, hfold.1.2, hfold.2⟩

/-- What is spelled between quotes is the text of a quoted scalar. -/
theorem quoted_of_spells (mark : Char) {s : String} {cur : Cursor}
    (h : Spells double cs s.toList rest) (hcur : cur.rest = mark :: cs) :
    ∃ after, after.rest = rest ∧ quoted double cur = .ok (s, after) := by
  obtain ⟨after, hafter, hread⟩ := h cur.next (by simp [hcur])
    (cur.rest.length + 1) (by rw [hcur]; exact Nat.lt_succ_of_lt (Nat.lt_succ_self _))
  refine ⟨after, hafter, bind_eq_ok.mpr ⟨_, hread, ?_⟩⟩
  dsimp only
  rw [String.ofList_toList]
  rfl

/-- **Quoted texts.** A text that is printed between quotes is read back. -/
theorem exists_quoted (column : Nat) {s : String} (hindent : 0 < indent) (hwidth : indent < width)
    (hrest : rest.head? ≠ some '\'') (hstyle : styleOf s ≠ .plain) :
    ∃ mark cs, textFrom indent column s = mark :: cs ∧ (mark = '\'' ∨ mark = '"')
      ∧ ∀ cur : Cursor, cur.rest = mark :: (cs ++ rest) →
        ∃ after, after.rest = rest ∧ quoted (mark == '"') cur = .ok (s, after) := by
  rw [textFrom]
  cases hform : styleOf s with
  | plain => exact absurd hform hstyle
  | single =>
      have hfoldable := foldable_of_styleOf (by rw [hform]; decide : styleOf s ≠ .double)
      have hspells := (folds_of_foldable hindent hrest hfoldable).text (column + 1) none
        (.inl (by decide))
      refine ⟨'\'', _, rfl, .inl rfl, fun cur hcur => quoted_of_spells '\'' hspells ?_⟩
      rw [hcur]
      exact congrArg (List.cons _) (List.append_assoc ..)
  | double =>
      obtain ⟨tail, htail, hspells, -⟩ := resumes hindent hwidth rest s.toList
        (column + 1) [] true
      refine ⟨'"', _, rfl, .inr rfl, fun cur hcur => quoted_of_spells '"' hspells ?_⟩
      rw [hcur]
      exact congrArg (List.cons _) ((List.append_assoc ..).trans htail)

end EntityQuery.Yaml
