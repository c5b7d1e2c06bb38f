import EntityQuery.Catalog
import EntityQuery.Proofs.Yaml.Printer

/-!
# Catalog texts — the part above the marker

A document is printed in printable ASCII and line feeds, whatever its texts hold, so a printed text
has no line ends but line feeds. Cutting a catalog's text into lines and putting those above the
marker together again therefore gives back what was written for the indexes that are declared by
hand, to the letter, unless one of their own lines looks like the marker.

* **`Catalog.aboveMarker?_toText`** — the text above the marker of a catalog that is written.
-/

namespace EntityQuery

/-! ## Lines -/

namespace Text

open Yaml (Simple)

theorem linesFrom_cons {line cs : List Char} {c : Char} (hc : c ≠ '\r') : linesFrom line (c :: cs)
    = if endsLine c then line.reverse :: linesFrom [] cs else linesFrom (c :: line) cs := by
  rw [linesFrom]
  intro _ h
  exact absurd h hc

/-- Of the characters that a document is printed in, line feeds alone end lines. -/
theorem endsLine_of_isSimple {c : Char} (h : Yaml.isSimple c = true) (hc : c ≠ '\n') :
    c ≠ '\r' ∧ endsLine c = false := by
  have hends : endsLine c = true → c = '\n' := by
    intro hends
    have hmem := List.contains_iff_mem.mp hends
    simp only [List.mem_cons, List.not_mem_nil, or_false] at hmem
    rcases hmem with rfl | rfl | rfl | rfl | rfl | rfl | rfl | rfl | rfl | rfl
    · rfl
    all_goals exact absurd h (by decide)
  refine ⟨?_, Bool.eq_false_iff.mpr fun h => hc (hends h)⟩
  rintro rfl
  exact hc (hends (by decide))

@[simp] theorem linesFrom_feed (line rest : List Char) :
    linesFrom line ('\n' :: rest) = line.reverse :: linesFrom [] rest := by
  rw [linesFrom_cons (by decide), if_pos (by decide)]

/-- A text that is cut behind a line feed is cut into the lines of both parts. -/
theorem linesFrom_append {first : List Char} (h : Simple first) (line rest : List Char) :
    linesFrom line (first ++ '\n' :: rest)
      = linesFrom line (first ++ ['\n']) ++ linesFrom [] rest := by
  induction first generalizing line with
  | nil =>
      rw [List.nil_append, List.nil_append, linesFrom_feed, linesFrom_feed]
      rfl
  | cons c cs ih =>
      rw [List.cons_append, List.cons_append]
      by_cases hc : c = '\n'
      · rw [hc, linesFrom_feed, linesFrom_feed, ih h.tail, List.cons_append]
      · obtain ⟨hreturn, hends⟩ := endsLine_of_isSimple h.head hc
        rw [linesFrom_cons hreturn, linesFrom_cons hreturn, hends, if_neg Bool.false_ne_true,
          if_neg Bool.false_ne_true, ih h.tail]

/-- Lines that are put together again, with an empty one at the end, are the text they are from. -/
theorem intercalate_linesFrom {cs : List Char} (h : Simple cs) (line : List Char) :
    ['\n'].intercalate (linesFrom line (cs ++ ['\n']) ++ [[]]) = line.reverse ++ cs ++ ['\n'] := by
  induction cs generalizing line with
  | nil =>
      rw [List.nil_append, linesFrom_feed, List.append_nil]
      show ['\n'].intercalate [line.reverse, []] = _
      rw [List.intercalate_cons_cons, List.intercalate_singleton, List.append_nil]
  | cons c cs ih =>
      rw [List.cons_append]
      by_cases hc : c = '\n'
      · rw [hc, linesFrom_feed, List.cons_append,
          List.intercalate_cons_of_ne_nil (List.append_ne_nil_of_right_ne_nil _ (by simp)),
          ih h.tail]
        simp
      · obtain ⟨hreturn, hends⟩ := endsLine_of_isSimple h.head hc
        rw [linesFrom_cons hreturn, hends, if_neg Bool.false_ne_true, ih h.tail]
        simp

end Text

/-! ## The marker -/

namespace Catalog

variable (c : Catalog)

/-- The text for the indexes that are declared by hand. -/
theorem toText_manual : { c with generated := [] }.toText = "indexes:\n" ++ listText c.manual := by
  rw [toText, if_pos List.isEmpty_nil, String.append_empty]

/-- It is printed in simple characters, and ends in a line feed. -/
theorem exists_manual_text : ∃ cs, Yaml.Simple cs
    ∧ { c with generated := [] }.toText.toList = cs ++ ['\n'] := by
  have hheading : Yaml.Simple "indexes:".toList := List.all_eq_true.mp (by decide)
  have hlist : Yaml.Simple (listText c.manual).toList
      ∧ ((listText c.manual).toList = [] ∨ ∃ cs, (listText c.manual).toList = cs ++ ['\n']) := by
    rw [listText]
    split
    · exact ⟨.nil, .inl rfl⟩
    · exact ⟨Yaml.simple_render _, Yaml.render_ends _⟩
  rw [toText_manual, String.toList_append]
  obtain ⟨hsimple, hnil | ⟨cs, hcs⟩⟩ := hlist
  · rw [hnil, List.append_nil]
    exact ⟨"indexes:".toList, hheading, by decide⟩
  · rw [hcs] at hsimple ⊢
    refine ⟨"indexes:\n".toList ++ cs, .append (List.all_eq_true.mp (by decide)) ?_, ?_⟩
    · exact fun d hd => hsimple d (List.mem_append_left _ hd)
    · rw [List.append_assoc]

/-- The lines of a catalog with generated indexes: those for the manual ones, an empty one, the
    marker, and those for the generated ones. -/
theorem lines_toText (h : c.generated ≠ []) :
    Text.lines c.toText = Text.lines { c with generated := [] }.toText
      ++ "" :: marker :: Text.lines (listText c.generated) := by
  obtain ⟨cs, hsimple, hmanual⟩ := c.exists_manual_text
  have htext : c.toText.toList
      = cs ++ '\n' :: '\n' :: (marker.toList ++ '\n' :: (listText c.generated).toList) := by
    have hsplit : c.toText = { c with generated := [] }.toText
        ++ ("\n" ++ marker ++ "\n" ++ listText c.generated) := by
      rw [toText_manual, toText, if_neg (by rwa [List.isEmpty_iff])]
    rw [hsplit, String.toList_append, hmanual]
    simp [String.toList_append]
  have hmarker : Text.linesFrom [] (marker.toList ++ ['\n']) = [marker.toList] := by decide
  have hmarkerSimple : Yaml.Simple marker.toList := List.all_eq_true.mp (by decide)
  have hcut := Text.linesFrom_append hsimple []
    ('\n' :: (marker.toList ++ '\n' :: (listText c.generated).toList))
  rw [Text.linesFrom_feed, Text.linesFrom_append hmarkerSimple, hmarker] at hcut
  rw [Text.lines, Text.lines, htext, hmanual, hcut, Text.lines]
  simp

/-- The lines of the manual part, with an empty one, are that part when they are put together. -/
theorem intercalate_lines : "\n".intercalate (Text.lines { c with generated := [] }.toText ++ [""])
    = { c with generated := [] }.toText := by
  obtain ⟨cs, hsimple, hmanual⟩ := c.exists_manual_text
  apply String.toList_inj.mp
  rw [String.toList_intercalate, Text.lines, List.map_append, List.map_map]
  show ['\n'].intercalate
    ((Text.linesFrom [] _).map (fun l => (String.ofList l).toList) ++ [[]]) = _
  simp only [String.toList_ofList, List.map_id']
  rw [hmanual, Text.intercalate_linesFrom hsimple, List.reverse_nil, List.nil_append]

/-- **The marker.** The part of a catalog's text above the marker is the text for the indexes that
    are declared by hand, if no line of it looks like the marker. There is no such part when nothing
    has been generated. -/
theorem aboveMarker?_toText
    (h : (Text.lines { c with generated := [] }.toText).any isMarker = false) :
    aboveMarker? c.toText
      = if c.generated = [] then none else some { c with generated := [] }.toText := by
  by_cases hgenerated : c.generated = []
  · have hc : c = { c with generated := [] } := by rw [← hgenerated]
    rw [if_pos hgenerated, hc]
    show (if (Text.lines { c with generated := [] }.toText).any isMarker = true then _ else _) = _
    rw [h, if_neg Bool.false_ne_true]
  · have hmarker : isMarker marker = true := by decide
    have hempty : isMarker "" = false := by decide
    have htake : (Text.lines c.toText).takeWhile (!isMarker ·)
        = Text.lines { c with generated := [] }.toText ++ [""] := by
      rw [c.lines_toText hgenerated, List.takeWhile_append_of_pos, List.takeWhile_cons_of_pos,
        List.takeWhile_cons_of_neg]
      · simp [hmarker]
      · simp [hempty]
      · intro line hline
        simpa using List.any_eq_false.mp h line hline
    have hany : (Text.lines c.toText).any isMarker = true := by
      rw [c.lines_toText hgenerated]
      simp [hmarker]
    rw [if_neg hgenerated, aboveMarker?, if_pos hany, htake, c.intercalate_lines]

end Catalog

end EntityQuery
