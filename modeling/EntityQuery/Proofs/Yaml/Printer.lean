import Mathlib.Data.List.Basic
import EntityQuery.Yaml.Printer

/-!
# Printed characters — what documents are printed in

A document is printed in printable ASCII and line feeds, whatever its texts hold: in the forms
without escapes only texts of such characters are written, and an escape is one of letters and
hexadecimal digits. A printed document is empty or ends in a line feed.

* **`Yaml.simple_render`**, **`Yaml.render_ends`**
-/

namespace EntityQuery.Yaml

/-- A text of printable ASCII and line feeds. -/
def Simple (cs : List Char) : Prop := ∀ c ∈ cs, isSimple c = true

variable {cs ds : List Char}

theorem Simple.nil : Simple [] := List.forall_mem_nil _

theorem Simple.cons {c : Char} (hc : isSimple c = true) (h : Simple cs) : Simple (c :: cs) :=
  List.forall_mem_cons.mpr ⟨hc, h⟩

theorem Simple.append (h : Simple cs) (h' : Simple ds) : Simple (cs ++ ds) :=
  List.forall_mem_append.mpr ⟨h, h'⟩

theorem Simple.head {c : Char} (h : Simple (c :: cs)) : isSimple c = true := h c List.mem_cons_self

theorem Simple.tail {c : Char} (h : Simple (c :: cs)) : Simple cs :=
  fun d hd => h d (List.mem_cons_of_mem c hd)

theorem simple_newLine (indent : Nat) : Simple (newLine indent) := by
  refine .cons (by decide) fun c hc => ?_
  obtain rfl := List.eq_of_mem_replicate hc
  decide

theorem simple_plainFrom {indent column : Nat} {before : Option Char} (h : Simple cs) :
    Simple (plainFrom indent column before cs) := by
  induction cs generalizing column before with
  | nil => exact .nil
  | cons c cs ih =>
      rw [plainFrom]
      split
      · exact (simple_newLine indent).append (ih h.tail)
      · exact .cons h.head (ih h.tail)

theorem simple_singleFrom {indent column : Nat} {before : Option Char} (h : Simple cs) :
    Simple (singleFrom indent column before cs) := by
  induction cs generalizing column before with
  | nil => exact .nil
  | cons c cs ih =>
      rw [singleFrom]
      split
      · exact .cons (by decide) (.cons (by decide) (ih h.tail))
      · split
        · dsimp only
          refine .append (.append ?_ (.cons (by decide) ?_)) (ih h.tail)
          · split
            · exact .nil
            · exact .cons (by decide) .nil
          · split
            · exact .nil
            · exact (simple_newLine indent).tail
        · split
          · exact (simple_newLine indent).append (ih h.tail)
          · exact .cons h.head (ih h.tail)

/-- The digits of a number are the characters of digits. -/
theorem mem_toDigitsCore {base fuel n : Nat} {ds : List Char} {c : Char}
    (h : c ∈ Nat.toDigitsCore base fuel n ds) : c ∈ ds ∨ ∃ k, c = Nat.digitChar k := by
  induction fuel generalizing n ds with
  | zero => exact .inl h
  | succ fuel ih =>
      rw [Nat.toDigitsCore] at h
      split at h
      · exact (List.mem_cons.mp h).elim (fun h => .inr ⟨_, h⟩) .inl
      · rcases ih h with h | h
        · exact (List.mem_cons.mp h).elim (fun h => .inr ⟨_, h⟩) .inl
        · exact .inr h

/-- The characters of digits are simple, as they are and as capitals. -/
theorem isSimple_digitChar (k : Nat) :
    isSimple (Nat.digitChar k) = true ∧ isSimple (Nat.digitChar k).toUpper = true := by
  by_cases hk : k < 16
  · have hall : ∀ k < 16, isSimple (Nat.digitChar k) = true
        ∧ isSimple (Nat.digitChar k).toUpper = true := by decide
    exact hall k hk
  · have hstar : Nat.digitChar k = '*' := by
      rw [Nat.digitChar]
      repeat rw [if_neg (by omega)]
    rw [hstar]
    decide

theorem simple_toDigits (base n : Nat) :
    Simple (Nat.toDigits base n) ∧ Simple ((Nat.toDigits base n).map Char.toUpper) := by
  have hdigit : ∀ c ∈ Nat.toDigits base n, ∃ k, c = Nat.digitChar k := by
    intro c hc
    exact (mem_toDigitsCore hc).resolve_left List.not_mem_nil
  constructor
  · intro c hc
    obtain ⟨k, rfl⟩ := hdigit c hc
    exact (isSimple_digitChar k).1
  · intro c hc
    obtain ⟨d, hd, rfl⟩ := List.mem_map.mp hc
    obtain ⟨k, rfl⟩ := hdigit d hd
    exact (isSimple_digitChar k).2

theorem simple_code (width n : Nat) : Simple (code width n) := by
  refine .append (fun c hc => ?_) (simple_toDigits 16 n).2
  obtain rfl := List.eq_of_mem_replicate hc
  decide

/-- An escape is simple, and so is a character without one. -/
theorem simple_escape {c : Char} :
    (∀ chars, escape? c = some chars → Simple chars) ∧ (escape? c = none → isSimple c = true) := by
  rw [escape?]
  cases hletter : letters.lookup c with
  | some d =>
      obtain ⟨l₁, l₂, hsplit, -⟩ := List.lookup_eq_some_iff.mp hletter
      have hd : ∀ e ∈ letters, isSimple e.2 = true := by decide
      refine ⟨fun chars h => ?_, fun h => by cases h⟩
      obtain rfl := Option.some.inj h
      exact .cons (by decide) (.cons (hd (c, d) (by rw [hsplit]; simp)) .nil)
  | none =>
      dsimp only
      split
      · rename_i hascii
        refine ⟨fun chars h => (by cases h), fun _ => ?_⟩
        rw [isSimple, hascii, Bool.or_true]
      · refine ⟨fun chars h => ?_, fun h => ?_⟩
        · split at h
          · obtain rfl := Option.some.inj h
            exact .cons (by decide) (.cons (by decide) (simple_code 2 _))
          · split at h
            · obtain rfl := Option.some.inj h
              exact .cons (by decide) (.cons (by decide) (simple_code 4 _))
            · obtain rfl := Option.some.inj h
              exact .cons (by decide) (.cons (by decide) (simple_code 8 _))
        · split at h
          · cases h
          · split at h <;> cases h

theorem simple_doubleFrom {indent column : Nat} {waiting : List Char} {first : Bool}
    (hwaiting : Simple waiting) : Simple (doubleFrom indent column waiting first cs) := by
  induction cs generalizing column waiting first with
  | nil => exact hwaiting
  | cons c cs ih =>
      have hnext : ∀ b : Bool, Simple (if b = true then ['\\'] else []) := by
        intro b
        cases b
        · exact .nil
        · exact .cons (by decide) .nil
      rw [doubleFrom]
      split
      · rename_i chars hescape
        have hchars := simple_escape.1 chars hescape
        dsimp only
        split
        · exact .append (.append (.append (.append hwaiting hchars)
            (.cons (by decide) (simple_newLine indent))) (hnext _)) (ih .nil)
        · exact .append (.append hwaiting hchars) (ih .nil)
      · rename_i hescape
        have hc := simple_escape.2 hescape
        split
        · exact .append (.append (.append hwaiting (.cons (by decide) (simple_newLine indent)))
            (hnext _)) (ih (.cons hc .nil))
        · exact ih (hwaiting.append (.cons hc .nil))

theorem simple_textFrom (indent column : Nat) (text : String) :
    Simple (textFrom indent column text) := by
  have hall : styleOf text ≠ .double → Simple text.toList := by
    intro hstyle c hc
    rw [styleOf] at hstyle
    split at hstyle
    · exact absurd rfl hstyle
    · rename_i hsimple
      simp only [Bool.or_eq_true, not_or, Bool.not_eq_true', Bool.not_eq_false] at hsimple
      exact List.all_eq_true.mp hsimple.1.1 c hc
  rw [textFrom]
  cases hstyle : styleOf text with
  | plain => exact simple_plainFrom (hall (by rw [hstyle]; decide))
  | single =>
      have htext := hall (by rw [hstyle]; decide)
      exact .append (.cons (by decide) (simple_singleFrom htext)) (.cons (by decide) .nil)
  | double =>
      exact .append (.cons (by decide) (simple_doubleFrom .nil)) (.cons (by decide) .nil)

theorem simple_scalarFrom (indent column : Nat) (v : Value) :
    Simple (scalarFrom indent column v) := by
  cases v with
  | text s => exact simple_textFrom indent column s
  | bool b =>
      cases b
      · exact List.all_eq_true.mp (by decide : "false".toList.all isSimple = true)
      · exact List.all_eq_true.mp (by decide : "true".toList.all isSimple = true)
  | int i =>
      have hnat : ∀ n : Nat, Simple (Nat.repr n).toList := by
        intro n
        rw [Nat.repr, String.toList_ofList]
        exact (simple_toDigits 10 n).1
      cases i with
      | ofNat n => exact hnat n
      | negSucc n =>
          show Simple ("-" ++ Nat.repr (n + 1)).toList
          rw [String.toList_append]
          exact .append (List.all_eq_true.mp (by decide)) (hnat _)
  | list items => exact .cons (by decide) (.cons (by decide) .nil)
  | record fields => exact .cons (by decide) (.cons (by decide) .nil)
  | _ => exact List.all_eq_true.mp (by decide : "null".toList.all isSimple = true)

theorem simple_indented {first : List Char} {ls : List (List Char)} (hfirst : Simple first)
    (h : ∀ l ∈ ls, Simple l) : ∀ l ∈ indented first ls, Simple l := by
  cases ls with
  | nil => exact List.forall_mem_nil _
  | cons l ls =>
      obtain ⟨hl, hls⟩ := List.forall_mem_cons.mp h
      refine List.forall_mem_cons.mpr ⟨hfirst.append hl, fun l' hl' => ?_⟩
      obtain ⟨l'', hl'', rfl⟩ := List.mem_map.mp hl'
      exact .cons (by decide) (.cons (by decide) (hls l'' hl''))

mutual

theorem simple_lines : ∀ (v : Value) (column : Nat), ∀ l ∈ lines column v, Simple l
  | .list items, column => simple_entryLines items column
  | .record fields, column => simple_fieldLines fields column
  | .null, _ | .bool _, _ | .int _, _ | .time _, _ | .text _, _ | .bytes _, _ | .double _, _
  | .point _, _ | .key _, _ | .circle _ _, _ | .rectangle _ _, _ =>
      List.forall_mem_singleton.mpr (simple_scalarFrom _ _ _)

theorem simple_entryLines : ∀ (vs : List Value) (column : Nat),
    ∀ l ∈ entryLines column vs, Simple l
  | [], _ => List.forall_mem_nil _
  | v :: vs, column => by
      rw [entryLines]
      refine List.forall_mem_append.mpr ⟨?_, simple_entryLines vs column⟩
      have hdash : Simple ['-', ' '] := List.all_eq_true.mp (by decide)
      split
      · exact simple_indented hdash (simple_lines v (column + 2))
      · exact List.forall_mem_singleton.mpr (hdash.append (simple_scalarFrom _ _ _))

theorem simple_fieldLines : ∀ (fs : List (String × Value)) (column : Nat),
    ∀ l ∈ fieldLines column fs, Simple l
  | [], _ => List.forall_mem_nil _
  | f :: fs, column => by
      rw [fieldLines]
      refine List.forall_mem_append.mpr ⟨?_, simple_fieldLines fs column⟩
      have hname : Simple (textFrom 0 0 f.1 ++ [':']) :=
        (simple_textFrom 0 0 f.1).append (.cons (by decide) .nil)
      split
      · exact List.forall_mem_singleton.mpr
          (hname.append (.cons (by decide) (simple_scalarFrom _ _ _)))
      · split
        · exact List.forall_mem_cons.mpr ⟨hname, simple_lines f.2 column⟩
        · refine List.forall_mem_cons.mpr ⟨hname, fun l hl => ?_⟩
          obtain ⟨l', hl', rfl⟩ := List.mem_map.mp hl
          exact .cons (by decide) (.cons (by decide) (simple_lines f.2 (column + 2) l' hl'))

end

/-- **Printing.** A document is printed in printable ASCII and line feeds. -/
theorem simple_render (v : Value) : Simple (render v).toList := by
  rw [render, String.toList_ofList]
  intro c hc
  obtain ⟨l, hl, hc⟩ := List.mem_flatMap.mp hc
  exact (simple_lines v 0 l hl).append (.cons (by decide) .nil) c hc

/-- What is printed is nothing or ends in a line feed. -/
theorem render_ends (v : Value) :
    (render v).toList = [] ∨ ∃ cs, (render v).toList = cs ++ ['\n'] := by
  rw [render, String.toList_ofList]
  rcases (lines 0 v).eq_nil_or_concat with hnil | ⟨init, last, hlast⟩
  · exact .inl (by rw [hnil]; rfl)
  · refine .inr ⟨init.flatMap (· ++ ['\n']) ++ last, ?_⟩
    rw [hlast, List.concat_eq_append, List.flatMap_append, List.flatMap_singleton,
      List.append_assoc]

end EntityQuery.Yaml
