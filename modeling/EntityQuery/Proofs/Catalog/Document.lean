import EntityQuery.Proofs.Catalog.Text
import EntityQuery.Proofs.Yaml.Document

/-!
# Catalog documents — what the text of a catalog spells

The text of a catalog is one list in two parts, with a comment between them. Reading goes over the
comment as over the end of a line, so the tokens are those of the whole list behind its key. A list
without entries is not printed at all, and what is not there is null.

* **`Catalog.read_toText`** — the document of a catalog that is written.
-/

namespace EntityQuery

open Yaml

/-! ## Indexes -/

theorem IndexProperty.printed_document (p : IndexProperty) : Printed 4 p.document := by
  obtain ⟨name, direction, mode⟩ := p
  have hname : IsName "name" := ⟨by decide, by decide, by decide⟩
  have hdirection : IsName "direction" := ⟨by decide, by decide, by decide⟩
  have hmode : IsName "mode" := ⟨by decide, by decide, by decide⟩
  have htext : ∀ s, Printed (fieldColumn 4 (.text s)) (.text s) :=
    fun s => .text s (by decide : 4 + 2 < width)
  rcases direction with _ | (_ | _) <;> rcases mode with _ | (_ | _) <;>
    exact .record (by simp) (by simp) (by simp [hname, hdirection, hmode]) (by simp [htext])

theorem Index.printed_document (index : Index) : Printed 2 index.document := by
  obtain ⟨kind, ancestor, properties⟩ := index
  have hkind : IsName "kind" := ⟨by decide, by decide, by decide⟩
  have hancestor : IsName "ancestor" := ⟨by decide, by decide, by decide⟩
  have hproperties : IsName "properties" := ⟨by decide, by decide, by decide⟩
  have htext : ∀ s, Printed (fieldColumn 2 (.text s)) (.text s) :=
    fun s => .text s (by decide : 2 + 2 < width)
  have hnull : Printed (fieldColumn 2 .null) .null := .null
  have hlist : ∀ (p : IndexProperty) (ps : List IndexProperty),
      Printed 2 (.list (p.document :: ps.map IndexProperty.document)) := by
    intro p ps
    have hdocuments : ∀ v ∈ (p :: ps).map IndexProperty.document,
        isBlock v = true ∧ Printed 4 v := by
      intro v hv
      obtain ⟨p, -, rfl⟩ := List.mem_map.mp hv
      exact ⟨rfl, p.printed_document⟩
    exact .list (List.cons_ne_nil _ _) (fun v hv => (hdocuments v hv).1)
      fun v hv => (hdocuments v hv).2
  cases kind <;> cases ancestor <;> cases properties <;>
    exact .record (by simp) (by simp) (by simp [hkind, hancestor, hproperties])
      (by simp [htext, hnull, hlist])

namespace Catalog

/-- The document that the text for some indexes spells. -/
def documentOf (indexes : List Index) : Value :=
  .record [("indexes", if indexes.isEmpty then .null else .list (indexes.map Index.document))]

variable {indexes : List Index}

theorem isBlock_documents : ∀ v ∈ indexes.map Index.document, isBlock v = true := by
  intro v hv
  obtain ⟨index, -, rfl⟩ := List.mem_map.mp hv
  rfl

theorem printed_documents : ∀ v ∈ indexes.map Index.document, Printed 2 v := by
  intro v hv
  obtain ⟨index, -, rfl⟩ := List.mem_map.mp hv
  exact index.printed_document

theorem printed_list (h : indexes ≠ []) : Printed 0 (.list (indexes.map Index.document)) :=
  .list (mt List.map_eq_nil_iff.mp h) isBlock_documents printed_documents

theorem isName_indexes : IsName "indexes" := ⟨by decide, by decide, by decide⟩

theorem printed_documentOf (h : indexes ≠ []) : Printed 0 (documentOf indexes) := by
  rw [documentOf, if_neg (by rwa [List.isEmpty_iff])]
  refine .record (List.cons_ne_nil _ _) (by simp)
    (List.forall_mem_singleton.mpr isName_indexes) (List.forall_mem_singleton.mpr ?_)
  rw [fieldColumn_list]
  exact printed_list h

/-! ## Texts -/

/-- The lines of some indexes. -/
def entryBlock (indexes : List Index) : List Char :=
  block 0 (entryLines 0 (indexes.map Index.document))

@[simp] theorem toList_listText (h : indexes ≠ []) :
    (listText indexes).toList = entryBlock indexes ++ ['\n'] := by
  rw [listText, if_neg (by rwa [List.isEmpty_iff])]
  exact toList_render (lines_ne_nil (printed_list h) 0)

/-- What follows the entries that are declared by hand. -/
def ending (generated : List Index) : List Char :=
  if generated = [] then ['\n']
  else '\n' :: '\n' :: '#' :: (" AUTOGENERATED".toList ++ '\n' :: (entryBlock generated ++ ['\n']))

variable (c : Catalog)

/-- The list of a catalog, in its two parts. -/
theorem toList_toText : c.toText.toList = "indexes".toList ++ ':' ::
    (if c.manual = [] then ending c.generated
      else '\n' :: (entryBlock c.manual ++ ending c.generated)) := by
  have hheading : "indexes:\n".toList = "indexes".toList ++ [':', '\n'] := by decide
  have hmarker : ("\n" ++ marker ++ "\n").toList
      = '\n' :: '#' :: (" AUTOGENERATED".toList ++ ['\n']) := by decide
  have hnil : (listText []).toList = [] := rfl
  rw [toText, String.toList_append, String.toList_append, hheading]
  by_cases hmanual : c.manual = [] <;> by_cases hgenerated : c.generated = []
  · simp [hmanual, hgenerated, hnil, ending]
  · simp [hmanual, hgenerated, hnil, ending, hmarker, String.toList_append]
  · simp [hmanual, hgenerated, ending]
  · simp [hmanual, hgenerated, ending, hmarker, String.toList_append]

theorem simple_toText : Simple c.toText.toList := by
  have hlist : ∀ indexes, Simple (listText indexes).toList := by
    intro indexes
    rw [listText]
    split
    · exact .nil
    · exact simple_render _
  have hheading : Simple "indexes:\n".toList := List.all_eq_true.mp (by decide)
  have hmarker : Simple ("\n" ++ marker ++ "\n").toList := List.all_eq_true.mp (by decide)
  rw [toText, String.toList_append, String.toList_append]
  refine (hheading.append (hlist _)).append ?_
  split
  · exact .nil
  · rw [String.toList_append]
    exact hmarker.append (hlist _)

/-! ## Reading -/

variable {l : Layout} {b : Blocks} {follow rest : List Char}

/-- Reading goes on behind the entries of some indexes. -/
theorem arrives_entryBlock (hfollow : Leads follow 0 rest) (hindent : b.indent = 0)
    (hne : indexes ≠ []) (h : Arrives l b 0 (entryBlock indexes ++ follow)) :
    Arrives l (b.push (entryTokens (indexes.map Index.document))) 0 rest := by
  obtain ⟨place, hplace, hcolumn, hreaches⟩ := h
  have hentries := tokenized_of_printed (printed_list hne) (by simpa [isBlock] using hne) (b := b)
    hfollow (Nat.le_refl 0) (Int.le_of_eq hindent) hcolumn hplace
  rw [b.enter_self hindent] at hentries
  exact Arrives.of_reaches hreaches hentries

/-- What is printed below the heading, as it is cut into tokens. -/
theorem tokensOf_documentOf (h : c.indexes ≠ []) : tokensOf (documentOf c.indexes)
    = [.key, .scalar "indexes" true, .value] ++ (entryTokens (c.manual.map Index.document)
      ++ entryTokens (c.generated.map Index.document)) := by
  rw [documentOf, if_neg (by rwa [List.isEmpty_iff]), ← entryTokens_append, ← List.map_append]
  show Token.key :: .scalar "indexes" true :: .value
    :: (valueTokens (.list (c.indexes.map Index.document)) ++ []) = _
  rw [valueTokens_list, List.append_nil]
  rfl

theorem begins_entryBlock (h : indexes ≠ []) (follow : List Char) :
    Begins (entryBlock indexes ++ follow) :=
  begins_entryLines (mt List.map_eq_nil_iff.mp h) isBlock_documents printed_documents follow

/-- The entries that are declared by hand are followed by the generated ones, if there are any. -/
theorem leads_ending (generated : List Index) : Leads (ending generated) 0
    (if generated = [] then [] else entryBlock generated ++ ['\n']) := by
  rw [ending]
  split
  · exact .last
  · rename_i hgenerated
    have hinline : " AUTOGENERATED".toList.all (fun c => !isBreak c) = true := by decide
    exact .comment (fun c hc => (Bool.not_eq_true' _).mp (List.all_eq_true.mp hinline c hc))
      (begins_entryBlock hgenerated _)

/-- Reading goes on behind the entries that are declared by hand. -/
theorem arrives_manual (hindent : b.indent = 0) {place : Cursor}
    (hplace : place.rest = if c.manual = [] then ending c.generated
      else '\n' :: (entryBlock c.manual ++ ending c.generated)) :
    Arrives (b.layout place false) (b.push (entryTokens (c.manual.map Index.document))) 0
      (if c.generated = [] then [] else entryBlock c.generated ++ ['\n']) := by
  by_cases hmanual : c.manual = []
  · rw [if_pos hmanual] at hplace
    rw [hmanual]
    exact (Blocks.push_nil b).symm ▸ (leads_ending c.generated).exists_reaches b false hplace
  · rw [if_neg hmanual] at hplace
    have hline : Leads ('\n' :: (entryBlock c.manual ++ ending c.generated)) 0
        (entryBlock c.manual ++ ending c.generated) :=
      .line (n := 0) (begins_entryBlock hmanual _)
    exact arrives_entryBlock (leads_ending c.generated) hindent hmanual
      (hline.exists_reaches b false hplace)

/-- Reading goes on to the end behind the generated entries. -/
theorem arrives_generated (hindent : b.indent = 0) (h : Arrives l b 0
      (if c.generated = [] then [] else entryBlock c.generated ++ ['\n'])) :
    Arrives l (b.push (entryTokens (c.generated.map Index.document))) 0 [] := by
  by_cases hgenerated : c.generated = []
  · rw [if_pos hgenerated] at h
    rw [hgenerated]
    exact (Blocks.push_nil b).symm ▸ h
  · rw [if_neg hgenerated] at h
    exact arrives_entryBlock .last hindent hgenerated h

/-- **The document of a catalog.** The text of a catalog spells the list of all its indexes. -/
theorem read_toText : Yaml.read c.toText = .ok (some (documentOf c.indexes)) := by
  by_cases hindexes : c.indexes = []
  · -- what is left out is null
    obtain ⟨hmanual, hgenerated⟩ := List.append_eq_nil_iff.mp hindexes
    have htokens : Yaml.tokens "indexes:\n"
        = .ok [.blockMapping, .key, .scalar "indexes" true, .value, .blockEnd] := by
      decide +kernel
    have htext : c.toText = "indexes:\n" := by
      rw [toText, hmanual, hgenerated]
      rfl
    rw [htext, hindexes, Yaml.read, htokens]
    rfl
  refine read_of_arrives c.simple_toText (printed_documentOf hindexes) rfl ?_
  have hends : endsWord (if c.manual = [] then ending c.generated
      else '\n' :: (entryBlock c.manual ++ ending c.generated)).head? = true := by
    split
    · exact (leads_ending c.generated).endsWord
    · rfl
  have hcur : (Cursor.mk c.toText.toList 0 0 0).rest = _ := c.toList_toText
  obtain ⟨place, hplace, -, hkey⟩ := exists_reaches_key (b := {}) isName_indexes hends hcur
    (Int.neg_nonpos_of_nonneg Int.one_nonneg)
  rw [c.tokensOf_documentOf hindexes, ← Blocks.push_push, ← Blocks.push_push]
  exact Arrives.of_reaches hkey (c.arrives_generated rfl (c.arrives_manual rfl hplace))

end Catalog

end EntityQuery
