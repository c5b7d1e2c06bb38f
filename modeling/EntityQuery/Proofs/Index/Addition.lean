import EntityQuery.Proofs.Index.Remainder

/-!
# Additions — declaring the index that was asked for

The least index to add is either the full index of the query, when no declared index serves it, or
it is made of what one ending leaves uncovered, followed by that ending. Either way it serves the
query, and together with the indexes that were there before it covers an ending. So once it is
declared nothing has to be added, and by `Covered.mono` that stays so whatever else is declared.

* **`NormalForm.serve?_eq_some`** — when an index serves, and how it is cut in two.
* **`NormalForm.minimalIndex_of_declared`** — the least index to add, once declared, is enough.
-/

namespace EntityQuery

namespace NormalForm

variable {n : NormalForm} {ending : List IndexProperty} {declared more : List Index}

/-- An index serves a query if it has its kind, asks for no ancestor the query has not, and lists
    properties that bear equalities in front of something that matches the postfix. -/
theorem serve?_eq_some {index : Index} {leading : List IndexProperty} :
    n.serve? index = some (leading, ending) ↔
      index.kind = n.kind
        ∧ (index.ancestor = true → n.hasAncestor = true)
        ∧ index.properties = leading ++ ending
        ∧ n.matchPostfix ending = some 0
        ∧ ∀ p ∈ leading, p.name ∈ n.equalities := by
  have hunfold : n.serve? index = if index.kind ≠ n.kind || (index.ancestor && !n.hasAncestor)
      then none
      else (n.matchPostfix index.properties).bind fun split =>
        if (index.properties.take split).all fun p => n.equalities.contains p.name then
          some (index.properties.take split, index.properties.drop split)
        else none := by
    unfold serve?
    split <;> rfl
  have hkind : (index.kind ≠ n.kind || (index.ancestor && !n.hasAncestor)) = false ↔
      index.kind = n.kind ∧ (index.ancestor = true → n.hasAncestor = true) := by
    simp
  rw [hunfold]
  constructor
  · intro h
    split at h
    · cases h
    · rename_i hk
      rw [Bool.not_eq_true, hkind] at hk
      obtain ⟨split, hsplit, h⟩ := Option.bind_eq_some_iff.mp h
      split at h
      · rename_i hall
        obtain ⟨rfl, rfl⟩ := Prod.mk.inj (Option.some.inj h)
        refine ⟨hk.1, hk.2, (List.take_append_drop ..).symm, matchPostfix_drop hsplit, ?_⟩
        simpa using hall
      · cases h
  · rintro ⟨hk, ha, hps, hm, hl⟩
    rw [if_neg (by rw [Bool.not_eq_true]; exact hkind.mpr ⟨hk, ha⟩), hps,
      (matchPostfix_append leading).mpr hm, Option.bind_some, List.take_left, List.drop_left,
      if_pos (by simpa using hl)]

/-- The index that is needed by itself lists all that there is to list. -/
theorem eq_of_neededIndex {needed : Index} (h : n.neededIndex = some needed) :
    needed = ⟨n.kind, n.hasAncestor, n.neededProperties⟩ := by
  unfold neededIndex at h
  split at h
  · cases h
  · split at h
    · cases h
    · exact (Option.some.inj h).symm

/-- The full index of a query serves it, with all equalities in front. -/
theorem serve?_needed {needed : Index} (hgeo : n.isGeospatial = false)
    (h : n.neededIndex = some needed) :
    n.serve? needed = some ((IndexComponent.unordered n.equalities).preferred,
      n.orderedPostfix.preferred ++ n.unorderedPostfix.preferred) := by
  rw [serve?_eq_some, eq_of_neededIndex h]
  refine ⟨rfl, id, ?_, matchPostfix_preferred, ?_⟩
  · show n.neededProperties = _
    rw [neededProperties, hgeo, if_neg Bool.false_ne_true, List.append_assoc]
  · intro p hp
    obtain ⟨name, hname, rfl⟩ := List.mem_map.mp hp
    rw [List.mem_mergeSort, List.mem_eraseDups] at hname
    exact hname

/-- The index for a remainder serves the query with the remainder's ending. -/
theorem serve?_indexFor (hs : n.Served ending declared) :
    n.serve? (n.indexFor ending (n.uncovered ending declared))
      = some ((sortedNames (n.uncovered ending declared).equalities).map .ascending, ending) := by
  obtain ⟨index, -, leading, hi⟩ := hs
  obtain ⟨-, -, -, hm, -⟩ := serve?_eq_some.mp hi
  rw [serve?_eq_some]
  refine ⟨rfl, ?_, rfl, hm, ?_⟩
  · intro ha
    exact (Bool.and_eq_true_iff.mp ha).1
  · intro p hp
    obtain ⟨name, hname, rfl⟩ := List.mem_map.mp hp
    rw [sortedNames, List.mem_mergeSort] at hname
    exact (List.mem_filter.mp hname).1

theorem namesBefore_of_serve {index : Index} {leading : List IndexProperty} {name : String}
    (hs : n.serve? index = some (leading, ending)) (h : name ∈ leading.map IndexProperty.name) :
    n.namesBefore ending name index = true := by
  obtain ⟨p, hp, rfl⟩ := List.mem_map.mp h
  simp only [namesBefore, hs, beq_self_eq_true, Bool.true_and, List.any_eq_true]
  exact ⟨p, hp, beq_self_eq_true _⟩

theorem bearsAncestor_of_serve {index : Index} {leading : List IndexProperty}
    (hs : n.serve? index = some (leading, ending)) (h : index.ancestor = true) :
    n.bearsAncestor ending index = true := by
  simp [bearsAncestor, hs, h]

/-- The full index of a query covers it by itself. -/
theorem covered_needed {needed : Index} (hgeo : n.isGeospatial = false)
    (h : n.neededIndex = some needed) (hmem : needed ∈ declared) :
    n.Covered (n.orderedPostfix.preferred ++ n.unorderedPostfix.preferred) declared := by
  have hs := serve?_needed hgeo h
  refine ⟨⟨needed, hmem, _, hs⟩, ?_⟩
  rw [isNothing_iff, uncovered_equalities_eq_nil_iff, uncovered_ancestor_eq_false_iff]
  refine ⟨?_, ?_⟩
  · intro name hname
    refine ⟨needed, hmem, namesBefore_of_serve hs ?_⟩
    rw [IndexComponent.preferred, List.map_map, List.mem_map]
    exact ⟨name, by rw [List.mem_mergeSort, List.mem_eraseDups]; exact hname, rfl⟩
  · intro ha
    refine ⟨needed, hmem, bearsAncestor_of_serve hs ?_⟩
    rw [eq_of_neededIndex h]
    exact ha

/-- What one ending leaves uncovered is covered with the index made of it. -/
theorem covered_indexFor (hs : n.Served ending declared) (hsub : declared ⊆ more)
    (hmem : n.indexFor ending (n.uncovered ending declared) ∈ more) : n.Covered ending more := by
  have hi := serve?_indexFor hs
  refine ⟨hs.mono hsub, ?_⟩
  rw [isNothing_iff, uncovered_equalities_eq_nil_iff, uncovered_ancestor_eq_false_iff]
  refine ⟨?_, ?_⟩
  · intro name hname
    -- an equality is covered by what was declared, or the new index is made of it
    by_cases hdone : declared.any (n.namesBefore ending name) = true
    · obtain ⟨index, hd, hb⟩ := List.any_eq_true.mp hdone
      exact ⟨index, hsub hd, hb⟩
    · refine ⟨_, hmem, namesBefore_of_serve hi ?_⟩
      rw [List.map_map, List.mem_map]
      refine ⟨name, ?_, rfl⟩
      rw [sortedNames, List.mem_mergeSort]
      exact List.mem_filter.mpr ⟨hname, by simpa using hdone⟩
  · intro ha
    by_cases hdone : declared.any (n.bearsAncestor ending) = true
    · obtain ⟨index, hd, hb⟩ := List.any_eq_true.mp hdone
      exact ⟨index, hsub hd, hb⟩
    · refine ⟨_, hmem, bearsAncestor_of_serve hi ?_⟩
      show (n.hasAncestor && !declared.any (n.bearsAncestor ending)) = true
      rw [ha, Bool.not_eq_true _ |>.mp hdone]
      rfl

/-- The ending that leaves least is one of those kept. -/
theorem mem_of_best? {cost : Nat} {rs : Remainders} {e : List IndexProperty × Remainder}
    (h : rs.best? cost = some e) : e ∈ rs := by
  induction rs generalizing e with
  | nil => cases h
  | cons f fs ih =>
      rw [Remainders.best?] at h
      split at h
      · exact Option.some.inj h ▸ List.mem_cons_self
      · rename_i b hb
        split at h
        · exact Option.some.inj h ▸ List.mem_cons_of_mem f (ih hb)
        · exact Option.some.inj h ▸ List.mem_cons_self

/-- Nothing has to be added exactly if no index is needed, or there is no region and the declared
    indexes cover the query with some ending. -/
theorem minimalIndex_eq_none_iff {cost : Nat} :
    n.minimalIndex cost declared = none ↔
      n.neededIndex = none ∨ n.isGeospatial = false ∧ ∃ e, n.Covered e declared := by
  unfold minimalIndex
  cases hn : n.neededIndex with
  | none => simp
  | some needed =>
      dsimp only
      cases hg : n.isGeospatial with
      | true => simp
      | false =>
          rw [if_neg Bool.false_ne_true, ← remainders_eq_none_iff]
          cases hr : n.remainders [] declared with
          | none => simp
          | some rs => cases hb : rs.best? cost <;> simp [hb]

/-- The least index to add is made of what the best ending leaves, if some ending is kept. -/
theorem minimalIndex_of_remainders {cost : Nat} {needed : Index} {rs : Remainders}
    (hneeded : n.neededIndex = some needed) (hgeo : n.isGeospatial = false)
    (hrs : n.remainders [] declared = some rs) :
    n.minimalIndex cost declared = some (match rs.best? cost with
      | none => needed
      | some (e, r) => n.indexFor e r) := by
  unfold minimalIndex
  rw [hneeded, hgeo]
  dsimp only
  rw [if_neg Bool.false_ne_true, hrs]
  dsimp only
  cases rs.best? cost <;> rfl

/-- Where nothing is declared, the full index has to be added. -/
theorem minimalIndex_nil {cost : Nat} (hgeo : n.isGeospatial = false) :
    n.minimalIndex cost [] = n.neededIndex := by
  cases hneeded : n.neededIndex with
  | none => rw [minimalIndex, hneeded]
  | some needed =>
      have hrs : n.remainders [] [] = some [] := rfl
      exact minimalIndex_of_remainders hneeded hgeo hrs

/-- The least index to add is the full one, or it is made of what an ending of declared indexes
    leaves uncovered. -/
theorem minimalIndex_eq_some {cost : Nat} {index : Index}
    (h : n.minimalIndex cost declared = some index) :
    n.neededIndex = some index ∨ n.isGeospatial = false ∧ ∃ e, n.Served e declared
      ∧ index = n.indexFor e (n.uncovered e declared) := by
  unfold minimalIndex at h
  cases hneeded : n.neededIndex with
  | none =>
      rw [hneeded] at h
      cases h
  | some needed =>
      rw [hneeded] at h
      dsimp only at h
      cases hgeo : n.isGeospatial with
      | true =>
          rw [hgeo, if_pos rfl] at h
          exact .inl h
      | false =>
          rw [hgeo, if_neg Bool.false_ne_true] at h
          cases hrs : n.remainders [] declared with
          | none =>
              rw [hrs] at h
              cases h
          | some rs =>
              rw [hrs] at h
              dsimp only at h
              cases hbest : rs.best? cost with
              | none =>
                  rw [hbest] at h
                  exact .inl h
              | some best =>
                  rw [hbest] at h
                  obtain ⟨hs, hr⟩ := (tally_of_remainders hrs).kept best (mem_of_best? hbest)
                  refine .inr ⟨rfl, best.1, hs, ?_⟩
                  rw [← hr]
                  exact (Option.some.inj h).symm

/-- The least index to add, once declared, leaves nothing to add, whatever else is declared. -/
theorem minimalIndex_of_declared {cost : Nat} (hgeo : n.isGeospatial = false)
    (hsub : declared ⊆ more)
    (hmem : ∀ index, n.minimalIndex cost declared = some index → index ∈ more) :
    n.minimalIndex cost more = none := by
  rw [minimalIndex_eq_none_iff]
  cases hn : n.neededIndex with
  | none => exact .inl rfl
  | some needed =>
      refine .inr ⟨hgeo, ?_⟩
      cases hr : n.remainders [] declared with
      | none =>
          obtain ⟨e, he⟩ := remainders_eq_none_iff.mp hr
          exact ⟨e, he.mono hsub⟩
      | some rs =>
          have hmin : n.minimalIndex cost declared = _ := minimalIndex_of_remainders hn hgeo hr
          cases hb : rs.best? cost with
          | none =>
              rw [hb] at hmin
              exact ⟨_, covered_needed hgeo hn (hmem _ hmin)⟩
          | some best =>
              obtain ⟨e, r⟩ := best
              rw [hb] at hmin
              obtain ⟨hs, hr⟩ := (tally_of_remainders hr).kept _ (mem_of_best? hb)
              dsimp only at hs hr
              subst hr
              exact ⟨e, covered_indexFor hs hsub (hmem _ hmin)⟩

end NormalForm

end EntityQuery
