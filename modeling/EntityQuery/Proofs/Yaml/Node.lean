import EntityQuery.Proofs.Yaml.Block
import EntityQuery.Yaml.Node

/-!
# Nodes — the structure of printed values

The tokens of a value spell one node, whatever follows them. A block ends with its own mark; a list
at the column of its key ends where no entry follows. Each token costs at most three levels of fuel,
so what a document is read with is always enough.

* **`Yaml.readsAs`** — the node of a value, in a block of its own or behind a colon.
* **`Yaml.ofTokens?_asBlock`** — the node of a document.
-/

namespace EntityQuery.Yaml

mutual

/-- The node of a value. -/
def nodeOf : Value → Node
  | .list items => .sequence (nodesOf items)
  | .record fields => .mapping (pairNodes fields)
  | .text s => .scalar s (styleOf s == .plain)
  | _ => .scalar "null" true
termination_by structural v => v

def nodesOf : List Value → List Node
  | [] => []
  | v :: vs => nodeOf v :: nodesOf vs
termination_by structural vs => vs

def pairNodes : List (String × Value) → List (Node × Node)
  | [] => []
  | f :: fs => (.scalar f.1 true, nodeOf f.2) :: pairNodes fs
termination_by structural fs => fs

end

variable {fuel : Nat} {ts us : List Token}

/-- What does not begin with one of the marks is read as a node. -/
theorem readUnless_of_read {marks : List Token} {block indentless : Bool} {node : Node}
    (hmarks : Node.stops ts marks = false)
    (h : Node.read fuel block indentless ts = some (node, us)) :
    Node.readUnless (fuel + 1) marks block indentless ts = some (node, us) := by
  rw [Node.readUnless, hmarks]
  exact h

/-- A value is read as its node, with fuel enough for its tokens: as a block of its own, and behind
    a colon, where a list goes on for as long as entries follow. -/
structure ReadsAs (v : Value) : Prop where
  inBlock : isBlock v = true → ∀ {fuel : Nat} {ts : List Token} {indentless : Bool},
    3 * (tokensOf v).length + 2 ≤ fuel →
    Node.read fuel true indentless (asBlock v (tokensOf v) ++ ts) = some (nodeOf v, ts)
  behindColon : ∀ {fuel : Nat} {ts : List Token}, 3 * (tokensOf v).length + 2 ≤ fuel →
    ts.head? ≠ some .entry → Node.read fuel true true (valueTokens v ++ ts) = some (nodeOf v, ts)

theorem length_entryTokens (v : Value) (vs : List Value) :
    (entryTokens (v :: vs)).length = (tokensOf v).length + (entryTokens vs).length + 3 := by
  rw [entryTokens, asBlock]
  simp only [List.length_cons, List.length_append, List.length_nil]
  omega

/-- The entries of a block, up to its end. -/
theorem entries_entryTokens {vs : List Value} (hblock : ∀ v ∈ vs, isBlock v = true)
    (h : ∀ v ∈ vs, ReadsAs v) (hfuel : 3 * (entryTokens vs).length + 1 ≤ fuel) :
    Node.entries fuel (entryTokens vs ++ .blockEnd :: ts) = some (nodesOf vs, ts) := by
  induction vs generalizing fuel with
  | nil =>
      obtain ⟨fuel, rfl⟩ := Nat.exists_eq_add_of_le' hfuel
      rfl
  | cons v vs ih =>
      obtain ⟨hv, hvs⟩ := List.forall_mem_cons.mp h
      obtain ⟨hblock, hblocks⟩ := List.forall_mem_cons.mp hblock
      rw [length_entryTokens] at hfuel
      obtain ⟨fuel, rfl⟩ := Nat.exists_eq_add_of_le' (Nat.le_trans (by omega : 2 ≤ _) hfuel)
      have hitem : Node.readUnless (fuel + 1) [.entry, .blockEnd] true false
          (asBlock v (tokensOf v) ++ (entryTokens vs ++ .blockEnd :: ts))
          = some (nodeOf v, entryTokens vs ++ .blockEnd :: ts) :=
        readUnless_of_read (by cases v <;> rfl) (hv.inBlock hblock (by omega))
      rw [entryTokens, List.cons_append, List.append_assoc, Node.entries]
      dsimp only
      rw [hitem]
      dsimp only [Option.bind_eq_bind, Option.bind_some]
      rw [ih hblocks hvs (by omega)]
      rfl

/-- Entries at the column of their key, up to what is not an entry. -/
theorem indentlessEntries_entryTokens {vs : List Value} (hblock : ∀ v ∈ vs, isBlock v = true)
    (h : ∀ v ∈ vs, ReadsAs v) (hfuel : 3 * (entryTokens vs).length + 1 ≤ fuel)
    (hts : ts.head? ≠ some .entry) :
    Node.indentlessEntries fuel (entryTokens vs ++ ts) = some (nodesOf vs, ts) := by
  induction vs generalizing fuel with
  | nil =>
      obtain ⟨fuel, rfl⟩ := Nat.exists_eq_add_of_le' hfuel
      cases ts with
      | nil => rfl
      | cons t us =>
          cases t with
          | entry => exact absurd rfl hts
          | _ => rfl
  | cons v vs ih =>
      obtain ⟨hv, hvs⟩ := List.forall_mem_cons.mp h
      obtain ⟨hblock, hblocks⟩ := List.forall_mem_cons.mp hblock
      rw [length_entryTokens] at hfuel
      obtain ⟨fuel, rfl⟩ := Nat.exists_eq_add_of_le' (Nat.le_trans (by omega : 2 ≤ _) hfuel)
      have hitem : Node.readUnless (fuel + 1) [.entry, .key, .value, .blockEnd] true false
          (asBlock v (tokensOf v) ++ (entryTokens vs ++ ts))
          = some (nodeOf v, entryTokens vs ++ ts) :=
        readUnless_of_read (by cases v <;> rfl) (hv.inBlock hblock (by omega))
      rw [entryTokens, List.cons_append, List.append_assoc, Node.indentlessEntries]
      dsimp only
      rw [hitem]
      dsimp only [Option.bind_eq_bind, Option.bind_some]
      rw [ih hblocks hvs (by omega)]
      rfl

theorem length_fieldTokens (f : String × Value) (fs : List (String × Value)) :
    (tokensOf f.2).length + (fieldTokens fs).length + 3 ≤ (fieldTokens (f :: fs)).length := by
  have hvalue : (tokensOf f.2).length ≤ (valueTokens f.2).length := by
    rw [valueTokens, asBlock]
    split
    · simp only [List.length_cons, List.length_append]
      omega
    · exact Nat.le_refl _
  show _ ≤ (Token.key :: .scalar f.1 true :: .value :: (valueTokens f.2 ++ fieldTokens fs)).length
  simp only [List.length_cons, List.length_append]
  omega

/-- Behind a colon stands a value and not a mark. -/
theorem stops_valueTokens {column : Nat} {v : Value} (h : Printed column v) :
    Node.stops (valueTokens v ++ ts) [.key, .value, .blockEnd] = false := by
  cases h with
  | text s => rfl
  | null => rfl
  | list hne =>
      obtain ⟨v, vs, rfl⟩ := List.exists_cons_of_ne_nil hne
      rfl
  | record hne =>
      obtain ⟨f, fs, rfl⟩ := List.exists_cons_of_ne_nil hne
      rfl

/-- The keys and values of a block, up to its end. -/
theorem blockPairs_fieldTokens {fs : List (String × Value)} {column : String × Value → Nat}
    (hprinted : ∀ f ∈ fs, Printed (column f) f.2) (h : ∀ f ∈ fs, ReadsAs f.2)
    (hfuel : 3 * (fieldTokens fs).length + 1 ≤ fuel) :
    Node.blockPairs fuel (fieldTokens fs ++ .blockEnd :: ts) = some (pairNodes fs, ts) := by
  induction fs generalizing fuel with
  | nil =>
      obtain ⟨fuel, rfl⟩ := Nat.exists_eq_add_of_le' hfuel
      rfl
  | cons f fs ih =>
      obtain ⟨hf, hfs⟩ := List.forall_mem_cons.mp h
      obtain ⟨hprinted, hmore⟩ := List.forall_mem_cons.mp hprinted
      have hlength := length_fieldTokens f fs
      obtain ⟨fuel, rfl⟩ := Nat.exists_eq_add_of_le' (Nat.le_trans (by omega : 3 ≤ _) hfuel)
      -- a list at this column ends here, since a key or the end of the block comes next
      have hnext : (fieldTokens fs ++ .blockEnd :: ts).head? ≠ some .entry := by
        cases fs <;> exact fun h => Token.noConfusion (Option.some.inj h)
      have hvalue : Node.blockValue (fuel + 2)
          (.value :: (valueTokens f.2 ++ (fieldTokens fs ++ .blockEnd :: ts)))
          = some (nodeOf f.2, fieldTokens fs ++ .blockEnd :: ts) := by
        rw [Node.blockValue]
        exact readUnless_of_read (stops_valueTokens hprinted) (hf.behindColon (by omega) hnext)
      show Node.blockPairs (fuel + 3) (.key :: .scalar f.1 true :: .value ::
        (valueTokens f.2 ++ fieldTokens fs) ++ .blockEnd :: ts) = _
      rw [List.cons_append, List.cons_append, List.cons_append, List.append_assoc, Node.blockPairs]
      dsimp only
      rw [show Node.readUnless (fuel + 2) [.key, .value, .blockEnd] true true
        (.scalar f.1 true :: .value :: (valueTokens f.2 ++ (fieldTokens fs ++ .blockEnd :: ts)))
        = some (.scalar f.1 true,
            .value :: (valueTokens f.2 ++ (fieldTokens fs ++ .blockEnd :: ts)))
        from rfl]
      dsimp only [Option.bind_eq_bind, Option.bind_some]
      rw [hvalue]
      dsimp only [Option.bind_some]
      rw [ih hmore hfs (by omega)]
      rfl

/-- A list in a block of its own, or at the column of its key. -/
theorem readsAs_list {items : List Value} (hne : items ≠ [])
    (hblock : ∀ v ∈ items, isBlock v = true) (h : ∀ v ∈ items, ReadsAs v) :
    ReadsAs (.list items) := by
  constructor
  · intro _ fuel ts indentless hfuel
    obtain ⟨fuel, rfl⟩ := Nat.exists_eq_add_of_le' (Nat.le_trans (Nat.le_add_left 1 _) hfuel)
    have hentries : Node.entries fuel (entryTokens items ++ .blockEnd :: ts) = _ :=
      entries_entryTokens hblock h (Nat.le_of_succ_le_succ hfuel)
    show Node.read (fuel + 1) true indentless
      (.blockSequence :: (entryTokens items ++ [.blockEnd] ++ ts)) = _
    rw [List.append_assoc, List.singleton_append, Node.read]
    dsimp only
    rw [if_pos rfl, hentries]
    rfl
  · intro fuel ts hfuel hts
    obtain ⟨fuel, rfl⟩ := Nat.exists_eq_add_of_le' (Nat.le_trans (Nat.le_add_left 1 _) hfuel)
    have hentries := indentlessEntries_entryTokens hblock h (Nat.le_of_succ_le_succ hfuel) hts
    -- no mark opens this list, so it is its first entry that tells it from other nodes
    obtain ⟨v, vs, rfl⟩ := List.exists_cons_of_ne_nil hne
    show Node.read (fuel + 1) true true (entryTokens (v :: vs) ++ ts) = _
    rw [entryTokens, List.cons_append] at hentries ⊢
    rw [Node.read]
    dsimp only
    rw [if_pos rfl, hentries]
    rfl

/-- A record, which is always in a block of its own. -/
theorem readsAs_record {fields : List (String × Value)} {column : String × Value → Nat}
    (hne : fields ≠ []) (hprinted : ∀ f ∈ fields, Printed (column f) f.2)
    (h : ∀ f ∈ fields, ReadsAs f.2) : ReadsAs (.record fields) := by
  have hread : ∀ {fuel : Nat} {ts : List Token} {indentless : Bool},
      3 * (fieldTokens fields).length + 2 ≤ fuel →
      Node.read fuel true indentless (.blockMapping :: (fieldTokens fields ++ [.blockEnd] ++ ts))
        = some (.mapping (pairNodes fields), ts) := by
    intro fuel ts indentless hfuel
    obtain ⟨fuel, rfl⟩ := Nat.exists_eq_add_of_le' (Nat.le_trans (Nat.le_add_left 1 _) hfuel)
    have hpairs : Node.blockPairs fuel (fieldTokens fields ++ .blockEnd :: ts) = _ :=
      blockPairs_fieldTokens hprinted h (Nat.le_of_succ_le_succ hfuel)
    rw [List.append_assoc, List.singleton_append, Node.read]
    dsimp only
    rw [if_pos rfl, hpairs]
    rfl
  refine ⟨fun _ => hread, fun hfuel _ => ?_⟩
  rw [valueTokens, isBlock, List.isEmpty_eq_false_iff.mpr hne]
  exact hread hfuel

/-- **Nodes.** The tokens of a printed value are read as its node. -/
theorem readsAs {column : Nat} {v : Value} (h : Printed column v) : ReadsAs v := by
  induction h with
  | text | null =>
      refine ⟨fun h => absurd h Bool.false_ne_true, fun hfuel _ => ?_⟩
      obtain ⟨fuel, rfl⟩ := Nat.exists_eq_add_of_le' (Nat.le_trans (Nat.le_add_left 1 _) hfuel)
      rfl
  | list hne hblock _ ih => exact readsAs_list hne hblock ih
  | record hne _ _ hprinted ih => exact readsAs_record hne hprinted ih

/-- The node of a document is that of the value it is printed for. -/
theorem ofTokens?_asBlock {column : Nat} {v : Value} (h : Printed column v)
    (hblock : isBlock v = true) :
    Node.ofTokens? (asBlock v (tokensOf v)) = some (some (nodeOf v)) := by
  have hread : Node.read (3 * (asBlock v (tokensOf v)).length + 3) true false
      (asBlock v (tokensOf v) ++ []) = some (nodeOf v, []) := by
    refine (readsAs h).inBlock hblock ?_
    rw [asBlock, List.length_cons, List.length_append]
    omega
  rw [List.append_nil] at hread
  have hstart : ∀ us, asBlock v (tokensOf v) ≠ .documentStart :: us := by
    intro us h
    cases v <;> cases (List.cons.inj h).1
  rw [Node.ofTokens?]
  · dsimp only
    rw [hread]
    rfl
  · exact List.cons_ne_nil _ _
  · exact hstart

end EntityQuery.Yaml
