import EntityQuery.Execution.Source
import EntityQuery.Heap

/-!
# Merging — several sources read as one

A merge first reads one row from every source, in their order, and keeps these rows in a heap. It
gives the least of them; rows that compare as equal come from the earlier source first. Only when
it is asked for another row does it read on where the last one came from.

* **`Source.merge`** — the merge of sources of one kind.
* **`Source.mergeLists`** — the merge of lists, read to the end.
-/

namespace EntityQuery

/-- Sources that are being merged: what is left of each one, and the rows read ahead with the number
    of their source. Before the first reading nothing has been read ahead. -/
structure Merge (α σ : Type) where
  sources : List (Option σ)
  ahead   : Option (Heap (α × Nat))

namespace Merge

variable {ω α σ : Type}

/-- The merge of these sources, before the first reading. -/
def of (sources : List σ) : Merge α σ := ⟨sources.map some, none⟩

/-- Rows by a comparison, equal ones by the number of their source. -/
def before (cmp : α → α → Except Fault Ordering) (a b : α × Nat) : Except Fault Bool := do
  match ← cmp a.1 b.1 with
  | .lt => return true
  | .gt => return false
  | .eq => return a.2 < b.2

/-- The weight of what is left of the sources: their weights together, and their number. -/
def weight (S : Source ω α σ) : List (Option σ) → Nat × Nat
  | [] => (0, 0)
  | none :: rest => weight S rest
  | some s :: rest =>
    ((S.weight s).1 + (weight S rest).1, (S.weight s).2 + 1 + (weight S rest).2)

/-- Read one row of every source, the first of which has the number `i`. -/
def readEach (S : Source ω α σ) (i : Nat) :
    List (Option σ) → ω → Except Fault (List (Option σ) × List (α × Nat)) × ω
  | [], w => (.ok ([], []), w)
  | none :: rest, w =>
    match readEach S (i + 1) rest w with
    | (.ok (left, ahead), w') => (.ok (none :: left, ahead), w')
    | (.error f, w') => (.error f, w')
  | some s :: rest, w =>
    match S.read s w with
    | (.row a s', w') =>
      match readEach S (i + 1) rest w' with
      | (.ok (left, ahead), w'') => (.ok (some s' :: left, (a, i) :: ahead), w'')
      | (.error f, w'') => (.error f, w'')
    | (.done, w') =>
      match readEach S (i + 1) rest w' with
      | (.ok (left, ahead), w'') => (.ok (none :: left, ahead), w'')
      | (.error f, w'') => (.error f, w'')
    | (.failed f, w') => (.error f, w')

/-- The least row that was read ahead. -/
def least (sources : List (Option σ)) : Except Fault (Heap (α × Nat)) → Reading α (Merge α σ)
  | .error f => .failed f
  | .ok heap =>
    match heap.root? with
    | some (a, _) => .row a ⟨sources, some heap⟩
    | none => .done

/-- The first reading. -/
def readFirst (S : Source ω α σ) (cmp : α → α → Except Fault Ordering) (sources : List (Option σ))
    (w : ω) : Reading α (Merge α σ) × ω :=
  match readEach S 0 sources w with
  | (.ok (_, []), w') => (.done, w')
  | (.ok (left, a :: ahead), w') => (least left (Heap.ofList (before cmp) (a :: ahead)), w')
  | (.error f, w') => (.failed f, w')

/-- A further reading: go on where the least row came from. -/
def readNext (S : Source ω α σ) (cmp : α → α → Except Fault Ordering) (sources : List (Option σ))
    (heap : Heap (α × Nat)) (w : ω) : Reading α (Merge α σ) × ω :=
  match heap.root? with
  | none => (.done, w)
  | some (_, i) =>
    match sources[i]? with
    | some (some s) =>
      match S.read s w with
      | (.row a s', w') =>
        (least (sources.set i (some s')) (heap.replaceRoot (before cmp) (a, i)), w')
      | (.done, w') => (least (sources.set i none) (heap.pop (before cmp)), w')
      | (.failed f, w') => (.failed f, w')
    | _ => (.done, w)

/-! ## Weights -/

theorem weight_map_none (S : Source ω α σ) (sources : List (Option σ)) :
    weight S (sources.map fun _ => none) = (0, 0) := by
  induction sources with
  | nil => rfl
  | cons _ _ ih => simpa [weight] using ih

theorem readEach_weight (S : Source ω α σ) (sources : List (Option σ)) :
    ∀ {i w left ahead w'}, readEach S i sources w = (.ok (left, ahead), w') →
      (ahead = [] ∧ left = sources.map (fun _ => none))
        ∨ Lighter (weight S left) (weight S sources) := by
  induction sources with
  | nil =>
    intro i w left ahead w' h
    simp only [readEach, Prod.mk.injEq, Except.ok.injEq] at h
    exact .inl ⟨h.1.2.symm, by simp [h.1.1.symm]⟩
  | cons o rest ih =>
    intro i w left ahead w' h
    cases o with
    | none =>
      simp only [readEach] at h
      split at h
      · rename_i l a _ hr
        obtain ⟨⟨rfl, rfl⟩, -⟩ : (none :: l = left ∧ a = ahead) ∧ _ := by simpa using h
        rcases ih hr with ⟨ha, hl⟩ | hl
        · exact .inl ⟨ha, by simp [hl]⟩
        · exact .inr (by simpa only [weight] using hl)
      · simp at h
    | some s =>
      simp only [readEach] at h
      split at h
      · rename_i a s' _ hs
        have hw := S.lighter (congrArg Prod.fst hs)
        split at h
        · rename_i l as _ hr
          obtain ⟨⟨rfl, rfl⟩, -⟩ : (some s' :: l = left ∧ (a, i) :: as = ahead) ∧ _ := by
            simpa using h
          right
          have hl : weight S l = (0, 0) ∨ Lighter (weight S l) (weight S rest) :=
            (ih hr).imp_left fun ⟨_, hl⟩ => hl ▸ weight_map_none S rest
          simp only [lighter_iff, weight, Prod.ext_iff] at *
          omega
        · simp at h
      · split at h
        · rename_i l as _ hr
          obtain ⟨⟨rfl, rfl⟩, -⟩ : (none :: l = left ∧ as = ahead) ∧ _ := by simpa using h
          rcases ih hr with ⟨ha, hl⟩ | hl
          · exact .inl ⟨ha, by simp [hl]⟩
          · right
            simp only [lighter_iff, weight] at *
            omega
        · simp at h
      · simp at h

theorem weight_set_none (S : Source ω α σ) {s : σ} (sources : List (Option σ)) :
    ∀ {i : Nat}, sources[i]? = some (some s) →
      Lighter (weight S (sources.set i none)) (weight S sources) := by
  induction sources with
  | nil => intro i h; simp at h
  | cons o rest ih =>
    intro i h
    cases i with
    | zero =>
      obtain rfl : o = some s := by simpa using h
      simp only [List.set_cons_zero, weight, lighter_iff]
      omega
    | succ i =>
      have hr := ih (by simpa using h)
      cases o <;> simp only [List.set_cons_succ, weight, lighter_iff] at * <;> omega

theorem weight_set_some (S : Source ω α σ) {s s' : σ} (hw : Lighter (S.weight s') (S.weight s))
    (sources : List (Option σ)) :
    ∀ {i : Nat}, sources[i]? = some (some s) →
      Lighter (weight S (sources.set i (some s'))) (weight S sources) := by
  induction sources with
  | nil => intro i h; simp at h
  | cons o rest ih =>
    intro i h
    cases i with
    | zero =>
      obtain rfl : o = some s := by simpa using h
      simp only [List.set_cons_zero, weight, lighter_iff] at *
      omega
    | succ i =>
      have hr := ih (by simpa using h)
      cases o <;> simp only [List.set_cons_succ, weight, lighter_iff] at * <;> omega

theorem sources_of_least {sources : List (Option σ)} {heap : Except Fault (Heap (α × Nat))} {a : α}
    {m : Merge α σ} (h : least sources heap = .row a m) : m.sources = sources := by
  unfold least at h
  split at h
  · cases h
  · split at h
    · cases h; rfl
    · cases h

theorem readFirst_lighter {S : Source ω α σ} {cmp : α → α → Except Fault Ordering}
    {sources : List (Option σ)} {w : ω} {a : α} {m : Merge α σ}
    (h : (readFirst S cmp sources w).1 = .row a m) :
    Lighter (weight S m.sources) (weight S sources) := by
  unfold readFirst at h
  split at h
  · cases h
  · rename_i left b ahead w' hr
    rw [sources_of_least h]
    rcases readEach_weight S sources hr with ⟨ha, -⟩ | hl
    · cases ha
    · exact hl
  · cases h

theorem readNext_lighter {S : Source ω α σ} {cmp : α → α → Except Fault Ordering}
    {sources : List (Option σ)} {heap : Heap (α × Nat)} {w : ω} {a : α} {m : Merge α σ}
    (h : (readNext S cmp sources heap w).1 = .row a m) :
    Lighter (weight S m.sources) (weight S sources) := by
  unfold readNext at h
  split at h
  · cases h
  · split at h
    · rename_i s hs
      split at h
      · rename_i b s' w' hr
        rw [sources_of_least h]
        exact weight_set_some S (S.lighter (congrArg Prod.fst hr)) sources hs
      · rw [sources_of_least h]
        exact weight_set_none S sources hs
      · cases h
    · cases h

end Merge

namespace Source

variable {ω α σ : Type}

/-- Several sources of one kind, read as one. -/
def merge (S : Source ω α σ) (cmp : α → α → Except Fault Ordering) : Source ω α (Merge α σ) where
  read m w :=
    match m.ahead with
    | none => Merge.readFirst S cmp m.sources w
    | some heap => Merge.readNext S cmp m.sources heap w
  weight m := Merge.weight S m.sources
  lighter {m w a m'} h := by
    split at h
    · exact Merge.readFirst_lighter h
    · exact Merge.readNext_lighter h

/-- Lists merged into one, as far as their rows can be compared. A single list stays as it is. -/
def mergeLists (cmp : α → α → Except Fault Ordering) : List (List α) → Collected α
  | [as] => ⟨as, .exhausted⟩
  | lists => ((rows.merge cmp).collect none (Merge.of lists) ()).1

end Source

end EntityQuery
