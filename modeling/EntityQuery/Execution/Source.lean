import EntityQuery.Fault

/-!
# Sources — rows that are read one at a time

A source is anything that can be asked for its next row: a list, the answers to a group of queries,
several sources merged into one. A reading gives a row and the source that is left, or says that
there are no more, or fails. Reading may touch a world `ω`; here that is the log of the queries
that have been asked.

Sources are plain data, so nothing happens until a reading, and asking for `n` rows reads no further
than the `n`-th. That reading on comes to an end is part of a source: each row leaves it with less
`weight`, a pair of numbers compared from the left.

* **`Source.rows`** — a list.
* **`Source.collect`** — read up to a number of rows, or to the end.
-/

namespace EntityQuery

/-- What one reading gives. -/
inductive Reading (α σ : Type) where
  | row (a : α) (rest : σ)
  | done
  | failed (f : Fault)

/-- The first pair is less than the second, compared from the left. -/
abbrev Lighter : Nat × Nat → Nat × Nat → Prop := Prod.Lex (· < ·) (· < ·)

theorem lighter_iff {a b : Nat × Nat} : Lighter a b ↔ a.1 < b.1 ∨ a.1 = b.1 ∧ a.2 < b.2 :=
  Prod.lex_def

theorem Lighter.trans {a b c : Nat × Nat} (h : Lighter a b) (k : Lighter b c) : Lighter a c := by
  rw [lighter_iff] at *
  omega

/-- A way to read rows `α` from states `σ` in a world `ω`. -/
structure Source (ω α σ : Type) where
  read    : σ → ω → Reading α σ × ω
  weight  : σ → Nat × Nat
  lighter : ∀ {s w a s'}, (read s w).1 = .row a s' → Lighter (weight s') (weight s)

/-- How a collection of rows ended. -/
inductive Ending where
  /-- There were no more rows. -/
  | exhausted
  /-- As many rows were read as were asked for. -/
  | stopped
  | failed (f : Fault)

/-- The rows that were read, and how the reading ended. -/
structure Collected (α : Type) where
  rows   : List α
  ending : Ending

/-- The same collection with a row in front. -/
def Collected.push {α : Type} (a : α) (c : Collected α) : Collected α :=
  { c with rows := a :: c.rows }

namespace Source

variable {ω α σ : Type}

/-- A list, read from its head. -/
def rows : Source ω α (List α) where
  read
    | [], w => (.done, w)
    | a :: as, w => (.row a as, w)
  weight as := (0, as.length)
  lighter {s w a s'} h := by
    cases s with
    | nil => simp at h
    | cons b bs =>
      obtain ⟨rfl, rfl⟩ : b = a ∧ bs = s' := by simpa using h
      simp [lighter_iff]

/-- Read at most `limit` rows, or all of them without a limit. Nothing is read after the last row
    that was asked for. -/
def collect (S : Source ω α σ) (limit : Option Nat) (s : σ) (w : ω) : Collected α × ω :=
  if limit = some 0 then (⟨[], .stopped⟩, w)
  else
    match _read : S.read s w with
    | (.row a s', w') =>
      let (c, w'') := collect S (limit.map (· - 1)) s' w'
      (c.push a, w'')
    | (.done, w') => (⟨[], .exhausted⟩, w')
    | (.failed f, w') => (⟨[], .failed f⟩, w')
termination_by S.weight s
decreasing_by exact S.lighter (congrArg Prod.fst _read)

end Source

end EntityQuery
