import EntityQuery.Execution.Source
import EntityQuery.Value.Identity

/-!
# Distinct rows — a source with repetitions left out

Rows are told apart by an identity, a list of values. A row is passed on when its identity has not
been seen before; otherwise reading goes on with the next one. An identity that no set can hold is a
fault.
-/

namespace EntityQuery

/-- A source, and the identities of the rows it has given so far. -/
structure Sifted (σ : Type) where
  source : σ
  seen   : List (List Value) := []

namespace Sifted

variable {ω α σ : Type}

/-- The identity of a row, if a set can hold it. -/
def identify (identity : α → Except Fault (List Value)) (a : α) : Except Fault (List Value) := do
  let values ← identity a
  if values.all Value.keyable then return values else throw .recordInSet

/-- Read on to a row that has not been seen. -/
def read (S : Source ω α σ) (identity : α → Except Fault (List Value)) (seen : List (List Value))
    (s : σ) (w : ω) : Reading α (Sifted σ) × ω :=
  match _read : S.read s w with
  | (.row a s', w') =>
    match identify identity a with
    | .error f => (.failed f, w')
    | .ok values =>
      if seen.contains values then read S identity seen s' w'
      else (.row a ⟨s', values :: seen⟩, w')
  | (.done, w') => (.done, w')
  | (.failed f, w') => (.failed f, w')
termination_by S.weight s
decreasing_by exact S.lighter (congrArg Prod.fst _read)

theorem read_lighter {S : Source ω α σ} {identity : α → Except Fault (List Value)}
    {seen : List (List Value)} {s : σ} {w : ω} {a : α} {t : Sifted σ}
    (h : (read S identity seen s w).1 = .row a t) : Lighter (S.weight t.source) (S.weight s) := by
  fun_induction read S identity seen s w with
  | case1 => cases h
  | case2 s w b s' w' hr values hv hseen ih =>
    exact (ih h).trans (S.lighter (congrArg Prod.fst hr))
  | case3 s w b s' w' hr values hv hseen =>
    cases h
    exact S.lighter (congrArg Prod.fst hr)
  | case4 => cases h
  | case5 => cases h

end Sifted

/-- A source without repeated rows. -/
def Source.distinct {ω α σ : Type} (S : Source ω α σ) (identity : α → Except Fault (List Value)) :
    Source ω α (Sifted σ) where
  read t w := Sifted.read S identity t.seen t.source w
  weight t := S.weight t.source
  lighter h := Sifted.read_lighter h

end EntityQuery
