import EntityQuery.Proofs.Outcome

/-!
# Lockstep — two computations that take the same course

Two computations are *in step* if both give results, which are related, or both end in the same
fault. What they work on may differ as long as nothing that they test does: each test must come out
the same in both. `InStep E R` says this with `R` for the results, and that a fault is in `E`. With
`E` empty it also says that the two succeed. `InStepIn E R` says the same of computations that touch
a world, and that they leave it in the same state.
-/

namespace EntityQuery

variable {ε ω α β γ δ : Type}

/-- Both computations give results that `R` relates, or both end in one fault, which is in `E`. -/
inductive InStep (E : ε → Prop) (R : α → β → Prop) : Except ε α → Except ε β → Prop
  | ok {a : α} {b : β} (h : R a b) : InStep E R (.ok a) (.ok b)
  | error {f : ε} (h : E f) : InStep E R (.error f) (.error f)

namespace InStep

variable {E : ε → Prop} {R : α → β → Prop} {T : γ → δ → Prop} {r : Except ε α} {r' : Except ε β}

/-- Computations that go on in step from related results. -/
theorem bind {k : α → Except ε γ} {k' : β → Except ε δ} (h : InStep E R r r')
    (hk : ∀ {a b}, R a b → InStep E T (k a) (k' b)) : InStep E T (r >>= k) (r' >>= k') := by
  cases h with
  | ok h => exact hk h
  | error h => exact .error h

/-- One and the same computation is in step with itself. -/
theorem of_eq {r r' : Except ε α} {Q : α → Prop} (h : r = r') (hE : Ends E Q r) :
    InStep E Eq r r' := by
  subst h
  cases r with
  | ok a => exact .ok rfl
  | error f => exact .error hE

end InStep

/-- Both computations leave the same world, and give related results or end in one fault. -/
inductive InStepIn (E : ε → Prop) (R : α → β → Prop) : Except ε α × ω → Except ε β × ω → Prop
  | ok {a : α} {b : β} {w : ω} (h : R a b) : InStepIn E R (.ok a, w) (.ok b, w)
  | error {f : ε} {w : ω} (h : E f) : InStepIn E R (.error f, w) (.error f, w)

/-- Tests of two elements come out the same if the elements are related one by one. -/
def TestsInStep (E : ε → Prop) (R : α → β → Prop) (test : α → α → Except ε γ)
    (test' : β → β → Except ε γ) : Prop :=
  ∀ a b a' b', R a a' → R b b' → InStep E Eq (test a b) (test' a' b')

end EntityQuery
