import EntityQuery.Proofs.Filter.Family

/-!
# Idempotence — clauses that are expanded again

Clauses can be written as a filter: an OR of ANDs, in which a clause of one predicate may also stand
as that predicate. When this filter is expanded the same clauses come out, in the same order and
each with its predicates in the same order. For the clauses of a filter hold no predicate twice and
are different as sets, so neither of the two ways to leave out repetitions finds anything to do.

* **`Filter.Writes`** — a filter that asks for one clause.
* **`Filter.clauses_idempotent`** — the clauses of clauses.
-/

namespace EntityQuery

/-! ## Clauses without repetitions -/

/-- Clauses in which nothing is repeated, neither a predicate in a clause nor a set of them. -/
structure Clause.Settled (cs : List Clause) : Prop where
  keyable : ∀ c ∈ cs, c.Keyable
  once    : ∀ c ∈ cs, c.Pairwise fun p r => (r == p) = false
  apart   : cs.Pairwise fun c d => sameSet d c = false

namespace Filter

variable {f : Filter} {fs : List Filter} {c : Clause} {cs : List Clause} {limit : Int}

/-- The clauses of a filter are without repetitions. -/
theorem settled_of_clausesAt {depth : Nat} (h : clausesAt limit depth f = .ok cs) :
    Clause.Settled cs where
  keyable := (clausesAt_presents h).keyable
  once c hc := by
    have hkeyable := (clausesAt_presents h).keyable c hc
    have honce : c.Pairwise fun p r => p.identity ≠ r.identity :=
      List.pairwise_map.mp ((clausesAt_presents h).once c hc)
    refine honce.imp_of_mem fun {p r} _ hr hne => ?_
    rw [← Bool.not_eq_true, Predicate.beq_iff_identity (hkeyable r hr)]
    exact hne.symm
  apart := by
    have hkeyable := (clausesAt_presents h).keyable
    have hapart : cs.Pairwise fun c d => c.identities ≠ d.identities :=
      List.pairwise_map.mp (nodup_clausesAt h)
    refine hapart.imp_of_mem fun {c d} hc hd hne => ?_
    rw [← Bool.not_eq_true, Clause.sameSet_iff (hkeyable d hd) (hkeyable c hc)]
    exact hne.symm

/-! ## Clauses as filters -/

/-- A filter that asks for one clause: the AND of its predicates, or the only one that it has. -/
def Writes (f : Filter) (c : Clause) : Prop :=
  f = .node .all (c.map .leaf) ∨ ∃ p, c = [p] ∧ f = .leaf p

theorem clausesAt_of_writes {depth : Nat} (hdepth : depth ≤ limit) (h : f.Writes c)
    (hkeyable : c.Keyable) (honce : c.Pairwise fun p r => (r == p) = false) :
    clausesAt limit depth f = .ok [c] := by
  rcases h with rfl | ⟨p, rfl, rfl⟩
  · rw [clausesAt_leaves hdepth hkeyable, List.eraseDups, eraseDupsBy_eq_self honce]
  · rw [clausesAt, if_neg (Int.not_lt.mpr hdepth)]
    exact if_pos (hkeyable p List.mem_cons_self)

/-- The clauses of filters that ask for one clause each are these clauses. -/
theorem clausesOfAny_of_writes {depth : Nat} (hdepth : depth ≤ limit)
    (h : List.Forall₂ Writes fs cs) (hkeyable : ∀ c ∈ cs, c.Keyable)
    (honce : ∀ c ∈ cs, c.Pairwise fun p r => (r == p) = false) :
    clausesOfAny limit depth fs = .ok cs := by
  induction h with
  | nil => rfl
  | cons hfc _ ih =>
      obtain ⟨hc, hcs⟩ := List.forall_mem_cons.mp hkeyable
      obtain ⟨hcOnce, hcsOnce⟩ := List.forall_mem_cons.mp honce
      rw [clausesOfAny, clausesAt_of_writes hdepth hfc hc hcOnce, ih hcs hcsOnce]
      rfl

/-! ## Filters that can be built -/

mutual

/-- Whether every composite has parts, as every one that is built with `composite` does. -/
def populated : Filter → Bool
  | .leaf _ => true
  | .node _ parts => !parts.isEmpty && allPopulated parts
termination_by structural f => f

def allPopulated : List Filter → Bool
  | [] => true
  | f :: fs => populated f && allPopulated fs
termination_by structural fs => fs

end

mutual

/-- With every composite having parts, a filter is as true as all its predicates. -/
theorem satisfied_const (b : Bool) :
    ∀ {f : Filter}, f.populated = true → f.satisfied (fun _ => b) = b
  | .leaf _, _ => rfl
  | .node _ [], h => by cases h
  | .node .all (f :: fs), h => by
      obtain ⟨hf, hfs⟩ := Bool.and_eq_true_iff.mp (show allPopulated (f :: fs) = true from h)
      rw [satisfied, allSatisfied, satisfied_const b hf]
      cases b with
      | true => exact (satisfied_const_list hfs).1
      | false => rfl
  | .node .any (f :: fs), h => by
      obtain ⟨hf, hfs⟩ := Bool.and_eq_true_iff.mp (show allPopulated (f :: fs) = true from h)
      rw [satisfied, anySatisfied, satisfied_const b hf]
      cases b with
      | true => rfl
      | false => exact (satisfied_const_list hfs).2

theorem satisfied_const_list : ∀ {fs : List Filter}, allPopulated fs = true →
    allSatisfied (fun _ => true) fs = true ∧ anySatisfied (fun _ => false) fs = false
  | [], _ => ⟨rfl, rfl⟩
  | f :: fs, h => by
      obtain ⟨hf, hfs⟩ := Bool.and_eq_true_iff.mp h
      obtain ⟨hall, hany⟩ := satisfied_const_list hfs
      rw [allSatisfied, anySatisfied, satisfied_const true hf, satisfied_const false hf, hall, hany]
      exact ⟨rfl, rfl⟩

end

/-- A filter that can be built has clauses, and none of them asks for nothing. -/
theorem clauses_ne_nil (hf : f.populated = true) (h : f.clauses limit = .ok cs) :
    cs ≠ [] ∧ ∀ c ∈ cs, c ≠ [] := by
  have hconst : ∀ b : Bool, cs.any (·.all fun _ => b) = b := fun b =>
    ((clauses_means h).any (C := fun _ => True) (fun _ _ _ => rfl) fun _ _ => trivial).trans
      (satisfied_const b hf)
  constructor
  · rintro rfl
    cases hconst true
  · rintro _ hc rfl
    have hsome : cs.any (·.all fun _ => false) = true := List.any_eq_true.mpr ⟨[], hc, rfl⟩
    rw [hconst false] at hsome
    cases hsome

@[simp] theorem allPopulated_map_leaf (c : Clause) : allPopulated (c.map .leaf) = true := by
  induction c with
  | nil => rfl
  | cons p c ih => exact ih

theorem populated_of_writes (h : f.Writes c) (hc : c ≠ []) : f.populated = true := by
  rcases h with rfl | ⟨p, rfl, rfl⟩
  · cases c with
    | nil => exact absurd rfl hc
    | cons p c => exact allPopulated_map_leaf c
  · rfl

theorem allPopulated_of_writes (h : List.Forall₂ Writes fs cs) (hcs : ∀ c ∈ cs, c ≠ []) :
    allPopulated fs = true := by
  induction h with
  | nil => rfl
  | cons hfc _ ih =>
      obtain ⟨hc, hcs⟩ := List.forall_mem_cons.mp hcs
      rw [allPopulated, populated_of_writes hfc hc, ih hcs]
      rfl

/-- **Idempotence.** The clauses of a filter, written as an OR of filters that ask for one clause
    each, have themselves as clauses under any bound that lets the parts of an OR stand. If the
    filter can be built, so can this OR. -/
theorem clauses_idempotent {limit' : Int} (h : f.clauses limit = .ok cs) (hlimit : 1 ≤ limit')
    (hfs : List.Forall₂ Writes fs cs) :
    (node .any fs).clauses limit' = .ok cs
      ∧ (f.populated = true → (node .any fs).populated = true) := by
  have hsettled : Clause.Settled cs := settled_of_clausesAt h
  constructor
  · have hparts := clausesOfAny_of_writes hlimit hfs hsettled.keyable hsettled.once
    rw [clauses, clausesAt, if_neg (by omega)]
    refine bind_eq_ok.mpr ⟨cs, hparts, ?_⟩
    show Except.ok (Clause.distinct cs) = _
    rw [Clause.distinct, eraseDupsBy_eq_self hsettled.apart]
  · intro hf
    obtain ⟨hcs, hc⟩ := clauses_ne_nil hf h
    cases hfs with
    | nil => exact absurd rfl hcs
    | cons hfc hrest => exact allPopulated_of_writes (.cons hfc hrest) hc

/-- The two clauses of `overlapping` as filters, the second one written as its predicate. -/
def regrouped : List Filter :=
  [.node .all [.leaf (.equals "a" (.int 1)), .leaf (.equals "b" (.int 2))],
    .leaf (.equals "a" (.int 1))]

/-- A filter in which a leaf stands three times has two clauses, and they have themselves. -/
theorem clauses_idempotent_overlapping :
    overlapping.clauses 2
        = .ok [[.equals "a" (.int 1), .equals "b" (.int 2)], [.equals "a" (.int 1)]]
      ∧ List.Forall₂ Writes regrouped
          [[.equals "a" (.int 1), .equals "b" (.int 2)], [.equals "a" (.int 1)]]
      ∧ (node .any regrouped).clauses 1
        = .ok [[.equals "a" (.int 1), .equals "b" (.int 2)], [.equals "a" (.int 1)]]
      ∧ (node .any regrouped).populated = true := by
  have hclauses : overlapping.clauses 2
      = .ok [[.equals "a" (.int 1), .equals "b" (.int 2)], [.equals "a" (.int 1)]] := rfl
  have hwrites : List.Forall₂ Writes regrouped
      [[.equals "a" (.int 1), .equals "b" (.int 2)], [.equals "a" (.int 1)]] :=
    .cons (.inl rfl) (.cons (.inr ⟨_, rfl, rfl⟩) .nil)
  obtain ⟨hsame, hpopulated⟩ := clauses_idempotent hclauses (by decide : (1 : Int) ≤ 1) hwrites
  exact ⟨hclauses, hwrites, hsame, hpopulated rfl⟩

end Filter

end EntityQuery
