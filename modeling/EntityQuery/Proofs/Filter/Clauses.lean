import EntityQuery.Filter.Clauses
import EntityQuery.Proofs.Outcome
import EntityQuery.Proofs.Repetition

/-!
# Clauses keep the meaning of a filter

A filter is read with any truth of its predicates (`Filter.satisfied`). Its clauses are equivalent
to it: some clause has only true predicates exactly when the filter is satisfied. Three things might
get in the way, and none does. An AND is distributed over the clauses of its parts while its own
leaves are put in front; predicates that stand twice in a clause are dropped; and so are clauses
with the same predicates. The last two are right because predicates that are one have one truth
(`Respects`).

* **`Means`** — what clauses mean, with a rule for each way to combine them.
* **`Filter.clauses_means`** — the clauses of a filter mean the filter.
-/

namespace EntityQuery

/-- A truth of predicates, which is the same for those in `C` that are one. -/
def Respects (C : Predicate → Prop) (pass : Predicate → Bool) : Prop :=
  ∀ {p r}, C p → C r → (p == r) = true → pass p = pass r

namespace Filter

mutual

/-- Whether a filter is satisfied when its predicates are true or not as given. -/
def satisfied (pass : Predicate → Bool) : Filter → Bool
  | .leaf p => pass p
  | .node .all parts => allSatisfied pass parts
  | .node .any parts => anySatisfied pass parts
termination_by structural f => f

def allSatisfied (pass : Predicate → Bool) : List Filter → Bool
  | [] => true
  | f :: fs => satisfied pass f && allSatisfied pass fs
termination_by structural fs => fs

def anySatisfied (pass : Predicate → Bool) : List Filter → Bool
  | [] => false
  | f :: fs => satisfied pass f || anySatisfied pass fs
termination_by structural fs => fs

end

theorem allSatisfied_eq_all (pass : Predicate → Bool) (fs : List Filter) :
    allSatisfied pass fs = fs.all (satisfied pass) := by
  induction fs with
  | nil => rfl
  | cons f fs ih => rw [allSatisfied, ih, List.all_cons]

theorem anySatisfied_eq_any (pass : Predicate → Bool) (fs : List Filter) :
    anySatisfied pass fs = fs.any (satisfied pass) := by
  induction fs with
  | nil => rfl
  | cons f fs ih => rw [anySatisfied, ih, List.any_cons]

mutual

/-- The predicates of a filter, from left to right. -/
def predicates : Filter → List Predicate
  | .leaf p => [p]
  | .node _ parts => allPredicates parts
termination_by structural f => f

def allPredicates : List Filter → List Predicate
  | [] => []
  | f :: fs => predicates f ++ allPredicates fs
termination_by structural fs => fs

end

end Filter

/-! ## Sets of predicates -/

namespace Clause

variable {C : Predicate → Prop} {pass : Predicate → Bool} {c d : Clause}

/-- Leaving out repetitions leaves out no requirement. -/
theorem all_eraseDups (hres : Respects C pass) (hC : ∀ p ∈ c, C p) :
    c.eraseDups.all pass = c.all pass := by
  rw [Bool.eq_iff_iff, List.all_eq_true, List.all_eq_true]
  constructor
  · intro h p hp
    obtain ⟨r, hr, rfl | hpr⟩ := exists_mem_eraseDupsBy (r := (· == ·)) hp
    · exact h p hr
    · rw [hres (hC p hp) (hC r (mem_of_mem_eraseDupsBy hr)) hpr]
      exact h r hr
  · intro h p hp
    exact h p (mem_of_mem_eraseDupsBy hp)

/-- Clauses hold the same predicates if each predicate of the one is one of the other. -/
theorem sameSet_eq_true_iff : sameSet c d = true ↔
    (∀ p ∈ c, ∃ r ∈ d, (p == r) = true) ∧ ∀ r ∈ d, ∃ p ∈ c, (r == p) = true := by
  simp only [sameSet, Bool.and_eq_true, List.all_eq_true, List.contains_eq_any_beq,
    List.any_eq_true]

/-- Clauses with the same predicates require the same. -/
theorem all_of_sameSet (hres : Respects C pass) (hc : ∀ p ∈ c, C p) (hd : ∀ p ∈ d, C p)
    (h : sameSet c d = true) : c.all pass = d.all pass := by
  have hsub : ∀ {c d : Clause}, (∀ p ∈ c, C p) → (∀ p ∈ d, C p) →
      (∀ p ∈ c, ∃ r ∈ d, (p == r) = true) → d.all pass = true → c.all pass = true := by
    intro c d hc hd hcd hpass
    rw [List.all_eq_true] at hpass ⊢
    intro p hp
    obtain ⟨r, hr, hpr⟩ := hcd p hp
    rw [hres (hc p hp) (hd r hr) hpr]
    exact hpass r hr
  obtain ⟨hcd, hdc⟩ := sameSet_eq_true_iff.mp h
  rw [Bool.eq_iff_iff]
  exact ⟨hsub hd hc hdc, hsub hc hd hcd⟩

/-- Leaving out clauses with the same predicates leaves out no alternative. -/
theorem any_distinct {cs : List Clause} (hres : Respects C pass)
    (hC : ∀ c ∈ cs, ∀ p ∈ c, C p) :
    (distinct cs).any (·.all pass) = cs.any (·.all pass) := by
  rw [Bool.eq_iff_iff, List.any_eq_true, List.any_eq_true]
  constructor
  · rintro ⟨c, hc, hpass⟩
    exact ⟨c, mem_of_mem_eraseDupsBy hc, hpass⟩
  · rintro ⟨c, hc, hpass⟩
    obtain ⟨d, hd, rfl | hcd⟩ := exists_mem_eraseDupsBy (r := sameSet) hc
    · exact ⟨c, hd, hpass⟩
    · refine ⟨d, hd, ?_⟩
      rwa [← all_of_sameSet hres (hC c hc) (hC d (mem_of_mem_eraseDupsBy hd)) hcd]

theorem mem_join {p : Predicate} (h : p ∈ join c d) : p ∈ c ∨ p ∈ d :=
  List.mem_append.mp (mem_of_mem_eraseDupsBy h)

theorem all_join (hres : Respects C pass) (hc : ∀ p ∈ c, C p) (hd : ∀ p ∈ d, C p) :
    (join c d).all pass = (c.all pass && d.all pass) := by
  rw [join, all_eraseDups hres, List.all_append]
  intro p hp
  rcases List.mem_append.mp hp with hp | hp
  · exact hc p hp
  · exact hd p hp

end Clause

/-! ## Meanings -/

/-- Clauses that ask about no predicates but `ps` and mean `truth`: some clause has only true
    predicates exactly when `truth` says so. -/
structure Means (ps : List Predicate) (truth : (Predicate → Bool) → Bool) (cs : List Clause) :
    Prop where
  mem : ∀ c ∈ cs, ∀ p ∈ c, p ∈ ps
  any : ∀ {C pass}, Respects C pass → (∀ p ∈ ps, C p) → cs.any (·.all pass) = truth pass

namespace Means

variable {ps rs : List Predicate} {truth truth' : (Predicate → Bool) → Bool} {cs ds : List Clause}

theorem congr (h : Means ps truth cs) (hps : ps ⊆ rs) (ht : ∀ pass, truth pass = truth' pass) :
    Means rs truth' cs where
  mem c hc p hp := hps (h.mem c hc p hp)
  any hres hC := by rw [h.any hres fun p hp => hC p (hps hp), ht]

theorem unit : Means [] (fun _ => true) [[]] where
  mem c hc p hp := by
    obtain rfl := List.mem_singleton.mp hc
    exact hp
  any _ _ := rfl

theorem leaf (p : Predicate) : Means [p] (fun pass => pass p) [[p]] where
  mem c hc r hr := by
    obtain rfl := List.mem_singleton.mp hc
    exact hr
  any _ _ := by simp

theorem distinct (h : Means ps truth cs) : Means ps truth (Clause.distinct cs) where
  mem c hc := h.mem c (mem_of_mem_eraseDupsBy hc)
  any {C _} hres hC := by
    have hmem : ∀ c ∈ cs, ∀ p ∈ c, C p := fun c hc p hp => hC p (h.mem c hc p hp)
    rw [Clause.any_distinct hres hmem, h.any hres hC]

/-- Either side. -/
theorem append (h : Means ps truth cs) (k : Means rs truth' ds) :
    Means (ps ++ rs) (fun pass => truth pass || truth' pass) (cs ++ ds) where
  mem c hc p hp := by
    rcases List.mem_append.mp hc with hc | hc
    · exact List.mem_append_left _ (h.mem c hc p hp)
    · exact List.mem_append_right _ (k.mem c hc p hp)
  any hres hC := by
    rw [List.any_append, h.any hres fun p hp => hC p (List.mem_append_left _ hp),
      k.any hres fun p hp => hC p (List.mem_append_right _ hp)]

/-- Both one clause and some clause of others. -/
theorem join (c : Clause) (h : Means ps truth cs) :
    Means (c ++ ps) (fun pass => c.all pass && truth pass) (cs.map (Clause.join c)) where
  mem d hd p hp := by
    obtain ⟨e, he, rfl⟩ := List.mem_map.mp hd
    rcases Clause.mem_join hp with hp | hp
    · exact List.mem_append_left _ hp
    · exact List.mem_append_right _ (h.mem e he p hp)
  any {C pass} hres hC := by
    have hc : ∀ p ∈ c, C p := fun p hp => hC p (List.mem_append_left _ hp)
    have hps : ∀ p ∈ ps, C p := fun p hp => hC p (List.mem_append_right _ hp)
    have hjoin : ∀ d ∈ cs, (Clause.join c d).all pass = (c.all pass && d.all pass) :=
      fun d hd => Clause.all_join hres hc fun p hp => hps p (h.mem d hd p hp)
    rw [← h.any hres hps, List.any_map, Bool.eq_iff_iff, Bool.and_eq_true, List.any_eq_true,
      List.any_eq_true]
    constructor
    · rintro ⟨d, hd, hpass⟩
      obtain ⟨hcpass, hdpass⟩ := Bool.and_eq_true_iff.mp ((hjoin d hd).symm.trans hpass)
      exact ⟨hcpass, d, hd, hdpass⟩
    · rintro ⟨hcpass, d, hd, hdpass⟩
      exact ⟨d, hd, (hjoin d hd).trans (by rw [hcpass, hdpass]; rfl)⟩

/-- Both sides, one clause of each joined. -/
theorem product (h : Means ps truth cs) (k : Means rs truth' ds) :
    Means (ps ++ rs) (fun pass => truth pass && truth' pass) (Clause.product cs ds) where
  mem d hd p hp := by
    obtain ⟨c, hc, hd⟩ := List.mem_flatMap.mp hd
    rcases List.mem_append.mp ((k.join c).mem d hd p hp) with hp | hp
    · exact List.mem_append_left _ (h.mem c hc p hp)
    · exact List.mem_append_right _ hp
  any {C pass} hres hC := by
    have hjoin : ∀ c ∈ cs, (ds.map (Clause.join c)).any (·.all pass)
        = (c.all pass && truth' pass) := by
      intro c hc
      refine (k.join c).any hres ?_
      intro p hp
      rcases List.mem_append.mp hp with hp | hp
      · exact hC p (List.mem_append_left _ (h.mem c hc p hp))
      · exact hC p (List.mem_append_right _ hp)
    rw [← h.any hres fun p hp => hC p (List.mem_append_left _ hp), Bool.eq_iff_iff,
      Bool.and_eq_true, List.any_eq_true, List.any_eq_true]
    constructor
    · rintro ⟨d, hd, hpass⟩
      obtain ⟨c, hc, hd⟩ := List.mem_flatMap.mp hd
      have hsome : (ds.map (Clause.join c)).any (·.all pass) = true :=
        List.any_eq_true.mpr ⟨d, hd, hpass⟩
      obtain ⟨hcpass, hother⟩ := Bool.and_eq_true_iff.mp ((hjoin c hc).symm.trans hsome)
      exact ⟨⟨c, hc, hcpass⟩, hother⟩
    · rintro ⟨⟨c, hc, hcpass⟩, hother⟩
      obtain ⟨d, hd, hpass⟩ := List.any_eq_true.mp
        ((hjoin c hc).trans (by rw [hcpass, hother]; rfl))
      exact ⟨d, List.mem_flatMap.mpr ⟨c, hc, hd⟩, hpass⟩

end Means

/-! ## Clauses of filters -/

namespace Filter

/-- Whether the composite parts among these are satisfied. -/
def nodesSatisfied (pass : Predicate → Bool) : List Filter → Bool
  | [] => true
  | .leaf _ :: fs => nodesSatisfied pass fs
  | f :: fs => satisfied pass f && nodesSatisfied pass fs

/-- The parts of an AND are its leaves and its composite parts. -/
theorem allSatisfied_eq (pass : Predicate → Bool) (parts : List Filter) :
    allSatisfied pass parts = ((leaves parts).all pass && nodesSatisfied pass parts) := by
  induction parts with
  | nil => rfl
  | cons f fs ih =>
      cases f with
      | leaf p =>
          rw [allSatisfied, satisfied, ih, nodesSatisfied, ← Bool.and_assoc]
          rfl
      | node c fs' =>
          rw [allSatisfied, ih, nodesSatisfied, ← Bool.and_assoc, ← Bool.and_assoc,
            Bool.and_comm (satisfied pass (.node c fs'))]
          · rfl
          · intro p heq
            cases heq

theorem leaves_subset (parts : List Filter) : leaves parts ⊆ allPredicates parts := by
  induction parts with
  | nil => exact List.Subset.refl _
  | cons f fs ih =>
      cases f with
      | leaf p => exact List.cons_subset_cons p ih
      | node c fs' => exact fun r hr => List.mem_append_right _ (ih hr)

@[simp] theorem leaves_map_leaf (c : Clause) : leaves (c.map leaf) = c := by
  induction c with
  | nil => rfl
  | cons p c ih => exact congrArg (p :: ·) ih

/-- The expansion of an AND passes over its leaves. -/
@[simp] theorem clausesOfAll_leaves (limit : Int) (depth : Nat) (c : Clause) (acc : List Clause) :
    clausesOfAll limit depth (c.map leaf) acc = .ok acc := by
  induction c with
  | nil => rfl
  | cons p c ih => exact ih

/-- The AND of the predicates of a clause has this clause, with each predicate once. -/
theorem clausesAt_leaves {limit : Int} {depth : Nat} {c : Clause} (hdepth : depth ≤ limit)
    (hkeyable : ∀ p ∈ c, p.keyable = true) :
    clausesAt limit depth (.node .all (c.map leaf)) = .ok [c.eraseDups] := by
  rw [clausesAt, if_neg (Int.not_lt.mpr hdepth), clausesOfAll_leaves, leaves_map_leaf]
  show (if c.all Predicate.keyable = true then
    Except.ok (Clause.distinct [(c ++ []).eraseDups]) else _) = _
  rw [if_pos (List.all_eq_true.mpr hkeyable), List.append_nil]
  rfl

mutual

theorem clausesAt_means {limit : Int} : ∀ {depth : Nat} {f : Filter} {cs : List Clause},
    clausesAt limit depth f = .ok cs → Means f.predicates (fun pass => f.satisfied pass) cs
  | depth, .leaf q, cs, h => by
      rw [clausesAt] at h
      split at h
      · cases h
      · split at h
        · obtain rfl := Except.ok.inj h
          exact Means.leaf q
        · cases h
  | depth, .node .any parts, cs, h => by
      rw [clausesAt] at h
      split at h
      · cases h
      · obtain ⟨ds, hds, h⟩ := bind_eq_ok.mp h
        obtain rfl := Except.ok.inj h
        exact (clausesOfAny_means hds).distinct
  | depth, .node .all parts, cs, h => by
      rw [clausesAt] at h
      split at h
      · cases h
      · obtain ⟨rest, hrest, h⟩ := bind_eq_ok.mp h
        split at h
        · obtain rfl := Except.ok.inj h
          have hmeans := ((clausesOfAll_means .unit hrest).join (leaves parts)).distinct
          refine hmeans.congr ?_ ?_
          · intro p hp
            rcases List.mem_append.mp hp with hp | hp
            · exact leaves_subset parts hp
            · exact hp
          · intro pass
            rw [Bool.true_and, ← allSatisfied_eq]
            rfl
        · cases h

theorem clausesOfAny_means {limit : Int} : ∀ {depth : Nat} {fs : List Filter} {cs : List Clause},
    clausesOfAny limit depth fs = .ok cs →
      Means (allPredicates fs) (fun pass => anySatisfied pass fs) cs
  | depth, [], cs, h => by
      obtain rfl := Except.ok.inj h
      exact ⟨List.forall_mem_nil _, fun _ _ => rfl⟩
  | depth, f :: fs, cs, h => by
      obtain ⟨ds, hds, h⟩ := bind_eq_ok.mp h
      obtain ⟨rest, hrest, h⟩ := bind_eq_ok.mp h
      obtain rfl := Except.ok.inj h
      exact (clausesAt_means hds).append (clausesOfAny_means hrest)

theorem clausesOfAll_means {limit : Int} :
    ∀ {depth : Nat} {fs : List Filter} {acc cs : List Clause} {ps : List Predicate}
      {truth : (Predicate → Bool) → Bool}, Means ps truth acc →
      clausesOfAll limit depth fs acc = .ok cs →
        Means (ps ++ allPredicates fs) (fun pass => truth pass && nodesSatisfied pass fs) cs
  | depth, [], acc, cs, ps, truth, hacc, h => by
      obtain rfl := Except.ok.inj h
      exact hacc.congr (List.subset_append_left ..) fun pass => (Bool.and_true _).symm
  | depth, .leaf q :: fs, acc, cs, ps, truth, hacc, h => by
      have hrest : clausesOfAll limit depth fs acc = .ok cs := h
      refine (clausesOfAll_means hacc hrest).congr ?_ fun _ => rfl
      exact List.append_subset.mpr ⟨List.subset_append_left ..,
        fun p hp => List.mem_append_right _ (List.mem_cons_of_mem q hp)⟩
  | depth, .node n parts :: fs, acc, cs, ps, truth, hacc, h => by
      obtain ⟨ds, hds, h⟩ := bind_eq_ok.mp h
      refine (clausesOfAll_means (hacc.product (clausesAt_means hds)) h).congr ?_ ?_
      · rw [List.append_assoc]
        exact List.Subset.refl _
      · intro pass
        rw [Bool.and_assoc]
        rfl

end

/-- **Clauses mean the filter**: one of them is all true exactly when the filter is satisfied. They
    ask about nothing else. -/
theorem clauses_means {limit : Int} {f : Filter} {cs : List Clause}
    (h : f.clauses limit = .ok cs) : Means f.predicates (fun pass => f.satisfied pass) cs :=
  clausesAt_means h

end Filter

end EntityQuery
