import EntityQuery.Proofs.Filter.Clauses

/-!
# Depth — which filters are too deep to be expanded

A filter stands at depth zero, and the parts of a composite stand one deeper than it does. The bound
on the depth is looked at where the expansion descends. It descends to all composites, and to the
leaves of an OR as well, but never to the leaves of an AND. So a filter is too deep if a composite
stands below the bound, or if the leaves of an OR do; the leaves of an AND may stand there. The
connectives count for nothing unless the innermost composites stand right at the bound.

* **`Filter.nesting`**, **`Filter.level`** — how deep a filter is nested, what stands at a depth.
* **`Filter.lt_reach_iff`** — how far the expansion descends.
* **`Filter.clauses_tooDeep_iff`** — which filters are refused, and when the connectives matter.
-/

namespace EntityQuery

namespace Filter

/-! ## Nesting -/

/-- The parts of a composite. -/
def parts : Filter → List Filter
  | .leaf _ => []
  | .node _ parts => parts

/-- What stands at a depth in a filter. -/
def level : Nat → Filter → List Filter
  | 0, f => [f]
  | d + 1, f => f.parts.flatMap (level d)

mutual

/-- How many composites stand in one another in a filter, at most. -/
@[simp]
def nesting : Filter → Nat
  | .leaf _ => 0
  | .node _ parts => deepest parts + 1
termination_by structural f => f

@[simp]
def deepest : List Filter → Nat
  | [] => 0
  | f :: fs => max (nesting f) (deepest fs)
termination_by structural fs => fs

end

variable {f g : Filter} {fs : List Filter} {d k : Nat}

theorem mem_level_succ : g ∈ f.level (d + 1) ↔ ∃ part ∈ f.parts, g ∈ part.level d :=
  List.mem_flatMap

theorem lt_deepest_iff : k < deepest fs ↔ ∃ f ∈ fs, k < f.nesting := by
  induction fs with
  | nil => simp
  | cons f fs ih =>
      simp only [deepest, List.mem_cons, exists_eq_or_imp, ← ih]
      omega

/-- A filter is nested as deep as composites stand in it. -/
theorem lt_nesting_iff : k < f.nesting ↔ ∃ c parts, .node c parts ∈ f.level k := by
  induction k generalizing f with
  | zero =>
      cases f with
      | leaf p => simp [level]
      | node c parts => exact iff_of_true (Nat.succ_pos _) ⟨c, parts, List.mem_singleton_self _⟩
  | succ k ih =>
      cases f with
      | leaf p => simp [level, Filter.parts]
      | node c parts =>
          rw [nesting, Nat.add_lt_add_iff_right, lt_deepest_iff]
          simp only [ih, mem_level_succ]
          constructor
          · rintro ⟨part, hpart, c', parts', h⟩
            exact ⟨c', parts', part, hpart, h⟩
          · rintro ⟨c', parts', part, hpart, h⟩
            exact ⟨part, hpart, c', parts', h⟩

/-! ## How far the expansion descends -/

mutual

/-- The depth of the deepest part that the expansion of a filter descends to. -/
def reach : Filter → Nat
  | .leaf _ => 0
  | .node .any parts => reachOfAny parts
  | .node .all parts => reachOfAll parts
termination_by structural f => f

def reachOfAny : List Filter → Nat
  | [] => 0
  | f :: fs => max (reach f + 1) (reachOfAny fs)
termination_by structural fs => fs

def reachOfAll : List Filter → Nat
  | [] => 0
  | .leaf _ :: fs => reachOfAll fs
  | f :: fs => max (reach f + 1) (reachOfAll fs)
termination_by structural fs => fs

end

theorem lt_reachOfAny_iff : k < reachOfAny fs ↔ ∃ f ∈ fs, k < f.reach + 1 := by
  induction fs with
  | nil => simp [reachOfAny]
  | cons f fs ih =>
      simp only [reachOfAny, List.mem_cons, exists_eq_or_imp, ← ih]
      omega

theorem lt_reachOfAll_iff :
    k < reachOfAll fs ↔ ∃ c parts, .node c parts ∈ fs ∧ k < (node c parts).reach + 1 := by
  induction fs with
  | nil => simp [reachOfAll]
  | cons f fs ih =>
      cases f with
      | leaf p =>
          rw [show reachOfAll (.leaf p :: fs) = reachOfAll fs from rfl, ih]
          simp
      | node c parts =>
          have hstep : k < reachOfAll (.node c parts :: fs)
              ↔ k < (node c parts).reach + 1 ∨ k < reachOfAll fs := by
            rw [show reachOfAll (.node c parts :: fs)
              = max ((node c parts).reach + 1) (reachOfAll fs) from rfl]
            omega
          rw [hstep, ih]
          constructor
          · rintro (h | ⟨c', parts', hmem, h⟩)
            · exact ⟨c, parts, List.mem_cons_self, h⟩
            · exact ⟨c', parts', List.mem_cons_of_mem _ hmem, h⟩
          · rintro ⟨c', parts', hmem, h⟩
            rcases List.mem_cons.mp hmem with heq | hmem
            · exact .inl (heq ▸ h)
            · exact .inr ⟨c', parts', hmem, h⟩

/-- The expansion descends from a composite to a part with something below it, and to all parts if
    there is nothing below. -/
theorem succ_lt_reach_node_iff {c : Connective} :
    k + 1 < (node c fs).reach ↔ ∃ part ∈ fs, k < part.reach := by
  cases c with
  | any =>
      rw [show (node .any fs).reach = reachOfAny fs from rfl, lt_reachOfAny_iff]
      simp only [Nat.add_lt_add_iff_right]
  | all =>
      rw [show (node .all fs).reach = reachOfAll fs from rfl, lt_reachOfAll_iff]
      simp only [Nat.add_lt_add_iff_right]
      constructor
      · rintro ⟨c, parts, hmem, h⟩
        exact ⟨_, hmem, h⟩
      · rintro ⟨part, hmem, h⟩
        cases part with
        | leaf p => cases h
        | node c parts => exact ⟨c, parts, hmem, h⟩

/-- The expansion descends below a depth if a composite stands there, or the leaves of an OR do. -/
theorem lt_reach_iff : k < f.reach ↔
    k + 1 < f.nesting ∨ ∃ parts, parts ≠ [] ∧ .node .any parts ∈ f.level k := by
  induction k generalizing f with
  | zero =>
      cases f with
      | leaf p => simp [reach, level]
      | node c parts =>
          have hbelow : 0 + 1 < (node c parts).nesting ↔ ∃ part ∈ parts, 0 < part.nesting := by
            rw [nesting, Nat.add_lt_add_iff_right, lt_deepest_iff]
          rw [hbelow]
          cases c with
          | any =>
              rw [show (node .any parts).reach = reachOfAny parts from rfl, lt_reachOfAny_iff]
              constructor
              · rintro ⟨part, hpart, -⟩
                exact .inr ⟨parts, List.ne_nil_of_mem hpart, List.mem_singleton_self _⟩
              · rintro (⟨part, hpart, -⟩ | ⟨parts', hne, hmem⟩)
                · exact ⟨part, hpart, Nat.succ_pos _⟩
                · obtain ⟨-, rfl⟩ := Filter.node.inj (List.mem_singleton.mp hmem)
                  obtain ⟨part, hpart⟩ := List.exists_mem_of_ne_nil _ hne
                  exact ⟨part, hpart, Nat.succ_pos _⟩
          | all =>
              rw [show (node .all parts).reach = reachOfAll parts from rfl, lt_reachOfAll_iff]
              constructor
              · rintro ⟨c, parts', hmem, -⟩
                exact .inl ⟨_, hmem, Nat.succ_pos _⟩
              · rintro (⟨part, hpart, h⟩ | ⟨parts', -, hmem⟩)
                · cases part with
                  | leaf p => cases h
                  | node c parts' => exact ⟨c, parts', hpart, Nat.succ_pos _⟩
                · cases List.mem_singleton.mp hmem
  | succ k ih =>
      cases f with
      | leaf p => simp [reach, level, Filter.parts]
      | node c parts =>
          rw [succ_lt_reach_node_iff, nesting, Nat.add_lt_add_iff_right, lt_deepest_iff]
          simp only [ih, mem_level_succ]
          constructor
          · rintro ⟨part, hpart, h | ⟨parts', hne, h⟩⟩
            · exact .inl ⟨part, hpart, h⟩
            · exact .inr ⟨parts', hne, part, hpart, h⟩
          · rintro (⟨part, hpart, h⟩ | ⟨parts', hne, part, hpart, h⟩)
            · exact ⟨part, hpart, .inl h⟩
            · exact ⟨part, hpart, .inr ⟨parts', hne, h⟩⟩

/-! ## The bound -/

/-- The expansion of something that stands at a depth is refused as too deep exactly if it descends
    below the bound from there. -/
abbrev Bounded {α : Type} (limit : Int) (bottom : Nat) (r : Except Fault α) : Prop :=
  Ends (fun f => f = .tooDeep limit ∧ limit < bottom) (fun _ => bottom ≤ limit) r

/-- Of two expansions in a row the deeper one counts. -/
theorem Bounded.bind {α β : Type} {limit : Int} {a b : Nat} {r : Except Fault α}
    {k : α → Except Fault β} (h : Bounded limit a r) (hk : ∀ x, Bounded limit b (k x)) :
    Bounded limit (max a b) (r >>= k) := by
  cases r with
  | error f =>
      obtain ⟨rfl, ha⟩ := h
      exact ⟨rfl, by omega⟩
  | ok x =>
      have ha : a ≤ limit := h
      refine (hk x).weaken (fun f hf => ⟨hf.1, by omega⟩) |>.mono fun y hb => ?_
      omega

mutual

theorem clausesAt_bounded {limit : Int} : ∀ {depth : Nat} {f : Filter},
    (∀ p ∈ f.predicates, p.keyable = true) →
      Bounded limit (depth + f.reach) (clausesAt limit depth f)
  | depth, .leaf p, h => by
      rw [clausesAt]
      by_cases hdeep : limit < depth
      · rw [if_pos hdeep]
        exact ⟨rfl, hdeep⟩
      · rw [if_neg hdeep]
        rw [if_pos (h p List.mem_cons_self)]
        exact Int.not_lt.mp hdeep
  | depth, .node .any parts, h => by
      rw [clausesAt]
      by_cases hdeep : limit < depth
      · rw [if_pos hdeep]
        exact ⟨rfl, by omega⟩
      · rw [if_neg hdeep]
        exact Ends.bind (clausesOfAny_bounded (Int.not_lt.mp hdeep) h) fun _ hbottom => hbottom
  | depth, .node .all parts, h => by
      rw [clausesAt]
      by_cases hdeep : limit < depth
      · rw [if_pos hdeep]
        exact ⟨rfl, by omega⟩
      · rw [if_neg hdeep]
        have hleaves : (leaves parts).all Predicate.keyable = true :=
          List.all_eq_true.mpr fun p hp => h p (leaves_subset parts hp)
        refine Ends.bind (clausesOfAll_bounded (Int.not_lt.mp hdeep) h) fun _ hbottom => ?_
        rw [if_pos hleaves]
        exact hbottom

theorem clausesOfAny_bounded {limit : Int} : ∀ {depth : Nat} {fs : List Filter}, depth ≤ limit →
    (∀ p ∈ allPredicates fs, p.keyable = true) →
      Bounded limit (depth + reachOfAny fs) (clausesOfAny limit (depth + 1) fs)
  | depth, [], hdepth, _ => hdepth
  | depth, f :: fs, hdepth, h => by
      have hfirst : Bounded limit (depth + 1 + f.reach) (clausesAt limit (depth + 1) f) :=
        clausesAt_bounded fun p hp => h p (List.mem_append_left _ hp)
      have hrest : Bounded limit (depth + reachOfAny fs) (clausesOfAny limit (depth + 1) fs) :=
        clausesOfAny_bounded hdepth fun p hp => h p (List.mem_append_right _ hp)
      have hbottom : depth + reachOfAny (f :: fs)
          = max (depth + 1 + f.reach) (depth + reachOfAny fs) := by
        rw [reachOfAny]
        omega
      rw [hbottom]
      exact hfirst.bind fun _ => Ends.bind hrest fun _ h => h

theorem clausesOfAll_bounded {limit : Int} :
    ∀ {depth : Nat} {fs : List Filter} {acc : List Clause}, depth ≤ limit →
      (∀ p ∈ allPredicates fs, p.keyable = true) →
        Bounded limit (depth + reachOfAll fs) (clausesOfAll limit (depth + 1) fs acc)
  | depth, [], _, hdepth, _ => hdepth
  | depth, .leaf p :: fs, acc, hdepth, h =>
      have hrest : Bounded limit (depth + reachOfAll fs) (clausesOfAll limit (depth + 1) fs acc) :=
        clausesOfAll_bounded hdepth fun r hr => h r (List.mem_cons_of_mem p hr)
      hrest
  | depth, .node c parts :: fs, acc, hdepth, h => by
      have hfirst : Bounded limit (depth + 1 + (node c parts).reach)
          (clausesAt limit (depth + 1) (.node c parts)) :=
        clausesAt_bounded fun p hp => h p (List.mem_append_left _ hp)
      have hbottom : depth + reachOfAll (.node c parts :: fs)
          = max (depth + 1 + (node c parts).reach) (depth + reachOfAll fs) := by
        rw [show reachOfAll (.node c parts :: fs)
          = max ((node c parts).reach + 1) (reachOfAll fs) from rfl]
        omega
      rw [hbottom]
      exact hfirst.bind fun _ =>
        clausesOfAll_bounded hdepth fun p hp => h p (List.mem_append_right _ hp)

end

/-- The expansion of a filter is refused as too deep exactly if it descends below the bound, and
    otherwise gives clauses. -/
theorem clauses_bounded {limit : Int} (h : ∀ p ∈ f.predicates, p.keyable = true) :
    (f.clauses limit = .error (.tooDeep limit) ↔ limit < f.reach)
      ∧ (f.clauses limit ≠ .error (.tooDeep limit) → ∃ cs, f.clauses limit = .ok cs) := by
  have hbounded : Bounded limit (0 + f.reach) (f.clauses limit) := clausesAt_bounded h
  rw [Nat.zero_add] at hbounded
  cases hclauses : f.clauses limit with
  | error e =>
      rw [hclauses] at hbounded
      obtain ⟨rfl, hdeep⟩ := hbounded
      exact ⟨iff_of_true rfl hdeep, fun hne => absurd rfl hne⟩
  | ok cs =>
      rw [hclauses] at hbounded
      have hreach : f.reach ≤ limit := hbounded
      exact ⟨iff_of_false (fun h => by cases h) (Int.not_lt.mpr hreach), fun _ => ⟨cs, rfl⟩⟩

/-! ## Filters that differ in their connectives -/

mutual

/-- The filter with all its parts joined by one connective. -/
def joined (c : Connective) : Filter → Filter
  | .leaf p => .leaf p
  | .node _ parts => .node c (joinedAll c parts)
termination_by structural f => f

def joinedAll (c : Connective) : List Filter → List Filter
  | [] => []
  | f :: fs => joined c f :: joinedAll c fs
termination_by structural fs => fs

end

/-- Two filters differ in their connectives at most. -/
def SameShape (f g : Filter) : Prop := f.joined .all = g.joined .all

theorem joinedAll_eq_map (c : Connective) : joinedAll c fs = fs.map (joined c) := by
  induction fs with
  | nil => rfl
  | cons f fs ih => rw [joinedAll, ih, List.map_cons]

mutual

theorem joined_joined (c c' : Connective) : ∀ f : Filter, (f.joined c).joined c' = f.joined c'
  | .leaf _ => rfl
  | .node _ parts => congrArg (node c') (joinedAll_joinedAll c c' parts)

theorem joinedAll_joinedAll (c c' : Connective) :
    ∀ fs : List Filter, joinedAll c' (joinedAll c fs) = joinedAll c' fs
  | [] => rfl
  | f :: fs => by
      rw [joinedAll, joinedAll, joined_joined c c' f, joinedAll_joinedAll c c' fs, joinedAll]

end

mutual

theorem nesting_joined (c : Connective) : ∀ f : Filter, (f.joined c).nesting = f.nesting
  | .leaf _ => rfl
  | .node _ parts => congrArg (· + 1) (deepest_joinedAll c parts)

theorem deepest_joinedAll (c : Connective) :
    ∀ fs : List Filter, deepest (joinedAll c fs) = deepest fs
  | [] => rfl
  | f :: fs => by
      rw [joinedAll, deepest, nesting_joined c f, deepest_joinedAll c fs, deepest]

end

mutual

theorem predicates_joined (c : Connective) : ∀ f : Filter, (f.joined c).predicates = f.predicates
  | .leaf _ => rfl
  | .node _ parts => allPredicates_joinedAll c parts

theorem allPredicates_joinedAll (c : Connective) :
    ∀ fs : List Filter, allPredicates (joinedAll c fs) = allPredicates fs
  | [] => rfl
  | f :: fs => by
      rw [joinedAll, allPredicates, predicates_joined c f, allPredicates_joinedAll c fs,
        allPredicates]

end

theorem parts_joined (c : Connective) (f : Filter) :
    (f.joined c).parts = f.parts.map (joined c) := by
  cases f with
  | leaf p => rfl
  | node c' parts => exact joinedAll_eq_map c

theorem level_joined (c : Connective) (d : Nat) (f : Filter) :
    (f.joined c).level d = (f.level d).map (joined c) := by
  induction d generalizing f with
  | zero => rfl
  | succ d ih =>
      rw [level, level, parts_joined, List.flatMap_map, List.map_flatMap]
      exact congrArg (List.flatMap · f.parts) (funext ih)

theorem SameShape.nesting_eq (h : g.SameShape f) : g.nesting = f.nesting := by
  rw [← nesting_joined .all g, h, nesting_joined]

theorem SameShape.predicates_eq (h : g.SameShape f) : g.predicates = f.predicates := by
  rw [← predicates_joined .all g, h, predicates_joined]

theorem sameShape_joined (c : Connective) (f : Filter) : (f.joined c).SameShape f :=
  joined_joined c .all f

/-- Where all parts are joined by one connective, just that one joins what a composite has. -/
theorem node_mem_level_joined_iff {c c' : Connective} :
    .node c' fs ∈ (f.joined c).level d
      ↔ c' = c ∧ ∃ c₀ parts, .node c₀ parts ∈ f.level d ∧ joinedAll c parts = fs := by
  rw [level_joined, List.mem_map]
  constructor
  · rintro ⟨part, hpart, h⟩
    cases part with
    | leaf p => cases h
    | node c₀ parts =>
        obtain ⟨rfl, rfl⟩ := Filter.node.inj h
        exact ⟨rfl, c₀, parts, hpart, rfl⟩
  · rintro ⟨rfl, c₀, parts, hpart, rfl⟩
    exact ⟨_, hpart, rfl⟩

theorem joinedAll_ne_nil_iff {c : Connective} : joinedAll c fs ≠ [] ↔ fs ≠ [] := by
  rw [joinedAll_eq_map, ne_eq, List.map_eq_nil_iff]

/-- A composite with parts stands at a depth. -/
def HasNodeAt (d : Nat) (f : Filter) : Prop := ∃ c parts, parts ≠ [] ∧ .node c parts ∈ f.level d

/-- An OR with parts stands at a depth. -/
def HasAnyAt (d : Nat) (f : Filter) : Prop := ∃ parts, parts ≠ [] ∧ .node .any parts ∈ f.level d

theorem hasNodeAt_joined_iff {c : Connective} : (f.joined c).HasNodeAt d ↔ f.HasNodeAt d := by
  constructor
  · rintro ⟨c', fs, hne, h⟩
    obtain ⟨-, c₀, parts, hpart, rfl⟩ := node_mem_level_joined_iff.mp h
    exact ⟨c₀, parts, joinedAll_ne_nil_iff.mp hne, hpart⟩
  · rintro ⟨c₀, parts, hne, hpart⟩
    exact ⟨c, _, joinedAll_ne_nil_iff.mpr hne, node_mem_level_joined_iff.mpr
      ⟨rfl, c₀, parts, hpart, rfl⟩⟩

theorem hasAnyAt_joined_any_iff : (f.joined .any).HasAnyAt d ↔ f.HasNodeAt d := by
  rw [← hasNodeAt_joined_iff (c := .any)]
  constructor
  · rintro ⟨parts, h⟩
    exact ⟨.any, parts, h⟩
  · rintro ⟨c, parts, hne, h⟩
    obtain ⟨rfl, -⟩ := node_mem_level_joined_iff.mp h
    exact ⟨parts, hne, h⟩

theorem not_hasAnyAt_joined_all : ¬ (f.joined .all).HasAnyAt d := by
  rintro ⟨parts, -, h⟩
  cases (node_mem_level_joined_iff.mp h).1

theorem SameShape.hasNodeAt_iff (h : g.SameShape f) : g.HasNodeAt d ↔ f.HasNodeAt d := by
  rw [← hasNodeAt_joined_iff (c := .all), h, hasNodeAt_joined_iff]

theorem HasAnyAt.hasNodeAt (h : f.HasAnyAt d) : f.HasNodeAt d := by
  obtain ⟨parts, h⟩ := h
  exact ⟨.any, parts, h⟩

theorem HasNodeAt.lt_nesting (h : f.HasNodeAt d) : d < f.nesting := by
  obtain ⟨c, parts, -, hmem⟩ := h
  exact lt_nesting_iff.mpr ⟨c, parts, hmem⟩

/-- **The bound on the depth.** A filter, sets being able to hold the values that it asks for, is
    refused as too deep exactly if a composite stands below the bound, or an OR with parts right at
    it, and has clauses otherwise. So the connectives do not matter exactly unless the innermost
    composites stand right at the bound. -/
theorem clauses_tooDeep_iff (limit : Nat) (h : ∀ p ∈ f.predicates, p.keyable = true) :
    (f.clauses limit = .error (.tooDeep limit) ↔ limit + 1 < f.nesting ∨ f.HasAnyAt limit)
    ∧ (f.clauses limit ≠ .error (.tooDeep limit) → ∃ cs, f.clauses limit = .ok cs)
    ∧ ((∀ g : Filter, g.SameShape f → (g.clauses limit = .error (.tooDeep limit)
        ↔ f.clauses limit = .error (.tooDeep limit)))
      ↔ ¬ (f.nesting = limit + 1 ∧ f.HasNodeAt limit)) := by
  have hrefused : ∀ g : Filter, g.SameShape f → (g.clauses limit = .error (.tooDeep limit) ↔
      limit + 1 < f.nesting ∨ g.HasAnyAt limit) := by
    intro g hg
    rw [(clauses_bounded (hg.predicates_eq ▸ h)).1, Int.ofNat_lt, lt_reach_iff, hg.nesting_eq,
      HasAnyAt]
  refine ⟨hrefused f rfl, (clauses_bounded h).2, ?_⟩
  constructor
  · -- joined by ORs the filter is refused, and joined by ANDs it is not
    rintro hsame ⟨hnesting, hnode⟩
    have hany := (hrefused _ (sameShape_joined .any f)).mpr
      (.inr (hasAnyAt_joined_any_iff.mpr hnode))
    have hall := (hsame _ (sameShape_joined .all f)).mpr
      ((hsame _ (sameShape_joined .any f)).mp hany)
    rcases (hrefused _ (sameShape_joined .all f)).mp hall with hbelow | hor
    · omega
    · exact not_hasAnyAt_joined_all hor
  · intro hnot g hg
    rw [hrefused g hg, hrefused f rfl]
    -- an OR right at the bound has composites below it
    have hbelow : f.HasNodeAt limit → limit + 1 < f.nesting := by
      intro hnode
      have hlt := hnode.lt_nesting
      have hne : f.nesting ≠ limit + 1 := fun heq => hnot ⟨heq, hnode⟩
      omega
    constructor
    · rintro (h | hor)
      · exact .inl h
      · exact .inl (hbelow (hg.hasNodeAt_iff.mp hor.hasNodeAt))
    · rintro (h | hor)
      · exact .inl h
      · exact .inl (hbelow hor.hasNodeAt)

/-- One of two colours, and one size. -/
def hued (c : Connective) : Filter :=
  .node .all [.node c [.leaf (.equals "colour" (.int 1)), .leaf (.equals "colour" (.int 2))],
    .leaf (.equals "size" (.int 3))]

/-- Two composites deep, the filter has clauses under a bound of two with either connective. -/
theorem clauses_tooDeep_iff_hued :
    (∀ p ∈ (hued .any).predicates, p.keyable = true) ∧ (hued .any).nesting = 2
      ∧ ((hued .all).clauses 2 = .error (.tooDeep 2) ↔ (hued .any).clauses 2 = .error (.tooDeep 2))
      ∧ ∃ cs, (hued .any).clauses 2 = .ok cs := by
  have hkeyable : ∀ p ∈ (hued .any).predicates, p.keyable = true := by decide
  obtain ⟨-, hgives, hturn⟩ := clauses_tooDeep_iff 2 hkeyable
  have hsame := hturn.mpr fun h => absurd h.1 (by decide)
  exact ⟨hkeyable, rfl, hsame (hued .all) rfl, hgives fun h => by cases h⟩

/-- Under a bound of one it has clauses with an AND inside and is refused with an OR there. -/
theorem clauses_hued_turn :
    (hued .all).SameShape (hued .any)
      ∧ (∀ p ∈ (hued .any).predicates, p.keyable = true)
      ∧ (hued .any).clauses 1 = .error (.tooDeep 1)
      ∧ ∃ cs, (hued .all).clauses 1 = .ok cs :=
  ⟨rfl, by decide, rfl, _, rfl⟩

end Filter

end EntityQuery
