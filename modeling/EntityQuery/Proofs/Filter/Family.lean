import Mathlib.Data.Set.Sups
import EntityQuery.Proofs.Filter.Clauses
import EntityQuery.Proofs.Value.Identity

/-!
# Families — the clauses of a filter as sets

A clause is read as the set of what its predicates are told apart by, and a filter stands for a
*family* of such sets: that of a predicate is the one set of it alone, that of an OR is all that the
families of its parts hold, and that of an AND is every union of one set from each of them. This is
the disjunctive normal form as it is usually defined, and it looks at no order and no depth.

`Filter.clauses` works with lists in which repetitions are left out on the way, and puts the leaves
of an AND in front of its other parts. Still the clauses that come out are the family, each set of
it once (`Presents`), as every step on lists is one on families: behind one another is a union, and
a product is a family of unions.

* **`Filter.satisfied_iff_family`** — a filter is true if all of some set in its family is.
* **`Filter.clauses_family`** — the clauses of a filter are its family, without repetitions.
-/

namespace EntityQuery

open scoped SetFamily

/-! ## Clauses as sets -/

/-- What a predicate is told apart by. -/
structure Predicate.Identity where
  property : String
  operator : Operator
  value    : Value.Identity

def Predicate.identity (p : Predicate) : Identity :=
  ⟨p.property, p.test.operator, p.test.value.identity⟩

theorem Predicate.beq_iff_identity {p r : Predicate} (hp : p.keyable = true) :
    (p == r) = true ↔ p.identity = r.identity := by
  rw [beq_iff hp, identity, identity, Identity.mk.injEq]

namespace Clause

variable {c d : Clause} {cs ds : List Clause}

/-- A set can hold each predicate of a clause. -/
def Keyable (c : Clause) : Prop := ∀ p ∈ c, p.keyable = true

/-- What the predicates of a clause are told apart by, as a set. -/
def identities (c : Clause) : Set Predicate.Identity := {i | i ∈ c.map Predicate.identity}

theorem mem_identities {i : Predicate.Identity} :
    i ∈ c.identities ↔ ∃ p ∈ c, p.identity = i := List.mem_map

@[simp] theorem identities_nil : identities [] = ∅ :=
  Set.eq_empty_of_forall_notMem fun _ => List.not_mem_nil

@[simp] theorem identities_singleton (p : Predicate) : identities [p] = {p.identity} := by
  ext i
  simp [identities]

@[simp] theorem identities_append : identities (c ++ d) = c.identities ∪ d.identities := by
  ext i
  simp only [Set.mem_union, mem_identities, List.mem_append]
  constructor
  · rintro ⟨p, hp | hp, rfl⟩
    · exact .inl ⟨p, hp, rfl⟩
    · exact .inr ⟨p, hp, rfl⟩
  · rintro (⟨p, hp, rfl⟩ | ⟨p, hp, rfl⟩)
    · exact ⟨p, .inl hp, rfl⟩
    · exact ⟨p, .inr hp, rfl⟩

/-- Leaving out repetitions leaves the set as it is. -/
theorem identities_eraseDups (hc : Keyable c) : identities c.eraseDups = c.identities := by
  ext i
  simp only [mem_identities]
  constructor
  · rintro ⟨p, hp, rfl⟩
    exact ⟨p, mem_of_mem_eraseDupsBy hp, rfl⟩
  · rintro ⟨p, hp, rfl⟩
    obtain ⟨r, hr, rfl | hpr⟩ := exists_mem_eraseDupsBy (r := (· == ·)) hp
    · exact ⟨p, hr, rfl⟩
    · exact ⟨r, hr, ((Predicate.beq_iff_identity (hc p hp)).mp hpr).symm⟩

theorem Keyable.append (hc : Keyable c) (hd : Keyable d) : Keyable (c ++ d) := by
  intro p hp
  rcases List.mem_append.mp hp with hp | hp
  · exact hc p hp
  · exact hd p hp

theorem Keyable.join (hc : Keyable c) (hd : Keyable d) : Keyable (join c d) :=
  fun p hp => hc.append hd p (mem_of_mem_eraseDupsBy hp)

theorem identities_join (hc : Keyable c) (hd : Keyable d) :
    identities (join c d) = c.identities ∪ d.identities := by
  rw [join, identities_eraseDups (hc.append hd), identities_append]

/-- A predicate is in a clause if what it is told apart by is in its set. -/
theorem contains_iff {p : Predicate} (hp : p.keyable = true) :
    c.contains p = true ↔ p.identity ∈ c.identities := by
  rw [List.contains_eq_any_beq, List.any_eq_true, mem_identities]
  refine exists_congr fun r => and_congr_right fun _ => ?_
  rw [Predicate.beq_iff_identity hp]
  exact eq_comm

/-- Clauses hold the same predicates when their sets are equal. -/
theorem sameSet_iff (hc : Keyable c) (hd : Keyable d) :
    sameSet c d = true ↔ c.identities = d.identities := by
  have hsub : ∀ {c d : Clause}, Keyable c → (c.all d.contains = true ↔
      c.identities ⊆ d.identities) := by
    intro c d hc
    rw [List.all_eq_true]
    constructor
    · intro h i hi
      obtain ⟨p, hp, rfl⟩ := mem_identities.mp hi
      exact (contains_iff (hc p hp)).mp (h p hp)
    · intro h p hp
      exact (contains_iff (hc p hp)).mpr (h (mem_identities.mpr ⟨p, hp, rfl⟩))
  rw [sameSet, Bool.and_eq_true, hsub hc, hsub hd, ← Set.Subset.antisymm_iff]

/-! ## Lists of clauses as families -/

/-- The sets of clauses. -/
def family (cs : List Clause) : Set (Set Predicate.Identity) := {s | s ∈ cs.map identities}

theorem mem_family {s : Set Predicate.Identity} : s ∈ family cs ↔ ∃ c ∈ cs, c.identities = s :=
  List.mem_map

@[simp] theorem family_cons : family (c :: cs) = {c.identities} ∪ family cs := by
  ext s
  rw [mem_family, List.exists_mem_cons_iff, ← mem_family]
  exact or_congr_left eq_comm

@[simp] theorem family_nil : family [] = ∅ := Set.eq_empty_of_forall_notMem fun _ => List.not_mem_nil

@[simp] theorem family_append : family (cs ++ ds) = family cs ∪ family ds := by
  ext s
  simp only [family, List.map_append, List.mem_append, Set.mem_ofPred_eq, Set.mem_union]

theorem family_distinct (hcs : ∀ c ∈ cs, Keyable c) : family (distinct cs) = family cs := by
  ext s
  simp only [mem_family]
  constructor
  · rintro ⟨c, hc, rfl⟩
    exact ⟨c, mem_of_mem_eraseDupsBy hc, rfl⟩
  · rintro ⟨c, hc, rfl⟩
    obtain ⟨d, hd, rfl | hcd⟩ := exists_mem_eraseDupsBy (r := sameSet) hc
    · exact ⟨c, hd, rfl⟩
    · exact ⟨d, hd, ((sameSet_iff (hcs c hc) (hcs d (mem_of_mem_eraseDupsBy hd))).mp hcd).symm⟩

theorem family_map_join (hc : Keyable c) (hds : ∀ d ∈ ds, Keyable d) :
    family (ds.map (join c)) = {c.identities} ⊻ family ds := by
  ext s
  simp only [mem_family, List.mem_map, Set.mem_sups, Set.mem_singleton_iff, exists_eq_left,
    exists_exists_and_eq_and, Set.sup_eq_union]
  refine exists_congr fun d => and_congr_right fun hd => ?_
  rw [identities_join hc (hds d hd)]

theorem family_product (hcs : ∀ c ∈ cs, Keyable c) (hds : ∀ d ∈ ds, Keyable d) :
    family (product cs ds) = family cs ⊻ family ds := by
  induction cs with
  | nil => rw [product, List.flatMap_nil, family_nil, Set.empty_sups]
  | cons c cs ih =>
      obtain ⟨hc, hcs⟩ := List.forall_mem_cons.mp hcs
      rw [product, List.flatMap_cons, family_append, family_map_join hc hds, family_cons,
        Set.sups_union_left]
      exact congrArg _ (ih hcs)

/-- No predicate stands twice in a join. -/
theorem nodup_join (hc : Keyable c) (hd : Keyable d) :
    ((join c d).map Predicate.identity).Nodup := by
  rw [List.Nodup, List.pairwise_map]
  refine (pairwise_eraseDupsBy (c ++ d)).imp_of_mem ?_
  intro p r hp hr hrp heq
  rw [(Predicate.beq_iff_identity (hc.join hd r hr)).mpr heq.symm] at hrp
  cases hrp

/-- No set stands twice in distinct clauses. -/
theorem nodup_distinct (hcs : ∀ c ∈ cs, Keyable c) : ((distinct cs).map identities).Nodup := by
  rw [List.Nodup, List.pairwise_map]
  refine (pairwise_eraseDupsBy cs).imp_of_mem ?_
  intro c d hc hd hdc heq
  have hsame := (sameSet_iff (hcs d (mem_of_mem_eraseDupsBy hd))
    (hcs c (mem_of_mem_eraseDupsBy hc))).mpr heq.symm
  rw [hsame] at hdc
  cases hdc

end Clause

/-! ## Presenting a family -/

/-- Clauses whose sets make up a family, with no predicate twice in any of them. -/
structure Presents (F : Set (Set Predicate.Identity)) (cs : List Clause) : Prop where
  keyable : ∀ c ∈ cs, c.Keyable
  once    : ∀ c ∈ cs, (c.map Predicate.identity).Nodup
  family  : Clause.family cs = F

namespace Presents

variable {F G : Set (Set Predicate.Identity)} {cs ds : List Clause}

theorem congr (h : Presents F cs) (hFG : F = G) : Presents G cs := hFG ▸ h

theorem empty : Presents ∅ [] where
  keyable := List.forall_mem_nil _
  once := List.forall_mem_nil _
  family := Clause.family_nil

theorem single {c : Clause} (hc : c.Keyable) (hnodup : (c.map Predicate.identity).Nodup) :
    Presents {c.identities} [c] where
  keyable := List.forall_mem_singleton.mpr hc
  once := List.forall_mem_singleton.mpr hnodup
  family := by rw [Clause.family_cons, Clause.family_nil, Set.union_empty]

/-- The clause that asks for nothing. -/
theorem unit : Presents {∅} [[]] :=
  (single (List.forall_mem_nil _) List.nodup_nil).congr (by rw [Clause.identities_nil])

theorem leaf {p : Predicate} (hp : p.keyable = true) : Presents {{p.identity}} [[p]] :=
  (single (List.forall_mem_singleton.mpr hp) (List.nodup_singleton _)).congr
    (by rw [Clause.identities_singleton])

theorem distinct (h : Presents F cs) : Presents F (Clause.distinct cs) where
  keyable c hc := h.keyable c (mem_of_mem_eraseDupsBy hc)
  once c hc := h.once c (mem_of_mem_eraseDupsBy hc)
  family := (Clause.family_distinct h.keyable).trans h.family

/-- Either side. -/
theorem append (h : Presents F cs) (k : Presents G ds) : Presents (F ∪ G) (cs ++ ds) where
  keyable c hc := (List.mem_append.mp hc).elim (h.keyable c) (k.keyable c)
  once c hc := (List.mem_append.mp hc).elim (h.once c) (k.once c)
  family := by rw [Clause.family_append, h.family, k.family]

/-- One clause with each of others. -/
theorem join {c : Clause} (hc : c.Keyable) (h : Presents F cs) :
    Presents ({c.identities} ⊻ F) (cs.map (Clause.join c)) where
  keyable d hd := by
    obtain ⟨e, he, rfl⟩ := List.mem_map.mp hd
    exact hc.join (h.keyable e he)
  once d hd := by
    obtain ⟨e, he, rfl⟩ := List.mem_map.mp hd
    exact Clause.nodup_join hc (h.keyable e he)
  family := by rw [Clause.family_map_join hc h.keyable, h.family]

/-- Each clause of one side with each of the other. -/
theorem product (h : Presents F cs) (k : Presents G ds) :
    Presents (F ⊻ G) (Clause.product cs ds) where
  keyable d hd := by
    obtain ⟨c, hc, hd⟩ := List.mem_flatMap.mp hd
    exact (k.join (h.keyable c hc)).keyable d hd
  once d hd := by
    obtain ⟨c, hc, hd⟩ := List.mem_flatMap.mp hd
    exact (k.join (h.keyable c hc)).once d hd
  family := by rw [Clause.family_product h.keyable k.keyable, h.family, k.family]

end Presents

/-! ## The family of a filter -/

namespace Filter

/-- Unions with the empty set are nothing new. -/
@[simp] theorem sups_empty_set (F : Set (Set Predicate.Identity)) : F ⊻ {∅} = F := by
  rw [Set.sups_singleton]
  simp

mutual

/-- The disjunctive normal form of a filter as a family of sets of predicates. -/
def family : Filter → Set (Set Predicate.Identity)
  | .leaf p => {{p.identity}}
  | .node .any parts => familyOfAny parts
  | .node .all parts => familyOfAll parts
termination_by structural f => f

/-- What the families of the parts hold. -/
def familyOfAny : List Filter → Set (Set Predicate.Identity)
  | [] => ∅
  | f :: fs => family f ∪ familyOfAny fs
termination_by structural fs => fs

/-- All unions of one set from the family of each part. -/
def familyOfAll : List Filter → Set (Set Predicate.Identity)
  | [] => {∅}
  | f :: fs => family f ⊻ familyOfAll fs
termination_by structural fs => fs

end

/-- The unions of one set from the family of each composite part. -/
def familyOfNodes : List Filter → Set (Set Predicate.Identity)
  | [] => {∅}
  | .leaf _ :: fs => familyOfNodes fs
  | f :: fs => family f ⊻ familyOfNodes fs

/-- The leaves of an AND are in every set, whether they come first or in their places. -/
theorem familyOfAll_eq (parts : List Filter) :
    familyOfAll parts = {(leaves parts).identities} ⊻ familyOfNodes parts := by
  induction parts with
  | nil =>
      show {∅} = {Clause.identities []} ⊻ {∅}
      rw [Clause.identities_nil, sups_empty_set]
  | cons f fs ih =>
      cases f with
      | leaf p =>
          have hleaves : Clause.identities (leaves (.leaf p :: fs))
              = {p.identity} ∪ (leaves fs).identities := by
            show Clause.identities ([p] ++ leaves fs) = _
            rw [Clause.identities_append, Clause.identities_singleton]
          rw [familyOfAll, family, ih, ← Set.sups_assoc, Set.singleton_sups_singleton, hleaves]
          rfl
      | node c fs' =>
          rw [familyOfAll, ih, Set.sups_left_comm]
          rfl

mutual

theorem clausesAt_presents {limit : Int} : ∀ {depth : Nat} {f : Filter} {cs : List Clause},
    clausesAt limit depth f = .ok cs → Presents f.family cs
  | depth, .leaf p, cs, h => by
      rw [clausesAt] at h
      split at h
      · cases h
      · split at h
        · rename_i hp
          obtain rfl := Except.ok.inj h
          exact Presents.leaf hp
        · cases h
  | depth, .node .any parts, cs, h => by
      rw [clausesAt] at h
      split at h
      · cases h
      · obtain ⟨ds, hds, h⟩ := bind_eq_ok.mp h
        obtain rfl := Except.ok.inj h
        exact (clausesOfAny_presents hds).distinct
  | depth, .node .all parts, cs, h => by
      rw [clausesAt] at h
      split at h
      · cases h
      · obtain ⟨rest, hrest, h⟩ := bind_eq_ok.mp h
        split at h
        · rename_i hleaves
          obtain rfl := Except.ok.inj h
          have hnodes := clausesOfAll_presents .unit hrest
          refine (hnodes.join (List.all_eq_true.mp hleaves)).distinct.congr ?_
          rw [Set.sups_comm {∅}, sups_empty_set]
          exact (familyOfAll_eq parts).symm
        · cases h

theorem clausesOfAny_presents {limit : Int} :
    ∀ {depth : Nat} {fs : List Filter} {cs : List Clause},
      clausesOfAny limit depth fs = .ok cs → Presents (familyOfAny fs) cs
  | depth, [], cs, h => by
      obtain rfl := Except.ok.inj h
      exact Presents.empty
  | depth, f :: fs, cs, h => by
      obtain ⟨ds, hds, h⟩ := bind_eq_ok.mp h
      obtain ⟨rest, hrest, h⟩ := bind_eq_ok.mp h
      obtain rfl := Except.ok.inj h
      exact (clausesAt_presents hds).append (clausesOfAny_presents hrest)

theorem clausesOfAll_presents {limit : Int} :
    ∀ {depth : Nat} {fs : List Filter} {acc cs : List Clause} {F : Set (Set Predicate.Identity)},
      Presents F acc → clausesOfAll limit depth fs acc = .ok cs →
        Presents (F ⊻ familyOfNodes fs) cs
  | depth, [], acc, cs, F, hacc, h => by
      obtain rfl := Except.ok.inj h
      exact hacc.congr (sups_empty_set F).symm
  | depth, .leaf q :: fs, acc, cs, F, hacc, h => by
      have hrest : clausesOfAll limit depth fs acc = .ok cs := h
      show Presents (F ⊻ familyOfNodes fs) cs
      exact clausesOfAll_presents hacc hrest
  | depth, .node n parts :: fs, acc, cs, F, hacc, h => by
      obtain ⟨ds, hds, h⟩ := bind_eq_ok.mp h
      refine (clausesOfAll_presents (hacc.product (clausesAt_presents hds)) h).congr ?_
      exact Set.sups_assoc _ _ _

end

/-- No set stands twice among the clauses of a filter. -/
theorem nodup_clausesAt {limit : Int} {depth : Nat} {f : Filter} {cs : List Clause}
    (h : clausesAt limit depth f = .ok cs) : (cs.map Clause.identities).Nodup := by
  cases f with
  | leaf p =>
      rw [clausesAt] at h
      split at h
      · cases h
      · split at h
        · obtain rfl := Except.ok.inj h
          exact List.nodup_singleton _
        · cases h
  | node c parts =>
      cases c with
      | any =>
          rw [clausesAt] at h
          split at h
          · cases h
          · obtain ⟨ds, hds, h⟩ := bind_eq_ok.mp h
            obtain rfl := Except.ok.inj h
            exact Clause.nodup_distinct (clausesOfAny_presents hds).keyable
      | all =>
          rw [clausesAt] at h
          split at h
          · cases h
          · obtain ⟨rest, hrest, h⟩ := bind_eq_ok.mp h
            split at h
            · rename_i hleaves
              obtain rfl := Except.ok.inj h
              have hnodes := clausesOfAll_presents .unit hrest
              exact Clause.nodup_distinct (hnodes.join (List.all_eq_true.mp hleaves)).keyable
            · cases h

/-! ## Truth -/

variable (truth : Predicate.Identity → Bool)

mutual

/-- **Truth.** A filter is true if everything in some set of its family is. -/
theorem satisfied_iff_family : ∀ f : Filter,
    f.satisfied (fun p => truth p.identity) = true ↔ ∃ s ∈ f.family, ∀ i ∈ s, truth i = true
  | .leaf p => by simp [satisfied, family]
  | .node .any parts => by
      rw [satisfied, family]
      exact anySatisfied_iff_family parts
  | .node .all parts => by
      rw [satisfied, family]
      exact allSatisfied_iff_family parts

theorem anySatisfied_iff_family : ∀ fs : List Filter,
    anySatisfied (fun p => truth p.identity) fs = true
      ↔ ∃ s ∈ familyOfAny fs, ∀ i ∈ s, truth i = true
  | [] => by simp [anySatisfied, familyOfAny]
  | f :: fs => by
      rw [anySatisfied, familyOfAny, Bool.or_eq_true, satisfied_iff_family f,
        anySatisfied_iff_family fs]
      constructor
      · rintro (⟨s, hs, htrue⟩ | ⟨s, hs, htrue⟩)
        · exact ⟨s, .inl hs, htrue⟩
        · exact ⟨s, .inr hs, htrue⟩
      · rintro ⟨s, hs | hs, htrue⟩
        · exact .inl ⟨s, hs, htrue⟩
        · exact .inr ⟨s, hs, htrue⟩

theorem allSatisfied_iff_family : ∀ fs : List Filter,
    allSatisfied (fun p => truth p.identity) fs = true
      ↔ ∃ s ∈ familyOfAll fs, ∀ i ∈ s, truth i = true
  | [] => by simp [allSatisfied, familyOfAll]
  | f :: fs => by
      rw [allSatisfied, familyOfAll, Bool.and_eq_true, satisfied_iff_family f,
        allSatisfied_iff_family fs]
      constructor
      · rintro ⟨⟨s, hs, hstrue⟩, t, ht, httrue⟩
        refine ⟨s ⊔ t, Set.sup_mem_sups hs ht, ?_⟩
        rintro i (hi | hi)
        · exact hstrue i hi
        · exact httrue i hi
      · rintro ⟨_, hu, htrue⟩
        obtain ⟨s, hs, t, ht, rfl⟩ := Set.mem_sups.mp hu
        exact ⟨⟨s, hs, fun i hi => htrue i (.inl hi)⟩, t, ht, fun i hi => htrue i (.inr hi)⟩

end

/-- **Clauses are the family.** Read as sets, the clauses of a filter are its disjunctive normal
    form, each set once, and no predicate stands twice in a clause. So whatever predicates are true,
    the filter is true if and only if all predicates of some clause are. -/
theorem clauses_family {limit : Int} {f : Filter} {cs : List Clause}
    (h : f.clauses limit = .ok cs) :
    (∀ s, s ∈ cs.map Clause.identities ↔ s ∈ f.family)
      ∧ (cs.map Clause.identities).Nodup
      ∧ (∀ c ∈ cs, (c.map Predicate.identity).Nodup)
      ∧ ∀ truth : Predicate.Identity → Bool, f.satisfied (fun p => truth p.identity) = true ↔
          ∃ c ∈ cs, ∀ p ∈ c, truth p.identity = true := by
  have hpresents : Presents f.family cs := clausesAt_presents h
  refine ⟨fun s => ?_, nodup_clausesAt h, hpresents.once, fun truth => ?_⟩
  · rw [← hpresents.family]
    exact Iff.rfl
  · rw [satisfied_iff_family, ← hpresents.family]
    constructor
    · rintro ⟨s, hs, htrue⟩
      obtain ⟨c, hc, rfl⟩ := Clause.mem_family.mp hs
      exact ⟨c, hc, fun p hp => htrue _ (Clause.mem_identities.mpr ⟨p, hp, rfl⟩)⟩
    · rintro ⟨c, hc, htrue⟩
      refine ⟨c.identities, Clause.mem_family.mpr ⟨c, hc, rfl⟩, ?_⟩
      rintro i hi
      obtain ⟨p, hp, rfl⟩ := Clause.mem_identities.mp hi
      exact htrue p hp

/-- An AND of a leaf with two ORs, in which the leaf stands again. -/
def overlapping : Filter :=
  .node .all [.leaf (.equals "a" (.int 1)),
    .node .any [.leaf (.equals "b" (.int 2)), .leaf (.equals "a" (.int 1))],
    .node .any [.leaf (.equals "a" (.int 1)), .leaf (.equals "b" (.int 2))]]

/-- Of its four products two differ as sets: the leaf alone, and the leaf with the other test. -/
theorem clauses_family_overlapping :
    overlapping.clauses 2
        = .ok [[.equals "a" (.int 1), .equals "b" (.int 2)], [.equals "a" (.int 1)]]
      ∧ ∀ s, s ∈ [Clause.identities [.equals "a" (.int 1), .equals "b" (.int 2)],
          Clause.identities [.equals "a" (.int 1)]] ↔ s ∈ overlapping.family := by
  have hclauses : overlapping.clauses 2
      = .ok [[.equals "a" (.int 1), .equals "b" (.int 2)], [.equals "a" (.int 1)]] := rfl
  exact ⟨hclauses, (clauses_family hclauses).1⟩

end Filter

end EntityQuery
