import EntityQuery.Proofs.Index.Reduction
import EntityQuery.Query.Legality

/-!
# Legality — what the rules say of a legal query

The rules are checked one after the other, the predicates one by one with the inequality property
met so far handed on. Here what has been checked is said of the query as a whole: each predicate is
admitted by itself, and the inequality property is the property of every inequality there is.

* **`Query.checkPredicate_eq_ok`** — one predicate: what admits it, and the property handed on.
* **`Query.checkPredicates_eq_ok`** — all of them, in whatever order they stand.
* **`Query.legal_of_check`** — a legal query is a conjunction of admitted predicates, whose
  inequalities agree with each other and with the first sort.
-/

namespace EntityQuery

/-! ## Predicates -/

/-- A test that the backend has: neither an exclusion nor membership in several values. -/
structure Predicate.IsNative (p : Predicate) : Prop where
  compared : p.isExclusion = false
  settled  : ∃ choices, p.choices? = .ok choices ∧ ∀ values ∈ choices, values.length ≤ 1

/-- The values that a test is written with, those of a list one by one. -/
def Predicate.asked (p : Predicate) : List Value :=
  match p.test with
  | .oneOf values => values
  | t => [t.value]

def Value.isKey : Value → Bool
  | .key _ => true
  | _ => false

namespace Query

variable {q : Query} {keyProperty : String} {p : Predicate} {ps : List Predicate}
  {met inequality : Option String}

/-- What a query asks of each of its predicates: it is native, an equality is on no property that is
    projected or grouped, and a test on the key is written with keys. -/
structure Admits (q : Query) (keyProperty : String) (p : Predicate) : Prop where
  native : p.IsNative
  free   : NormalForm.isEquality p = true → p.property ∉ q.projection ∧ p.property ∉ q.groupBy
  keys   : p.property = keyProperty → p.isPresence = false → ∀ v ∈ p.asked, v.isKey = true

/-- Membership always offers choices, so an equality is a comparison or a test that offers some. -/
theorem isEquality_iff {choices : Option (List Value)} (h : p.choices? = .ok choices) :
    (p.isEquality || choices.isSome) = true ↔ NormalForm.isEquality p = true := by
  obtain ⟨property, test⟩ := p
  cases test with
  | relation r v =>
      obtain rfl := Except.ok.inj h
      cases r <;> exact Iff.rfl
  | oneOf values =>
      obtain ⟨kept, -, rfl⟩ := (NormalForm.choices?_oneOf rfl).mp h
      exact iff_of_true rfl rfl
  | present v | inside v =>
      obtain rfl := Except.ok.inj h
      exact Iff.rfl

theorem isEquality_eq_false (hp : p.isInequality = true) : NormalForm.isEquality p = false := by
  obtain ⟨property, test⟩ := p
  cases test with
  | relation r v => cases r <;> first | rfl | cases hp
  | oneOf values => cases hp
  | present v | inside v => rfl

/-- The rule on tests on the key, which is looked at last, with the property that is handed on. -/
theorem checkKeys_eq_ok {f : Fault} {found : Option String} :
    (if (decide (p.property = keyProperty) && !p.isPresence && !p.asked.all Value.isKey) = true
      then (throw f : Except Fault Unit) >>= fun _ => pure found else pure found)
        = Except.ok inequality ↔
    (p.property = keyProperty → p.isPresence = false → ∀ v ∈ p.asked, v.isKey = true)
      ∧ ∀ name, inequality = some name ↔ found = some name := by
  rw [guard_eq_ok (k := fun _ => pure found), ← Option.ext_iff, eq_comm (a := inequality)]
  refine and_congr ?_ (Except.ok.injEq found inequality ▸ Iff.rfl)
  simp

/-- **A predicate** is passed if the query admits it and there is one inequality property with it,
    at most, which is handed on. -/
theorem checkPredicate_eq_ok : q.checkPredicate keyProperty met p = .ok inequality ↔
    q.Admits keyProperty p ∧
      ∀ name, inequality = some name ↔
        met = some name ∨ p.isInequality = true ∧ p.property = name := by
  have hfew : ∀ choices : Option (List Value), ¬ (choices.map List.length).any (1 < ·) = true
      ↔ ∀ values ∈ choices, values.length ≤ 1 := by
    rintro (_ | values) <;> simp
  have hassemble : (¬ p.isExclusion = true ∧ ∃ choices, p.choices? = .ok choices
        ∧ (∀ values ∈ choices, values.length ≤ 1)
        ∧ (NormalForm.isEquality p = true → p.property ∉ q.projection ∧ p.property ∉ q.groupBy)
        ∧ (p.property = keyProperty → p.isPresence = false → ∀ v ∈ p.asked, v.isKey = true)
        ∧ ∀ name, inequality = some name ↔
            met = some name ∨ p.isInequality = true ∧ p.property = name) ↔
      q.Admits keyProperty p ∧ ∀ name, inequality = some name ↔
        met = some name ∨ p.isInequality = true ∧ p.property = name := by
    constructor
    · rintro ⟨hnot, choices, hchoices, hsettled, hfree, hkeys, hnames⟩
      exact ⟨⟨⟨by simpa using hnot, choices, hchoices, hsettled⟩, hfree, hkeys⟩, hnames⟩
    · rintro ⟨⟨⟨hnot, choices, hchoices, hsettled⟩, hfree, hkeys⟩, hnames⟩
      exact ⟨by simpa using hnot, choices, hchoices, hsettled, hfree, hkeys, hnames⟩
  unfold checkPredicate
  rw [← hassemble, guard_eq_ok]
  dsimp only
  rw [bind_eq_ok]
  refine and_congr_right' (exists_congr fun choices => and_congr_right fun hchoices => ?_)
  rw [guard_eq_ok, hfew]
  refine and_congr_right' ?_
  by_cases hp : p.isInequality = true
  · -- an inequality is no equality, so only the property that was met matters
    rw [if_pos hp, isEquality_eq_false hp]
    simp only [hp, true_and, Bool.false_eq_true, false_implies]
    cases met with
    | none =>
        refine checkKeys_eq_ok.trans ?_
        simp
    | some other =>
        dsimp only
        by_cases hother : other = p.property
        · rw [if_pos hother]
          refine checkKeys_eq_ok.trans ?_
          simp [hother]
        · -- a second property: a fault, and no single name for both
          rw [if_neg hother]
          refine iff_of_false (fun h => by cases h) ?_
          rintro ⟨-, hnames⟩
          have hfirst := (hnames other).mpr (.inl rfl)
          rw [(hnames p.property).mpr (.inr rfl)] at hfirst
          exact hother (Option.some.inj hfirst).symm
  · rw [if_neg hp, ← isEquality_iff hchoices]
    simp only [hp, Bool.false_eq_true, false_and, or_false]
    by_cases heq : (p.isEquality || choices.isSome) = true
    · rw [if_pos heq]
      simp only [heq, true_implies]
      refine (guard_eq_ok.trans (and_congr_right' (guard_eq_ok.trans
        (and_congr_right' checkKeys_eq_ok)))).trans ?_
      simp [and_assoc]
    · rw [if_neg heq]
      refine checkKeys_eq_ok.trans ?_
      simp [heq]

/-- **Predicates** are passed if the query admits each of them and the inequalities among them are
    on one property at most, whatever the order in which they stand. -/
theorem checkPredicates_eq_ok : q.checkPredicates keyProperty met ps = .ok inequality ↔
    (∀ p ∈ ps, q.Admits keyProperty p) ∧
      ∀ name, inequality = some name ↔
        met = some name ∨ ∃ p ∈ ps, p.isInequality = true ∧ p.property = name := by
  induction ps generalizing met with
  | nil =>
      simp only [checkPredicates, Except.ok.injEq, List.not_mem_nil, false_and, exists_false,
        or_false, false_implies, implies_true, true_and]
      rw [eq_comm, Option.ext_iff]
  | cons p ps ih =>
      rw [checkPredicates, bind_eq_ok]
      simp only [ih, checkPredicate_eq_ok]
      rw [List.forall_mem_cons]
      simp only [List.mem_cons, or_and_right, exists_or, exists_eq_left]
      constructor
      · rintro ⟨next, ⟨hp, hnext⟩, hps, hnames⟩
        refine ⟨⟨hp, hps⟩, fun name => ?_⟩
        rw [hnames, hnext, or_assoc]
      · rintro ⟨⟨hp, hps⟩, hnames⟩
        by_cases hbears : p.isInequality = true
        · -- what was met before is the property of `p` already, if anything was met
          have hfound := (hnames p.property).mpr (.inr (.inl ⟨hbears, rfl⟩))
          have hmet : ∀ name, met = some name → name = p.property := fun name hname =>
            Option.some.inj (((hnames name).mpr (.inl hname)).symm.trans hfound)
          refine ⟨some p.property, ⟨hp, fun name => ?_⟩, hps, fun name => ?_⟩
          · rw [Option.some.injEq]
            exact ⟨fun h => .inr ⟨hbears, h⟩,
              fun h => h.elim (fun h => (hmet name h).symm) And.right⟩
          · rw [hnames, Option.some.injEq, ← or_assoc]
            refine or_congr_left ?_
            exact ⟨fun h => h.elim (fun h => (hmet name h).symm) And.right,
              fun h => .inr ⟨hbears, h⟩⟩
        · exact ⟨met, ⟨hp, fun name => by simp [hbears]⟩, hps, fun name => by
            rw [hnames]
            simp [hbears]⟩

/-! ## Queries -/

theorem check_eq_ok : q.check keyProperty = .ok () ↔
    q.checkProjection = .ok () ∧ q.checkGrouping = .ok ()
      ∧ ∃ ps inequality, q.predicates = .ok ps ∧ q.checkKindless keyProperty ps = .ok ()
        ∧ q.checkPredicates keyProperty none ps = .ok inequality
        ∧ ¬ (ps.any isContainment && (inequality.isSome || q.hasAncestor)) = true
        ∧ ∀ property ∈ inequality, q.checkInequality property = .ok () := by
  unfold check
  simp only [bind_eq_ok, mapError_eq_ok, guard_eq_ok]
  constructor
  · rintro ⟨_, hprojection, _, hgrouping, ps, hps, _, hkindless, inequality, hpredicates, hregion,
      h⟩
    refine ⟨hprojection, hgrouping, ps, inequality, hps, hkindless, hpredicates, hregion, ?_⟩
    rintro property ⟨⟩
    exact mapError_eq_ok.mp h
  · rintro ⟨hprojection, hgrouping, ps, inequality, hps, hkindless, hpredicates, hregion, h⟩
    refine ⟨(), hprojection, (), hgrouping, ps, hps, (), hkindless, inequality, hpredicates,
      hregion, ?_⟩
    cases inequality with
    | none => rfl
    | some property => exact mapError_eq_ok.mpr (h property rfl)

/-- What is said of the predicates of a legal query: each is admitted, and all inequalities are on
    one property, which is sorted by first if anything is. -/
structure Legal (q : Query) (keyProperty : String) (ps : List Predicate) : Prop where
  admits : ∀ p ∈ ps, q.Admits keyProperty p
  one    : ∀ p ∈ ps, ∀ r ∈ ps, p.isInequality = true → r.isInequality = true →
    p.property = r.property
  first  : ∀ p ∈ ps, p.isInequality = true → ∀ s ∈ q.sorts.head?, s.property = p.property

/-- **Legal queries** are conjunctions, and their predicates agree with each other and with the
    sorts. -/
theorem legal_of_check (h : q.check keyProperty = .ok ()) :
    ∃ ps, q.predicates = .ok ps ∧ q.Legal keyProperty ps := by
  obtain ⟨-, -, ps, inequality, hps, -, hpredicates, -, hinequality⟩ := check_eq_ok.mp h
  obtain ⟨hadmits, hnames⟩ := checkPredicates_eq_ok.mp hpredicates
  have hbears : ∀ p ∈ ps, p.isInequality = true → inequality = some p.property :=
    fun p hp hbears => (hnames p.property).mpr (.inr ⟨p, hp, hbears, rfl⟩)
  refine ⟨ps, hps, hadmits, ?_, ?_⟩
  · intro p hp r hr hpBears hrBears
    exact Option.some.inj ((hbears p hp hpBears).symm.trans (hbears r hr hrBears))
  · intro p hp hpBears s hs
    have hfirst := hinequality _ (hbears p hp hpBears)
    unfold checkInequality at hfirst
    obtain ⟨rest, hsorts⟩ := List.head?_eq_some_iff.mp hs
    rw [hsorts] at hfirst
    split at hfirst
    · cases hfirst
    · dsimp only at hfirst
      split at hfirst
      · cases hfirst
      · rename_i hne
        exact Decidable.not_not.mp hne

end Query

end EntityQuery
