import EntityQuery.Proofs.Key.Order

/-!
# Ancestors — the keys below a key are an interval

The path of a key begins the paths of all keys below it, and in the line of keys a path stands right
before all that it begins: what parts from it at some step is before or after all of them. So the
keys below a key in its namespace have no other key among them.

* **`Key.isPrefix_of_between`** — the same of paths.
* **`Key.descendants_interval`** — what lies between a key and one below it is below it too.
-/

namespace EntityQuery

namespace Key

variable {a b : Key} {p q r : List Step}

/-! ## Paths -/

/-- A path is before what it properly begins. -/
theorem pathCmp_of_isPrefix (h : p <+: q) (hne : p ≠ q) : pathCmp p q = .lt := by
  induction p generalizing q with
  | nil =>
      cases q with
      | nil => exact absurd rfl hne
      | cons t q => rfl
  | cons s p ih =>
      cases q with
      | nil => exact absurd (List.prefix_nil.mp h) (List.cons_ne_nil s p)
      | cons t q =>
          obtain ⟨rfl, htail⟩ := List.cons_prefix_cons.mp h
          have hself : stepCmp s s = .eq := Std.ReflCmp.compare_self
          rw [pathCmp, hself, Ordering.eq_then]
          exact ih htail fun heq => hne (congrArg (s :: ·) heq)

/-- What lies between a path and one that it begins is begun by it. -/
theorem isPrefix_of_between (h : p <+: r) (hpq : pathCmp p q ≠ .gt) (hqr : pathCmp q r ≠ .gt) :
    p <+: q := by
  induction p generalizing q r with
  | nil => exact List.nil_prefix
  | cons s p ih =>
      cases r with
      | nil => exact absurd (List.prefix_nil.mp h) (List.cons_ne_nil s p)
      | cons s' r =>
          obtain ⟨rfl, htail⟩ := List.cons_prefix_cons.mp h
          cases q with
          | nil => exact absurd rfl hpq
          | cons t q =>
              have hswap : stepCmp t s = (stepCmp s t).swap := Std.OrientedCmp.eq_swap
              rw [pathCmp] at hpq hqr
              rw [hswap] at hqr
              cases hst : stepCmp s t with
              | lt =>
                  -- the path parts upwards, and so from all that it begins
                  rw [hst] at hqr
                  exact absurd rfl hqr
              | gt =>
                  rw [hst] at hpq
                  exact absurd rfl hpq
              | eq =>
                  rw [hst] at hpq hqr
                  obtain rfl : s = t := Std.LawfulEqCmp.eq_of_compare hst
                  exact List.cons_prefix_cons.mpr ⟨rfl, ih htail hpq hqr⟩

/-! ## Keys -/

@[simp] theorem isAncestorOf_iff :
    a.isAncestorOf b = true ↔ a.space = b.space ∧ a.path <+: b.path := by
  rw [isAncestorOf, Bool.and_eq_true, beq_iff_eq, List.isPrefixOf_iff_prefix]

/-- A key that another one is not before is not after it. -/
theorem pathOrder_ne_gt_of_not_lt (h : lt b a = false) : pathOrder a b ≠ .gt := by
  have hswap : pathOrder b a = (pathOrder a b).swap := Std.OrientedCmp.eq_swap
  intro hgt
  rw [hgt] at hswap
  rw [lt_iff.mpr hswap] at h
  cases h

/-- In one namespace keys are in line by their paths. -/
theorem pathOrder_of_space (h : a.space = b.space) : pathOrder a b = pathCmp a.path b.path := by
  have hspace : compare a.space b.space = .eq := Std.LawfulEqCmp.compare_eq_iff_eq.mpr h
  rw [pathOrder, hspace, Ordering.eq_then]

theorem compare_space_ne_gt (h : pathOrder a b ≠ .gt) : compare a.space b.space ≠ .gt := by
  intro hgt
  rw [pathOrder, hgt] at h
  exact h rfl

/-- What lies between two keys of a namespace is in it too. -/
theorem space_eq_of_between {x : Key} (h : a.space = b.space) (hax : pathOrder a x ≠ .gt)
    (hxb : pathOrder x b ≠ .gt) : a.space = x.space := by
  have hle := compare_space_ne_gt hax
  have hge := compare_space_ne_gt hxb
  have hswap : compare x.space a.space = (compare a.space x.space).swap := Std.OrientedCmp.eq_swap
  rw [← h, hswap] at hge
  cases ho : compare a.space x.space with
  | eq => exact Std.LawfulEqCmp.eq_of_compare ho
  | lt =>
      rw [ho] at hge
      exact absurd rfl hge
  | gt => exact absurd ho hle

/-- **The keys below a key** are an interval. A key that is neither before a key nor after one below
    it is below it itself, and all keys below it that have another path are after it. -/
theorem descendants_interval (h : a.isAncestorOf b = true) :
    (∀ x, lt x a = false → lt b x = false → a.isAncestorOf x = true)
      ∧ (a.path ≠ b.path → lt a b = true) := by
  obtain ⟨hspace, hpath⟩ := isAncestorOf_iff.mp h
  constructor
  · intro x hxa hbx
    have hax := pathOrder_ne_gt_of_not_lt hxa
    have hxb := pathOrder_ne_gt_of_not_lt hbx
    have hspace' : a.space = x.space := space_eq_of_between hspace hax hxb
    rw [pathOrder_of_space hspace'] at hax
    rw [pathOrder_of_space (hspace'.symm.trans hspace)] at hxb
    exact isAncestorOf_iff.mpr ⟨hspace', isPrefix_of_between hpath hax hxb⟩
  · intro hne
    rw [lt_iff, pathOrder_of_space hspace]
    exact pathCmp_of_isPrefix hpath hne

/-- A project of a team, and a key below it. -/
def project : Key := .child (.root "eu" "Team" (.name "core")) "eu" "Project" (.number 7)

/-- Between the project and its last task by name lies each task by number. -/
theorem descendants_interval_project :
    project.isAncestorOf (.child project "eu" "Task" (.name "z")) = true
      ∧ lt (.child project "eu" "Task" (.number 3)) project = false
      ∧ lt (.child project "eu" "Task" (.name "z")) (.child project "eu" "Task" (.number 3)) = false
      ∧ project.isAncestorOf (.child project "eu" "Task" (.number 3)) = true
      ∧ project.path ≠ (child project "eu" "Task" (.name "z")).path
      ∧ lt project (.child project "eu" "Task" (.name "z")) = true := by
  have hancestor : project.isAncestorOf (.child project "eu" "Task" (.name "z")) = true := by decide
  have hbefore : lt (.child project "eu" "Task" (.number 3)) project = false := by decide
  have hafter : lt (.child project "eu" "Task" (.name "z"))
      (.child project "eu" "Task" (.number 3)) = false := by decide
  have hpath : project.path ≠ (child project "eu" "Task" (.name "z")).path := by decide
  obtain ⟨hbetween, hless⟩ := descendants_interval hancestor
  exact ⟨hancestor, hbefore, hafter, hbetween _ hbefore hafter, hpath, hless hpath⟩

end Key

end EntityQuery
