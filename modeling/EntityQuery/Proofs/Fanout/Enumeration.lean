import Mathlib.Data.List.GetD
import EntityQuery.Proofs.Fanout.Meaning

/-!
# Enumeration — each choice of pieces once

A plan has one concrete clause for each way to choose a piece of each of its components. To tell
choices apart even where a component has a piece twice, a choice is named by the places of its
pieces. The groups string together, one after the other, the concrete clauses of all choices of
places in lexicographic order, the first component varying slowest. Where the components are cut
into serial and parallel ones does not change this list. It decides where the list is cut into
groups: each has as many clauses as there are choices in the parallel components, and there are as
many groups as there are choices in the serial ones. A component without pieces leaves nothing to
choose, and then there are no concrete clauses at all.

* **`choices_eq_map_places`** — choosing elements is choosing their places.
* **`pairwise_lex_choices`** — choices are made in lexicographic order.
* **`Plan.groups_enumerate`** — what a plan lists, and how it is cut into groups.
-/

namespace EntityQuery

/-! ## Choices -/

section choices

variable {α : Type}

/-- All choices of a place in each list. -/
def placeChoices (lists : List (List α)) : List (List Nat) :=
  choices (lists.map fun xs => List.range xs.length)

@[simp] theorem mem_placeChoices_iff {lists : List (List α)} {places : List Nat} :
    places ∈ placeChoices lists ↔ List.Forall₂ (fun xs i => i < xs.length) lists places := by
  rw [placeChoices, mem_choices_iff, List.forall₂_map_left_iff]
  simp only [List.mem_range]

@[simp] theorem map_getD_range (d : α) (xs : List α) :
    (List.range xs.length).map (xs.getD · d) = xs := by
  refine List.ext_getElem (by simp) fun i hi hi' => ?_
  rw [List.getElem_map, List.getElem_range, List.getD_eq_getElem _ _ hi']

/-- Choosing elements is choosing places and looking up what stands there. -/
theorem choices_eq_map_places (d : α) (lists : List (List α)) :
    choices lists
      = (placeChoices lists).map (List.zipWith (fun xs i => xs.getD i d) lists) := by
  induction lists with
  | nil => rfl
  | cons xs lists ih =>
      show (xs.flatMap fun x => (choices lists).map (x :: ·))
        = ((List.range xs.length).flatMap fun i => (placeChoices lists).map (i :: ·)).map
            (List.zipWith (fun xs i => xs.getD i d) (xs :: lists))
      rw [List.map_flatMap, ih]
      nth_rewrite 1 [← map_getD_range d xs]
      rw [List.flatMap_map]
      simp only [List.map_map]
      rfl

/-- Choices from lists in order are in lexicographic order. -/
theorem pairwise_lex_choices {R : α → α → Prop} {lists : List (List α)}
    (h : ∀ xs ∈ lists, xs.Pairwise R) : (choices lists).Pairwise (List.Lex R) := by
  induction lists with
  | nil => exact List.pairwise_singleton _ _
  | cons xs lists ih =>
      obtain ⟨hxs, hlists⟩ := List.forall_mem_cons.mp h
      rw [choices, List.pairwise_flatMap]
      constructor
      · -- with the same first element the others decide
        intro x _
        rw [List.pairwise_map]
        exact (ih hlists).imp List.Lex.cons
      · refine hxs.imp fun {x y} hxy chosen hchosen chosen' hchosen' => ?_
        obtain ⟨rest, -, rfl⟩ := List.mem_map.mp hchosen
        obtain ⟨rest', -, rfl⟩ := List.mem_map.mp hchosen'
        exact List.Lex.rel hxy

end choices

/-! ## Plans -/

namespace Plan

/-- The concrete clause of the pieces in these places of the components. -/
def clauseAt (p : Plan) (places : List Nat) : Clause :=
  p.filters ++ (p.components.zipWith (fun c i => c.pieces.getD i []) places).flatten

/-- Choices of a place in the pieces of each component: all of them, in lexicographic order, and so
    none of them twice. -/
structure ListsPlaces (p : Plan) (choices : List (List Nat)) : Prop where
  ordered  : choices.Pairwise (List.Lex (· < ·))
  complete : ∀ places, places ∈ choices ↔
    List.Forall₂ (fun (c : Component) i => i < c.pieces.length) p.components places

theorem listsPlaces (p : Plan) :
    p.ListsPlaces (placeChoices (p.components.map Component.pieces)) where
  ordered := by
    refine pairwise_lex_choices fun places hplaces => ?_
    obtain ⟨pieces, -, rfl⟩ := List.mem_map.mp hplaces
    exact List.pairwise_lt_range
  complete := by
    intro places
    rw [mem_placeChoices_iff, List.forall₂_map_left_iff]

theorem flatten_groups_eq_map_clauseAt (p : Plan) :
    p.groups.flatten
      = (placeChoices (p.components.map Component.pieces)).map p.clauseAt := by
  rw [flatten_groups, choices_eq_map_places [], List.map_map]
  refine List.map_congr_left fun places _ => ?_
  show p.filters ++ ((p.components.map Component.pieces).zipWith _ places).flatten
    = p.clauseAt places
  rw [List.zipWith_map_left]
  rfl

/-- **Enumeration.** The concrete clauses of a plan, group after group, are those of all choices of
    pieces in lexicographic order, each once, in whatever order its components stand. There are as
    many groups as choices in the serial components, and each has the size that is counted for it;
    the concrete queries are these clauses, and as many as are counted for the plan. -/
theorem groups_enumerate (p : Plan) :
    (∃ choices, p.ListsPlaces choices ∧ p.groups.flatten = choices.map p.clauseAt)
      ∧ p.groups.length = (p.serial.map (·.pieces.length)).prod
      ∧ (∀ group ∈ p.groups, group.length = p.parallelSize)
      ∧ p.queries = p.groups.flatten.map p.query.withPredicates
      ∧ p.queries.length = p.queryCount := by
  refine ⟨⟨_, p.listsPlaces, p.flatten_groups_eq_map_clauseAt⟩, ?_,
    fun _ => length_of_mem_groups, p.queries_eq_map, ?_⟩
  · rw [groups, List.length_map, length_choices, choiceCount, List.map_map]
    rfl
  · rw [queries_eq_map, List.length_map, flatten_groups, List.length_map, length_choices]
    rfl

/-- A parallel component without pieces leaves each group empty, and the groups remain. -/
example :
    (of {} [] [⟨"a", some 0, none, [[], []]⟩, ⟨"b", none, none, []⟩] true).groups = [[], []] := by
  cbv

end Plan

end EntityQuery
