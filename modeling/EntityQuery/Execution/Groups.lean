import EntityQuery.Execution.Merge
import EntityQuery.Query

/-!
# Groups — queries that are asked when their rows are needed

An executor answers a query; what it answers may depend on how many queries it was asked before.
A plan is read group by group. When a row of a group is wanted for the first time, all its queries
are asked, in order, and their answers merged; the next group is asked only when this one has no
more rows. The world is the log of the queries that have been asked, in order.
-/

namespace EntityQuery

/-- Answers a query, given the number of queries asked before. -/
abbrev Executor (α : Type) := Nat → Query → Except Fault (List α)

/-- The queries that have been asked. -/
abbrev Log := List Query

variable {α : Type}

/-- Ask queries in order. A query is in the log whether its answer fails or not. -/
def askAll (execute : Executor α) : List Query → Log → Except Fault (List (List α)) × Log
  | [], log => (.ok [], log)
  | q :: qs, log =>
    match execute log.length q with
    | .error f => (.error f, log ++ [q])
    | .ok as =>
      match askAll execute qs (log ++ [q]) with
      | (.ok rest, log') => (.ok (as :: rest), log')
      | (.error f, log') => (.error f, log')

/-- Ask a group of queries and merge the answers. -/
def askGroup (execute : Executor α) (cmp : α → α → Except Fault Ordering) (group : List Query)
    (log : Log) : Collected α × Log :=
  match askAll execute group log with
  | (.ok lists, log') => (Source.mergeLists cmp lists, log')
  | (.error f, log') => (⟨[], .failed f⟩, log')

/-- A plan that is being read: what is left of the group that has been asked, and the groups that
    have not. -/
structure Pending (α : Type) where
  current : Collected α := ⟨[], .exhausted⟩
  groups  : List (List Query)

namespace Pending

/-- Read on into the groups that have not been asked. -/
def readGroups (execute : Executor α) (cmp : α → α → Except Fault Ordering) :
    List (List Query) → Log → Reading α (Pending α) × Log
  | [], log => (.done, log)
  | group :: groups, log =>
    match askGroup execute cmp group log with
    | (⟨a :: as, ending⟩, log') => (.row a ⟨⟨as, ending⟩, groups⟩, log')
    | (⟨[], .failed f⟩, log') => (.failed f, log')
    | (⟨[], _⟩, log') => readGroups execute cmp groups log'

def read (execute : Executor α) (cmp : α → α → Except Fault Ordering) (p : Pending α) (log : Log) :
    Reading α (Pending α) × Log :=
  match p.current with
  | ⟨a :: as, ending⟩ => (.row a ⟨⟨as, ending⟩, p.groups⟩, log)
  | ⟨[], .failed f⟩ => (.failed f, log)
  | ⟨[], _⟩ => readGroups execute cmp p.groups log

/-- Fewer groups, or as many and fewer rows of the one that has been asked. -/
def weight (p : Pending α) : Nat × Nat := (p.groups.length, p.current.rows.length)

theorem readGroups_length {execute : Executor α} {cmp : α → α → Except Fault Ordering}
    {groups : List (List Query)} {log : Log} {a : α} {p : Pending α}
    (h : (readGroups execute cmp groups log).1 = .row a p) : p.groups.length < groups.length := by
  induction groups generalizing log with
  | nil => cases h
  | cons group groups ih =>
    unfold readGroups at h
    split at h
    · cases h; simp
    · cases h
    · exact Nat.lt_succ_of_lt (ih h)

theorem read_lighter {execute : Executor α} {cmp : α → α → Except Fault Ordering}
    {p : Pending α} {log : Log} {a : α} {p' : Pending α}
    (h : (read execute cmp p log).1 = .row a p') : Lighter p'.weight p.weight := by
  unfold read at h
  rw [lighter_iff]
  split at h
  · rename_i b bs ending hc
    cases h
    simp [weight, hc]
  · cases h
  · exact .inl (readGroups_length h)

end Pending

/-- A plan as a source of rows. -/
def Source.groups (execute : Executor α) (cmp : α → α → Except Fault Ordering) :
    Source Log α (Pending α) where
  read := Pending.read execute cmp
  weight := Pending.weight
  lighter h := Pending.read_lighter h

end EntityQuery
