import EntityQuery.Value.Identity

/-!
# Filters — what a query asks of an entity

A *predicate* puts one property to a test: a comparison with a value, membership in a list,
presence, or containment in a region. A *filter* is a predicate or an AND or OR of filters.

Two predicates are one when they put the same property to the same kind of test with the same
value, values being told apart by identity. A set can hold a predicate if its value can be held.
-/

namespace EntityQuery

/-- How a property compares with a value. -/
inductive Relation where
  | equal
  | notEqual
  | less
  | lessEqual
  | greater
  | greaterEqual
deriving DecidableEq, Repr

namespace Relation

/-- The outcomes of a comparison for which the relation holds. -/
def holds : Relation → Ordering → Bool
  | .equal, o => o == .eq
  | .notEqual, o => o != .eq
  | .less, o => o == .lt
  | .lessEqual, o => o != .gt
  | .greater, o => o == .gt
  | .greaterEqual, o => o != .lt

/-- Whether a relation bounds a range of values. -/
def isInequality : Relation → Bool
  | .less | .lessEqual | .greater | .greaterEqual => true
  | .equal | .notEqual => false

def word : Relation → String
  | .equal => "="
  | .notEqual => "!="
  | .less => "<"
  | .lessEqual => "<="
  | .greater => ">"
  | .greaterEqual => ">="

end Relation

/-- The kinds of test. -/
inductive Operator where
  | relation (r : Relation)
  | oneOf
  | present
  | inside
deriving DecidableEq, Repr

namespace Operator

def word : Operator → String
  | .relation r => r.word
  | .oneOf => "in"
  | .present => "exists"
  | .inside => "contained_in_region"

def all : List Operator :=
  [.relation .equal, .relation .notEqual, .relation .less, .relation .lessEqual,
    .relation .greater, .relation .greaterEqual, .oneOf, .present, .inside]

/-- The operator with this spelling. -/
def ofWord? (word : String) : Option Operator := all.find? (·.word == word)

end Operator

/-- What a property is put to. Presence and containment keep a value that no comparison reads. -/
inductive Test where
  | relation (r : Relation) (value : Value)
  | oneOf (values : List Value)
  | present (value : Value)
  | inside (region : Value)
deriving Repr

namespace Test

def operator : Test → Operator
  | .relation r _ => .relation r
  | .oneOf _ => .oneOf
  | .present _ => .present
  | .inside _ => .inside

/-- The value a test is written with. -/
def value : Test → Value
  | .relation _ v => v
  | .oneOf vs => .list vs
  | .present v => v
  | .inside v => v

/-- The test of this kind with this value. Membership needs a list. -/
def of : Operator → Value → Except Fault Test
  | .relation r, v => .ok (.relation r v)
  | .oneOf, .list vs => .ok (.oneOf vs)
  | .oneOf, _ => .error .membershipNeedsList
  | .present, v => .ok (.present v)
  | .inside, v => .ok (.inside v)

end Test

structure Predicate where
  property : String
  test     : Test
deriving Repr

namespace Predicate

/-- The test `property = value`. -/
def equals (property : String) (value : Value) : Predicate := ⟨property, .relation .equal value⟩

/-- The test `property < value`. -/
def below (property : String) (value : Value) : Predicate := ⟨property, .relation .less value⟩

/-- The test `property > value`. -/
def above (property : String) (value : Value) : Predicate := ⟨property, .relation .greater value⟩

/-- Whether two predicates are one. -/
def same (a b : Predicate) : Bool :=
  a.property == b.property && a.test.operator == b.test.operator && a.test.value == b.test.value

instance : BEq Predicate := ⟨same⟩

/-- Whether a set can hold a predicate. -/
def keyable (p : Predicate) : Bool := p.test.value.keyable

def isInequality (p : Predicate) : Bool :=
  match p.test with
  | .relation r _ => r.isInequality
  | _ => false

def isEquality (p : Predicate) : Bool :=
  match p.test with
  | .relation .equal _ => true
  | _ => false

def isExclusion (p : Predicate) : Bool :=
  match p.test with
  | .relation .notEqual _ => true
  | _ => false

def isPresence (p : Predicate) : Bool :=
  match p.test with
  | .present _ => true
  | _ => false

/-- The values of a membership test, each once; nothing for another test. -/
def choices? (p : Predicate) : Except Fault (Option (List Value)) :=
  match p.test with
  | .oneOf values => some <$> Value.distinct values
  | _ => .ok none

/-- Predicates, each once, where it is first seen. -/
def distinct (ps : List Predicate) : Except Fault (List Predicate) :=
  if ps.all keyable then .ok ps.eraseDups else .error .recordInSet

end Predicate

/-- How the parts of a composite filter are joined. -/
inductive Connective where
  | all
  | any
deriving DecidableEq, Repr

namespace Connective

def word : Connective → String
  | .all => "and"
  | .any => "or"

/-- The connective with this spelling. -/
def ofWord? (word : String) : Option Connective := [all, any].find? (·.word == word)

end Connective

inductive Filter where
  | leaf (p : Predicate)
  | node (c : Connective) (parts : List Filter)
deriving Repr

namespace Filter

instance : Inhabited Filter := ⟨.leaf (.equals "" .null)⟩

/-- The composite of these parts, of which there must be one at least. -/
def composite (c : Connective) (parts : List Filter) : Except Fault Filter :=
  if parts.isEmpty then .error .emptyComposite else .ok (.node c parts)

mutual

/-- The predicates of a filter that holds no OR, from left to right. -/
def conjuncts : Filter → Except Fault (List Predicate)
  | .leaf p => .ok [p]
  | .node .all parts => conjunctsAll parts
  | .node .any _ => .error .disjunction
termination_by structural f => f

def conjunctsAll : List Filter → Except Fault (List Predicate)
  | [] => .ok []
  | f :: fs => do return (← conjuncts f) ++ (← conjunctsAll fs)
termination_by structural fs => fs

end

/-- The filter that asks for all of these predicates, if there are any. -/
def allOf? : List Predicate → Option Filter
  | [] => none
  | [p] => some (.leaf p)
  | ps => some (.node .all (ps.map .leaf))

end Filter

end EntityQuery
