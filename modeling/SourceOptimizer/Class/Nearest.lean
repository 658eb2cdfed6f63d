import SourceOptimizer.Class.Standard
import SourceOptimizer.Value.Basic

/-! The nearest class that several classes have in common, and which values belong to a class. Numbers and
containers count as members of the abstract classes that describe them. -/
namespace SourceOptimizer.Hierarchy

/-- The abstract class that a predefined class stands below when ancestors are compared. -/
def describedBy? : String → Option String
  | "int" => some "Integral"
  | "float" => some "Real"
  | "complex" => some "Complex"
  | "list" => some "MutableSequence"
  | "tuple" => some "Sequence"
  | "set" => some "MutableSet"
  | "dict" => some "MutableMapping"
  | _ => none

/-- The ancestors of a class, nearest first. A class of classes has none that could be asked for. -/
def ancestors (h : Hierarchy) (c : String) : Except Fault (List String) :=
  if c == "bool" then .ok ("bool" :: "int" :: h.order "Integral")
  else match describedBy? c with
    | some d => .ok (c :: h.order d)
    | none => if h.below c "type" then .error (.type .unboundOrder) else .ok (h.order c)

def reach (classes order : List String) : Option Nat :=
  if classes.all order.contains then (classes.map (order.idxOf ·)).max? else none

def bestReach (classes : List String) : List (List String) → Option (List String × Nat)
  | [] => none
  | order :: rest =>
    match reach classes order, bestReach classes rest with
    | some n, some (best, m) => if n ≤ m then some (order, n) else some (best, m)
    | some n, none => some (order, n)
    | none, best => best

def nearest (h : Hierarchy) : List String → Except Fault String
  | [] => .error (.type .noClasses)
  | [c] => .ok c
  | classes => do
    let orders ← classes.mapM h.ancestors
    match bestReach classes orders with
    | some (order, n) => return (order[n]?).getD "object"
    | none => return "object"

def declared? : String → Option String
  | "int" | "bool" => some "Integral"
  | "float" => some "Real"
  | "complex" => some "Complex"
  | "tuple" | "str" | "range" | "memoryview" => some "Sequence"
  | "bytes" | "bytearray" => some "ByteString"
  | "list" => some "MutableSequence"
  | "set" => some "MutableSet"
  | "frozenset" => some "Set"
  | "dict" => some "MutableMapping"
  | _ => none

def capable (v : Value) : String → Bool
  | "Hashable" => !(v.typeName == "list" || v.typeName == "dict" || v.typeName == "set")
  | "Callable" => v.isCallable
  | "Reversible" => v.typeName == "dict"
  | _ => false

def isInstance (h : Hierarchy) (v : Value) (c : String) : Bool :=
  h.below v.typeName c || capable v c || ((declared? v.typeName).map (h.below · c)).getD false

structure Constraint where
  choices : List String := []
  bound : Option String := none

/-- A condition names at least two choices, or a bound, and not both. -/
def Constraint.check (k : Constraint) : Except Fault Constraint :=
  match k.choices, k.bound with
  | _ :: _, some _ => .error (.type .choicesWithBound)
  | [_], none => .error (.type .singleChoice)
  | _, _ => .ok k

def Constraint.holds (k : Constraint) (h : Hierarchy) (v : Value) : Bool :=
  if !k.choices.isEmpty then k.choices.any (h.isInstance v)
  else match k.bound with
    | some c => h.isInstance v c
    | none => true

end SourceOptimizer.Hierarchy
