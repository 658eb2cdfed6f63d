import SourceOptimizer.Fault

/-! Linear orders of classes. A class stands before its bases, the bases keep the order in which they are
listed, and the orders of the bases are kept as well. -/
namespace SourceOptimizer

/-- Classes with their orders; an order begins with the class itself. -/
structure Hierarchy where
  orders : List (String × List String) := []
  deriving Inhabited

namespace Hierarchy

def nextClass? (lists : List (List String)) : Option String :=
  (lists.filterMap List.head?).find? fun c => lists.all fun l => !l.tail.contains c

/-- Merge orders into one that keeps all of them; `fuel` bounds the length of the result. The heads that stand
in each other's way are returned where there is no such order. -/
def merge : Nat → List (List String) → Except (List String) (List String)
  | 0, _ => .ok []
  | fuel + 1, lists =>
    let lists := lists.filter (!·.isEmpty)
    if lists.isEmpty then .ok []
    else match nextClass? lists with
      | none => .error (lists.filterMap List.head?).eraseDups
      | some c => do
        let rest ← merge fuel (lists.map fun l => if l.head? == some c then l.tail else l)
        return c :: rest

def order (h : Hierarchy) (name : String) : List String :=
  ((h.orders.find? (·.1 == name)).map (·.2)).getD [name, "object"]

def orderOf (h : Hierarchy) (name : String) (bases : List String) : Except (List String) (List String) := do
  let lists := bases.map h.order ++ [bases]
  let rest ← merge (lists.flatten.length + 1) lists
  return name :: rest

def add (h : Hierarchy) (name : String) (order : List String) : Hierarchy := ⟨(name, order) :: h.orders⟩

def below (h : Hierarchy) (c d : String) : Bool := (h.order c).contains d

end Hierarchy
end SourceOptimizer
