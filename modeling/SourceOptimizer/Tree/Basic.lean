import SourceOptimizer.Tree.Kind

/-! Programs as trees. Every node has a tag, a kind and its parts in a fixed order; a part is a node, a list
of parts, absent, or a reference to a node that stands at several places and is kept in a store. -/
namespace SourceOptimizer

/-- The identity of a node and the source line it begins on, if it is known. -/
structure Tag where
  id : Nat := 0
  line : Option Nat := none
  deriving DecidableEq, Inhabited, Repr

inductive Tree where
  | node (tag : Tag) (kind : Kind) (parts : List Tree)
  | seq (items : List Tree)
  | absent
  /-- the shared node kept in this slot of the store -/
  | shared (slot : Nat)
  deriving Inhabited

namespace Tree

def tag? : Tree → Option Tag
  | node t _ _ => some t
  | _ => none

def kind? : Tree → Option Kind
  | node _ k _ => some k
  | _ => none

def id? : Tree → Option Nat
  | node t _ _ => some t.id
  | _ => none

def isAbsent : Tree → Bool
  | absent => true
  | _ => false

def items : Tree → List Tree
  | seq xs => xs
  | _ => []

def kindName : Tree → String
  | node _ k _ => k.kindName
  | _ => "NoneType"

def literal? : Tree → Option Literal
  | node _ (.constant l) _ => some l
  | _ => none

mutual

/-- Number of nodes, a bound for everything that walks down a tree. -/
def size : Tree → Nat
  | node _ _ parts => 1 + sizeAll parts
  | seq items => 1 + sizeAll items
  | absent => 1
  | shared _ => 1

def sizeAll : List Tree → Nat
  | [] => 0
  | t :: ts => size t + sizeAll ts

end

mutual

/-- Give an identity, from `next` on and in the order they stand, to all nodes that have none; the origin of a
literal that has none is its node. -/
def number (next : Nat) : Tree → Tree × Nat
  | node t k parts =>
    let id := if t.id == 0 then next else t.id
    let (parts, after) := numberAll (if t.id == 0 then next + 1 else next) parts
    let k := match k with
      | .constant l => .constant { l with origin := if l.origin == 0 then id else l.origin }
      | k => k
    (node { t with id } k parts, after)
  | seq items =>
    let (items, after) := numberAll next items
    (seq items, after)
  | absent => (absent, next)
  | shared s => (shared s, next)

def numberAll (next : Nat) : List Tree → List Tree × Nat
  | [] => ([], next)
  | t :: ts =>
    let (t, next) := number next t
    let (ts, next) := numberAll next ts
    (t :: ts, next)

end
end Tree
end SourceOptimizer
