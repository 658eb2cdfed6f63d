import SourceOptimizer.Tree.Basic
import Std.Data.HashMap

/-! Nodes that stand at several places. A shared node is kept in the store under its identity, its parts are
shared as well, and each place where it stands refers to it; a change of the stored node is seen at all of
them. A tree without references is plain, and on plain trees the store plays no part. -/
namespace SourceOptimizer

structure Store where
  nodes : Std.HashMap Nat Tree := {}
  /-- the next free identity -/
  next : Nat := 1
  deriving Inhabited

namespace Store

def look (s : Store) : Tree → Tree
  | .shared id => (s.nodes[id]?).getD .absent
  | t => t

def adopt (s : Store) (t : Tree) : Tree × Store :=
  let (t, next) := t.number s.next
  (t, { s with next })

mutual

def share (s : Store) : Tree → Tree × Store
  | .node tag kind parts =>
    let (parts, s) := shareAll s parts
    (.shared tag.id, { s with nodes := s.nodes.insert tag.id (.node tag kind parts) })
  | .seq items =>
    let (items, s) := shareAll s items
    (.seq items, s)
  | .absent => (.absent, s)
  | .shared id => (.shared id, s)

def shareAll (s : Store) : List Tree → List Tree × Store
  | [] => ([], s)
  | t :: ts =>
    let (t, s) := share s t
    let (ts, s) := shareAll s ts
    (t :: ts, s)

end

/-- Record a new state of a node, if it is a shared one. -/
def keep (s : Store) : Tree → Store
  | .node tag kind parts =>
    if s.nodes.contains tag.id then
      let (parts, s) := s.shareAll parts
      { s with nodes := s.nodes.insert tag.id (.node tag kind parts) }
    else s
  | _ => s

mutual

def resolve (again : Nat → Tree) : Tree → Tree
  | .node tag kind parts => .node tag kind (resolveAll again parts)
  | .seq items => .seq (resolveAll again items)
  | .absent => .absent
  | .shared id => again id

def resolveAll (again : Nat → Tree) : List Tree → List Tree
  | [] => []
  | t :: ts => resolve again t :: resolveAll again ts

end

def expandWithin (s : Store) : Nat → Tree → Tree
  | 0, _ => .absent
  | depth + 1, t =>
    resolve (fun id =>
      match s.nodes[id]? with
      | some t => expandWithin s depth t
      | none => .absent) t

/-- A tree without references. No chain of references is longer than there are shared nodes. -/
def expand (s : Store) (t : Tree) : Tree := s.expandWithin (s.nodes.size + 1) t

mutual

/-- Give nodes without a line the line of the node they stand in. -/
def locateWith (again : Nat → Nat → Store → Store) (line : Nat) : Tree → Store → Tree × Store
  | .node tag kind parts, s =>
    let tag := if kind.hasLine && tag.line.isNone then { tag with line := some line } else tag
    let line := if kind.hasLine then tag.line.getD line else line
    let (parts, s) := locateAll again line parts s
    (.node tag kind parts, s)
  | .seq items, s =>
    let (items, s) := locateAll again line items s
    (.seq items, s)
  | .absent, s => (.absent, s)
  | .shared id, s => (.shared id, again line id s)

def locateAll (again : Nat → Nat → Store → Store) (line : Nat) : List Tree → Store → List Tree × Store
  | [], s => ([], s)
  | t :: ts, s =>
    let (t, s) := locateWith again line t s
    let (ts, s) := locateAll again line ts s
    (t :: ts, s)

end

def locateWithin : Nat → Nat → Tree → Store → Tree × Store
  | 0, _, t, s => (t, s)
  | depth + 1, line, t, s =>
    locateWith (fun line id s =>
      match s.nodes[id]? with
      | some t =>
        let (t, s) := locateWithin depth line t s
        { s with nodes := s.nodes.insert id t }
      | none => s) line t s

def locate (s : Store) (t : Tree) : Tree × Store := locateWithin (s.nodes.size + 1) 1 t s

end Store
end SourceOptimizer
