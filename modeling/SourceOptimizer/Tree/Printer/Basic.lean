import SourceOptimizer.Tree.Basic
import SourceOptimizer.Tree.Printer.Literal
import Std.Data.HashMap

/-! Writing source text. The state holds what was written so far and how tightly the place of a node binds;
a node that stands at several places keeps the strength that was last set for it. -/
namespace SourceOptimizer.Printer

structure State where
  out : String := ""
  /-- something was written, even if it was empty -/
  started : Bool := false
  indent : Nat := 0
  bindings : Std.HashMap Nat Binding := {}
  /-- inside a `try` whose handlers take groups -/
  groups : Bool := false
  /-- the next conditional continues the one before -/
  continues : Bool := false
  /-- texts are to be written without backslashes -/
  plain : Bool := false

abbrev Writing := StateT State (Except Fault)

def write (s : String) : Writing Unit :=
  modify fun st => { st with out := st.out ++ s, started := true }

def newlineUnlessFirst : Writing Unit := do
  if (← get).started then write "\n"

def blanks (n : Nat) : String := String.ofList (List.replicate (4 * n) ' ')

def fill (s : String) : Writing Unit := do
  newlineUnlessFirst
  write (blanks (← get).indent ++ s)

def block (body : Writing Unit) : Writing Unit := do
  write ":"
  modify fun st => { st with indent := st.indent + 1 }
  body
  modify fun st => { st with indent := st.indent - 1 }

def between (left right : String) (body : Writing Unit) : Writing Unit := do
  write left
  body
  write right

def betweenIf (condition : Bool) (left right : String) (body : Writing Unit) : Writing Unit :=
  if condition then between left right body else body

/-- What an action writes, apart from the text so far; and whether it wrote at all. -/
def captured (body : Writing Unit) : Writing (String × Bool) := do
  let before ← get
  set { before with out := "", started := false }
  body
  let after ← get
  set { after with out := before.out, started := before.started }
  return (after.out, after.started)

/-- What an action writes as a text of its own, with its own strengths and without backslashes. -/
def aside (body : Writing Unit) : Writing String := do
  let before ← get
  set { plain := true : State }
  body
  let after ← get
  set before
  return after.out

/-- A node that is ready to be written: its parts likewise, how it is written, and how it is written inside a
formatted text. -/
inductive Piece where
  | one (tag : Tag) (kind : Kind) (parts : List Piece) (write inner : Writing Unit)
  | many (items : List Piece)
  | absent

namespace Piece

def isAbsent : Piece → Bool
  | absent => true
  | _ => false

def items : Piece → List Piece
  | many xs => xs
  | _ => []

def kind? : Piece → Option Kind
  | one _ k _ _ _ => some k
  | _ => none

def parts : Piece → List Piece
  | one _ _ ps _ _ => ps
  | _ => []

mutual

def put : Piece → Writing Unit
  | one _ _ _ write _ => write
  | many items => putAll items
  | absent => throw (.attribute (.ofObject "NoneType" "_fields"))

def putAll : List Piece → Writing Unit
  | [] => pure ()
  | p :: ps => do
    put p
    putAll ps

end

def putInner : Piece → Writing Unit
  | one _ _ _ _ inner => inner
  | _ => throw (.value .unexpectedPart)

def bind (b : Binding) : Piece → Writing Unit
  | one tag _ _ _ _ => modify fun st => { st with bindings := st.bindings.insert tag.id b }
  | _ => pure ()

def putAt (b : Binding) (p : Piece) : Writing Unit := do
  p.bind b
  p.put

end Piece

def separated (sep : String) : List (Writing Unit) → Writing Unit
  | [] => pure ()
  | [p] => p
  | p :: q :: ps => do
    p
    write sep
    separated sep (q :: ps)

def commas (ps : List Piece) : Writing Unit := separated ", " (ps.map Piece.put)

def tupleItems : List (Writing Unit) → Writing Unit
  | [p] => do
    p
    write ","
  | ps => separated ", " ps

def bindingOf (tag : Tag) : Writing Binding := do
  return ((← get).bindings[tag.id]?).getD .test

/-- Brackets around a construct of strength `b` if its place binds more tightly. -/
def guarded (b : Binding) (tag : Tag) (body : Writing Unit) : Writing Unit := do
  betweenIf (b.rank < (← bindingOf tag).rank) "(" ")" body

def need (k : Kind) (field : String) (p : Piece) : Writing Unit :=
  if p.isAbsent then throw (.attribute (.ofObject k.kindName field)) else pure ()

/-- The line of a node is looked up for comments on types, so it has to be known. -/
def needLine (tag : Tag) (k : Kind) : Writing Unit :=
  if tag.line.isNone then throw (.attribute (.ofObject k.kindName "lineno")) else pure ()

def documentation? : List Piece → Option Literal
  | .one _ .exprStmt [.one _ (.constant l) _ _ _] _ _ :: _ =>
    match l.value with
    | .str _ => some l
    | _ => none
  | _ => none

def documentedBody (body : List Piece) : Writing Unit :=
  match documentation? body with
  | some l => do
    fill ""
    if l.marked then write "u"
    match l.value with
    | .str s => write (literalText longQuotes s)
    | _ => pure ()
    Piece.putAll body.tail
  | none => Piece.putAll body

end SourceOptimizer.Printer
