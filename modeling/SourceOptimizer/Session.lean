import SourceOptimizer.Grammar.Program
import SourceOptimizer.Log
import SourceOptimizer.Native.Toolchain
import SourceOptimizer.Source
import SourceOptimizer.Tree.Printer.Statement
import SourceOptimizer.Tree.Store

/-! A session: the modules that are being worked on, their sources, the files, the log, and what the running
pass has reported. -/
namespace SourceOptimizer

/-- A warning that was given: its text and the nodes it is about, or the operator or context if it is not about
a node. -/
structure Notice where
  message : String
  nodes : List (Option Nat) := []
  mark : Option String := none
  deriving DecidableEq

structure Program where
  code : Code
  tree : Tree

structure Session where
  store : Store := {}
  log : Log := {}
  files : Files := {}
  toolchain : Toolchain := {}
  /-- the compiler that a native module was last made with -/
  compilerSet : Option String := none
  level : Int := 3
  sources : List Source := []
  modules : List Program := []
  /-- the source that is being worked on -/
  current : Option Code := none
  /-- the running pass has changed something -/
  changed : Bool := false
  notices : List Notice := []
  /-- the nodes that stand for the numbers that are not finite -/
  infinity : Option Nat := none
  notANumber : Option Nat := none

abbrev Work := ExceptT Fault (StateM Session)

namespace Work

def ofExcept {α : Type} : Except Fault α → Work α
  | .ok a => pure a
  | .error e => throw e

def write (level : LogLevel) (parts : List String) : Work Unit :=
  modify fun s => { s with log := s.log.write level parts }

def done : Work Unit := modify fun s => { s with changed := true }

def look (t : Tree) : Work Tree := do return (← get).store.look t

def adopt (t : Tree) : Work Tree := do
  let s ← get
  let (t, store) := s.store.adopt t
  set { s with store }
  return t

def fresh : Work Nat := do
  let s ← get
  set { s with store := { s.store with next := s.store.next + 1 } }
  return s.store.next

def keep (t : Tree) : Work Unit := modify fun s => { s with store := s.store.keep t }

def share (t : Tree) : Work Tree := do
  let s ← get
  let (t, store) := s.store.share t
  set { s with store }
  return t

def expand (t : Tree) : Work Tree := do return (← get).store.expand t

def print (t : Tree) : Work String := do ofExcept (← expand t).print

def parse (source : String) : Work Tree := do
  let s ← get
  match Tree.parse s.store.next source with
  | .ok (t, next) =>
    set { s with store := { s.store with next } }
    return t
  | .error e => throw e

def locate (t : Tree) : Work Tree := do
  let s ← get
  let (t, store) := s.store.locate t
  set { s with store }
  return t

def highlight (line code : String) : String :=
  replaceAll line code (Style.brightCyan ++ Style.underline ++ code ++ Style.reset ++ Style.cyan)

def quoteLine (code : Option Code) (first : Tree) (nodes : List Tree) : Work String := do
  match first.tag?.bind Tag.line, code with
  | none, _ => throw (.attribute (.ofObject first.kindName "lineno"))
  | some _, none => throw (.attribute (.ofObject "NoneType" "getSourceLines"))
  | some n, some code =>
    match (if n == 0 then code.lines.getLast? else code.lines[n - 1]?) with
    | none => throw .index
    | some line =>
      let quoted ← nodes.foldlM (fun quoted t => return highlight quoted (← print t)) line
      return toString n ++ "\n" ++ Style.cyan ++ quoted

def remember (notice : Notice) : Work Bool := do
  let s ← get
  if s.notices.contains notice then return false
  set { s with notices := s.notices ++ [notice] }
  return true

def report (message : String) (nodes : List Tree) : Work Unit := do
  let s ← get
  let place ← match nodes with
    | [] => pure "?"
    | first :: _ => quoteLine s.current first nodes
  match s.current with
  | some code =>
    write .warn [Style.yellow ++ "Possible exception in " ++ Style.cyan ++ code.path ++ Style.plain ++ ":" ++
      Style.cyan ++ place ++ "\n" ++ Style.red ++ message]
  | none => throw (.attribute (.ofObject "NoneType" "getFilepath"))

def flag (message : String) (nodes : List Tree) : Work Unit := do
  let nodes ← nodes.mapM look
  if ← remember { message, nodes := nodes.map Tree.id? } then report message nodes

def flagFault (e : Fault) (nodes : List Tree) : Work Unit := flag e.headline nodes

end Work
end SourceOptimizer
