import SourceOptimizer.Session
import SourceOptimizer.Simulation.Binding

/-! The state of a simulation: objects, the names that stand for them, and how the normal course of a program
is left. Objects are known by reference; a node that is being simulated is known by its identity. -/
namespace SourceOptimizer.Simulation

abbrev Ref := Nat

structure Function where
  node : Nat
  isLambda : Bool
  name : String
  signature : Signature
  body : List Tree
  defaults : List Ref
  keywordDefaults : List (String × Ref)
  /-- all defaults are known -/
  callable : Bool
  deriving Inhabited

inductive Object where
  | constant (literal : Literal)
  | unknown
  | plain (fields : List (String × Ref))
  | builtin (name : String) (fields : List (String × Ref))
  | function (f : Function) (fields : List (String × Ref))
  deriving Inhabited

namespace Object

def className : Object → String
  | constant _ => "PyConstant"
  | unknown => "PyUnknown"
  | plain _ => "PyObject"
  | builtin _ _ | function _ _ => "PyFunction"

def shown (o : Object) : String :=
  "<utils.simulation.objects." ++ o.className ++ "." ++ o.className ++ " object at 0x>"

def literal? (r : Ref) : Object → Option Literal
  | constant l => some l
  | builtin name _ => some { value := .builtin name }
  | function _ _ => some { value := .method r }
  | unknown | plain _ => none

def typeName (r : Ref) (o : Object) : String :=
  match o.literal? r with
  | some l => l.value.typeName
  | none => "object"

end Object

structure Variable where
  object : Ref
  type : String
  unused : Bool := true
  deriving DecidableEq, Inhabited

namespace Variable

def used (v : Variable) : Variable := { v with unused := false }

def copy (v : Variable) : Variable := { v with unused := true }

end Variable

/-- What is being visited: nothing yet, a node, or an operator or context, which are not nodes of their own. -/
inductive Focus where
  | nothing
  | node (id : Nat)
  | mark (name : String)
  deriving DecidableEq, Inhabited

/-- What is left to do when a namespace is given up: remove an assignment or a definition if its name was
never used. -/
inductive Task where
  | assignment (node : Nat) (target : Tree) (parent : Focus)
  | definition (node : Nat) (parent : Focus)
  deriving Inhabited

structure Namespace where
  id : Nat
  /-- what was visited when the namespace was made -/
  parent : Focus
  entries : List (String × Variable) := []
  tasks : List Task := []
  deriving Inhabited

namespace Namespace

def find? (n : Namespace) (name : String) : Option Variable := n.entries.lookup name

def put (n : Namespace) (name : String) (v : Variable) : Namespace :=
  if n.entries.any (·.1 == name) then
    { n with entries := n.entries.map fun e => if e.1 == name then (name, v) else e }
  else { n with entries := n.entries ++ [(name, v)] }

def names (n : Namespace) : List String := n.entries.map (·.1)

end Namespace

inductive InterruptKind where
  | exception
  | returned
  deriving DecidableEq, Inhabited

/-- The normal course has been left, with an object; an exception may have a handler waiting in a namespace. -/
structure Interrupt where
  kind : InterruptKind
  value : Ref
  target : Option (Nat × Nat) := none
  deriving DecidableEq, Inhabited

structure Handler where
  object : Ref
  space : Nat
  node : Nat
  deriving Inhabited

structure Machine where
  objects : Array Object := #[]
  builtins : List (String × Variable) := []
  /-- the namespaces, innermost first; the last one is that of the module -/
  stack : List Namespace := []
  spaces : Nat := 0
  handlers : List Handler := []
  focus : Focus := .nothing
  interrupt : Option Interrupt := none
  /-- how many nodes are being simulated; less than none once too many were -/
  depth : Int := 0
  deriving Inhabited

structure World where
  machine : Machine
  session : Session

/-- Simulated work. It is told how much room it has for going deeper; what was done before a fault stays
done. -/
abbrev Sim := ReaderT Nat (ExceptT Fault (StateM World))

namespace Sim

def ofWork {α : Type} (w : Work α) : Sim α := fun _ => do
  let s ← get
  let (r, session) := w.run.run s.session
  set { s with session }
  match r with
  | .ok a => return a
  | .error e => throw e

def ofExcept {α : Type} : Except Fault α → Sim α
  | .ok a => pure a
  | .error e => throw e

def machine : Sim Machine := do return (← get).machine

def update (f : Machine → Machine) : Sim Unit := modify fun w => { w with machine := f w.machine }

/-- Do something in the end, whatever comes before; a fault in it is what remains. -/
def ending {α : Type} (body : Sim α) (last : Sim Unit) : Sim α := do
  let result ← tryCatch (do return Except.ok (← body)) fun e => pure (Except.error e)
  last
  ofExcept result

def look (t : Tree) : Sim Tree := ofWork (Work.look t)

def create (t : Tree) : Sim Tree := ofWork do Work.share (← Work.adopt t)

def setPart (id : Nat) (i : Nat) (part : Tree) : Sim Unit := do
  match ← look (.shared id) with
  | .node tag kind parts => ofWork (Work.keep (.node tag kind (parts.set i part)))
  | _ => return ()

def allocate (o : Object) : Sim Ref := do
  let m ← machine
  update fun m => { m with objects := m.objects.push o }
  return m.objects.size

def object (r : Ref) : Sim Object := do return ((← machine).objects[r]?).getD .unknown

def constant (v : Value) : Sim Ref := do
  allocate (.constant { value := v, origin := ← ofWork Work.fresh })

def ofValue : Value → Sim Ref
  | .builtin name => allocate (.builtin name [])
  | .none => constant .none
  | .ellipsis => constant .ellipsis
  | .notImplemented => constant .notImplemented
  | .bool b => constant (.bool b)
  | .int n => constant (.int n)
  | .float x => constant (.float x)
  | .str s => constant (.str s)
  | _ => allocate .unknown

def literal (r : Ref) : Sim Literal := do
  match (← object r).literal? r with
  | some l => return l
  | none => throw .unknown

def typeName (r : Ref) : Sim String := do return (← object r).typeName r

def warningRoom : Nat := 6

def noticeAt (message : String) : Focus → Notice
  | .nothing => { message }
  | .node id => { message, nodes := [some id] }
  | .mark name => { message, mark := some name }

def writeWarning (message : String) : Sim Unit := do
  if (← read) < warningRoom then throw .recursion
  match (← machine).focus with
  | .nothing => ofWork (Work.report message [])
  | .node id => ofWork do Work.report message [← Work.look (.shared id)]
  | .mark name => throw (.attribute (.ofObject name "lineno"))

def warn (message : String) : Sim Unit := do
  if ← ofWork (Work.remember (noticeAt message (← machine).focus)) then writeWarning message

/-- Leave the normal course with an exception: for its handler if there is one, else for good and with a
warning. -/
def raiseObject (r : Ref) : Sim Unit := do
  let m ← machine
  match m.handlers.find? (·.object == r) with
  | some h =>
    if m.interrupt.isSome then throw .assertion
    update fun m => { m with interrupt := some ⟨.exception, r, some (h.space, h.node)⟩ }
  | none =>
    update fun m => { m with interrupt := some ⟨.exception, r, none⟩ }
    let o ← object r
    warn ("(Simulation) " ++ o.typeName r ++ ": " ++ o.shown)

def raise : Sim Unit := do raiseObject (← allocate .unknown)

def raiseForeign (className : String) : Sim Unit := do
  let r ← allocate .unknown
  update fun m => { m with interrupt := some ⟨.exception, r, none⟩ }
  throw (.attribute (.ofObject className "type"))

def finish : Sim Unit := update fun m => { m with interrupt := none }

def returnWith (r : Ref) : Sim Unit := do
  if (← machine).interrupt.isSome then throw .assertion
  update fun m => { m with interrupt := some ⟨.returned, r, none⟩ }

/-! ## Names -/

def locals : Sim Namespace := do
  match (← machine).stack with
  | n :: _ => return n
  | [] => throw .assertion

def setLocals (n : Namespace) : Sim Unit := update fun m => { m with stack := n :: m.stack.tail }

def put (name : String) (r : Ref) (type : String) : Sim Unit := do
  setLocals ((← locals).put name { object := r, type })

def putObject (name : String) (r : Ref) : Sim Unit := do put name r (← typeName r)

def addTask (t : Task) : Sim Unit := do
  let n ← locals
  setLocals { n with tasks := n.tasks ++ [t] }

def findVariable? (m : Machine) (name : String) : Option Variable :=
  (m.stack.findSome? (·.find? name)).or (m.builtins.lookup name)

def variableOf (name : String) : Sim Variable := do
  match findVariable? (← machine) name with
  | some v => return v
  | none =>
    raise
    return { object := ← allocate .unknown, type := "object" }

def markUsed (name : String) : List Namespace → List Namespace
  | [] => []
  | n :: rest =>
    match n.find? name with
    | some v => n.put name v.used :: rest
    | none => n :: markUsed name rest

def use (name : String) : Sim Variable := do
  let v ← variableOf name
  update fun m => { m with stack := markUsed name m.stack }
  return v

def pushNamespace : Sim Unit :=
  update fun m => { m with
    stack := { id := m.spaces, parent := m.focus } :: m.stack
    spaces := m.spaces + 1 }

end Sim
end SourceOptimizer.Simulation
