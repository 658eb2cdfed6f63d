import SourceOptimizer.Simulation.Call
import SourceOptimizer.Simulation.Predefined

/-! Visiting a program as a simulation: names, operations, comparisons and calls are replaced by what is known
of them, and the parts of the result are visited in turn. After an exception nothing is replaced any more. -/
namespace SourceOptimizer.Simulation

inductive Slot where
  | part (i : Nat)
  | mark (name : String)
  deriving Inhabited

def slots (kind : Kind) (n : Nat) : List Slot :=
  let parts := (List.range n).map Slot.part
  match kind with
  | .augAssign op | .binOp op => parts.take 1 ++ [.mark op.kindName] ++ parts.drop 1
  | .boolOp op => .mark op.kindName :: parts
  | .unaryOp op => .mark op.kindName :: parts
  | .compare ops => parts.take 1 ++ ops.map (fun op => .mark op.kindName) ++ parts.drop 1
  | .attr _ ctx | .subscript ctx | .starred ctx | .name _ ctx | .list ctx | .tuple ctx =>
    parts ++ [.mark ctx.kindName]
  | _ => parts

namespace Sim

def maxDepth : Int := 100

def withoutPass (body : List Tree) : Sim (List Tree) := body.filterM fun t => do
  match ← look t with
  | .node _ .passStmt _ =>
    ofWork Work.done
    return false
  | _ => return true

def nameOf? (t : Tree) : Sim (Option String) := do
  match ← look t with
  | .node _ (.name id _) _ => return some id
  | _ => return none

/-- Assign an object to targets in order, which have to be names; the target that is reached last, and how many
names there are before one that is none. -/
def assignAll (r : Ref) : List Tree → Tree → Sim (Tree × Nat × Bool)
  | [], last => return (last, 0, true)
  | t :: ts, _ => do
    match ← nameOf? t with
    | none => return (t, 0, false)
    | some id =>
      putObject id r
      let (last, n, ok) ← assignAll r ts t
      return (last, n + 1, ok)

def visitAssign (id : Nat) (targets : List Tree) (value : Tree) : Sim Unit := do
  let r ← ofNode value
  let (last, n, ok) ← assignAll r targets .absent
  let space ← locals
  for _ in List.range n do addTask (.assignment id last space.parent)
  if !ok then throw .assertion

def compareChain : List (CompareOp × Tree × Tree) → Sim (Option Bool)
  | [] => return some true
  | (op, left, right) :: rest => do
    let l ← ofNode left
    let r ← ofNode right
    match (← object l).literal? l, (← object r).literal? r with
    | some a, some b =>
      match Value.compareBy op (a.same b) a.value b.value with
      | .ok true => compareChain rest
      | .ok false => return some false
      | .error _ =>
        raise
        return none
    | _, _ => return none

def visitCompare (t : Tree) (ops : List CompareOp) (left : Tree) (others : List Tree) : Sim Tree := do
  match ← compareChain (ops.zip ((left :: others).zip others)) with
  | some b => create (.constant (.bool b))
  | none => return t

def visitBinary (t : Tree) (op : BinaryOp) (left right : Tree) : Sim Tree := do
  let l ← ofNode left
  let r ← ofNode right
  match (← object l).literal? l, (← object r).literal? r with
  | some a, some b =>
    match Value.binary op a.value b.value with
    | .ok v => return (← expression? (← ofValue v)).getD t
    | .error _ =>
      raise
      return t
  | _, _ => return t

def visitName (t : Tree) (id : String) (ctx : Context) : Sim Tree := do
  if ctx != .load then return t
  return (← expression? (← use id).object).getD t

def calledObject? (function : Tree) : Sim (Option Ref) := do
  match ← look function with
  | .node _ (.name id ctx) _ =>
    if ctx != .load then throw .assertion
    return some (← use id).object
  | .node _ .lambda _ => return some (← makeFunction function)
  | _ => return none

def keywordObjects (keywords : List Tree) : Sim (List (Option String × Ref)) :=
  keywords.foldlM (fun acc t => do
    match ← look t with
    | .node _ (.keyword name) [value] =>
      let r ← ofNode value
      return if acc.any (·.1 == name) then acc.map fun e => if e.1 == name then (name, r) else e
        else acc ++ [(name, r)]
    | _ => return acc) []

inductive Outcome where
  | computed (t : Tree)
  | unsettled
  | failed

def outcome (visit : Tree → Sim Tree) (r : Ref) (args : List Ref) (keywords : List (Option String × Ref)) :
    Sim Outcome :=
  tryCatch (do
    let (result, isPure) ← call visit r args keywords
    if isPure then
      match ← expression? result with
      | some t => return .computed t
      | none => return .unsettled
    else return .unsettled) fun e => do
    match e with
    | .unknown => return .unsettled
    | _ =>
      raise
      return .failed

/-- A call becomes its result, or what the function stands for, or a call of that. -/
def visitCall (visit : Tree → Sim Tree) (id : Nat) (function : Tree) (args keywords : List Tree) : Sim Tree := do
  match ← calledObject? function with
  | none => return .shared id
  | some r =>
    let args ← args.mapM ofNode
    let keywords ← keywordObjects keywords
    match ← outcome visit r args keywords with
    | .computed t => return t
    | .failed => return .shared id
    | .unsettled =>
      match ← expression? r with
      | none => return .shared id
      | some t =>
        match ← look t with
        | .node _ .call _ => return t
        | _ =>
          setPart id 0 t
          ofWork Work.done
          return .shared id

def visitDefinition (id : Nat) (name : String) (body : List Tree) : Sim Unit := do
  setPart id 1 (.seq (← withoutPass body))
  let r ← makeFunction (.shared id)
  putObject name r
  addTask (.definition id (← locals).parent)

def replacement (visit : Tree → Sim Tree) (id : Nat) : Sim Tree := do
  let t := Tree.shared id
  match ← look t with
  | .node _ kind parts =>
    match kind, parts with
    | .assign, [.seq targets, value] =>
      visitAssign id targets value
      return t
    | .compare ops, [left, .seq others] => visitCompare t ops left others
    | .moduleDef, [.seq body] =>
      setPart id 0 (.seq (← withoutPass body))
      return t
    | .name name ctx, _ => visitName t name ctx
    | .call, [function, .seq args, .seq keywords] => visitCall visit id function args keywords
    | .functionDef name, [_, .seq body, _, _] =>
      visitDefinition id name body
      return t
    | .returnStmt, [value] =>
      returnWith (← ofNode value)
      return t
    | .binOp op, [left, right] => visitBinary t op left right
    | _, _ => return t
  | _ => return t

def deeper (same : Tree) (body : Sim Tree) : Sim Tree := do
  if maxDepth ≤ (← machine).depth then
    warn "Eval overflow! Something may went wrong!"
    update fun m => { m with depth := m.depth - 1 }
    return same
  else
    update fun m => { m with depth := m.depth + 1 }
    let result ← body
    update fun m => { m with depth := m.depth - 1 }
    return result

def sameNode : Tree → Tree → Bool
  | .shared a, .shared b => a == b
  | _, _ => false

def reached (i : Interrupt) : Sim Bool := do
  let m ← machine
  match i.target, m.focus with
  | some (space, handler), .node id =>
    if (m.stack.head?.map (·.id)) != some space then return false
    match ← look (.shared id) with
    | .node _ .tryStmt [_, .seq handlers, _, _] => return handlers.any (sameNode (.shared handler))
    | _ => return false
  | _, _ => return false

def handle (visit : Tree → Sim Tree) (i : Interrupt) : Sim Unit := do
  if i.kind != .exception then throw .assertion
  if !(← reached i) then throw .assertion
  match i.target with
  | some (_, handler) =>
    let _ ← visit (.shared handler)
  | none => return ()

def suspended (visit : Tree → Sim Tree) : Sim Bool := do
  match (← machine).interrupt with
  | some i =>
    if i.kind != .exception then return false
    if !(← reached i) then return true
    handle visit i
    return false
  | none => return false

def setFocus (f : Focus) : Sim Unit := update fun m => { m with focus := f }

def visitMark (visit : Tree → Sim Tree) (name : String) : Sim Unit := do
  if ← suspended visit then return ()
  setFocus (.mark name)
  let _ ← deeper .absent (pure .absent)
  setFocus (.mark name)

def partOf (id i : Nat) : Sim Tree := do
  match ← look (.shared id) with
  | .node _ _ parts => return (parts[i]?).getD .absent
  | _ => return .absent

/-- Visit the items of a list of parts, `n` at most, as they are when their turn comes. -/
def visitItems (visit : Tree → Sim Tree) (id i : Nat) : Nat → Nat → Sim (List Tree)
  | 0, _ => return []
  | n + 1, j => do
    match ((← partOf id i).items)[j]? with
    | none => return []
    | some .absent => return .absent :: (← visitItems visit id i n (j + 1))
    | some t =>
      let t ← visit t
      return t :: (← visitItems visit id i n (j + 1))

def visitSlot (visit : Tree → Sim Tree) (id : Nat) : Slot → Sim Unit
  | .mark name => visitMark visit name
  | .part i => do
    match ← partOf id i with
    | .absent => return ()
    | .seq items => setPart id i (.seq (← visitItems visit id i items.length 0))
    | t => setPart id i (← visit t)

def visitSlots (visit : Tree → Sim Tree) (id : Nat) : Sim Unit := do
  match ← look (.shared id) with
  | .node _ kind parts => (slots kind parts.length).forM (visitSlot visit id)
  | _ => return ()

def isClosed (t : Tree) : Sim Bool := do
  match ← look t with
  | .node _ (.functionDef _) _ | .node _ (.classDef _) _ => return true
  | _ => return false

def visitNode (visit : Tree → Sim Tree) (id : Nat) : Sim Tree := do
  if ← suspended visit then
    visitSlots visit id
    return .shared id
  setFocus (.node id)
  let t ← deeper (.shared id) do
    let t ← replacement visit id
    if !sameNode t (.shared id) then ofWork Work.done
    return t
  match t with
  | .shared new =>
    setFocus (.node new)
    if !(← isClosed t) then visitSlots visit new
  | _ => pure ()
  return t

def visitWithin : Nat → Tree → Sim Tree
  | 0, _ => throw .recursion
  | room + 1, .shared id => withReader (fun _ => room) (visitNode (visitWithin room) id)
  | _ + 1, t => return t

def fullRoom : Nat := 280

def visit (t : Tree) : Sim Tree := visitWithin fullRoom t

/-! ## Questions about objects -/

/-- A known object called with values. Keywords are taken apart into a name and a value of one letter each. -/
def invoke (r : Ref) (args : List Value) (keywords : List String) : Sim Value := do
  if keywords.contains "self" then throw (.type (.multipleValues "PyObject.__call__" "self"))
  let args ← args.mapM ofValue
  let keywords ← keywords.mapM fun k => do
    match k.toList with
    | [a, b] => return (some (String.singleton a), ← constant (.text (String.singleton b)))
    | cs => throw (.value (if cs.length < 2 then .unpackTooFew 2 cs.length else .unpackTooMany 2))
  let (result, _) ← call visit r args keywords
  return (← literal result).value

def parameterCount (r : Ref) : Sim Nat := do
  match ← object r with
  | .function f _ => return f.signature.count
  | .builtin name _ =>
    throw (.attribute (if Value.isClass name then .ofClass name "args"
      else .ofObject "builtin_function_or_method" "args"))
  | o => throw (.attribute (.ofObject o.className "getArgsRequired"))

def functionName (r : Ref) : Sim String := do
  match ← object r with
  | .function f _ => return f.name
  | .builtin _ _ => throw (.attribute (.ofObject "PyFunction" "_PyFunction__name"))
  | o => throw (.attribute (.ofObject o.className "getName"))

def functionKind (r : Ref) : Sim String := do
  match ← object r with
  | .function f _ => return if f.isLambda then "Lambda" else "FunctionDef"
  | .builtin name _ => return (Value.builtin name).typeName
  | o => throw (.attribute (.ofObject o.className "getObj"))

def addHandler (r : Ref) (node : Nat) : Sim Unit := do
  let space := (← locals).id
  update fun m => { m with handlers := ⟨r, space, node⟩ :: m.handlers }

def showVariables (vs : List (String × Variable)) : Sim String := do
  let lines ← vs.mapM fun (name, v) => do
    let shown ← match ← expression? v.object with
      | some t => ofWork (Work.print t)
      | none => pure "Unknown"
    return "   " ++ name ++ ": (" ++ v.type ++ ") " ++ shown ++ "\n"
  return "Namespace(\n" ++ String.join lines ++ ")"

def showLocals : Sim String := do
  let n ← locals
  let text ← showVariables n.entries
  setLocals { n with entries := n.entries.map fun (k, v) => (k, v.used) }
  return text

end Sim

def reset (root : Nat) : Sim Unit := Sim.update fun _ => .start root

def close : Sim Unit := do
  match (← Sim.machine).stack.getLast? with
  | some globals => Sim.finalize globals
  | none => return ()

def Sim.toWork {α : Type} (m : Sim α) : Work α := do
  let (r, w) := ((m.run Sim.fullRoom).run.run { machine := {}, session := ← get })
  set w.session
  match r with
  | .ok a => return a
  | .error e => throw e

def optimize (t : Tree) : Work Tree := do
  let t ← Work.share t
  match t with
  | .shared id =>
    Sim.toWork do
      reset id
      let t ← Sim.visit t
      close
      return t
  | t => return t

end SourceOptimizer.Simulation
