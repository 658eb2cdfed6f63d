import SourceOptimizer.Simulation.Machine
import SourceOptimizer.Tree.Build

/-! From expressions to objects and back. -/
namespace SourceOptimizer.Simulation.Sim

def ofExpression (t : Tree) : Sim Ref := do
  match t with
  | .absent => constant .none
  | t =>
    match ← look t with
    | .node _ (.name id ctx) _ =>
      if ctx != .load then throw .assertion
      return (← use id).object
    | .node _ (.constant l) _ => allocate (.constant l)
    | _ => allocate .unknown

def parameterNames (ts : List Tree) : Sim (List String) := ts.mapM fun t => do
  match ← look t with
  | .node _ (.arg name) _ => return name
  | _ => return ""

def isUnknown (r : Ref) : Sim Bool := do
  match ← object r with
  | .unknown => return true
  | _ => return false

/-- A function with its parameters and body. A default of which nothing is known makes it uncallable. -/
def functionOf (node : Nat) (isLambda : Bool) (name : String) (params : Tree) (body : List Tree) : Sim Ref := do
  match ← look params with
  | .node _ .arguments [first, plain, _, named, namedDefaults, _, defaults] =>
    let signature : Signature :=
      { positionOnly := ← parameterNames first.items
        plain := ← parameterNames plain.items
        keywordOnly := ← parameterNames named.items }
    let defaults ← defaults.items.mapM ofExpression
    let keywordDefaults ← namedDefaults.items.mapM ofExpression
    let callable := !(← defaults.anyM isUnknown)
    let f : Function :=
      { node, isLambda, name, signature, body, callable
        defaults := if callable then defaults else []
        keywordDefaults := if callable then signature.keywordOnly.zip keywordDefaults else [] }
    allocate (.function f [])
  | _ => allocate .unknown

def makeFunction (t : Tree) : Sim Ref := do
  match ← look t with
  | .node tag .lambda [params, body] => functionOf tag.id true "<lambda>" params [body]
  | .node tag (.functionDef name) [params, .seq body, _, _] => functionOf tag.id false name params body
  | _ => allocate .unknown

def ofNode (t : Tree) : Sim Ref := do
  match ← look t with
  | .node _ (.functionDef _) _ => makeFunction t
  | _ => ofExpression t

def bodyExpression? (f : Function) : Sim (Option Tree) := do
  match f.body with
  | [stmt] =>
    match ← look stmt with
    | .node _ .exprStmt [value] => return if f.signature.count == 0 then some value else none
    | .node _ kind _ => return if kind.isExpr && f.signature.count == 0 then some stmt else none
    | _ => return none
  | _ => return none

def expression? (r : Ref) : Sim (Option Tree) := do
  match ← object r with
  | .constant l => return some (← create (.make (.constant { l with marked := false }) []))
  | .function f _ => if f.isLambda then return some (.shared f.node) else bodyExpression? f
  | _ => return none

def getField (r : Ref) (name : String) : Sim Ref := do
  match ← object r with
  | .constant l => throw (.attribute (.ofObject s!"<class '{l.value.typeName}'>" name))
  | .unknown => return r
  | .plain fields | .builtin _ fields | .function _ fields =>
    match fields.lookup name with
    | some v => return v
    | none => throw (.attribute (.plain name))

def setField (r : Ref) (name : String) (v : Ref) : Sim Unit := do
  let add (fields : List (String × Ref)) := (name, v) :: fields
  match ← object r with
  | .constant l => throw (.attribute (.ofObject s!"<class '{l.value.typeName}'>" name))
  | .unknown => return ()
  | .plain fields => replace (.plain (add fields))
  | .builtin n fields => replace (.builtin n (add fields))
  | .function f fields => replace (.function f (add fields))
where
  replace (o : Object) : Sim Unit := update fun m => { m with objects := m.objects.setIfInBounds r o }

end SourceOptimizer.Simulation.Sim
