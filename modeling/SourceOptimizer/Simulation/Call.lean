import SourceOptimizer.Simulation.Unused
import SourceOptimizer.Value.Builtin

/-! Simulated calls. A call of a function of the program visits its statements in a namespace of its own, up to
the first one that leaves the normal course. -/
namespace SourceOptimizer.Simulation.Sim

def containsCall : Nat → Tree → Sim Bool
  | 0, _ => throw .recursion
  | _ + 1, .absent => return false
  | depth + 1, .seq items => items.anyM (containsCall depth)
  | depth + 1, t => do
    match ← look t with
    | .node _ .call _ => return true
    | .node _ _ parts => parts.anyM (containsCall depth)
    | _ => return false

def foreignFault : Value → Fault
  | .builtin name =>
    if Value.isClass name then .attribute (.ofClass name "type")
    else .attribute (.ofObject "builtin_function_or_method" "type")
  | .method _ => .attribute (.ofObject "function" "type")
  | v => .attribute (.ofObject v.typeName "type")

/-- What becomes of a simulated function that a predefined one calls: it takes objects and is given a value. -/
def foreignCall (m : Machine) (r : Ref) (v : Value) : Builtin.Answer :=
  match m.objects[r]? with
  | some (.function f _) =>
    if !f.callable then .error .unknown
    else do
      f.signature.checkCounts f.name f.defaults.length f.keywordDefaults.length 1 0
      .error (foreignFault v)
  | _ => .error .unknown

def callBuiltin (name : String) (args : List Ref) (keywords : List (String × Ref)) : Sim (Ref × Bool) := do
  let values ← args.mapM literal
  let named ← keywords.mapM fun (k, r) => return (k, (← literal r).value)
  match Builtin.call? (foreignCall (← machine)) name (values.map (·.value)) named with
  | some result => return (← ofValue (← ofExcept result), true)
  | none => return (← allocate .unknown, true)

/-- Visit the statements of a function; the result, and whether no call was seen. -/
def runBody (visit : Tree → Sim Tree) : Bool → List Tree → Sim (Ref × Bool)
  | pureSoFar, [] => return (← constant .none, pureSoFar)
  | pureSoFar, stmt :: rest => do
    let _ ← visit stmt
    let calls ← if pureSoFar then do containsCall (3 * (← get).session.store.next + 100) stmt else pure false
    let pureSoFar := pureSoFar && !calls
    match (← machine).interrupt with
    | some { kind := .returned, value, .. } =>
      finish
      return (value, pureSoFar)
    | some _ => return (← allocate .unknown, false)
    | none => runBody visit pureSoFar rest

def callFunction (visit : Tree → Sim Tree) (f : Function) (args : List Ref) (keywords : List (String × Ref)) :
    Sim (Ref × Bool) := do
  if !f.callable then throw .unknown
  pushNamespace
  ending (do
    let bound ← ofExcept (f.signature.bind f.name f.defaults f.keywordDefaults args keywords)
    for (name, r) in bound do putObject name r
    runBody visit true f.body) popNamespace

def checkKeywords (o : Object) (keywords : List (Option String × Ref)) :
    Except Fault (List (String × Ref)) := do
  let named ← keywords.mapM fun (k, r) =>
    match k with
    | some k => .ok (k, r)
    | none => .error (.type .keywordsNotText)
  if named.any (·.1 == "self") then .error (.type (.multipleValues (o.className ++ ".call") "self"))
  else .ok named

def call (visit : Tree → Sim Tree) (r : Ref) (args : List Ref) (keywords : List (Option String × Ref)) :
    Sim (Ref × Bool) := do
  let o ← object r
  let keywords ← ofExcept (checkKeywords o keywords)
  match o with
  | .constant l => throw (.type (.valueNotCallable l.value.typeName))
  | .plain _ => throw (.type .objectNotCallable)
  | .unknown => return (← allocate .unknown, false)
  | .builtin name _ => callBuiltin name args keywords
  | .function f _ => callFunction visit f args keywords

end SourceOptimizer.Simulation.Sim
