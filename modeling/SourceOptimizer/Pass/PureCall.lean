import SourceOptimizer.Pass.Basic
import SourceOptimizer.Tree.Build
import SourceOptimizer.Value.Builtin

/-! Calls of functions without effect on constants are replaced by their results, and a truth test by a double
negation. A call that must fail is only warned about. -/
namespace SourceOptimizer.Pass.PureCall

mutual

/-- The constants that an expression consists of: the items of lists, tuples and sets count one by one. None if
something else is among them; a mapping has no items to look at. -/
def constants : Tree → Except Fault (Option (List Literal))
  | .node _ (.list _) [items] | .node _ (.tuple _) [items] | .node _ .setDisplay [items] => constantItems items
  | .node _ .dict _ => .error (.attribute (.ofObject "Dict" "elts"))
  | .node _ (.constant l) _ => .ok (some [l])
  | _ => .ok none

def constantItems : Tree → Except Fault (Option (List Literal))
  | .seq items => constantsAll items
  | _ => .ok (some [])

def constantsAll : List Tree → Except Fault (Option (List Literal))
  | [] => .ok (some [])
  | t :: ts => do
    match ← constants t with
    | none => .ok none
    | some own =>
      match ← constantsAll ts with
      | none => .ok none
      | some rest => .ok (some (own ++ rest))

end

def constants? (store : Store) (ts : List Tree) : Except Fault (Option (List Literal)) :=
  constantsAll (ts.map store.expand)

def keywordParts : Tree → Option String × Tree
  | .node _ (.keyword name) [value] => (name, value)
  | _ => (none, .absent)

/-- Keyword values by name: the values stand in the order of the keywords, of which there must not be fewer;
a later keyword of one name wins, in the place of the first. -/
def keywordValues (names : List (Option String)) (values : List Value) :
    Except Fault (List (Option String × Value)) :=
  if names.length < values.length then .error .index
  else .ok ((names.zip values).foldl (fun acc (k, v) =>
    if acc.any (·.1 == k) then acc.map fun e => if e.1 == k then (k, v) else e else acc ++ [(k, v)]) [])

def passKeywords (function : String) (kws : List (Option String × Value)) : Except Fault Builtin.Keywords := do
  let named ← kws.mapM fun (k, v) =>
    match k with
    | some k => .ok (k, v)
    | none => .error (.type .keywordsNotText)
  if named.any (·.1 == "name") then .error (.type (.multipleValues "PureFunctions.call" "name"))
  else if Builtin.isPure function && named.any (·.1 == "self") then
    .error (.type (.multipleValues "_PureFunction.call" "self"))
  else .ok named

def infinite : Work Tree := do
  match (← get).infinity with
  | some id => return .shared id
  | none => remember "inf" fun s id => { s with infinity := some id }
where
  remember (name : String) (put : Session → Nat → Session) : Work Tree := do
    match ← Work.parse ("__import__('math')." ++ name) with
    | .node _ _ [.seq [.node _ .exprStmt [value]]] =>
      let t ← Work.share value
      match t with
      | .shared id => modify fun s => put s id
      | _ => pure ()
      return t
    | t => return t

def undefined : Work Tree := do
  match (← get).notANumber with
  | some id => return .shared id
  | none => infinite.remember "nan" fun s id => { s with notANumber := some id }

def readBack (text : String) : Work (Option Tree) := do
  let s ← get
  match Tree.parse s.store.next text with
  | .error _ => return none
  | .ok (.node _ _ [.seq (.node _ .exprStmt [value] :: _)], next) =>
    set { s with store := { s.store with next } }
    return some value
  | .ok _ => return none

/-- A result as an expression: a floating point number by itself, all else by its text. -/
def express (function : String) (v : Value) : Work (Option Tree) := do
  match function, v with
  | "float", .float x =>
    if Number.isInf x then return some (← infinite)
    else if Number.isNaN x then return some (← undefined)
    else return some (← Work.adopt (.constant (.float x)))
  | _, v =>
    match v.toText with
    | .ok text =>
      match Text.toString? text with
      | some s => readBack s
      | none => return none
    | .error _ => return none

def noInvoke : Nat → Value → Builtin.Answer := fun _ _ => .error .unknown

def call (function : String) (args : List Value) (kws : Builtin.Keywords) : Work (Option Tree) := do
  match Builtin.call? noInvoke function args kws with
  | none => return none
  | some (.error e) => throw e
  | some (.ok v) => express function v

def other (function : String) (args keywords : List Tree) : Except Fault (Option Tree) :=
  if function != "bool" then .ok none
  else if !keywords.isEmpty then .error (.type (.noKeywords "bool"))
  else match args with
    | [] => .ok none
    | [arg] => .ok (some (.make (.unaryOp .not) [.make (.unaryOp .not) [arg]]))
    | args => .error (.type (.expectedAtMostOne "bool" args.length))

def arguments? (store : Store) (function : String) (args keywords : List Tree) :
    Except Fault (Option (List Value × Builtin.Keywords)) := do
  let kws := keywords.map fun t => keywordParts (store.expand t)
  let values ← constants? store args
  let kwValues ← constantsAll (kws.map (·.2))
  match values, kwValues with
  | some values, some kwValues =>
    let named ← keywordValues (kws.map (·.1)) (kwValues.map (·.value))
    let named ← passKeywords function named
    return some (values.map (·.value), named)
  | _, _ => return none

def replacement (function : String) (args keywords : List Tree) : Work (Option Tree) := do
  let store := (← get).store
  match ← Work.ofExcept (arguments? store function args keywords) with
  | some (values, named) => call function values named
  | none =>
    match ← Work.ofExcept (other function args keywords) with
    | some t => return some (← Work.adopt t)
    | none => return none

def step : Step Work := fun tag kind parts visited => do
  match kind, parts with
  | .call, [function, .seq args, .seq keywords] =>
    match ← Work.look function with
    | .node _ (.name id .load) _ =>
      let result ←
        try replacement id args keywords
        catch e =>
          Work.flagFault e [.node tag kind parts]
          pure none
      match result with
      | some t => return [t]
      | none => descend tag kind visited
    | _ => descend tag kind visited
  | _, _ => descend tag kind visited

end SourceOptimizer.Pass.PureCall
