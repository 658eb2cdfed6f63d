import SourceOptimizer.Pass.Basic

/-! Removal of assignments of constants to local variables that are not used. A body is gone through twice: the
first time what is stored and loaded is noted, the second time assignments to variables without use are
dropped. -/
namespace SourceOptimizer.Pass.Unused

inductive Phase where
  | idle | first | second | bypass
  deriving DecidableEq, Repr

structure Usage where
  /-- names that are declared global or nonlocal -/
  bypassed : List String := []
  /-- names in the condition of the current loop -/
  loopNames : List String := []
  assigned : List String := []
  firstAssigned : List String := []
  used : List String := []
  phase : Phase := .idle
  /-- the body of the function that was left last, if one was left since the current one was entered -/
  lastBody : Option (List Tree) := none
  deriving Inhabited

namespace Usage

def bypasses (u : Usage) (name : String) : Bool :=
  u.bypassed.contains name || u.loopNames.contains name ||
    match u.phase with
    | .first | .bypass => true
    | .second => !u.firstAssigned.contains name || u.used.contains name
    | .idle => false

def insert (names : List String) (name : String) : List String :=
  if names.contains name then names else names ++ [name]

def remove (names : List String) (name : String) : List String := names.filter (· != name)

def note (u : Usage) (name : String) (ctx : Context) : Usage :=
  if u.phase == .idle || u.bypassed.contains name then u
  else
    let u := if u.phase == .bypass then { u with loopNames := insert u.loopNames name } else u
    match ctx with
    | .load => { u with used := insert u.used name, assigned := remove u.assigned name }
    | .store =>
      if u.firstAssigned.contains name then { u with assigned := insert u.assigned name }
      else { u with firstAssigned := insert u.firstAssigned name }
    | .del =>
      { u with used := remove u.used name, assigned := remove u.assigned name
               firstAssigned := remove u.firstAssigned name }

end Usage

abbrev Removing := StateT Usage Work

def storedName? (t : Tree) : Work (Option String) := do
  match ← Work.look t with
  | .node _ (.name id .store) _ => return some id
  | _ => return none

def keepTargets : List Tree → Removing (List Tree)
  | [] => return []
  | t :: ts => do
    match ← storedName? t with
    | some name =>
      if (← get).bypasses name then return t :: (← keepTargets ts)
      else
        Work.done
        match ts with
        | [] => return []
        | next :: rest => return next :: (← keepTargets rest)
    | none => return t :: (← keepTargets ts)

def assignOne (visit : Tree → Removing (List Tree)) (t target value : Tree) : Removing (List Tree) := do
  match ← storedName? target with
  | some name =>
    if (← isConstant value) && !(← get).bypasses name then
      Work.done
      return []
    else return [← inside visit t]
  | none => return [← inside visit t]

def isPass (t : Tree) : Work Bool := do
  match ← Work.look t with
  | .node _ .passStmt _ => return true
  | _ => return false

def declared? (t : Tree) : Work (Option (List String)) := do
  match ← Work.look t with
  | .node _ (.globalStmt names) _ | .node _ (.nonlocalStmt names) _ => return some names
  | _ => return none

def dropPass (body : List Tree) : Work (List Tree) := do
  if body.length ≤ 1 then return body
  else body.filterM fun t => return !(← isPass t)

def noteBody (visit : Tree → Removing (List Tree)) (t : Tree) : Removing Tree := do
  match ← declared? t with
  | some names =>
    modify fun u => { u with bypassed := u.bypassed ++ names }
    return t
  | none => inside visit t

/-- A function: its body twice, then all of it as the surroundings ask. A function that was left in between
puts its own body in the place of this one. -/
def function (visit : Tree → Removing (List Tree)) (tag : Tag) (kind : Kind) (parts : List Tree) :
    Removing Tree := do
  match parts with
  | [parameters, .seq body, decorators, result] =>
    let outer ← get
    -- the statements may get to stand in an outer function as well
    let body ← if outer.phase == .idle then pure body else body.mapM fun t => do Work.share t
    set { phase := .first : Usage }
    let body ← body.mapM (noteBody visit)
    let body := ((← get).lastBody).getD body
    modify fun u => { u with phase := .second, lastBody := none }
    let body ← body.mapM (inside visit)
    let body := ((← get).lastBody).getD body
    let body ← dropPass body
    set { outer with lastBody := some body }
    Work.keep (.node tag kind [parameters, .seq body, decorators, result])
    inside visit (.node tag kind [parameters, .seq body, decorators, result])
  | _ => return .node tag kind parts

def whileLoop (visit : Tree → Removing (List Tree)) (tag : Tag) (kind : Kind) (parts : List Tree) :
    Removing Tree := do
  match parts with
  | test :: rest =>
    let before := (← get).phase
    modify fun u => { u with phase := .bypass }
    let test ← inside visit test
    let t ← inside visit (.node tag kind (test :: rest))
    modify fun u => { u with phase := before, loopNames := [] }
    return t
  | [] => return .node tag kind parts

def anonymous (visit : Tree → Removing (List Tree)) (tag : Tag) (kind : Kind) (parts : List Tree) :
    Removing Tree := do
  match parts with
  | [parameters, body] =>
    let outer ← get
    let body ← inside visit body
    modify fun u => { outer with lastBody := u.lastBody }
    Work.keep (.node tag kind [parameters, body])
    return .node tag kind [parameters, body]
  | _ => return .node tag kind parts

def rule : Rule Removing := fun visit tag kind parts => do
  let t := Tree.node tag kind parts
  let idle := (← get).phase == .idle
  match kind, parts with
  | .name id ctx, _ =>
    modify fun u => u.note id ctx
    return [t]
  | .functionDef _, _ => return [← function visit tag kind parts]
  | .assign, [.seq targets, value] =>
    if idle || !(← isConstant value) then return [← inside visit t]
    else
      let targets ← keepTargets targets
      Work.keep (.node tag kind [.seq targets, value])
      if targets.isEmpty then return [] else return [← inside visit (.node tag kind [.seq targets, value])]
  | .annAssign _, [target, _, value] =>
    if idle then return [← inside visit t] else assignOne visit t target value
  | .augAssign _, [target, value] =>
    if idle then return [← inside visit t] else assignOne visit t target value
  | .forStmt, target :: _ =>
    if !idle then
      match ← storedName? target with
      | some name => modify fun u => { u with assigned := Usage.insert u.assigned name }
      | none => pure ()
    return [← inside visit t]
  | .whileStmt, _ => if idle then return [← inside visit t] else return [← whileLoop visit tag kind parts]
  | .lambda, _ => if idle then return [← inside visit t] else return [← anonymous visit tag kind parts]
  | _, _ => return [← inside visit t]

def run (usage : Usage) (t : Tree) : Work (Tree × Usage) := (runDeep rule t).run usage

end SourceOptimizer.Pass.Unused
