import SourceOptimizer.Pass.Basic
import SourceOptimizer.Tree.Build

/-! Removal of documentation: text statements in the bodies of functions, classes and modules, and the declared
types of parameters and results. A body that would be empty gets a `pass`. -/
namespace SourceOptimizer.Pass.Documentation

def stripParameter (t : Tree) : Work Tree :=
  revise t fun parts => do
    match parts with
    | [type] =>
      if type.isAbsent then return parts
      else
        Work.done
        return [.absent]
    | _ => return parts

def hasType (t : Tree) : Work Bool := do
  match ← Work.look t with
  | .node _ (.arg _) [type] => return !type.isAbsent
  | _ => return false

def stripVariadic (t : Tree) : Work Tree := if t.isAbsent then pure t else stripParameter t

/-- Whether the parameter for keywords loses its type is decided by the one for positions. -/
def stripKeywordVariadic (variadic t : Tree) : Work Tree :=
  if t.isAbsent then pure t
  else if variadic.isAbsent then throw (.attribute (.ofObject "NoneType" "annotation"))
  else do if ← hasType variadic then stripParameter t else pure t

/-- Remove the declared types of parameters. Positional-only ones keep theirs; the parameter for positions has
lost its own by the time it is asked about the one for keywords. -/
def stripParameters (t : Tree) : Work Tree :=
  revise t fun parts => do
    match parts with
    | [positional, .seq plain, variadic, .seq keywordOnly, keywordDefaults, keywordVariadic, defaults] =>
      let plain ← plain.mapM stripParameter
      let keywordOnly ← keywordOnly.mapM stripParameter
      let variadic ← stripVariadic variadic
      let keywordVariadic ← stripKeywordVariadic variadic keywordVariadic
      return [positional, .seq plain, variadic, .seq keywordOnly, keywordDefaults, keywordVariadic, defaults]
    | _ => return parts

def isText (t : Tree) : Work Bool := do
  match ← Work.look t with
  | .node _ .exprStmt [v] =>
    match ← literal? v with
    | some { value := .str _, .. } => return true
    | _ => return false
  | _ => return false

def stripBody : List Tree → Work (List Tree)
  | [] => return []
  | t :: ts => do
    if ← isText t then
      Work.done
      stripBody ts
    else return t :: (← stripBody ts)

def documentedBody (body : List Tree) : Work Tree := do
  let body ← stripBody body
  if body.isEmpty then
    Work.done
    return .seq [← Work.adopt .pass]
  else return .seq body

def dropResult (t : Tree) : Work Tree :=
  if t.isAbsent then pure t
  else do
    Work.done
    return .absent

def strip (kind : Kind) (parts : List Tree) : Work (List Tree) := do
  match kind, parts with
  | .functionDef _, [parameters, .seq body, decorators, result] =>
    let parameters ← stripParameters parameters
    let result ← dropResult result
    return [parameters, ← documentedBody body, decorators, result]
  | .classDef _, [bases, keywords, .seq body, decorators] =>
    return [bases, keywords, ← documentedBody body, decorators]
  | .moduleDef, [.seq body] => return [← documentedBody body]
  | _, _ => return parts

def step : Step Work := fun tag kind _ visited =>
  descend tag kind do strip kind (← visited)

end SourceOptimizer.Pass.Documentation
