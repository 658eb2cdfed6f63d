import SourceOptimizer.Fault.Show
import SourceOptimizer.Native.Compile
import SourceOptimizer.Pass.Basic

/-! Definitions that are marked for native compilation are compiled and replaced by imports of the library.
The imports of the marks are removed. -/
namespace SourceOptimizer.Pass.Native

open SourceOptimizer.Native

structure Marks where
  compiler : Option Compiler := none
  /-- names that mark a definition -/
  names : List String := []
  /-- names that the module stores to -/
  existing : List String := []
  deriving Inhabited

abbrev Converting := StateT Marks Work

def markModule : String := "pylang_annotations"

def choose : Work (Option Compiler) := do
  let t := (← get).toolchain
  match t.chosen.or t.find? with
  | none =>
    Work.write .warn ["C compiler not available, native optimization will be skipped."]
    return none
  | some path =>
    let c := Compiler.ofPath path
    match c.command with
    | some command =>
      Work.write .info ["Use C compiler: '" ++ command ++ "'."]
      return some c
    | none => throw unknownCompiler

def importName? (t : Tree) : Work (Option (String × Option String)) := do
  match ← Work.look t with
  | .node _ (.importName name asName) _ => return some (name, asName)
  | _ => return none

def findName (wanted : String) : Nat → List Tree → Work (Option (Nat × Option String))
  | _, [] => return none
  | i, t :: ts => do
    match ← importName? t with
    | some (name, asName) => if name == wanted then return some (i, asName) else findName wanted (i + 1) ts
    | none => findName wanted (i + 1) ts

def withoutMark (t : Tree) : Converting (Option Tree) := do
  match ← Work.look t with
  | .node tag kind [.seq names] =>
    let found ← match kind with
      | .importStmt => findName markModule 0 names
      | .importFrom source _ => if source == some markModule then findName "native" 0 names else pure none
      | _ => pure none
    match found with
    | none => return some t
    | some (i, asName) =>
      let mark := match kind with
        | .importStmt => if asName.isSome then markModule ++ ".native" else "None.native"
        | _ => asName.getD "native"
      modify fun s => { s with names := s.names ++ [mark] }
      if names.length ≤ 1 then return none
      else
        let names := names.eraseIdx i
        Work.keep (.node tag kind [.seq names])
        match t with
        | .shared id => return some (.shared id)
        | _ => return some (.node tag kind [.seq names])
  | _ => return some t

def referenceOf (t : Tree) : Option Nat :=
  match t with
  | .shared id => some id
  | t => t.id?

/-- A body without the imports of marks. Of a statement that stands there several times the first one goes. -/
def withoutMarks : List Tree → List Tree → Converting (List Tree)
  | kept, [] => return kept
  | kept, t :: ts => do
    match ← withoutMark t with
    | none => withoutMarks (kept.eraseP fun k => referenceOf k == referenceOf t) ts
    | some new => withoutMarks (kept.map fun k => if referenceOf k == referenceOf t then new else k) ts

/-- Whether an expression that is no constant counts as set where a mark takes one; none if it has no value. -/
def valuePart? : Tree → Option Bool
  | .node _ kind parts =>
    match kind, parts with
    | .attr _ _, _ | .subscript _, _ | .starred _, _ | .namedExpr, _ | .await, _ | .yieldFrom, _
    | .formattedValue _, _ | .dictComp, _ => some true
    | .yield, [v] => some (!v.isAbsent)
    | _, _ => none
  | _ => none

def aloneAsked (args : List Tree) : Work Bool := do
  match args with
  | [] => return false
  | arg :: rest =>
    if !rest.isEmpty then
      Work.flag s!"ValueError: excepted 1 arg, got {args.length}." rest
    match ← literal? arg with
    | some l => return l.value.truth
    | none =>
      Work.flag "TypeError: excepted a Constant object." [arg]
      let arg ← Work.look arg
      match valuePart? arg with
      | some b => return b
      | none => throw (.attribute (.ofObject arg.kindName "value"))

def mark? (names : List String) (t : Tree) : Work (Option (Work Bool)) := do
  match ← Work.look t with
  | .node _ (.name id _) _ => return if names.contains id then some (return false) else none
  | .node _ .call (function :: .seq args :: _) =>
    match ← Work.look function with
    | .node _ (.name id _) _ => return if names.contains id then some (aloneAsked args) else none
    | _ => return none
  | _ => return none

def findMark (names : List String) : Nat → List Tree → Work (Option (Nat × Work Bool))
  | _, [] => return none
  | i, t :: ts => do
    match ← mark? names t with
    | some ask => return some (i, ask)
    | none => findMark names (i + 1) ts

def importCode (library name : String) : String :=
  "\nif __name__ == \"__main__\":\n    from " ++ library ++ " import " ++ name ++
  "\nelse:\n    from ." ++ library ++ " import " ++ name ++ "\n"

def convert (t : Tree) (name : String) (alone : Bool) : Converting (Option Tree) := do
  let current ← match (← getThe Session).current with
    | some c => pure c
    | none => throw (.attribute (.ofObject "NoneType" "copy"))
  let code ← if alone then do pure { current with text := ← Work.print t } else pure current
  let marks ← get
  match marks.compiler with
  | none => return none
  | some c =>
    let (c, result) ← Native.compile c code marks.existing
    set { marks with compiler := some c }
    match result with
    | .ok (some library) =>
      modifyThe Session fun s => { s with sources := s.sources ++ [library] }
      let file := dropSuffix (dropSuffix library.fileName ".pyd") ".so"
      return some (← Work.parse (importCode file name))
    | .ok none => return ← failed code
    | .error e =>
      Work.write .debug ["Exception while compiling: ", e.constructorText]
      failed code
where
  failed (code : Code) : Work (Option Tree) := do
    Work.write .warn ["Fail to compile " ++ code.fileName ++ ", skipped."]
    return none

def definition (visit : Tree → Converting (List Tree)) (t : Tree) (name : String) (decorators : List Tree)
    (without : List Tree → Tree) : Converting (List Tree) := do
  let marks ← get
  if marks.compiler.isNone then return [← inside visit t]
  match ← findMark marks.names 0 decorators with
  | none => return [← inside visit t]
  | some (i, ask) =>
    let t := without (decorators.eraseIdx i)
    Work.keep t
    let alone ← ask
    match ← convert t name alone with
    | some new => return [new]
    | none => return [← inside visit t]

def rule : Rule Converting := fun visit tag kind parts => do
  match kind, parts with
  | .moduleDef, [.seq body] =>
    let body ← withoutMarks body body
    return [← inside visit (.node tag kind [.seq body])]
  | .name id .store, _ =>
    modify fun s => { s with existing := if s.existing.contains id then s.existing else s.existing ++ [id] }
    return [.node tag kind parts]
  | .functionDef name, [parameters, body, .seq decorators, result] =>
    definition visit (.node tag kind parts) name decorators fun ds =>
      .node tag kind [parameters, body, .seq ds, result]
  | .classDef name, [bases, keywords, body, .seq decorators] =>
    definition visit (.node tag kind parts) name decorators fun ds =>
      .node tag kind [bases, keywords, body, .seq ds]
  | _, _ => return [← inside visit (.node tag kind parts)]

def run (marks : Marks) (t : Tree) : Work (Tree × Marks) :=
  (runDeep rule t).run { marks with names := [], existing := [] }

end SourceOptimizer.Pass.Native
