import SourceOptimizer.Session

/-! The sources of a session: reading files as modules, and writing modules back to sources. -/
namespace SourceOptimizer

def unifyLines : Text → Text
  | [] => []
  | 13 :: 10 :: cs => 10 :: unifyLines cs
  | 13 :: cs => 10 :: unifyLines cs
  | c :: cs => c :: unifyLines cs

def readText (path : String) : Work String := do
  let s ← get
  match s.files.read path with
  | .error (.file (.notFound _)) => throw (.file (.undecodable path))
  | .error e => throw e
  | .ok bytes =>
    match Text.decodeUtf8 bytes with
    | .ok text => return Text.display (unifyLines text)
    | .error fault => throw (.undecodable "utf-8" fault.describe)

def addProgram (programs : List Program) (code : Code) (tree : Tree) : List Program :=
  if programs.any (·.code == code) then
    programs.map fun p => if p.code == code then { p with tree } else p
  else programs ++ [⟨code, tree⟩]

/-- What is compared: a node of a program, or a value. -/
inductive Datum where
  | node (t : Tree)
  | value (v : Value)

/-- Nodes are equal by identity, values by what they are; a node is never a value. -/
def Datum.equal : Datum → Datum → Bool
  | .node t, .node u => t.id? == u.id?
  | .value v, .value w => v.equal w
  | _, _ => false

def isImport : Tree → Bool
  | .node _ .importStmt _ | .node _ (.importFrom _ _) _ => true
  | _ => false

/-- The import that asks for its module to be skipped. The text is looked for among the imported names as
they are, which are nodes. -/
def skips : Tree → Bool
  | .node _ (.importFrom source _) [.seq names] =>
    source == some "pylang_annotations" &&
      names.any fun name => Datum.equal (.value (.text "skip_module")) (.node name)
  | _ => false

/-- Whether a module is worked on, asked of its statements: none of the imports that it begins with skips it. -/
def checkModule : List Tree → Bool
  | [] => true
  | t :: ts => if !isImport t then true else if skips t then false else checkModule ts

/-- Read a file as a module. A file that is no program, or whose module is skipped, stays a source. -/
def parseFile (path : String) : Work Unit := do
  let code : Code := ⟨replaceAll path "\\" "/", ← readText path⟩
  modify fun s => { s with sources := s.sources ++ [.code code] }
  try
    let tree ← Work.parse code.text
    let body := match tree with
      | .node _ _ [body] => body.items
      | _ => []
    Work.write .debug ["Find module in source " ++ Style.cyan ++ code.path ++ Style.plain ++
      s!" with {body.length} ast objects."]
    if checkModule body then modify fun s => { s with modules := addProgram s.modules code tree }
    else Work.write .debug ["Skipped module in source " ++ code.path ++ "."]
  catch
    | .source cause =>
      Work.write .warn ["Failed to parse " ++ path ++ ". skipped."]
      Work.write .debug [cause.className, ": ", "invalid syntax (<unknown>, line 1)"]
    | e => throw e

def otherSources (paths : List String) : List Source → List Source
  | [] => []
  | s :: ss => if paths.contains s.path then otherSources paths ss else s :: otherSources (paths ++ [s.path]) ss

def updateSources : Work Unit := do
  let s ← get
  if s.modules.isEmpty && s.sources.isEmpty then return ()
  let modules ← s.modules.mapM fun p => do
    return { p with code := { p.code with text := ← Work.print p.tree } }
  let fresh := modules.map fun p => Source.code p.code
  let sources := fresh ++ otherSources (fresh.map Source.path) s.sources
  modify fun s => { s with modules, sources }
  match s.current with
  | none => throw (.attribute (.ofObject "NoneType" "getFilepath"))
  | some code =>
    match sources.find? (·.path == code.path) with
    | none => throw .exhausted
    | some (.code code) => modify fun s => { s with current := some code }
    | some (.native _ _) => pure ()

end SourceOptimizer
