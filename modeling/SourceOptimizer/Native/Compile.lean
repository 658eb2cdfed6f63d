import SourceOptimizer.Session

/-! Making native modules: the source is put into a cache folder under a new name, the compiler makes a library
beside it, and the library is taken from there. -/
namespace SourceOptimizer.Native

/-- The root that a path is written from. More than two slashes count as one. -/
def rootOf (path : String) : String :=
  match path.toList.takeWhile (· == '/') with
  | [] => ""
  | ['/', '/'] => "//"
  | _ => "/"

def namedParts (path : String) : List String := (path.splitOn "/").filter fun p => p != "" && p != "."

def shownPath (root : String) (parts : List String) : String :=
  if root == "" && parts.isEmpty then "." else root ++ "/".intercalate parts

/-- The folder of a module below the cache; one that is written from the root is taken as it is. -/
def cacheFolder (path : String) : String :=
  let parent := replaceAll (shownPath (rootOf path) (namedParts path).dropLast) "\\\\" "."
  if rootOf parent == "" then shownPath "" ("cache" :: namedParts parent)
  else shownPath (rootOf parent) (namedParts parent)

def dropSuffix (s suffix : String) : String :=
  if suffix != "" && s.endsWith suffix then String.ofList (s.toList.take (s.length - suffix.length)) else s

def libraryEnding? (name : String) : Option String :=
  if name.endsWith ".pyd" then some "pyd" else if name.endsWith ".so" then some "so" else none

abbrev Listing := Files → Path → List String

def inOrder : Listing := fun files place => (files.entries place).1

/-- The library of a module among the files of a folder: the first one on the list with a name that begins with the name of the
module. -/
def findLibrary (files : Files) (folder name : String) (listing : Listing := inOrder) : Option (String × List Nat) :=
  let place := Path.ofString folder
  (listing files place).findSome? fun file =>
    if file.startsWith name then do
      let ending ← libraryEnding? file
      let bytes ← files.content? (place ++ [file])
      return (ending, bytes)
    else none

def writeFile (path : String) (bytes : List Nat) : Work Unit := do
  let s ← get
  let files ← Work.ofExcept (s.files.write path bytes)
  set { s with files }

def makeFolders (path : String) : Work Unit := do
  let s ← get
  let files ← Work.ofExcept (s.files.makeFolders path)
  set { s with files }

/-- Let the toolchain build a library. What it did to the files before a fault stays done. -/
def runSetup (command source folder : String) : Work Unit := do
  let s ← get
  let built := s.toolchain.setup command source folder s.files
  set { s with files := built.1, compilerSet := some command }
  match built.2 with
  | some e => throw e
  | none => return ()

def build (command : Option String) (name : String) (code : Code) (listing : Listing := inOrder) :
    Work (Option Source) := do
  let folder := cacheFolder code.path
  makeFolders folder
  writeFile (folder ++ "/" ++ name ++ ".pyx") code.bytes
  Work.write .info ["Compiling " ++ code.fileName ++ " as native module..."]
  match command with
  | none => throw unknownCompiler
  | some command => runSetup command (folder ++ "/" ++ name ++ ".pyx") folder
  return (findLibrary (← get).files folder name listing).map fun (ending, bytes) =>
    .native (replaceAll code.path code.fileName (name ++ "." ++ ending)) bytes

def observed {α : Type} (action : Work α) : Work (Except Fault α) := do
  try return .ok (← action)
  catch e => return .error e

/-- Compile a source as a module with a new name, which is used up even if the rest fails. -/
def compile (c : Compiler) (code : Code) (taken : List String) (listing : Listing := inOrder) :
    Work (Compiler × Except Fault (Option Source)) := do
  match c.name? (dropSuffix code.fileName ".py") taken (← get).toolchain.loaded with
  | none => return (c, .error (.value .noNativeName))
  | some (name, c) => return (c, ← observed (build c.command name code listing))

end SourceOptimizer.Native
