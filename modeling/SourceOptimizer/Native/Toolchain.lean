import SourceOptimizer.Files
import SourceOptimizer.Text.Identifier
import SourceOptimizer.Token.Basic

/-! Compilers for native modules: which one is there, how it is called, and the names of the modules that it
makes. -/
namespace SourceOptimizer

/-- Modules that a plain run has loaded. -/
def Native.loadedModules : List String :=
  ["os", "sys", "ast", "math", "json", "re", "builtins", "__main__", "typing", "os.path"]

/-- The programs around: those that exist, those of them that fail, the one that was asked for, the modules
that are loaded, and what a build does. -/
structure Toolchain where
  available : List String := ["gcc"]
  broken : List String := []
  chosen : Option String := none
  loaded : List String := Native.loadedModules
  /-- told the command, the source file and the folder for libraries: the files afterwards, and the fault
  that the build ends with if it does -/
  setup : String → String → String → Files → Files × Option Fault := fun _ _ _ files => (files, none)
  deriving Inhabited

namespace Toolchain

def works (t : Toolchain) (program : String) : Bool :=
  t.available.contains program && !t.broken.contains program

def find? (t : Toolchain) : Option String := ["cl", "clang", "gcc"].find? t.works

end Toolchain

namespace Native

def isImportName (name : String) (loaded : List String := loadedModules) : Bool :=
  Text.isIdentifier (Text.ofString name) && !Token.isKeyword name && !loaded.contains name

structure Compiler where
  command : Option String
  generated : List String := []
  deriving Inhabited

def Compiler.ofPath (path : String) : Compiler where
  command :=
    if path == "cl" then some (path ++ " /O2 /GL")
    else if path == "gcc" || path == "clang" then some (path ++ " -Ofast")
    else none

def candidate (base : String) (i : Nat) : String :=
  if i == 0 then "Native_" ++ base else s!"Native_{base}_{i}"

def candidates (base : String) : List String := (List.range 1000).map (candidate base)

def Compiler.newName? (c : Compiler) (base : String) (taken : List String) (loaded : List String := loadedModules) :
    Option String :=
  (candidates base).find? fun n => isImportName n loaded && !taken.contains n && !c.generated.contains n

def Compiler.name? (c : Compiler) (base : String) (taken : List String) (loaded : List String := loadedModules) :
    Option (String × Compiler) :=
  (c.newName? base taken loaded).map fun n => (n, { c with generated := c.generated ++ [n] })

def noNameFault (base : String) : Fault :=
  .runtime ("Failed to generate a valid import name for '" ++ base ++ "'")

structure Request where
  base : String
  taken : List String
  loaded : List String := loadedModules

def Compiler.answer (c : Compiler) (r : Request) : Except Fault String × Compiler :=
  match c.name? r.base r.taken r.loaded with
  | some (name, c) => (.ok name, c)
  | none => (.error (noNameFault r.base), c)

def unknownCompiler : Fault := .attribute (.ofObject "CythonCompiler" "compilerPrefix")

end Native
end SourceOptimizer
