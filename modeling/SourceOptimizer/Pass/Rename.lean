import SourceOptimizer.Pass.Basic

/-! Shorter names for the local variables of functions. A function is gone through twice: the first time every
name that is stored gets a new one, the second time the names are replaced. Parameters and names declared
global or nonlocal keep theirs. -/
namespace SourceOptimizer.Pass.Rename

def letters : List Char := ['I', 'l']

def firstNumber : Int := 32

/-- The digits of a number written with `letters`, which stand for 1 and 2. -/
def spellWithin : Nat → Nat → List Char → List Char
  | 0, _, acc => acc
  | fuel + 1, n, acc =>
    if n == 0 then acc
    else
      let c := if (n - 1) % 2 == 0 then 'I' else 'l'
      spellWithin fuel ((n - 1) / 2) (c :: acc)

def spell (n : Nat) : String := String.ofList (spellWithin n n [])

/-- The next number after `n` with a name that can be imported. At most `fuel` numbers are passed over. -/
def nextNumber (loaded : List String) : Nat → Int → Int
  | 0, n => n + 1
  | fuel + 1, n => if Native.isImportName (spell (n + 1).toNat) loaded then n + 1 else nextNumber loaded fuel (n + 1)

/-- Only the name of no number and the names of loaded modules are passed over. -/
def generate (assigned : Int) (loaded : List String := Native.loadedModules) : String × Int :=
  let n := nextNumber loaded ((-assigned).toNat + loaded.length) assigned
  (spell n.toNat, n)

inductive Phase where
  | idle | search | replace
  deriving DecidableEq, Repr

structure Naming where
  /-- names that are declared global or nonlocal -/
  bypassed : List String := []
  /-- new names of variables -/
  mapping : List (String × String) := []
  assigned : Int := firstNumber
  /-- inside a comprehension -/
  ignoring : Bool := false
  phase : Phase := .idle
  deriving Inhabited

abbrev Renaming := StateT Naming Work

namespace Naming

def newName? (n : Naming) (id : String) : Option String := (n.mapping.find? (·.1 == id)).map (·.2)

def map (n : Naming) (old new : String) : Naming :=
  if n.mapping.any (·.1 == old) then
    { n with mapping := n.mapping.map fun e => if e.1 == old then (old, new) else e }
  else { n with mapping := n.mapping ++ [(old, new)] }

def noteStore (n : Naming) (id : String) : Naming :=
  if n.ignoring || n.bypassed.contains id || (n.newName? id).isSome then n
  else
    let (name, assigned) := generate n.assigned
    { n.map id name with assigned }

end Naming

def renameName (id : String) (ctx : Context) : Renaming String := do
  let n ← get
  match n.phase with
  | .idle => return id
  | .search =>
    if ctx == .store then set (n.noteStore id)
    return id
  | .replace => return (n.newName? id).getD id

def plainParameters (store : Store) (parameters : Tree) : List String :=
  match store.look parameters with
  | .node _ .arguments (_ :: plain :: _) =>
    plain.items.filterMap fun a =>
      match store.look a with
      | .node _ (.arg name) _ => some name
      | _ => none
  | _ => []

def declared? (store : Store) (t : Tree) : Option (List String) :=
  match store.look t with
  | .node _ (.globalStmt names) _ | .node _ (.nonlocalStmt names) _ => some names
  | _ => none

def isFunction (store : Store) (t : Tree) : Bool :=
  match store.look t with
  | .node _ (.functionDef _) _ => true
  | _ => false

def search (visit : Tree → Renaming (List Tree)) (t : Tree) : Renaming Tree := do
  let store := (← getThe Session).store
  match declared? store t with
  | some names =>
    modify fun n => { n with bypassed := n.bypassed ++ names }
    return t
  | none => if isFunction store t then return t else inside visit t

/-- A function: its body twice, then all of it as the surroundings ask. -/
def function (visit : Tree → Renaming (List Tree)) (tag : Tag) (kind : Kind) (parts : List Tree) : Renaming Tree := do
  match parts with
  | [parameters, .seq body, decorators, result] =>
    let outer ← get
    let names := plainParameters (← getThe Session).store parameters
    set { names.foldl (fun n a => n.map a a) outer with phase := .search }
    let body ← body.mapM (search visit)
    modify fun n => { n with phase := .replace }
    let body ← body.mapM (inside visit)
    modify fun n =>
      { n with bypassed := outer.bypassed, mapping := outer.mapping, phase := outer.phase }
    Work.keep (.node tag kind [parameters, .seq body, decorators, result])
    inside visit (.node tag kind [parameters, .seq body, decorators, result])
  | _ => return .node tag kind parts

def rule : Rule Renaming := fun visit tag kind parts => do
  match kind with
  | .name id ctx =>
    let id ← renameName id ctx
    Work.keep (.node tag (.name id ctx) parts)
    return [.node tag (.name id ctx) parts]
  | .functionDef _ => return [← function visit tag kind parts]
  | .listComp | .setComp | .dictComp =>
    modify fun n => { n with ignoring := true }
    let t ← inside visit (.node tag kind parts)
    modify fun n => { n with ignoring := false }
    return [t]
  | .lambda => return [.node tag kind parts]
  | _ => return [← inside visit (.node tag kind parts)]

def run (naming : Naming) (t : Tree) : Work (Tree × Naming) :=
  (runDeep rule t).run { naming with assigned := firstNumber }

end SourceOptimizer.Pass.Rename
