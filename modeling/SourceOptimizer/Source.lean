import SourceOptimizer.Files
import SourceOptimizer.Text.Utf8

/-! Sources: a file of code, or a compiled library. -/
namespace SourceOptimizer

/-- A text with every occurrence of a pattern replaced; an empty pattern occurs around every character. -/
def replaceEmpty (new : List Char) : List Char → List Char
  | [] => new
  | c :: cs => new ++ c :: replaceEmpty new cs

def replaceRuns (old new : List Char) : Nat → List Char → List Char
  | _, [] => []
  | skip + 1, _ :: cs => replaceRuns old new skip cs
  | 0, c :: cs =>
    if old.isPrefixOf (c :: cs) then new ++ replaceRuns old new (old.length - 1) cs
    else c :: replaceRuns old new 0 cs

def replaceAll (s old new : String) : String :=
  if old == "" then String.ofList (replaceEmpty new.toList s.toList)
  else String.ofList (replaceRuns old.toList new.toList 0 s.toList)

structure Code where
  path : String
  text : String
  deriving DecidableEq, Inhabited

namespace Code

def lines (c : Code) : List String := c.text.splitOn "\n"

def fileName (c : Code) : String := Path.lastName c.path

def bytes (c : Code) : List Nat := Text.encodeUtf8 (Text.ofString c.text)

end Code

inductive Source where
  | code (code : Code)
  | native (path : String) (bytes : List Nat)
  deriving Inhabited

namespace Source

def path : Source → String
  | code c => c.path
  | native p _ => p

def fileName (s : Source) : String := Path.lastName s.path

def bytes : Source → List Nat
  | code c => c.bytes
  | native _ bs => bs

end Source
end SourceOptimizer
