import SourceOptimizer.Token.Basic
import SourceOptimizer.Tree.Basic

/-! Reading trees from tokens. A rule consumes tokens from the front or says why it cannot; rules that
refer to one another do so through `Rules`, which names the ones that can stand inside themselves. -/
namespace SourceOptimizer.Grammar

abbrev Rule (α : Type) := StateT (List Token) (Except SyntaxCause) α

inductive Goal where
  | expression
  | named
  | sequence
  | disjunction
  | inversion
  | bitOr
  | factor
  | loopTargets
  | block
  | pattern
  deriving DecidableEq

abbrev Rules := Goal → Rule Tree

def causeAt : List Token → SyntaxCause
  | ⟨.bad cause, _⟩ :: _ => cause
  | ⟨.indent, _⟩ :: _ => .indentation
  | ⟨.dedent, _⟩ :: _ => .indentation
  | _ => .general

def refuse {α : Type} : Rule α := do throw (causeAt (← get))

/-- Refuse a place where an indented block is missing; a later piece of text that is no token counts first. -/
def refuseMissing {α : Type} : Rule α := do
  match ← get with
  | ⟨.bad cause, _⟩ :: _ => throw cause
  | ts => throw (if ts.any (·.isBad) then .token else .indentation)

def refuseWord {α : Type} : Rule α := do
  match ← get with
  | ⟨.bad cause, _⟩ :: _ => throw cause
  | _ => throw .general

def peek : Rule Token := do
  match ← get with
  | t :: _ => return t
  | [] => throw .general

def peekSecond : Rule (Option Token) := do
  return (← get)[1]?

def skip : Rule Unit := modify List.tail

def lineHere : Rule Nat := do return (← peek).line

def atSign (s : String) : Rule Bool := do return (← peek).isSign s

def atWord (s : String) : Rule Bool := do return (← peek).isWord s

def accept (s : String) : Rule Bool := do
  if ← atSign s then skip; return true else return false

def acceptWord (s : String) : Rule Bool := do
  if ← atWord s then skip; return true else return false

def expect (s : String) : Rule Unit := do
  if ← accept s then return () else refuse

def expectWord (s : String) : Rule Unit := do
  if ← acceptWord s then return () else refuse

def atNewline : Rule Bool := do
  match (← peek).kind with
  | .newline => return true
  | _ => return false

def expectNewline : Rule Unit := do
  if ← atNewline then skip else refuse

def identifier : Rule String := do
  match (← peek).name? with
  | some s => skip; return s
  | none => refuse

def atNameThen (s : String) : Rule Bool := do
  let first ← peek
  let second ← peekSecond
  return first.name?.isSome && (second.map (·.isSign s)).getD false

def orElse {α : Type} (a b : Rule α) : Rule α := fun ts =>
  match a ts with
  | .ok r => .ok r
  | .error _ => b ts

def optionally {α : Type} (a : Rule α) : Rule (Option α) := orElse (some <$> a) (pure none)

def repeatUpTo {α : Type} : Nat → Rule (Option α) → Rule (List α)
  | 0, _ => return []
  | n + 1, p => do
    match ← p with
    | none => return []
    | some a => return a :: (← repeatUpTo n p)

/-- Repeat a rule until it yields nothing; there are not more rounds than tokens. -/
def many {α : Type} (p : Rule (Option α)) : Rule (List α) := do
  match ← p with
  | none => return []
  | some a => return a :: (← repeatUpTo ((← get).length + 1) p)

/-- Items after a separator each, until the separator is missing or `closes` holds after one. -/
def moreItems {α : Type} (closes : Rule Bool) (item : Rule α) : Rule (List α) :=
  many do
    if ← atSign "," then
      skip
      if ← closes then return none else return some (← item)
    else return none

def endsWithComma (before after : List Token) : Bool :=
  match before.drop (before.length - after.length - 1) with
  | t :: _ => t.isSign ","
  | [] => false

def commaItems {α : Type} (closes : Rule Bool) (item : Rule α) : Rule (List α × Bool) := do
  let first ← item
  let before ← get
  let rest ← moreItems closes item
  let after ← get
  return (first :: rest, before.length != after.length && endsWithComma before after)

def node (line : Nat) (kind : Kind) (parts : List Tree) : Tree := .node ⟨0, some line⟩ kind parts

def optional : Option Tree → Tree
  | some t => t
  | none => .absent

def joinLeft (line : Nat) (signs : List BinaryOp) (operand : Rule Tree) : Nat → Tree → Rule Tree
  | 0, acc => return acc
  | n + 1, acc => do
    let t ← peek
    match signs.find? fun op => t.isSign op.sign with
    | none => return acc
    | some op =>
      skip
      let right ← operand
      joinLeft line signs operand n (node line (.binOp op) [acc, right])

def binaryLevel (signs : List BinaryOp) (operand : Rule Tree) : Rule Tree := do
  let line ← lineHere
  let first ← operand
  let t ← peek
  if signs.any fun op => t.isSign op.sign then
    joinLeft line signs operand ((← get).length + 1) first
  else return first

end SourceOptimizer.Grammar
