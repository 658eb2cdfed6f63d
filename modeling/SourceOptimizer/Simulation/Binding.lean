import SourceOptimizer.Fault

/-! How arguments meet parameters when a call is simulated. Positional-only parameters take arguments first,
keyword-only ones take keywords, and a plain parameter takes the next argument, else its keyword, else the
next default that is left. -/
namespace SourceOptimizer.Simulation

structure Signature where
  positionOnly : List String := []
  plain : List String := []
  keywordOnly : List String := []
  deriving DecidableEq, Inhabited

namespace Signature

variable {α : Type}

def count (s : Signature) : Nat := s.positionOnly.length + s.keywordOnly.length + s.plain.length

def checkCounts (s : Signature) (name : String) (defaults keywordDefaults args keywords : Nat) :
    Except Fault Unit :=
  if args + defaults < s.positionOnly.length then .error (.type (.missingPositional name))
  else if keywords + keywordDefaults < s.keywordOnly.length then .error (.type (.missingKeyword name))
  else if args + keywords + defaults < s.count + keywordDefaults then .error (.type (.missingKeyword name))
  else if s.count < args + keywords then .error (.type (.tooMany name))
  else .ok ()

def bindFirst : List String → List α → Except Fault (List (String × α) × List α)
  | [], args => .ok ([], args)
  | _ :: _, [] => .error .exhausted
  | p :: ps, a :: args => do
    let (bound, rest) ← bindFirst ps args
    return ((p, a) :: bound, rest)

def bindPlain (name : String) (keywords keywordDefaults : List (String × α)) :
    List String → List α → List α → Except Fault (List (String × α))
  | [], _, _ => .ok []
  | p :: ps, a :: args, defaults => do
    return (p, a) :: (← bindPlain name keywords keywordDefaults ps args defaults)
  | p :: ps, [], defaults =>
    match keywords.lookup p, defaults with
    | some a, _ => do return (p, a) :: (← bindPlain name keywords keywordDefaults ps [] defaults)
    | none, d :: defaults => do return (p, d) :: (← bindPlain name keywords keywordDefaults ps [] defaults)
    | none, [] =>
      match keywordDefaults.lookup p with
      | some d => do return (p, d) :: (← bindPlain name keywords keywordDefaults ps [] [])
      | none => .error (.type (.missingAny name))

def bind (s : Signature) (name : String) (defaults : List α) (keywordDefaults : List (String × α))
    (args : List α) (keywords : List (String × α)) : Except Fault (List (String × α)) := do
  s.checkCounts name defaults.length keywordDefaults.length args.length keywords.length
  let (first, args) ← bindFirst s.positionOnly args
  let named := s.keywordOnly.filterMap fun p => (keywords.lookup p).map (p, ·)
  let plain ← bindPlain name keywords keywordDefaults s.plain args defaults
  return first ++ named ++ plain

end Signature
end SourceOptimizer.Simulation
