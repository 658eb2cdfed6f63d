import SourceOptimizer.Grammar.Statement

/-! Trees of whole source texts. The rules refer to one another through a bound on their depth: each one
passes a token before it comes to itself again, so that the length of the text is enough. -/
namespace SourceOptimizer

namespace Grammar

def ruleOf (rules : Rules) : Goal → Rule Tree
  | .expression => expression rules
  | .named => namedExpression rules
  | .sequence => sequence rules
  | .disjunction => disjunction rules
  | .inversion => inversion rules
  | .bitOr => bitOr rules
  | .factor => factor rules
  | .loopTargets => loopTargets rules
  | .block => blockBody rules
  | .pattern => pattern rules

def rulesWithin : Nat → Rules
  | 0, _ => throw .general
  | depth + 1, goal => ruleOf (rulesWithin depth) goal

def program (rules : Rules) : Rule Tree := do
  let body ← statements rules
  match (← peek).kind with
  | .finish => return .node {} .moduleDef [.seq body]
  | _ => refuse

end Grammar

namespace Tree

def parseSource (source : List Char) : Except SyntaxCause Tree :=
  (Grammar.program (Grammar.rulesWithin (4 * source.length + 16))).run' (Token.scanFrom 1 source)

def parse (next : Nat) (source : String) : Except Fault (Tree × Nat) :=
  match parseSource source.toList with
  | .ok t => .ok (t.number next)
  | .error cause => .error (.source cause)

end Tree
end SourceOptimizer
