import SourceOptimizer.Pass.Basic
import SourceOptimizer.Tree.Build
import SourceOptimizer.Value.Arithmetic
import SourceOptimizer.Value.Order

/-! Folding of constants: an operation or a single comparison of two constants becomes its value, one that
must fail becomes an expression that fails alike, and a constant condition becomes a truth value. -/
namespace SourceOptimizer.Pass.Fold

def binaryValue (op : BinaryOp) (a b : Literal) : Except Fault Value := Value.binary op a.value b.value

def compareValue (op : CompareOp) (a b : Literal) : Except Fault Value :=
  Value.bool <$> Value.compareBy op (a.same b) a.value b.value

def replace (node : Tree) (result : Except Fault Value) : Work (List Tree) := do
  match result with
  | .ok v =>
    Work.done
    return [← Work.adopt (.constant v)]
  | .error e =>
    Work.flagFault e [node]
    return [← Work.adopt (.raisingFault e)]

def condition? (test : Tree) : Work (Option Tree) := do
  match ← literal? test with
  | some { value := .bool _, .. } => return none
  | some l =>
    Work.done
    return some (← Work.adopt (.constant (.bool l.value.truth)))
  | none => return none

def foldCondition (tag : Tag) (kind : Kind) (test : Tree) (visited : Work (List Tree)) : Work (List Tree) := do
  match ← condition? test with
  | some c => descend tag kind do return c :: (← visited).tail
  | none => descend tag kind visited

def step : Step Work := fun tag kind parts visited => do
  match kind, parts with
  | .ifStmt, test :: _ => foldCondition tag kind test visited
  | .whileStmt, test :: _ => foldCondition tag kind test visited
  | .compare [op], [left, .seq [right]] =>
    match ← literal? left, ← literal? right with
    | some a, some b => replace (.node tag kind parts) (compareValue op a b)
    | _, _ => descend tag kind visited
  | .binOp op, [left, right] =>
    match ← literal? left, ← literal? right with
    | some a, some b => replace (.node tag kind parts) (binaryValue op a b)
    | _, _ => descend tag kind visited
  | _, _ => descend tag kind visited

end SourceOptimizer.Pass.Fold
