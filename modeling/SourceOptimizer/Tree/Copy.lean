import SourceOptimizer.Grammar.Program
import SourceOptimizer.Tree.Printer.Statement

/-! Copies of trees by way of their source text. -/
namespace SourceOptimizer.Tree

/-- The first statement of the text of a tree; of an expression, the expression that it is. -/
def copy (t : Tree) (next : Nat) : Except Fault (Tree × Nat) := do
  let (m, next) ← parse next (← t.print)
  match m with
  | .node _ _ [.seq (s :: _)] =>
    match (t.kind?.map Kind.isExpr).getD false, s with
    | true, .node _ .exprStmt [value] => return (value, next)
    | _, s => return (s, next)
  | _ => .error .index

end SourceOptimizer.Tree
