import SourceOptimizer.Pass.Basic

/-! Removal of branches that a constant condition decides: a conditional becomes the branch that is taken,
and a loop that never runs disappears. -/
namespace SourceOptimizer.Pass.DeadBranch

def decided? (test : Tree) : Work (Option Bool) := do return (← literal? test).map (·.value.truth)

def choose (tag : Tag) (kind : Kind) (parts : List Tree) : Work (List Tree) := do
  match kind, parts with
  | .ifStmt, [test, body, other] =>
    match ← decided? test with
    | some true => Work.done; return body.items
    | some false => Work.done; return other.items
    | none => return [.node tag kind parts]
  | .whileStmt, test :: _ =>
    match ← decided? test with
    | some false => Work.done; return []
    | _ => return [.node tag kind parts]
  | .ifExp, [test, body, other] =>
    match ← decided? test with
    | some true => Work.done; return [body]
    | some false => Work.done; return [other]
    | none => return [.node tag kind parts]
  | _, _ => return [.node tag kind parts]

def step : Step Work := fun tag kind _ visited => do
  let parts ← visited
  Work.keep (.node tag kind parts)
  choose tag kind parts

end SourceOptimizer.Pass.DeadBranch
