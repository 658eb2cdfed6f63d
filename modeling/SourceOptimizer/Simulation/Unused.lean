import SourceOptimizer.Simulation.Objects

/-! When a namespace is given up, assignments and definitions of names that nobody asked for are removed from
what was being visited when it was made. -/
namespace SourceOptimizer.Simulation.Sim

def replaceNode (target : Nat) (make : Work Tree) : Nat → Tree → Work Tree
  | 0, _ => throw .recursion
  | _ + 1, .absent => return .absent
  | depth + 1, .seq items => do return .seq (← items.mapM (replaceNode target make depth))
  | depth + 1, .shared id => do
    if id == target then
      Work.done
      make
    else
      match ← Work.look (.shared id) with
      | .node tag kind parts =>
        let parts ← parts.mapM (replaceNode target make depth)
        Work.keep (.node tag kind parts)
      | _ => pure ()
      return .shared id
  | _ + 1, t => return t

def removeFrom (parent : Focus) (target : Nat) (make : Work Tree) : Sim Unit := do
  match parent with
  | .nothing => throw (.attribute (.ofObject "NoneType" "_fields"))
  | .mark _ => return ()
  | .node id =>
    ofWork do
      let _ ← replaceNode target make (3 * (← get).store.next + 100) (.shared id)

def newPass : Work Tree := do Work.share (← Work.adopt .pass)

def dropTarget (node : Nat) (targets : List Tree) (target : Nat) : Sim Unit := do
  match targets.findIdx? fun t => match t with
    | .shared id => id == target
    | _ => false with
  | some i => setPart node 0 (.seq (targets.eraseIdx i))
  | none => throw (.value .notInList)

/-- Remove an assignment whose last target was never used: what it computes stays, unless it is a constant. -/
def removeAssignment (node : Nat) (target : Tree) (parent : Focus) : Sim Unit := do
  match target, ← look target with
  | .shared targetId, .node _ (.name id _) _ =>
    if !(← variableOf id).unused then return ()
    match ← look (.shared node) with
    | .node _ _ [.seq targets, value] =>
      if 1 < targets.length then dropTarget node targets targetId
      let isConstant := (← look value).literal?.isSome
      removeFrom parent node (if isConstant then newPass else pure value)
    | _ => return ()
  | _, _ => throw .assertion

def removeDefinition (node : Nat) (parent : Focus) : Sim Unit := do
  match ← look (.shared node) with
  | .node _ (.functionDef name) _ =>
    if !(← variableOf name).unused then return ()
    removeFrom parent node newPass
  | _ => return ()

def runTask : Task → Sim Unit
  | .assignment node target parent => removeAssignment node target parent
  | .definition node parent => removeDefinition node parent

def finalize (n : Namespace) : Sim Unit := n.tasks.forM runTask

def popNamespace : Sim Unit := do
  if (← machine).stack.length ≤ 1 then throw .assertion
  finalize (← locals)
  update fun m => { m with stack := m.stack.tail }

end SourceOptimizer.Simulation.Sim
