import SourceOptimizer.Session

/-! Passes. A pass is given by one step: what becomes of a node, told its parts and an action that visits the
parts. What a node becomes is a list: in a list of parts the results are spliced in, in a single place no
result removes the part. -/
namespace SourceOptimizer.Pass

variable {m : Type → Type} [Monad m]

/-- What becomes of a node, given its parts and the action that visits all of them in order. -/
abbrev Step (m : Type → Type) := Tag → Kind → List Tree → m (List Tree) → m (List Tree)

def single : List Tree → Tree
  | [] => .absent
  | [t] => t
  | ts => .seq ts

mutual

def visit (step : Step m) (again : Nat → m (List Tree)) : Tree → m (List Tree)
  | .node tag kind parts => step tag kind parts (visitParts step again parts)
  | .seq items => do
    let items ← visitItems step again items
    return [.seq items]
  | .absent => return [.absent]
  | .shared id => again id

def visitParts (step : Step m) (again : Nat → m (List Tree)) : List Tree → m (List Tree)
  | [] => return []
  | p :: ps => do
    let results ← visit step again p
    let rest ← visitParts step again ps
    return single results :: rest

def visitItems (step : Step m) (again : Nat → m (List Tree)) : List Tree → m (List Tree)
  | [] => return []
  | t :: ts => do
    let results ← visit step again t
    let rest ← visitItems step again ts
    return results ++ rest

end

/-- A node that a visit left in its place is still the shared one. -/
def refer (id : Nat) (t : Tree) : Tree := if t.id? == some id then .shared id else t

def visitWithin (fetch : Nat → m Tree) (step : Step m) : Nat → Tree → m (List Tree)
  | 0, t => return [t]
  | depth + 1, t =>
    visit step (fun id => do
      let results ← visitWithin fetch step depth (← fetch id)
      return results.map (refer id)) t

def fetch (id : Nat) : Work Tree := Work.look (.shared id)

/-- A bound on the depth of shared nodes, those that a pass may add included. -/
def depthBound (s : Session) : Nat := 2 * s.store.next + 100

def run (step : Step Work) (t : Tree) : Work Tree := do
  let results ← visitWithin fetch step (depthBound (← get)) t
  return single results

def descend (tag : Tag) (kind : Kind) (visited : Work (List Tree)) : Work (List Tree) := do
  let parts ← visited
  Work.keep (.node tag kind parts)
  return [.node tag kind parts]

def literal? (t : Tree) : Work (Option Literal) := do return (← Work.look t).literal?

def isConstant (t : Tree) : Work Bool := do return (← literal? t).isSome

def revise (t : Tree) (f : List Tree → Work (List Tree)) : Work Tree := do
  match ← Work.look t with
  | .node tag kind parts =>
    let parts ← f parts
    Work.keep (.node tag kind parts)
    match t with
    | .shared id => return .shared id
    | _ => return .node tag kind parts
  | _ => return t

/-! ## Passes that visit what they have made

A rule that changes parts before it visits them, or visits them several times, gets the visit itself. -/

section
variable [MonadLiftT Work m]

abbrev Rule (m : Type → Type) := (Tree → m (List Tree)) → Tag → Kind → List Tree → m (List Tree)

def visitDeep (rule : Rule m) : Nat → Tree → m (List Tree)
  | 0, t => return [t]
  | _ + 1, .absent => return [.absent]
  | depth + 1, .seq items => do
    let results ← items.mapM (visitDeep rule depth)
    return [.seq results.flatten]
  | depth + 1, .shared id => do
    let results ← visitDeep rule depth (← liftM (fetch id))
    return results.map (refer id)
  | depth + 1, .node tag kind parts => rule (visitDeep rule depth) tag kind parts

def inside (visit : Tree → m (List Tree)) (t : Tree) : m Tree := do
  match ← liftM (Work.look t) with
  | .node tag kind parts =>
    let parts ← parts.mapM fun p => return single (← visit p)
    liftM (Work.keep (.node tag kind parts))
    match t with
    | .shared id => return .shared id
    | _ => return .node tag kind parts
  | t => return t

/-- Visit a whole tree by a rule. Each node on the way takes at most two steps of depth. -/
def runDeep (rule : Rule m) (t : Tree) : m Tree := do
  let s ← liftM (get : Work Session)
  return single (← visitDeep rule (3 * s.store.next + 100) t)

end
end SourceOptimizer.Pass
