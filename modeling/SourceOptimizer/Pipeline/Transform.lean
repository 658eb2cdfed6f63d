import SourceOptimizer.Pipeline.Worker

/-! The pipeline: all passes of the level go over all modules, again and again until nothing changes; then the
passes that come last run once, and the modules are written back. -/
namespace SourceOptimizer.Pipeline

def register : Work (List Worker) := PassKind.registered.mapM Worker.create

def takesPart (level : Int) (w : Worker) : Bool := w.kind.level ≤ level

def putTree (i : Nat) (tree : Tree) : Work Unit :=
  modify fun s => { s with modules := s.modules.modify i fun p => { p with tree } }

/-- Let workers go over a module one after the other; those that do not satisfy `active` rest. Whether
something changed, and the workers afterwards. -/
def workOn (active : Worker → Bool) (i : Nat) : List Worker → Work (Bool × List Worker)
  | [] => return (false, [])
  | w :: ws => do
    if active w then
      match (← get).modules[i]? with
      | none => return (false, w :: ws)
      | some p =>
        let (tree, w) ← w.run p.tree
        putTree i tree
        let (changed, ws) ← workOn active i ws
        return (w.changed || changed, w :: ws)
    else
      let (changed, ws) ← workOn active i ws
      return (changed, w :: ws)

def workOnAll (active : Worker → Bool) : List Nat → List Worker → Work (Bool × List Worker)
  | [], ws => return (false, ws)
  | i :: rest, ws => do
    modify fun s => { s with current := (s.modules[i]?).map (·.code) }
    let (changed, ws) ← workOn active i ws
    let (more, ws) ← workOnAll active rest ws
    return (changed || more, ws)

def isRegular (level : Int) (w : Worker) : Bool := takesPart level w && !w.kind.isPost

def round (ws : List Worker) : Work (Bool × List Worker) := do
  let s ← get
  workOnAll (isRegular s.level) (List.range s.modules.length) ws

/-- Repeat until nothing changes; the number of rounds. Where the bound on them is used up, the work fails. -/
def cycle : Nat → Nat → List Worker → Work (Nat × List Worker)
  | 0, _, _ => throw .recursion
  | fuel + 1, n, ws => do
    let (changed, ws) ← round ws
    if changed then cycle fuel (n + 1) ws else return (n + 1, ws)

def maxCycles : Nat := 1000000

def conclude (rounds : Nat) (workers : List Worker) : Work (List Worker) := do
  Work.write .debug [s!"General-Transform done in {rounds} cycle."]
  let s ← get
  let (_, workers) ←
    workOnAll (fun w => takesPart s.level w && w.kind.isPost) (List.range s.modules.length) workers
  Work.write .info ["Transform done! Cost 0.000s"]
  updateSources
  return workers

def transform (workers : List Worker) : Work (List Worker) := do
  let (n, workers) ← cycle maxCycles 0 workers
  conclude n workers

end SourceOptimizer.Pipeline
