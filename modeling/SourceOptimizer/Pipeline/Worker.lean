import SourceOptimizer.Pass.DeadBranch
import SourceOptimizer.Pass.Documentation
import SourceOptimizer.Pass.Fold
import SourceOptimizer.Pass.Native
import SourceOptimizer.Pass.PureCall
import SourceOptimizer.Pass.Rename
import SourceOptimizer.Pass.Unroll
import SourceOptimizer.Pass.Unused
import SourceOptimizer.Pipeline.Sources
import SourceOptimizer.Simulation.Visit

/-! The passes as workers: each has a level from which it takes part, keeps what it has warned about, and what
it remembers from one module to the next. -/
namespace SourceOptimizer

inductive PassKind where
  | fold | deadBranch | unroll | documentation | rename | pureCall | native | unused | simulation
  deriving DecidableEq, Repr, Inhabited

namespace PassKind

def level : PassKind → Int
  | documentation => 0
  | fold | deadBranch => 1
  | unroll | rename | pureCall | unused => 2
  | native | simulation => 3

def isPost : PassKind → Bool
  | native => true
  | _ => false

def registered : List PassKind := [fold, deadBranch, unroll, documentation, rename, pureCall, native]

end PassKind

structure Memory where
  naming : Pass.Rename.Naming := {}
  usage : Pass.Unused.Usage := {}
  marks : Pass.Native.Marks := {}
  deriving Inhabited

structure Worker where
  kind : PassKind
  changed : Bool := false
  notices : List Notice := []
  memory : Memory := {}

namespace Worker

def create (kind : PassKind) : Work Worker := do
  match kind with
  | .native => return { kind, memory := { marks := { compiler := ← Pass.Native.choose } } }
  | _ => return { kind }

def visit (w : Worker) (t : Tree) : Work (Tree × Memory) := do
  match w.kind with
  | .fold => return (← Pass.run Pass.Fold.step t, w.memory)
  | .deadBranch => return (← Pass.run Pass.DeadBranch.step t, w.memory)
  | .unroll => return (← Pass.run Pass.Unroll.step t, w.memory)
  | .documentation => return (← Pass.run Pass.Documentation.step t, w.memory)
  | .pureCall => return (← Pass.run Pass.PureCall.step t, w.memory)
  | .simulation => return (← Simulation.optimize t, w.memory)
  | .rename =>
    let (t, naming) ← Pass.Rename.run w.memory.naming t
    return (t, { w.memory with naming })
  | .unused =>
    let (t, usage) ← Pass.Unused.run w.memory.usage t
    return (t, { w.memory with usage })
  | .native =>
    updateSources
    let (t, marks) ← Pass.Native.run w.memory.marks t
    return (t, { w.memory with marks })

def run (w : Worker) (t : Tree) : Work (Tree × Worker) := do
  modify fun s => { s with changed := false, notices := w.notices }
  let (t, memory) ← w.visit t
  let t ← Work.locate t
  let s ← get
  return (t, { w with changed := s.changed, notices := s.notices, memory })

end Worker
end SourceOptimizer
