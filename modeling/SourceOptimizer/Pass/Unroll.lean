import SourceOptimizer.Pass.Basic
import SourceOptimizer.Tree.Build

/-! Unrolling of counted loops. A loop over constant bounds becomes, for each number, an assignment to its
target and the statements of its body; target and statements are the same nodes each time. -/
namespace SourceOptimizer.Pass.Unroll

/-- Most statements, assignments not counted, that a loop is unrolled to. -/
def maxLines : Int := 1000

structure Bounds where
  start : Int
  stop : Int
  step : Int
  deriving DecidableEq, Repr

namespace Bounds

def count (b : Bounds) : Nat :=
  if 0 < b.step then ((b.stop - b.start + b.step - 1) / b.step).toNat
  else if b.step < 0 then ((b.start - b.stop - b.step - 1) / -b.step).toNat
  else 0

def numbers (b : Bounds) : List Int := (List.range b.count).map fun (i : Nat) => b.start + b.step * i

def estimate (b : Bounds) (bodyLength : Nat) : Int := (b.stop - b.start).fdiv b.step * bodyLength

end Bounds

def isRange (store : Store) (iterable : Tree) : Bool :=
  match store.look iterable with
  | .node _ .call (function :: _) =>
    match store.look function with
    | .node _ (.name id _) _ => id == "range"
    | _ => false
  | _ => false

def integer? (store : Store) (t : Tree) : Option Value := do
  let l ← (store.look t).literal?
  if l.value.asInt?.isSome then return l.value else none

def arguments? (store : Store) (call : Tree) : Option (Value × Value × Value) :=
  match store.look call with
  | .node _ .call [_, .seq args, _] =>
    match args with
    | [stop] => do return (.int 0, ← integer? store stop, .int 1)
    | [start, stop] => do return (← integer? store start, ← integer? store stop, .int 1)
    | [start, stop, step] => do
      return (← integer? store start, ← integer? store stop, ← integer? store step)
    | _ => none
  | _ => none

def bounds? (store : Store) (call : Tree) : Option Bounds := do
  let (start, stop, step) ← arguments? store call
  return ⟨← start.asInt?, ← stop.asInt?, ← step.asInt?⟩

def round (target : Tree) (body : List Tree) (n : Int) : List Tree :=
  .make .assign [.seq [target], .constant (.int n)] :: body

def unroll (target : Tree) (body : List Tree) (b : Bounds) : Tree :=
  .make .moduleDef [.seq (b.numbers.flatMap (round target body))]

def step : Step Work := fun tag kind parts visited => do
  match kind, parts with
  | .forStmt, [target, iterable, .seq body, _] =>
    let store := (← get).store
    if isRange store iterable then
      match bounds? store iterable with
      | none => return [.node tag kind parts]
      | some b =>
        if b.step == 0 then
          Work.flag "ValueError: range() arg 3 must not be zero." [iterable]
          descend tag kind visited
        else if maxLines < b.estimate body.length then descend tag kind visited
        else
          let target ← Work.share target
          let body ← body.mapM Work.share
          Work.done
          return [← Work.adopt (unroll target body b)]
    else descend tag kind visited
  | _, _ => descend tag kind visited

end SourceOptimizer.Pass.Unroll
