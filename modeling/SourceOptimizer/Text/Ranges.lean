/-! Tables over code points given by runs, in increasing order in a flat array, searched by bisection. A set has
two numbers a run, `first, last`, and a map three, `first, last, value`. Tables are written by steps: how far the
first of a run is from the end of the run before, and the last from the first. -/
namespace SourceOptimizer.Text

def setOfSteps (a : Nat) : List Nat → List Nat
  | [] => []
  | step :: steps => (a + step) :: setOfSteps (a + step) steps

def mapOfSteps (a : Nat) : List Nat → List Nat
  | gap :: length :: value :: steps => (a + gap) :: (a + gap + length) :: value :: mapOfSteps (a + gap + length) steps
  | _ => []

/-- The place of the run with a code point among the runs `lo … hi - 1` of `width` numbers each; `fuel` bounds the
number of halvings. -/
def runBetween (width : Nat) (runs : Array Nat) (c : Nat) : Nat → Nat → Nat → Option Nat
  | 0, _, _ => none
  | fuel + 1, lo, hi =>
    if lo < hi then
      let mid := (lo + hi) / 2
      if c < runs.getD (width * mid) 0 then runBetween width runs c fuel lo mid
      else if runs.getD (width * mid + 1) 0 < c then runBetween width runs c fuel (mid + 1) hi
      else some mid
    else none

def inRuns (runs : Array Nat) (c : Nat) : Bool := (runBetween 2 runs c runs.size 0 (runs.size / 2)).isSome

def findRun (runs : Array Nat) (c : Nat) : Option (Nat × Nat) :=
  (runBetween 3 runs c runs.size 0 (runs.size / 3)).map fun i => (runs.getD (3 * i) 0, runs.getD (3 * i + 2) 0)

end SourceOptimizer.Text
