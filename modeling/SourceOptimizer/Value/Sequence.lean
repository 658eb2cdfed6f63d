import SourceOptimizer.Value.Arithmetic
import SourceOptimizer.Value.Order

/-! Values as sequences: their items, distinct items, sorting and choosing. Sorting first follows the run at
the beginning and then inserts by bisection, so which two items meet first is fixed, and with it the fault
when they have no order. -/
namespace SourceOptimizer.Value

def items (v : Value) : Except Fault (List Value) :=
  match v with
  | .str s => .ok (s.map fun c => .str [c])
  | .bytes bs => .ok (bs.map fun (b : Nat) => .int b)
  | .tuple xs | .list xs | .setOf xs | .frozen xs => .ok xs
  | .dict kvs => .ok (kvs.map (·.1))
  | _ => .error (.type (.notIterable v.typeName))

mutual

def unhashable? : Value → Option String
  | .list _ => some "list"
  | .setOf _ => some "set"
  | .dict _ => some "dict"
  | .tuple xs => unhashableIn? xs
  | _ => Option.none

def unhashableIn? : List Value → Option String
  | [] => Option.none
  | x :: xs => (unhashable? x).or (unhashableIn? xs)

end

def checkKey (v : Value) : Except Fault Unit :=
  match v.unhashable? with
  | some t => .error (.type (.unhashable t))
  | Option.none => .ok ()

def distinct : List Value → List Value → Except Fault (List Value)
  | acc, [] => .ok acc.reverse
  | acc, x :: xs => do
    checkKey x
    distinct (if acc.any (equal x) then acc else x :: acc) xs

def setKey (kvs : List (Value × Value)) (k v : Value) : List (Value × Value) :=
  if kvs.any fun p => equal p.1 k then kvs.map fun p => if equal p.1 k then (p.1, v) else p
  else kvs ++ [(k, v)]

abbrev Keyed := Value × Value

def insertionPoint (sorted : Array Keyed) (key : Value) : Nat → Nat → Nat → Except Fault Nat
  | 0, lo, _ => .ok lo
  | fuel + 1, lo, hi =>
    if lo < hi then do
      let mid := lo + (hi - lo) / 2
      let less ← order .lt key (sorted.getD mid (.none, .none)).1
      if less then insertionPoint sorted key fuel lo mid
      else insertionPoint sorted key fuel (mid + 1) hi
    else .ok lo

def insertAll : Array Keyed → List Keyed → Except Fault (Array Keyed)
  | sorted, [] => .ok sorted
  | sorted, x :: xs => do
    let i ← insertionPoint sorted x.1 (sorted.size + 1) 0 sorted.size
    insertAll (sorted.insertIdxIfInBounds i x) xs

/-- The longest beginning in which each key is less than the one before (`down`) or never less. -/
def takeRun (down : Bool) : List Keyed → List Keyed → Except Fault (List Keyed × List Keyed)
  | acc, [] => .ok (acc, [])
  | [], x :: xs => takeRun down [x] xs
  | p :: acc, x :: xs => do
    let less ← order .lt x.1 p.1
    if less == down then takeRun down (x :: p :: acc) xs else .ok (p :: acc, x :: xs)

def sortKeyed (xs : List Keyed) : Except Fault (List Keyed) :=
  match xs with
  | a :: b :: rest => do
    let down ← order .lt b.1 a.1
    let (run, rest) ← takeRun down [b, a] rest
    let start := if down then run else run.reverse
    .ok (← insertAll start.toArray rest).toList
  | _ => .ok xs

def choose (op : CompareOp) : Keyed → List Keyed → Except Fault Value
  | best, [] => .ok best.2
  | best, x :: xs => do
    let better ← order op x.1 best.1
    choose op (if better then x else best) xs

end SourceOptimizer.Value
