import SourceOptimizer.Fault
import SourceOptimizer.Operator
import SourceOptimizer.Value.Equal

/-! Comparisons of values: order, membership, and the comparison operators. -/
namespace SourceOptimizer.Value

def orderHolds (op : CompareOp) (o : Ordering) : Bool :=
  match op with
  | .lt => o == .lt
  | .ltE => o != .gt
  | .gt => o == .gt
  | .gtE => o != .lt
  | _ => false

def compareFloats (op : CompareOp) (x y : Float) : Bool :=
  match op with
  | .lt => x < y
  | .ltE => x ≤ y
  | .gt => y < x
  | .gtE => y ≤ x
  | _ => false

def compareFloatInt (op : CompareOp) (x : Float) (n : Int) : Bool :=
  if Number.isNaN x then false
  else if Number.isInf x then orderHolds op (if Number.isNegative x then .lt else .gt)
  else orderHolds op (Number.compareInt x n)

def flipped : CompareOp → CompareOp
  | .lt => .gt
  | .gt => .lt
  | .ltE => .gtE
  | .gtE => .ltE
  | op => op

def orderAtoms (op : CompareOp) (a b : Value) : Option Bool :=
  match a, b with
  | .str s, .str t => some (orderHolds op (Text.compare s t))
  | .bytes s, .bytes t => some (orderHolds op (Text.compare s t))
  | .float x, .float y => some (compareFloats op x y)
  | _, _ =>
    match a.asInt?, b.asInt?, a, b with
    | some m, some n, _, _ => some (orderHolds op (compare m n))
    | some m, _, _, .float y => some (compareFloatInt (flipped op) y m)
    | _, some n, .float x, _ => some (compareFloatInt op x n)
    | _, _, _, _ => Option.none

def orderSets (op : CompareOp) (xs ys : List Value) : Bool :=
  let sub := within xs ys
  let sup := within ys xs
  match op with
  | .lt => sub && !sup
  | .ltE => sub
  | .gt => sup && !sub
  | .gtE => sup
  | _ => false

def unorderedFault (op : CompareOp) (a b : Value) : Fault :=
  .type (.unordered op.sign a.typeName b.typeName)

mutual

def order (op : CompareOp) : Value → Value → Except Fault Bool
  | .tuple xs, .tuple ys => orderItems op xs ys
  | .list xs, .list ys => orderItems op xs ys
  | .setOf xs, .setOf ys | .setOf xs, .frozen ys
  | .frozen xs, .setOf ys | .frozen xs, .frozen ys => .ok (orderSets op xs ys)
  | a, b =>
    match orderAtoms op a b with
    | some r => .ok r
    | Option.none => .error (unorderedFault op a b)

def orderItems (op : CompareOp) : List Value → List Value → Except Fault Bool
  | [], ys => .ok (orderHolds op (if ys.isEmpty then .eq else .lt))
  | _ :: _, [] => .ok (orderHolds op .gt)
  | x :: xs, y :: ys => if equal x y then orderItems op xs ys else order op x y

end

def member (a b : Value) : Except Fault Bool :=
  match b with
  | .str t =>
    match a with
    | .str s => .ok (Text.containsRun s t)
    | _ => .error (.type (.memberOfText a.typeName))
  | .bytes t =>
    match a with
    | .bytes s => .ok (Text.containsRun s t)
    | _ =>
      match a.asInt? with
      | some n =>
        if 0 ≤ n && n < 256 then .ok (t.contains n.toNat) else .error (.value .byteRange)
      | Option.none => .error (.type (.bytesLike a.typeName))
  | .tuple xs | .list xs | .setOf xs | .frozen xs => .ok (xs.any (equal a))
  | .dict kvs => .ok (kvs.any fun p => equal a p.1)
  | _ => .error (.type (.notContainer b.typeName))

def compareBy (op : CompareOp) (same : Bool) (a b : Value) : Except Fault Bool :=
  match op with
  | .eq => .ok (equal a b)
  | .notEq => .ok (!equal a b)
  | .is => .ok same
  | .isNot => .ok (!same)
  | .isIn => member a b
  | .notIn => do .ok (!(← member a b))
  | .lt | .ltE | .gt | .gtE => order op a b

end SourceOptimizer.Value
