import SourceOptimizer.Number.Bits
import SourceOptimizer.Number.Power
import SourceOptimizer.Operator
import SourceOptimizer.Value.Formatting

/-! Binary operators on values. Two numbers meet in the wider of their types (integers, doubles, complex
numbers); texts, byte strings, tuples and lists are joined and repeated; a text or byte string on the left
of the remainder sign is a format. Everything else is a fault that names both types. -/
namespace SourceOptimizer.Value

inductive Numbers where
  | ints (a b : Int)
  | floats (a b : Float)
  | complexes (a b : Number.Pair)

def floatOfInt (n : Int) : Except Fault Float :=
  match Number.ofInt? n with
  | some x => .ok x
  | Option.none => .error (.overflow .intToFloat)

inductive Numeric where
  | int (n : Int)
  | float (x : Float)
  | complex (p : Number.Pair)

def numeric? : Value → Option Numeric
  | .bool b => some (.int (if b then 1 else 0))
  | .int n => some (.int n)
  | .float x => some (.float x)
  | .complex re im => some (.complex (re, im))
  | _ => Option.none

def Numeric.toFloat : Numeric → Except Fault Float
  | .int n => floatOfInt n
  | .float x => .ok x
  | .complex p => .ok p.1

def Numeric.toPair : Numeric → Except Fault Number.Pair
  | .int n => do .ok (← floatOfInt n, 0.0)
  | .float x => .ok (x, 0.0)
  | .complex p => .ok p

def numbers? (a b : Value) : Option (Except Fault Numbers) := do
  let x ← a.numeric?
  let y ← b.numeric?
  match x, y with
  | .int m, .int n => return .ok (.ints m n)
  | .complex _, _ | _, .complex _ => return do .ok (.complexes (← x.toPair) (← y.toPair))
  | _, _ => return do .ok (.floats (← x.toFloat) (← y.toFloat))

def faultSign (op : BinaryOp) : String := if op = .pow then "** or pow()" else op.sign

def unsupported (op : BinaryOp) (a b : Value) : Except Fault Value :=
  .error (.type (.operands (faultSign op) a.typeName b.typeName))

def divideInts (a b : Int) : Except Fault Value :=
  if b = 0 then .error (.zero .division)
  else match Number.ofRatio? ((a < 0) != (b < 0) && a != 0) a.natAbs b.natAbs with
    | some x => .ok (.float x)
    | Option.none => .error (.overflow .ratioToFloat)

def floorDivMod (x y : Float) : Float × Float :=
  let r := Number.remainder x y
  let q := (x - r) / y
  let (q, r) :=
    if !Number.isZero r then
      if (y < 0.0) != (r < 0.0) then (q - 1.0, r + y) else (q, r)
    else (q, Number.withSign 0.0 y)
  if !Number.isZero q then
    let f := q.floor
    (if 0.5 < q - f then f + 1.0 else f, r)
  else (Number.withSign 0.0 (x / y), r)

def floorMod (x y : Float) : Float :=
  let r := Number.remainder x y
  if !Number.isZero r then (if (y < 0.0) != (r < 0.0) then r + y else r)
  else Number.withSign 0.0 y

def ofPair (p : Number.Pair) : Value := .complex p.1 p.2

def powFloats (x y : Float) : Except Fault Value :=
  if Number.isFinite x && x < 0.0 && Number.isFinite y && !Number.isIntegral y then do
    .ok (ofPair (← Number.Pair.power (x, 0.0) (y, 0.0)))
  else do .ok (.float (← Number.power x y))

def powNat (a : Int) (n : Nat) : Int :=
  let r : Nat := if a.natAbs ≤ 1 && n != 0 then a.natAbs else Nat.pow a.natAbs n
  if a < 0 && n % 2 == 1 then -(r : Int) else r

def powInts (a b : Int) : Except Fault Value :=
  if 0 ≤ b then .ok (.int (powNat a b.toNat))
  else do powFloats (← floatOfInt a) (← floatOfInt b)

def maxSize : Int := 9223372036854775807

/-- More items or bits than any memory holds. -/
def tooLarge : Nat := 68719476736

def intArith (op : BinaryOp) (a b : Int) : Option (Except Fault Value) :=
  match op with
  | .add => some (.ok (.int (a + b)))
  | .sub => some (.ok (.int (a - b)))
  | .mult => some (.ok (.int (a * b)))
  | .div => some (divideInts a b)
  | .floorDiv =>
    some (if b = 0 then .error (.zero .integerDivision) else .ok (.int (Int.fdiv a b)))
  | .mod => some (if b = 0 then .error (.zero .integerModulo) else .ok (.int (Int.fmod a b)))
  | .pow => some (powInts a b)
  | .lShift => some (
      if b < 0 then .error (.value .negativeShift)
      else if a = 0 then .ok (.int 0)
      else if b.natAbs.log2 > 60 then .error (.overflow .tooManyDigits)
      else if tooLarge < b.toNat then .error .memory
      else .ok (.int (Number.shiftLeft a b.toNat)))
  | .rShift => some (
      if b < 0 then .error (.value .negativeShift) else .ok (.int (Number.shiftRight a b.toNat)))
  | .bitAnd => some (.ok (.int (Number.bitAnd a b)))
  | .bitOr => some (.ok (.int (Number.bitOr a b)))
  | .bitXor => some (.ok (.int (Number.bitXor a b)))
  | .matMult => Option.none

def floatArith (op : BinaryOp) (x y : Float) : Option (Except Fault Value) :=
  match op with
  | .add => some (.ok (.float (x + y)))
  | .sub => some (.ok (.float (x - y)))
  | .mult => some (.ok (.float (x * y)))
  | .div =>
    some (if Number.isZero y then .error (.zero .floatDivision) else .ok (.float (x / y)))
  | .floorDiv => some (
      if Number.isZero y then .error (.zero .floatFloorDivision)
      else .ok (.float (floorDivMod x y).1))
  | .mod =>
    some (if Number.isZero y then .error (.zero .floatModulo) else .ok (.float (floorMod x y)))
  | .pow => some (powFloats x y)
  | _ => Option.none

def complexArith (op : BinaryOp) (a b : Number.Pair) : Option (Except Fault Value) :=
  match op with
  | .add => some (.ok (.complex (a.1 + b.1) (a.2 + b.2)))
  | .sub => some (.ok (.complex (a.1 - b.1) (a.2 - b.2)))
  | .mult => some (.ok (ofPair (Number.Pair.product a b)))
  | .div => some (match Number.Pair.quotient? a b with
      | some p => .ok (ofPair p)
      | Option.none => .error (.zero .complexDivision))
  | .pow => some (do .ok (ofPair (← Number.Pair.power a b)))
  | _ => Option.none

def boolArith (op : BinaryOp) (a b : Bool) : Option Value :=
  match op with
  | .bitAnd => some (.bool (a && b))
  | .bitOr => some (.bool (a || b))
  | .bitXor => some (.bool (a != b))
  | _ => Option.none

def repeated {α : Type} (xs : List α) (count : Int) : List α :=
  if xs.isEmpty then [] else (List.replicate count.toNat xs).flatten

/-- Repeat a sequence of `size` items by a value, which has to be an integer; `long` is the fault of a result that is
too long to count. -/
def repeatBy (size : Nat) (long : Fault) (build : Int → Value) (count : Value) : Except Fault Value :=
  match count.asInt? with
  | some n =>
    if maxSize < n || n < -maxSize - 1 then .error (.overflow .indexSize)
    else if maxSize < size * n then .error long
    else if (tooLarge : Int) < size * n then .error .memory
    else .ok (build n)
  | Option.none => .error (.type (.repeatBy count.typeName))

def repeatSequence (xs : Value) (count : Value) : Option (Except Fault Value) :=
  match xs with
  | .str s => some (repeatBy s.length (.overflow .repeatedText) (fun n => .str (repeated s n)) count)
  | .bytes bs => some (repeatBy bs.length (.overflow .repeatedBytes) (fun n => .bytes (repeated bs n)) count)
  | .tuple items => some (repeatBy items.length .memory (fun n => .tuple (repeated items n)) count)
  | .list items => some (repeatBy items.length .memory (fun n => .list (repeated items n)) count)
  | _ => Option.none

def concatenate (a b : Value) : Option (Except Fault Value) :=
  match a, b with
  | .str s, .str t => some (.ok (.str (s ++ t)))
  | .bytes s, .bytes t => some (.ok (.bytes (s ++ t)))
  | .tuple s, .tuple t => some (.ok (.tuple (s ++ t)))
  | .list s, .list t => some (.ok (.list (s ++ t)))
  | .str _, _ => some (.error (.type (.concatenate "str" b.typeName)))
  | .bytes _, _ => some (.error (.type (.concatenateBytes b.typeName)))
  | .tuple _, _ => some (.error (.type (.concatenate "tuple" b.typeName)))
  | .list _, _ => some (.error (.type (.concatenate "list" b.typeName)))
  | _, _ => Option.none

def setArith (op : BinaryOp) (xs ys : List Value) : Option (List Value) :=
  let has (zs : List Value) (x : Value) : Bool := zs.any (equal x)
  match op with
  | .bitAnd => some (xs.filter (has ys))
  | .bitOr => some (xs ++ ys.filter fun y => !has xs y)
  | .bitXor => some (xs.filter (fun x => !has ys x) ++ ys.filter fun y => !has xs y)
  | .sub => some (xs.filter fun x => !has ys x)
  | _ => Option.none

def choices? : Value → Option (List String)
  | .none => some ["None"]
  | .builtin name => if isClass name then some [name] else Option.none
  | .union names => some names
  | _ => Option.none

def otherBinary (op : BinaryOp) (a b : Value) : Option (Except Fault Value) :=
  match op, a, b with
  | .mod, .str s, _ => some (Formatting.formatText s b)
  | .mod, .bytes s, _ => some (Formatting.formatBytes s b)
  | .add, _, _ => concatenate a b
  | .mult, _, _ =>
    match repeatSequence a b with
    | some r => some r
    | Option.none => repeatSequence b a
  | .bitOr, .dict xs, .dict ys =>
    some (.ok (.dict (ys.foldl (fun acc kv =>
      if acc.any (fun p => equal p.1 kv.1) then
        acc.map fun p => if equal p.1 kv.1 then (p.1, kv.2) else p
      else acc ++ [kv]) xs)))
  | .bitOr, .builtin _, _ | .bitOr, .union _, _ | .bitOr, .none, .builtin _ | .bitOr, .none, .union _ => do
    let xs ← choices? a
    let ys ← choices? b
    let all := xs ++ ys.filter fun y => !xs.contains y
    return .ok (if all.length == 1 then a else .union all)
  | _, .setOf xs, .setOf ys | _, .setOf xs, .frozen ys => (setArith op xs ys).map fun z => .ok (.setOf z)
  | _, .frozen xs, .frozen ys | _, .frozen xs, .setOf ys => (setArith op xs ys).map fun z => .ok (.frozen z)
  | _, _, _ => Option.none

def arith (op : BinaryOp) : Numbers → Option (Except Fault Value)
  | .ints a b => intArith op a b
  | .floats x y => floatArith op x y
  | .complexes a b => complexArith op a b

def complexHas : BinaryOp → Bool
  | .add | .sub | .mult | .div | .pow => true
  | _ => false

def floatHas : BinaryOp → Bool
  | .add | .sub | .mult | .div | .pow | .floorDiv | .mod => true
  | _ => false

/-- Whether two numbers have an operator; it is asked before they are brought together, so that a fault of
the types comes before a fault of the sizes. -/
def numbersHave (op : BinaryOp) (a b : Numeric) : Bool :=
  match a, b with
  | .int _, .int _ => op != .matMult
  | .complex _, _ | _, .complex _ => complexHas op
  | _, _ => floatHas op

def binary (op : BinaryOp) (a b : Value) : Except Fault Value :=
  match a, b with
  | .bool x, .bool y =>
    match boolArith op x y with
    | some v => .ok v
    | Option.none => onNumbers a b
  | _, _ => onNumbers a b
where
  onNumbers (a b : Value) : Except Fault Value :=
    match a.numeric?, b.numeric? with
    | some x, some y =>
      if numbersHave op x y then
        match numbers? a b with
        | some (.ok ns) => (arith op ns).getD (unsupported op a b)
        | some (.error e) => .error e
        | Option.none => unsupported op a b
      else unsupported op a b
    | _, _ => (otherBinary op a b).getD (unsupported op a b)

end SourceOptimizer.Value
