import SourceOptimizer.Fault
import SourceOptimizer.Number.Binary64

/-! Powers and quotients of doubles and of pairs of doubles. The order of the operations is fixed, since
each of them rounds. -/
namespace SourceOptimizer.Number

/-- A double to a double power, for results that are real: the base is not a negative number with a
fractional exponent. -/
def power (x y : Float) : Except Fault Float :=
  if isZero y then .ok 1.0
  else if isNaN x then .ok x
  else if isNaN y then .ok (if x == 1.0 then 1.0 else y)
  else if isInf y then
    let a := absolute x
    if a == 1.0 then .ok 1.0
    else if (isNegative y == false) == (1.0 < a) then .ok infinity else .ok 0.0
  else if isInf x then
    let odd := isOddIntegral y
    if !isNegative y then .ok (if odd then x else infinity)
    else .ok (if odd then withSign 0.0 x else 0.0)
  else if isZero x then
    if isNegative y then .error (.zero .negativePower)
    else .ok (if isOddIntegral y then x else 0.0)
  else
    let negated := isNegative x && isOddIntegral y
    let a := absolute x
    if a == 1.0 then .ok (if negated then -1.0 else 1.0)
    else
      let r := Float.pow a y
      if isInf r then .error (.overflow .outOfRange)
      else .ok (if negated then negate r else r)

abbrev Pair := Float × Float

def Pair.product (a b : Pair) : Pair := (a.1 * b.1 - a.2 * b.2, a.1 * b.2 + a.2 * b.1)

/-- The quotient, dividing through by the larger part of the divisor; none for a zero divisor. -/
def Pair.quotient? (a b : Pair) : Option Pair :=
  let re := absolute b.1
  let im := absolute b.2
  if im ≤ re then
    if re == 0.0 then none
    else
      let ratio := b.2 / b.1
      let denom := b.1 + b.2 * ratio
      some ((a.1 + a.2 * ratio) / denom, (a.2 - a.1 * ratio) / denom)
  else if re ≤ im then
    let ratio := b.1 / b.2
    let denom := b.1 * ratio + b.2
    some ((a.1 * ratio + a.2) / denom, (a.2 * ratio - a.1) / denom)
  else some (notANumber, notANumber)

def Pair.powerLoop : Nat → Nat → Pair → Pair → Pair
  | 0, _, r, _ => r
  | bits + 1, n, r, p =>
    if n = 0 then r
    else powerLoop bits (n / 2) (if n % 2 = 1 then Pair.product r p else r) (Pair.product p p)

def Pair.powerNat (x : Pair) (n : Nat) : Pair := Pair.powerLoop 64 n (1.0, 0.0) x

def Pair.checked (p : Pair) : Except Fault Pair :=
  if isInf p.1 || isInf p.2 then .error (.overflow .complexPower) else .ok p

def Pair.polar (len phase : Float) : Except Fault Pair :=
  if isInf phase then .error (.zero .complexPower)
  else Pair.checked (len * Float.cos phase, len * Float.sin phase)

def Pair.power (a b : Pair) : Except Fault Pair :=
  if isZero b.2 && isFinite b.1 && isIntegral b.1 && absolute b.1 ≤ 100.0 then
    let n := truncate b.1
    if 0 < n then Pair.checked (Pair.powerNat a n.toNat)
    else match Pair.quotient? (1.0, 0.0) (Pair.powerNat a n.natAbs) with
      | some p => Pair.checked p
      | none => .error (.zero .complexPower)
  else if isZero b.1 && isZero b.2 then .ok (1.0, 0.0)
  else if isZero a.1 && isZero a.2 then
    if !isZero b.2 || b.1 < 0.0 then .error (.zero .complexPower) else .ok (0.0, 0.0)
  else
    let size := hypotenuse a.1 a.2
    let angle := Float.atan2 a.2 a.1
    let len := Float.pow size b.1
    let phase := angle * b.1
    if isZero b.2 then Pair.polar len phase
    else Pair.polar (len / Float.exp (angle * b.2)) (phase + b.2 * Float.log size)

end SourceOptimizer.Number
