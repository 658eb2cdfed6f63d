/-! Finite doubles as exact numbers: a sign, an integer and a power of two, and back by rounding an exact
ratio to the nearest double, ties to the even one. All arithmetic in between is on integers. -/
namespace SourceOptimizer.Number

/-- The number `± mantissa · 2 ^ exponent`. -/
structure Dyadic where
  negative : Bool
  mantissa : Nat
  exponent : Int

def isNaN (x : Float) : Bool := x.toBits.toNat % Nat.pow 2 63 > 2047 * Nat.pow 2 52

def isInf (x : Float) : Bool := x.toBits.toNat % Nat.pow 2 63 == 2047 * Nat.pow 2 52

def isFinite (x : Float) : Bool := x.toBits.toNat % Nat.pow 2 63 < 2047 * Nat.pow 2 52

def isNegative (x : Float) : Bool := Nat.pow 2 63 ≤ x.toBits.toNat

def isZero (x : Float) : Bool := x.toBits.toNat % Nat.pow 2 63 == 0

def infinity : Float := Float.ofBits 0x7ff0000000000000

def notANumber : Float := Float.ofBits 0x7ff8000000000000

def negate (x : Float) : Float :=
  Float.ofBits (UInt64.ofNat ((x.toBits.toNat + Nat.pow 2 63) % Nat.pow 2 64))

def absolute (x : Float) : Float := Float.ofBits (UInt64.ofNat (x.toBits.toNat % Nat.pow 2 63))

def withSign (x sign : Float) : Float :=
  if isNegative sign then negate (absolute x) else absolute x

def exact (x : Float) : Dyadic :=
  let e : Nat := x.toBits.toNat / Nat.pow 2 52 % 2048
  let f : Nat := x.toBits.toNat % Nat.pow 2 52
  if e = 0 then ⟨isNegative x, f, -1074⟩ else ⟨isNegative x, f + Nat.pow 2 52, (e : Int) - 1075⟩

/-- `num / den` as numerator and denominator of the same number scaled by `2 ^ (-e)`. -/
def scaled (num den : Nat) (e : Int) : Nat × Nat :=
  match e with
  | .ofNat k => (num, den * Nat.pow 2 k)
  | .negSucc k => (num * Nat.pow 2 (k + 1), den)

def divideNearest (num den : Nat) : Nat :=
  let q := num / den
  let r := num % den
  if 2 * r < den then q else if den < 2 * r then q + 1 else if q % 2 = 0 then q else q + 1

/-- The double nearest to `num / den` for `0 < den`, or none when it is out of range. -/
def ofRatio? (negative : Bool) (num den : Nat) : Option Float :=
  let sign : Nat := if negative then Nat.pow 2 63 else 0
  if num = 0 then some (Float.ofBits (UInt64.ofNat sign)) else
  let guess : Int := (num.log2 : Int) - den.log2 - 52
  let (n, d) := scaled num den guess
  let e : Int := max (if n / d < Nat.pow 2 52 then guess - 1 else guess) (-1074)
  let (n, d) := scaled num den e
  let bits : Nat := (e + 1074).toNat * Nat.pow 2 52 + divideNearest n d
  if bits < 2047 * Nat.pow 2 52 then some (Float.ofBits (UInt64.ofNat (sign + bits))) else none

def ofInt? (n : Int) : Option Float := ofRatio? (n < 0) n.natAbs 1

/-- The double nearest to `mantissa · 10 ^ exponent`; out of range gives an infinity. -/
def ofDecimal (negative : Bool) (mantissa : Nat) (exponent : Int) : Float :=
  let limit : Float := if negative then negate infinity else infinity
  let digits : Int := (Nat.repr mantissa).length
  if mantissa = 0 then (ofRatio? negative 0 1).getD limit
  else if exponent + digits > 400 then limit
  else if exponent + digits < -400 then (ofRatio? negative 0 1).getD limit
  else match exponent with
    | .ofNat k => (ofRatio? negative (mantissa * Nat.pow 10 k) 1).getD limit
    | .negSucc k => (ofRatio? negative mantissa (Nat.pow 10 (k + 1))).getD limit

def truncate (x : Float) : Int :=
  let d := exact x
  let n : Nat := match d.exponent with
    | .ofNat k => d.mantissa * Nat.pow 2 k
    | .negSucc k => d.mantissa / Nat.pow 2 (k + 1)
  if d.negative then -(n : Int) else n

def isIntegral (x : Float) : Bool :=
  let d := exact x
  match d.exponent with
  | .ofNat _ => true
  | .negSucc k => d.mantissa % Nat.pow 2 (k + 1) == 0

def isOddIntegral (x : Float) : Bool := isIntegral x && (truncate x).natAbs % 2 == 1

def ratio (x : Float) : Nat × Nat :=
  let d := exact x
  match d.exponent with
  | .ofNat k => (d.mantissa * Nat.pow 2 k, 1)
  | .negSucc k => (d.mantissa, Nat.pow 2 (k + 1))

def compareInt (x : Float) (n : Int) : Ordering :=
  let (num, den) := ratio x
  let a : Int := if isNegative x then -(num : Int) else num
  compare a (n * den)

def remainder (x y : Float) : Float :=
  if !isFinite x || isNaN y || isZero y then notANumber
  else if isInf y then x
  else
    let (a, b) := ratio x
    let (c, d) := ratio y
    withSign ((ofRatio? false (a * d % (c * b)) (b * d)).getD notANumber) x

/-- The integer square root, found bit by bit from `2 ^ bit` down. -/
def rootFrom (n : Nat) : Nat → Nat → Nat
  | 0, r => r
  | bit + 1, r =>
    let r' := r + Nat.pow 2 bit
    rootFrom n bit (if r' * r' ≤ n then r' else r)

def squareRoot (n : Nat) : Nat := rootFrom n (n.log2 / 2 + 1) 0

def hypotenuse (x y : Float) : Float :=
  if isInf x || isInf y then infinity
  else if isNaN x || isNaN y then notANumber
  else
    let (a, b) := ratio x
    let (c, d) := ratio y
    -- the square root of `n / m²` for `n = (a d)² + (c b)²`, `m = b d`, with 128 extra bits
    let n := (a * d) * (a * d) + (c * b) * (c * b)
    let extra := if n = 0 then 0 else 128
    let r := squareRoot (n * Nat.pow 4 extra)
    let r := if r * r = n * Nat.pow 4 extra then 2 * r else 2 * r + 1
    (ofRatio? false r (b * d * Nat.pow 2 (extra + 1))).getD infinity

end SourceOptimizer.Number
