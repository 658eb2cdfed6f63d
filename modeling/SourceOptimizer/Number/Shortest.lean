import SourceOptimizer.Number.Binary64

/-! The shortest decimal that reads back as a given double. Among the decimals with the fewest digits in
the interval of numbers that round to the double, the nearest one is taken. -/
namespace SourceOptimizer.Number

/-- Digits `d₁ d₂ … dₖ` and the place of the point: the number is `0.d₁d₂…dₖ · 10 ^ point`. -/
structure Digits where
  digits : List Nat
  point : Int
  deriving Repr, DecidableEq

/-- `num / den ≥ 10 ^ p`. -/
def atLeastTenPow (num den : Nat) : Int → Bool
  | .ofNat k => den * Nat.pow 10 k ≤ num
  | .negSucc k => den ≤ num * Nat.pow 10 (k + 1)

def raisePoint (num den : Nat) : Nat → Int → Int
  | 0, p => p
  | fuel + 1, p => if atLeastTenPow num den p then raisePoint num den fuel (p + 1) else p

/-- The `p` with `10 ^ (p - 1) ≤ num / den < 10 ^ p`, for a positive ratio. -/
def decimalPoint (num den : Nat) : Int :=
  let bits : Int := (num.log2 : Int) - den.log2
  raisePoint num den 8 (Int.fdiv (bits * 30103) 100000 - 2)

def inUnits (num den : Nat) : Int → Nat × Nat
  | .ofNat k => (num, den * Nat.pow 10 k)
  | .negSucc k => (num * Nat.pow 10 (k + 1), den)

/-- The interval of numbers that round to a double, as numerators over one denominator. -/
structure Rounding where
  low : Nat
  value : Nat
  high : Nat
  den : Nat
  closed : Bool

def roundingOf (x : Float) : Rounding :=
  let d := exact x
  let m := d.mantissa
  let low := if m = Nat.pow 2 52 && d.exponent > -1074 then 4 * m - 1 else 4 * m - 2
  let unit : Nat × Nat := match d.exponent - 2 with
    | .ofNat k => (Nat.pow 2 k, 1)
    | .negSucc k => (1, Nat.pow 2 (k + 1))
  ⟨low * unit.1, 4 * m * unit.1, (4 * m + 2) * unit.1, unit.2, m % 2 = 0⟩

/-- The grid point `n` in units of `10 ^ e` reads back as the double. -/
def Rounding.holds (r : Rounding) (n : Nat) (e : Int) : Bool :=
  let (num, den) : Nat × Nat := match e with
    | .ofNat k => (n * Nat.pow 10 k, 1)
    | .negSucc k => (n, Nat.pow 10 (k + 1))
  let x := num * r.den
  if r.closed then r.low * den ≤ x && x ≤ r.high * den else r.low * den < x && x < r.high * den

/-- The best decimal with `k` digits in the interval, if there is one. -/
def Rounding.withDigits? (r : Rounding) (point : Int) (k : Nat) : Option Nat :=
  let e := point - k
  let (num, den) := inUnits r.value r.den e
  let below := num / den
  let above := below + 1
  match r.holds below e, r.holds above e with
  | true, true =>
    let rest := 2 * (num % den)
    some (if rest < den then below else if den < rest then above
      else if below % 2 = 0 then below else above)
  | true, false => some below
  | false, true => some above
  | false, false => none

def Rounding.search (r : Rounding) (point : Int) : Nat → Nat → Nat × Nat
  | 0, k => ((r.withDigits? point k).getD 0, k)
  | fuel + 1, k =>
    match r.withDigits? point k with
    | some n => (n, k)
    | none => r.search point fuel (k + 1)

def decimalDigits (n : Nat) : List Nat := (Nat.toDigits 10 n).map fun c => c.toNat - 48

def dropTrailingZeros (ds : List Nat) : List Nat := (ds.reverse.dropWhile (· == 0)).reverse

def shortest (x : Float) : Digits :=
  let r := roundingOf x
  let point := decimalPoint r.value r.den
  let (n, k) := r.search point 17 1
  let ds := decimalDigits n
  ⟨dropTrailingZeros ds, point + ((ds.length : Int) - k)⟩

structure Layout where
  /-- least and greatest place of the point that is written positionally -/
  leastPoint : Int
  greatestPoint : Int
  /-- whether a whole number keeps `.0` -/
  keepsPoint : Bool

def digitsText (ds : List Nat) : String := String.ofList (ds.map Nat.digitChar)

def zeros (n : Nat) : String := String.ofList (List.replicate n '0')

def exponentText (e : Int) : String :=
  let n := Nat.repr e.natAbs
  (if e < 0 then "-" else "+") ++ (if n.length < 2 then "0" ++ n else n)

def Layout.write (l : Layout) (d : Digits) : String :=
  let n : Int := d.digits.length
  if l.leastPoint ≤ d.point && d.point ≤ l.greatestPoint then
    if d.point ≤ 0 then "0." ++ zeros (-d.point).toNat ++ digitsText d.digits
    else if n ≤ d.point then
      digitsText d.digits ++ zeros (d.point - n).toNat ++ (if l.keepsPoint then ".0" else "")
    else digitsText (d.digits.take d.point.toNat) ++ "." ++ digitsText (d.digits.drop d.point.toNat)
  else
    let rest := d.digits.drop 1
    digitsText (d.digits.take 1) ++ (if rest.isEmpty then "" else "." ++ digitsText rest)
      ++ "e" ++ exponentText (d.point - 1)

def Layout.show (l : Layout) (x : Float) : String :=
  if isNaN x then "nan"
  else
    let sign := if isNegative x then "-" else ""
    if isInf x then sign ++ "inf"
    else if isZero x then sign ++ (if l.keepsPoint then "0.0" else "0")
    else sign ++ l.write (shortest (absolute x))

/-- Numbers below `10 ^ 16` and from `10 ^ -4` on are positional, and a whole number keeps `.0`. -/
def plainLayout : Layout := ⟨-3, 16, true⟩

def partLayout : Layout := ⟨-3, 16, false⟩

end SourceOptimizer.Number
