import SourceOptimizer.Number.Shortest

/-! Doubles with a given number of digits: rounded exactly, ties to even, and laid out with or without an
exponent. -/
namespace SourceOptimizer.Number

def roundPlaces (num den places : Nat) : Nat := divideNearest (num * Nat.pow 10 places) den

def padLeft (width : Nat) (s : String) : String := zeros (width - s.length) ++ s

def placePoint (n places : Nat) (point : Bool) : String :=
  let digits := padLeft (places + 1) (Nat.repr n)
  let whole := (digits.take (digits.length - places)).toString
  let rest := (digits.drop (digits.length - places)).toString
  if places = 0 then (if point then whole ++ "." else whole) else whole ++ "." ++ rest

def fixedText (x : Float) (places : Nat) (point : Bool) : String :=
  let (num, den) := ratio x
  placePoint (roundPlaces num den places) places point

def leadingDigits (num den count : Nat) : Nat × Int :=
  let point := decimalPoint num den
  let (n, d) := inUnits num den (point - count)
  let r := divideNearest n d
  if r = Nat.pow 10 count then (Nat.pow 10 (count - 1), point + 1) else (r, point)

def exponentForm (x : Float) (places : Nat) (point : Bool) : String :=
  let (num, den) := ratio x
  let (n, p) := if num = 0 then (0, 1) else leadingDigits num den (places + 1)
  placePoint n places point ++ "e" ++ exponentText (p - 1)

def stripZeros (s : String) : String :=
  if s.toList.contains '.' then
    let cs := (s.toList.reverse.dropWhile (· == '0'))
    String.ofList (match cs with
      | '.' :: r => r.reverse
      | r => r.reverse)
  else s

/-- The shorter of the two forms for `count` digits in all; `keep` keeps zeros at the end. -/
def generalForm (x : Float) (count : Nat) (keep : Bool) : String :=
  let count := if count = 0 then 1 else count
  let (num, den) := ratio x
  let (n, p) := if num = 0 then (0, (1 : Int)) else leadingDigits num den count
  if -4 < p && p ≤ count then
    let places := (count - p).toNat
    let s := placePoint n places keep
    if keep then s else stripZeros s
  else
    let s := placePoint n (count - 1) keep
    (if keep then s else stripZeros s) ++ "e" ++ exponentText (p - 1)

def formatLetter (letter : Char) (x : Float) (precision : Nat) (alternate : Bool) : String :=
  let sign := if isNegative x && !isNaN x then "-" else ""
  let a := absolute x
  if isNaN x then "nan"
  else if isInf x then sign ++ "inf"
  else if letter == 'f' then sign ++ fixedText a precision alternate
  else if letter == 'e' then sign ++ exponentForm a precision alternate
  else sign ++ generalForm a precision alternate

/-- A double rounded to a number of decimal places, ties to even, negative places counted to the left of
the point; none when the result is out of range. -/
def roundTo? (x : Float) (places : Int) : Option Float :=
  let (num, den) := ratio x
  match places with
  | .ofNat k => ofRatio? (isNegative x) (roundPlaces num den k) (Nat.pow 10 k)
  | .negSucc k => ofRatio? (isNegative x) (divideNearest num (den * Nat.pow 10 (k + 1)) * Nat.pow 10 (k + 1)) 1

end SourceOptimizer.Number
