import SourceOptimizer.Text.Digit
import SourceOptimizer.Value.Show

/-! Numbers read from text: integers in a base from 2 to 36, and doubles. Single underscores may stand
between digits, blanks around the whole, and digits of any script count as digits. -/
namespace SourceOptimizer.Value

/-- Characters of a number, digits of all scripts as plain ones and blanks as spaces; none if another
character beyond the plain ones occurs. -/
def plainDigits : Text → Option (List Char)
  | [] => some []
  | c :: cs => do
    let r ← plainDigits cs
    if c < 0x80 then return Char.ofNat c :: r
    else if Text.isBlank c then return ' ' :: r
    else return Nat.digitChar (← Text.digitValue? c) :: r

def letterValue? (c : Char) : Option Nat :=
  if '0' ≤ c && c ≤ '9' then some (c.toNat - 48)
  else if 'a' ≤ c && c ≤ 'z' then some (c.toNat - 87)
  else if 'A' ≤ c && c ≤ 'Z' then some (c.toNat - 55)
  else Option.none

/-- Digits in a base with single underscores between them. `started` says that a digit stands right
before. -/
def digitsIn (base : Nat) : Bool → Nat → List Char → Option Nat
  | started, n, [] => if started then some n else Option.none
  | started, n, '_' :: cs => if started then digitsIn base false n cs else Option.none
  | _, n, c :: cs => do
    let d ← letterValue? c
    if d < base then digitsIn base true (n * base + d) cs else Option.none

def baseMark (c : Char) : Option Nat :=
  if c == 'x' || c == 'X' then some 16
  else if c == 'o' || c == 'O' then some 8
  else if c == 'b' || c == 'B' then some 2
  else Option.none

def allZero (cs : List Char) : Bool := cs.all fun c => c == '0' || c == '_'

/-- Digits after an optional base mark that agrees with the base; base 0 takes it from the mark, and then
a number without mark does not begin with a zero unless it is zero. -/
def unsignedInt (base : Nat) (cs : List Char) : Option Nat :=
  match cs with
  | '0' :: m :: rest =>
    match baseMark m with
    | some b =>
      if base == 0 || base == b then
        match rest with
        | '_' :: r => digitsIn b false 0 r
        | r => digitsIn b false 0 r
      else digitsIn base false 0 cs
    | Option.none =>
      if base == 0 then (if allZero cs then digitsIn 10 false 0 cs else Option.none)
      else digitsIn base false 0 cs
  | _ => digitsIn (if base == 0 then 10 else base) false 0 cs

def isSpace (c : Char) : Bool := c == ' ' || ('\t' ≤ c && c ≤ '\r') || ('\x1c' ≤ c && c ≤ '\x1f')

def trimmed (cs : List Char) : List Char :=
  ((cs.dropWhile isSpace).reverse.dropWhile isSpace).reverse

def signedInt (base : Nat) (cs : List Char) : Option Int :=
  match trimmed cs with
  | '-' :: r => (unsignedInt base r).map fun n => -(n : Int)
  | '+' :: r => (unsignedInt base r).map Int.ofNat
  | r => (unsignedInt base r).map Int.ofNat

def isPowerOfTwo (base : Nat) : Bool := [2, 4, 8, 16, 32].contains base

def readInt (base : Nat) (shown : String) (chars : Option (List Char)) : Except Fault Int :=
  let bad : Except Fault Int := .error (.value (.intText base shown))
  match chars with
  | Option.none => bad
  | some cs =>
    let digits := cs.countP fun c => (letterValue? c).isSome
    match signedInt base cs with
    | Option.none => bad
    | some n =>
      if maxDigits < digits && !isPowerOfTwo base && base != 0 then
        .error (.value (.tooManyDigitsRead digits))
      else .ok n

def spanDigits : Bool → List Char → Option (List Char × List Char)
  | _, [] => some ([], [])
  | started, '_' :: c :: cs =>
    if started && c.isDigit then (spanDigits true cs).map fun (d, r) => (c :: d, r) else Option.none
  | started, c :: cs =>
    if c.isDigit then (spanDigits true cs).map fun (d, r) => (c :: d, r)
    else if c == '_' then (if started then Option.none else some ([], c :: cs))
    else some ([], c :: cs)

def natOfDigits (cs : List Char) : Nat := cs.foldl (fun n c => 10 * n + (c.toNat - 48)) 0

def exponentPart : List Char → Option Int
  | [] => some 0
  | e :: cs =>
    if e == 'e' || e == 'E' then
      let (neg, cs) : Bool × List Char := match cs with
        | '-' :: r => (true, r)
        | '+' :: r => (false, r)
        | r => (false, r)
      match spanDigits false cs with
      | some (d, []) =>
        if d.isEmpty then Option.none
        else some (if neg then -(natOfDigits d : Int) else natOfDigits d)
      | _ => Option.none
    else Option.none

def unsignedDecimal (negative : Bool) (cs : List Char) : Option Float := do
  let (whole, r) ← spanDigits false cs
  let (frac, r) ← match r with
    | '.' :: r =>
      match r with
      | '_' :: _ => Option.none
      | _ => spanDigits false r
    | r => some ([], r)
  if whole.isEmpty && frac.isEmpty then Option.none
  else
    let e ← exponentPart r
    return Number.ofDecimal negative (natOfDigits (whole ++ frac)) (e - frac.length)

def lowerChars (cs : List Char) : List Char := cs.map Char.toLower

def signedFloat (cs : List Char) : Option Float :=
  let (negative, body) : Bool × List Char := match trimmed cs with
    | '-' :: r => (true, r)
    | '+' :: r => (false, r)
    | r => (false, r)
  let word := String.ofList (lowerChars body)
  if word == "inf" || word == "infinity" then
    some (if negative then Number.negate Number.infinity else Number.infinity)
  else if word == "nan" then some Number.notANumber
  else unsignedDecimal negative body

end SourceOptimizer.Value
