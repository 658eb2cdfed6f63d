import SourceOptimizer.Text.Identifier
import SourceOptimizer.Token.Basic
import SourceOptimizer.Value.Reading

/-! Numbers in a source text: integers in four bases, decimals, and imaginary numbers. -/
namespace SourceOptimizer.Token

/-- Digits with single underscores between them: at least one digit, what follows, and none if an
underscore is not followed by a digit. -/
def takeDigits (isDigit : Char → Bool) : List Char → Option (List Char × List Char)
  | '_' :: c :: cs =>
    if isDigit c then (takeDigits isDigit cs).map fun (d, r) => (c :: d, r) else none
  | '_' :: [] => none
  | c :: cs =>
    if isDigit c then (takeDigits isDigit cs).map fun (d, r) => (c :: d, r) else some ([], c :: cs)
  | [] => some ([], [])

def followers : List String := ["and", "else", "for", "if", "in", "is", "not", "or"]

def numberEnds (rest : List Char) : Bool :=
  match rest with
  | [] => true
  | c :: _ =>
    if Text.isAsciiLetter c.toNat || c.isDigit || c == '_' || 0x80 ≤ c.toNat then
      followers.any fun w => w.toList.isPrefixOf rest
    else true

def natIn (base : Nat) (cs : List Char) : Nat :=
  cs.foldl (fun n c => n * base + (Value.letterValue? c).getD 0) 0

def basedNumber (base : Nat) (isDigit : Char → Bool) (rest : List Char) : Option (Value × List Char) := do
  let (ds, r) ← takeDigits isDigit rest
  if ds.isEmpty || !numberEnds r then none else return (.int (natIn base ds), r)

def exponent (rest : List Char) : Option (Option Int × List Char) :=
  match rest with
  | e :: r =>
    if e == 'e' || e == 'E' then
      match r with
      | s :: d :: r' =>
        if s == '+' || s == '-' then
          if d.isDigit then do
            let (ds, r) ← takeDigits Char.isDigit (d :: r')
            let n : Int := natIn 10 ds
            return (some (if s == '-' then -n else n), r)
          else none
        else if s.isDigit then do
          let (ds, r) ← takeDigits Char.isDigit r
          return (some (natIn 10 ds), r)
        else some (none, rest)
      | [s] =>
        if s.isDigit then some (some (natIn 10 [s]), [])
        else if s == '+' || s == '-' then none
        else some (none, rest)
      | [] => some (none, rest)
    else some (none, rest)
  | [] => some (none, rest)

def decimalTail (whole : List Char) (rest : List Char) : Option (Value × List Char) := do
  let (fraction, hasPoint, r) ← match rest with
    | '.' :: r =>
      match r with
      | c :: _ =>
        if c.isDigit then do
          let (ds, r) ← takeDigits Char.isDigit r
          pure (ds, true, r)
        else pure ([], true, r)
      | [] => pure ([], true, r)
    | r => pure ([], false, r)
  let (e, r) ← exponent r
  let real : Unit → Float := fun _ =>
    Number.ofDecimal false (natIn 10 (whole ++ fraction)) (e.getD 0 - fraction.length)
  match r with
  | c :: r' =>
    if c == 'j' || c == 'J' then
      if numberEnds r' then return (.complex 0.0 (real ()), r') else none
    else finish real hasPoint e r
  | [] => finish real hasPoint e r
where
  finish (real : Unit → Float) (hasPoint : Bool) (e : Option Int) (r : List Char) :
      Option (Value × List Char) :=
    if !numberEnds r then none
    else if hasPoint || e.isSome then some (.float (real ()), r)
    else
      let n := natIn 10 whole
      -- an integer does not begin with a zero unless it is zero, and is not too long
      if (whole.head? == some '0' && n != 0) || maxDigits < whole.length then none
      else some (.int n, r)

def number (cs : List Char) : Option (Value × List Char) :=
  match cs with
  | '0' :: c :: r =>
    if c == 'x' || c == 'X' then
      basedNumber 16 (fun d => d.isDigit || ('a' ≤ d && d ≤ 'f') || ('A' ≤ d && d ≤ 'F')) r
    else if c == 'o' || c == 'O' then basedNumber 8 (fun d => '0' ≤ d && d ≤ '7') r
    else if c == 'b' || c == 'B' then basedNumber 2 (fun d => d == '0' || d == '1') r
    else do
      let (ds, r) ← takeDigits Char.isDigit cs
      decimalTail ds r
  | _ => do
    let (ds, r) ← takeDigits Char.isDigit cs
    decimalTail ds r

end SourceOptimizer.Token
