import SourceOptimizer.Grammar.Basic
import SourceOptimizer.Text.Digit

/-! Escapes in string literals. -/
namespace SourceOptimizer.Grammar

def hexValue? (c : Char) : Option Nat :=
  if c.isDigit then some (c.toNat - 48)
  else if 'a' ≤ c && c ≤ 'f' then some (c.toNat - 87)
  else if 'A' ≤ c && c ≤ 'F' then some (c.toNat - 55)
  else none

def hexNumber? (count : Nat) (cs : List Char) : Option Nat :=
  let ds := cs.take count
  if ds.length < count then none
  else ds.foldlM (fun n c => (hexValue? c).map (n * 16 + ·)) 0

def isOctal (c : Char) : Bool := '0' ≤ c && c ≤ '7'

def octalNumber (cs : List Char) : Nat := cs.foldl (fun n c => n * 8 + (c.toNat - 48)) 0

def letterEscape? : Char → Option Nat
  | '\\' => some 0x5c
  | '\'' => some 0x27
  | '"' => some 0x22
  | 'b' => some 8
  | 'f' => some 12
  | 't' => some 9
  | 'n' => some 10
  | 'r' => some 13
  | 'v' => some 11
  | 'a' => some 7
  | _ => none

/-- The escape after a backslash: what it stands for and how many characters it takes. None if it is
malformed. An unknown escape stands for itself, backslash included. -/
def escapeOf (bytes : Bool) (c : Char) (cs : List Char) : Option (List Nat × Nat) :=
  if c == '\n' then some ([], 1)
  else match letterEscape? c with
    | some n => some ([n], 1)
    | none =>
      if isOctal c then
        let ds := (c :: cs.take 2).takeWhile isOctal
        let n := octalNumber ds
        some ([if bytes then n % 256 else n], ds.length)
      else if c == 'x' then (hexNumber? 2 cs).map fun n => ([n], 3)
      else if bytes then some ([0x5c, c.toNat], 1)
      else if c == 'u' then (hexNumber? 4 cs).map fun n => ([n], 5)
      else if c == 'U' then do
        let n ← hexNumber? 8 cs
        if n < 0x110000 then some ([n], 9) else none
      else if c == 'N' then none
      else some ([0x5c, c.toNat], 1)

def unescapeWith (bytes : Bool) : Nat → List Char → Option (List Nat)
  | _, [] => some []
  | skipped + 1, _ :: cs => unescapeWith bytes skipped cs
  | 0, '\\' :: [] => some [0x5c]
  | 0, '\\' :: c :: cs => do
    let (codes, taken) ← escapeOf bytes c cs
    let rest ← unescapeWith bytes taken (c :: cs)
    return codes ++ rest
  | 0, c :: cs => (unescapeWith bytes 0 cs).map (c.toNat :: ·)

def unescape (bytes raw : Bool) (cs : List Char) : Option (List Nat) :=
  if raw then some (cs.map Char.toNat) else unescapeWith bytes 0 cs

def byteBody (t : StringToken) : Option (List Nat) :=
  if t.body.all fun c => c.toNat < 0x80 then unescape true t.raw t.body else none

end SourceOptimizer.Grammar
