import SourceOptimizer.Text.Printable
import SourceOptimizer.Value.Basic

/-! Quoted texts and byte strings: the quote is single unless the content has single quotes and no double
ones; the quote and the backslash are escaped, and what cannot be shown is written by number. -/
namespace SourceOptimizer.Text

/-- The quote that needs fewer escapes, the single one by default. -/
def quoteFor (s : List Nat) : Nat := if s.contains 0x27 && !s.contains 0x22 then 0x22 else 0x27

def escapeNumber (c : Nat) : List Char :=
  if c < 0x100 then ['\\', 'x'] ++ hexPadded 2 c
  else if c < 0x10000 then ['\\', 'u'] ++ hexPadded 4 c
  else ['\\', 'U'] ++ hexPadded 8 c

def escapeHidden (c : Nat) : List Char :=
  if c == 9 then ['\\', 't'] else if c == 10 then ['\\', 'n'] else if c == 13 then ['\\', 'r']
  else escapeNumber c

def quoteChar (quote c : Nat) : List Char :=
  if c == quote || c == 0x5c then ['\\', Char.ofNat c]
  else if isPrintable c then [Char.ofNat c]
  else escapeHidden c

def quoted (s : Text) : String :=
  let q := quoteFor s
  String.ofList (Char.ofNat q :: s.flatMap (quoteChar q) ++ [Char.ofNat q])

def quotedPlain (s : Text) : String :=
  let q := quoteFor s
  let one (c : Nat) : List Char := if c < 0x80 then quoteChar q c else escapeNumber c
  String.ofList (Char.ofNat q :: s.flatMap one ++ [Char.ofNat q])

def quoteByte (quote c : Nat) : List Char :=
  if c == quote || c == 0x5c then ['\\', Char.ofNat c]
  else if 0x20 ≤ c && c < 0x7f then [Char.ofNat c]
  else escapeHidden c

def quotedBytes (bs : List Nat) : String :=
  let q := quoteFor bs
  String.ofList ('b' :: Char.ofNat q :: bs.flatMap (quoteByte q) ++ [Char.ofNat q])

end SourceOptimizer.Text
