import SourceOptimizer.Value.Show

/-! String literals with few escapes: the quotes are chosen so that the text need not be changed. -/
namespace SourceOptimizer.Printer

def shortQuotes : List String := ["'", "\""]

def longQuotes : List String := ["\"\"\"", "'''"]

def allQuotes : List String := shortQuotes ++ longQuotes

/-- A character as it is written in a literal; newlines and tabs only count as hidden if `blanks` holds. -/
def literalChar (blanks : Bool) (c : Nat) : List Char :=
  if !blanks && (c == 10 || c == 9) then [Char.ofNat c]
  else if c == 0x5c then ['\\', '\\']
  else if Text.isPrintable c then [Char.ofNat c]
  else Text.escapeHidden c

def isInfix (sub : List Char) : List Char → Bool
  | [] => sub.isEmpty
  | c :: cs => sub.isPrefixOf (c :: cs) || isInfix sub cs

/-- The inside of a literal without the quotes that `Text.quoted` puts around it, and its quote. -/
def quotedInside (s : Text) : List Char × Char :=
  let cs := (Text.quoted s).toList
  ((cs.drop 1).dropLast, cs.headD '\'')

/-- The inside of a literal for a text, and the quotes that may stand around it, the best ones first. -/
def literalInside (quotes : List String) (blanks : Bool) (s : Text) : List Char × List String :=
  let escaped := s.flatMap (literalChar blanks)
  let able := if escaped.contains '\n' then quotes.filter longQuotes.contains else quotes
  let able := able.filter fun q => !isInfix q.toList escaped
  match able with
  | [] =>
    let (inside, q) := quotedInside s
    (inside, [(quotes.find? fun k => k.toList.contains q).getD (String.singleton q)])
  | able =>
    match escaped.getLast? with
    | none => (escaped, able)
    | some last =>
      let starts (q : String) : Bool := q.toList.head? == some last
      let able := able.filter (!starts ·) ++ able.filter starts
      if (able.head?.map starts).getD false then (escaped.dropLast ++ ['\\', last], able)
      else (escaped, able)

def literalText (quotes : List String) (s : Text) : String :=
  let (inside, able) := literalInside quotes false s
  let q := able.headD "'"
  q ++ String.ofList inside ++ q

def joinInsides : List String → List (Text × Bool) → Option (List (List Char) × List String)
  | quotes, [] => some ([], quotes)
  | quotes, (s, isText) :: rest =>
    let (inside, able) := literalInside quotes isText s
    if able.all fun q => !quotes.contains q then none
    else (joinInsides able rest).map fun (more, quotes) => (inside :: more, quotes)

def formattedLiteral (parts : List (Text × Bool)) : String :=
  match joinInsides allQuotes parts with
  | some (insides, quotes) =>
    let q := quotes.headD "'"
    q ++ String.ofList insides.flatten ++ q
  | none =>
    let one (s : Text) : List Char := (quotedInside (0x22 :: s)).1.drop 1
    "'''" ++ String.ofList (parts.flatMap fun p => one p.1) ++ "'''"

/-- A number that is not finite is written by operations that overflow. -/
def writeOverflow (s : String) : String :=
  (s.replace "inf" "1e309").replace "nan" "(1e309-1e309)"

end SourceOptimizer.Printer
