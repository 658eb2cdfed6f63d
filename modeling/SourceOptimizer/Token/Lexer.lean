import SourceOptimizer.Text.Normal
import SourceOptimizer.Token.Number

/-! The tokens of a source text. Lines end in a newline; the blanks at the beginning of a line that is not
inside brackets make indents and dedents, measured once with tabs to multiples of eight and once with tabs
as wide as a blank: the two measures have to agree on the order. Where the text is no token, the tokens end
with a `bad` one. -/
namespace SourceOptimizer.Token

def unifyNewlines : List Char → List Char
  | [] => []
  | '\r' :: '\n' :: cs => '\n' :: unifyNewlines cs
  | '\r' :: cs => '\n' :: unifyNewlines cs
  | c :: cs => c :: unifyNewlines cs

def endWithNewline (cs : List Char) : List Char :=
  if cs.getLast? == some '\n' || cs.isEmpty then cs else cs ++ ['\n']

/-- Where the lexer stands: the line, the open brackets, and the two widths of each open indentation. -/
structure Place where
  line : Nat
  brackets : List Char
  indents : List (Nat × Nat)

/-- The two widths of the blanks at the beginning of a line. A line continued right there has the width up
to the first continuation. -/
def measure : Nat → Nat → Option (Nat × Nat) → Nat → List Char → Nat × Nat × Nat × List Char
  | col, alt, cont, lines, ' ' :: cs => measure (col + 1) (alt + 1) cont lines cs
  | col, alt, cont, lines, '\t' :: cs => measure ((col / 8 + 1) * 8) (alt + 1) cont lines cs
  | _, _, cont, lines, '\x0c' :: cs => measure 0 0 cont lines cs
  | col, alt, cont, lines, '\\' :: '\n' :: cs =>
    measure col alt (if col == 0 then cont else cont.or (some (col, alt))) (lines + 1) cs
  | col, alt, cont, lines, cs =>
    let (c, a) := cont.getD (col, alt)
    (c, a, lines, cs)

def skipComment (cs : List Char) : List Char := cs.dropWhile (· != '\n')

def isBlankChar (c : Char) : Bool := c == ' ' || c == '\t' || c == '\x0c'

def oneLineString (quote : Char) : List Char → Option (List Char × List Char)
  | [] => none
  | '\n' :: _ => none
  | '\\' :: c :: cs => (oneLineString quote cs).map fun (b, r) => ('\\' :: c :: b, r)
  | c :: cs => if c == quote then some ([], cs) else (oneLineString quote cs).map fun (b, r) => (c :: b, r)

def longString (quote : Char) : List Char → Option (List Char × List Char)
  | [] => none
  | '\\' :: c :: cs => (longString quote cs).map fun (b, r) => ('\\' :: c :: b, r)
  | c :: cs =>
    if c == quote && [quote, quote].isPrefixOf cs then some ([], cs.drop 2)
    else (longString quote cs).map fun (b, r) => (c :: b, r)

def quotedBody (cs : List Char) : Option (List Char × List Char) :=
  match cs with
  | q :: r =>
    if [q, q].isPrefixOf r then
      longString q (r.drop 2)
    else oneLineString q r
  | [] => none

def isQuote (c : Char) : Bool := c == '\'' || c == '"'

def stringStart (cs : List Char) : Option (List Char × List Char) :=
  match cs with
  | a :: b :: r =>
    if isQuote a then some ([], cs)
    else if isQuote b && ['b', 'u', 'r', 'f'].contains a.toLower then some ([a], b :: r)
    else match r with
      | q :: _ =>
        let pair := [a.toLower, b.toLower]
        if isQuote q && [['r', 'b'], ['b', 'r'], ['r', 'f'], ['f', 'r']].contains pair then
          some ([a, b], r)
        else none
      | [] => none
  | [a] => if isQuote a then some ([], cs) else none
  | [] => none

def stringToken (marks body : List Char) : StringToken :=
  let lower := marks.map Char.toLower
  { raw := lower.contains 'r', bytes := lower.contains 'b', formatted := lower.contains 'f'
    marked := marks == ['u'], body }

def isWordStart (c : Char) : Bool := c.isAlpha || c == '_' || 0x80 ≤ c.toNat

def isWordRest (c : Char) : Bool := isWordStart c || c.isDigit

def wordOf (cs : List Char) : Option TokenKind :=
  if cs.all fun c => c.toNat < 0x80 then some (.word (String.ofList cs))
  else
    let codes := cs.map Char.toNat
    if Text.isIdentifier codes then some (.name (String.ofList ((Text.normalize codes).map Char.ofNat)))
    else none

def closing : Char → Char
  | '(' => ')'
  | '[' => ']'
  | _ => '\x7d'

def bracketsAfter (open_ : List Char) (sign : String) : Option (List Char) :=
  match sign.toList with
  | [c] =>
    if c == '(' || c == '[' || c == '\x7b' then some (c :: open_)
    else if c == ')' || c == ']' || c == '\x7d' then
      match open_ with
      | o :: rest => if closing o == c then some rest else none
      | [] => none
    else some open_
  | _ => some open_

/-- Dedents down to a width; none if no open indentation has that width. -/
def dedentTo (col : Nat) : List (Nat × Nat) → Option (Nat × List (Nat × Nat))
  | [] => none
  | (c, a) :: rest =>
    if col < c then (dedentTo col rest).map fun (n, s) => (n + 1, s)
    else if col == c then some (0, (c, a) :: rest)
    else none

def maxBrackets : Nat := 200

def maxIndents : Nat := 100

def indentation (p : Place) (col alt : Nat) : Except SyntaxCause (List TokenKind × List (Nat × Nat)) :=
  match p.indents with
  | [] => .ok ([], [])
  | (c, a) :: rest =>
    if col == c then (if alt == a then .ok ([], p.indents) else .error .tabs)
    else if c < col then
      if maxIndents ≤ p.indents.length then .error .indentation
      else if alt ≤ a then .error .tabs else .ok ([.indent], (col, alt) :: p.indents)
    else match dedentTo col ((c, a) :: rest) with
      | none => .error .indentation
      | some (n, stack) =>
        if stack.head?.map (·.2) == some alt then .ok (List.replicate n .dedent, stack) else .error .tabs

def countNewlines (cs : List Char) : Nat := cs.count '\n'

mutual

def lexLine : Nat → Place → List Char → List Token
  | 0, p, _ => [⟨.bad .general, p.line⟩]
  | fuel + 1, p, cs =>
    let (col, alt, lines, rest) := measure 0 0 none 0 cs
    let p := { p with line := p.line + lines }
    match rest with
    | [] =>
      if lines == 0 then
        List.replicate (p.indents.length - 1) ⟨.dedent, p.line⟩ ++ [⟨.finish, p.line⟩]
      else [⟨.bad .general, p.line⟩]
    | '\n' :: r => lexLine fuel { p with line := p.line + 1 } r
    | '#' :: r =>
      match skipComment r with
      | [] => lexLine fuel p []
      | _ :: r => lexLine fuel { p with line := p.line + 1 } r
    | _ =>
      match indentation p col alt with
      | .error cause => [⟨.bad cause, p.line⟩]
      | .ok (kinds, stack) =>
        kinds.map (⟨·, p.line⟩) ++ lexRest fuel { p with indents := stack } rest

def lexRest : Nat → Place → List Char → List Token
  | 0, p, _ => [⟨.bad .general, p.line⟩]
  | fuel + 1, p, cs =>
    match cs.dropWhile isBlankChar with
    | [] => [⟨.bad .general, p.line⟩]
    | '#' :: r => lexRest fuel p (skipComment r)
    | '\n' :: r =>
      let next := { p with line := p.line + 1 }
      if p.brackets.isEmpty then ⟨.newline, p.line⟩ :: lexLine fuel next r else lexRest fuel next r
    | '\\' :: r =>
      match r with
      | '\n' :: [] => [⟨.bad .general, p.line⟩]
      | '\n' :: r => lexRest fuel { p with line := p.line + 1 } r
      | _ => [⟨.bad .general, p.line⟩]
    | c :: r =>
      match stringStart (c :: r) with
      | some (marks, q) =>
        match quotedBody q with
        | none => [⟨.bad .token, p.line⟩]
        | some (body, r) =>
          ⟨.string (stringToken marks body), p.line⟩ ::
            lexRest fuel { p with line := p.line + countNewlines body } r
      | none =>
        if isWordStart c then
          match wordOf (c :: r.takeWhile isWordRest) with
          | none => [⟨.bad .token, p.line⟩]
          | some w => ⟨w, p.line⟩ :: lexRest fuel p (r.dropWhile isWordRest)
        else if c.isDigit || (c == '.' && (r.head?.map Char.isDigit).getD false) then
          match number (c :: r) with
          | none => [⟨.bad .token, p.line⟩]
          | some (v, r) => ⟨.number v, p.line⟩ :: lexRest fuel p r
        else match signs.find? fun s => s.toList.isPrefixOf (c :: r) with
          | none => [⟨.bad .token, p.line⟩]
          | some s =>
            match bracketsAfter p.brackets s with
            | none => [⟨.bad .token, p.line⟩]
            | some open_ =>
              if maxBrackets ≤ open_.length then [⟨.bad .token, p.line⟩]
              else ⟨.sign s, p.line⟩ ::
                lexRest fuel { p with brackets := open_ } ((c :: r).drop s.length)

end

def scanFrom (line : Nat) (cs : List Char) : List Token :=
  let cs := endWithNewline (unifyNewlines cs)
  if cs.contains '\x00' then [⟨.bad .general, line⟩]
  else lexLine (2 * cs.length + 2) ⟨line, [], [(0, 0)]⟩ cs

def scan (source : String) : List Token := scanFrom 1 source.toList

end SourceOptimizer.Token
