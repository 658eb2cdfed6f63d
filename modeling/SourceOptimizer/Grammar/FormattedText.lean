import SourceOptimizer.Grammar.Literal
import SourceOptimizer.Token.Lexer

/-! String literals, one or several in a row. A formatted one holds expressions in braces, each with an
optional conversion and an optional format, which may hold expressions again. -/
namespace SourceOptimizer.Grammar

inductive Piece where
  | codes (text : List Nat)
  | value (tree : Tree)

/-- The literal run at the front of a formatted text, up to a brace that is not doubled. `resume` tells
that the run ended with a doubled brace, of which one was kept. -/
structure Run where
  taken : List Char
  rest : List Char
  resume : Bool

def throughBrace : List Char → List Char × List Char
  | [] => ([], [])
  | '\x7d' :: cs => (['\x7d'], cs)
  | c :: cs =>
    let (a, b) := throughBrace cs
    (c :: a, b)

def Run.cons (cs : List Char) (r : Run) : Run := { r with taken := cs ++ r.taken }

/-- What a brace does to a run: it doubles, ends the run, or stands alone where it must not. -/
def atBrace (top : Bool) (kept : List Char) (c : Char) (cs : List Char) : Option Run :=
  if top && cs.head? == some c then some ⟨kept ++ [c], cs.tail, true⟩
  else if top && c == '\x7d' then none
  else some ⟨kept, c :: cs, false⟩

def literalRun (top raw : Bool) : Nat → List Char → Option Run
  | 0, cs => some ⟨[], cs, false⟩
  | _, [] => some ⟨[], [], false⟩
  | n + 1, c :: cs =>
    if c == '\\' && !raw then
      match cs with
      | [] => some ⟨[c], [], false⟩
      | 'N' :: '\x7b' :: rest =>
        let (name, after) := throughBrace rest
        (literalRun top raw n after).map (Run.cons (['\\', 'N', '\x7b'] ++ name))
      | 'N' :: d :: rest => (literalRun top raw n rest).map (Run.cons ['\\', 'N', d])
      | d :: rest =>
        if d == '\x7b' || d == '\x7d' then atBrace top [c] d rest
        else (literalRun top raw n rest).map (Run.cons [c, d])
    else if c == '\x7b' || c == '\x7d' then atBrace top [] c cs
    else (literalRun top raw n cs).map (Run.cons [c])

/-- Where the scan of an embedded expression stands: inside a quoted text, and under which brackets. -/
structure Scan where
  quote : Option (Char × Bool) := none
  brackets : List Char := []

/-- The characters of an embedded expression and what follows them: a conversion, a format, the equals sign
or the closing brace. -/
def expressionRun : Nat → Scan → List Char → Option (List Char × List Char)
  | 0, _, _ => none
  | _, _, [] => none
  | n + 1, s, c :: cs =>
    let go (kept : List Char) (s : Scan) (rest : List Char) : Option (List Char × List Char) :=
      (expressionRun n s rest).map fun (a, b) => (kept ++ a, b)
    if c == '\\' then none
    else match s.quote with
      | some (q, long) =>
        if c == q then
          if long then
            if [q, q].isPrefixOf cs then go [c, q, q] { s with quote := none } (cs.drop 2) else go [c] s cs
          else go [c] { s with quote := none } cs
        else go [c] s cs
      | none =>
        if Token.isQuote c then
          if [c, c].isPrefixOf cs then go [c, c, c] { s with quote := some (c, true) } (cs.drop 2)
          else go [c] { s with quote := some (c, false) } cs
        else if c == '[' || c == '\x7b' || c == '(' then go [c] { s with brackets := c :: s.brackets } cs
        else if c == '#' then none
        else if s.brackets.isEmpty && ['!', ':', '\x7d', '=', '<', '>'].contains c then
          if ['!', '=', '<', '>'].contains c && cs.head? == some '=' then go [c, '='] s cs.tail
          else if c == '>' || c == '<' then go [c] s cs
          else some ([], c :: cs)
        else if c == ']' || c == '\x7d' || c == ')' then
          match s.brackets with
          | o :: rest => if Token.closing o == c then go [c] { s with brackets := rest } cs else none
          | [] => none
        else go [c] s cs

def isSpace (c : Char) : Bool := c == ' ' || (9 ≤ c.toNat && c.toNat ≤ 13)

def readEmbedded (rules : Rules) (line : Nat) (cs : List Char) : Rule Tree := do
  if cs.all fun c => Token.isBlankChar c || c == '\n' then throw .general
  let outer ← get
  set (Token.scanFrom line ('(' :: cs ++ [')']))
  let tree ← rules .sequence
  match ← get with
  | [⟨.newline, _⟩, ⟨.finish, _⟩] => set outer; return tree
  | rest => throw (causeAt rest)

def textNode (line : Nat) (marked : Bool) (codes : List Nat) : Tree :=
  node line (.constant { value := .str codes, marked }) []

def joinPieces (line : Nat) (marked : Bool) : List Nat → List Piece → List Tree
  | acc, [] => if acc.isEmpty then [] else [textNode line marked acc]
  | acc, .codes t :: ps => joinPieces line marked (acc ++ t) ps
  | acc, .value v :: ps =>
    if acc.isEmpty then v :: joinPieces line marked [] ps
    else textNode line marked acc :: v :: joinPieces line marked [] ps

/-- The lines of a literal: that of the first literal in the row, and that of this one with the number of
newlines in it. -/
structure Lines where
  first : Nat
  own : Nat
  newlines : Nat
  marked : Bool

def codesOf (raw : Bool) (cs : List Char) : Rule Piece :=
  match unescape false raw cs with
  | some codes => return .codes codes
  | none => throw .general

def formattedPieces (rules : Rules) (raw : Bool) (ls : Lines) :
    Nat → Nat → List Char → Rule (List Piece × List Char)
  | 0, _, _ => throw .general
  | fuel + 1, depth, cs => do
    match literalRun (depth == 0) raw (cs.length + 1) cs with
    | none => throw .general
    | some run =>
      let text ← codesOf raw run.taken
      if run.resume then
        let (ps, rest) ← formattedPieces rules raw ls fuel depth run.rest
        return (text :: ps, rest)
      match run.rest with
      | '\x7b' :: inner =>
        if 2 ≤ depth then throw .general
        match expressionRun (inner.length + 1) {} inner with
        | none => throw .general
        | some (expr, rest) =>
          let line := ls.own + (ls.newlines - Token.countNewlines inner)
          let value ← readEmbedded rules line expr
          let (shown, rest) := match rest with
            | '=' :: r =>
              let blanks := r.takeWhile isSpace
              (some (expr ++ '=' :: blanks), r.drop blanks.length)
            | r => (none, r)
          let (conversion, rest) ← match rest with
            | '!' :: c :: r =>
              if c == 's' || c == 'r' || c == 'a' then pure (some c, r) else throw .general
            | '!' :: [] => throw .general
            | r => pure (none, r)
          let (format, rest) ← match rest with
            | ':' :: r => do
              if r.isEmpty then throw .general
              let (ps, r) ← formattedPieces rules raw ls fuel (depth + 1) r
              pure (some (node ls.first .joinedStr [.seq (joinPieces ls.first ls.marked [] ps)]), r)
            | r => pure (none, r)
          match rest with
          | '\x7d' :: rest =>
            let conversion :=
              if shown.isSome && format.isNone && conversion.isNone then some 'r' else conversion
            let field := node ls.first (.formattedValue conversion) [value, optional format]
            let echo := (shown.map (·.map Char.toNat)).getD []
            let (ps, rest) ← formattedPieces rules raw ls fuel depth rest
            return (text :: .codes echo :: .value field :: ps, rest)
          | _ => throw .general
      | rest => return ([text], rest)

def literalPieces (rules : Rules) (first : Nat) (marked : Bool) (line : Nat) (t : StringToken) :
    Rule (List Piece) := do
  if t.formatted then
    let ls : Lines := ⟨first, line, Token.countNewlines t.body, marked⟩
    let (ps, rest) ← formattedPieces rules t.raw ls (2 * t.body.length + 2) 0 t.body
    if rest.isEmpty then return ps else throw .general
  else return [← codesOf t.raw t.body]

def stringRow : Rule (List (Nat × StringToken)) :=
  many do
    let t ← peek
    match t.kind with
    | .string s => skip; return some (t.line, s)
    | _ => return none

def strings (rules : Rules) : Rule Tree := do
  let line ← lineHere
  let row ← stringRow
  let marked := (row.head?.map (·.2.marked)).getD false
  if row.any (·.2.bytes) then
    if row.all (·.2.bytes) then
      match row.mapM fun (_, t) => byteBody t with
      | some bodies => return node line (.constant { value := .bytes bodies.flatten }) []
      | none => throw .general
    else throw .general
  else
    let pieces ← row.mapM fun (l, t) => literalPieces rules line marked l t
    let parts := joinPieces line marked [] pieces.flatten
    if row.any (·.2.formatted) then return node line .joinedStr [.seq parts]
    else
      match parts with
      | [t] => return t
      | _ => return textNode line marked []

end SourceOptimizer.Grammar
