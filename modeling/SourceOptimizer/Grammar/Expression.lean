import SourceOptimizer.Grammar.FormattedText

/-! Expressions, from atoms up to sequences of starred expressions. -/
namespace SourceOptimizer.Grammar

def nameNode (line : Nat) (id : String) : Tree := node line (.name id .load) []

def constantNode (line : Nat) (v : Value) : Tree := node line (.constant { value := v }) []

/-! ## Targets -/

mutual

def asTarget (ctx : Context) : Tree → Option Tree
  | .node t (.name id _) ps => some (.node t (.name id ctx) ps)
  | .node t (.attr a _) ps => some (.node t (.attr a ctx) ps)
  | .node t (.subscript _) ps => some (.node t (.subscript ctx) ps)
  | .node t (.starred _) [v] =>
    if ctx == .del then none
    else match v with
      | .node _ (.starred _) _ => none
      | _ => (asTarget ctx v).map fun v => .node t (.starred ctx) [v]
  | .node t (.list _) [.seq items] => (asTargets ctx items).map fun xs => .node t (.list ctx) [.seq xs]
  | .node t (.tuple _) [.seq items] => (asTargets ctx items).map fun xs => .node t (.tuple ctx) [.seq xs]
  | _ => none

def asTargets (ctx : Context) : List Tree → Option (List Tree)
  | [] => some []
  | t :: ts => do
    let t ← asTarget ctx t
    let ts ← asTargets ctx ts
    return t :: ts

end

def asSingleTarget (t : Tree) : Option Tree :=
  match t.kind? with
  | some (.name _ _) | some (.attr _ _) | some (.subscript _) => asTarget .store t
  | _ => none

def target (ctx : Context) (t : Tree) : Rule Tree :=
  match asTarget ctx t with
  | some t => return t
  | none => refuse

/-! ## Parameters -/

structure Parameters where
  positionalOnly : List Tree := []
  plain : List Tree := []
  variadic : Option Tree := none
  keywordOnly : List Tree := []
  keywordDefaults : List Tree := []
  keywordVariadic : Option Tree := none
  defaults : List Tree := []
  /-- a star was seen -/
  starred : Bool := false
  slashed : Bool := false
  /-- a star without a name, which still needs a parameter after it -/
  pending : Bool := false

def Parameters.tree (p : Parameters) : Tree :=
  .node {} .arguments
    [.seq p.positionalOnly, .seq p.plain, optional p.variadic, .seq p.keywordOnly, .seq p.keywordDefaults,
     optional p.keywordVariadic, .seq p.defaults]

/-- The declared type of a parameter, where one may stand; after a star it may be starred. -/
def parameterType (rules : Rules) (typed star : Bool) : Rule Tree := do
  if typed then
    if ← accept ":" then
      if star && (← atSign "*") then
        let line ← lineHere
        skip
        let v ← rules .bitOr
        return node line (.starred .load) [v]
      else rules .expression
    else return .absent
  else return .absent

def parameterName (rules : Rules) (typed star : Bool) : Rule Tree := do
  let line ← lineHere
  let name ← identifier
  let type ← parameterType rules typed star
  return node line (.arg name) [type]

def parameter (rules : Rules) (typed : Bool) (p : Parameters) : Rule Parameters := do
  if p.keywordVariadic.isSome then refuse
  else if ← accept "/" then
    if p.slashed || p.starred || p.plain.isEmpty then refuse
    else return { p with positionalOnly := p.plain, plain := [], slashed := true }
  else if ← accept "**" then
    if p.pending then refuse
    else
      let a ← parameterName rules typed false
      return { p with keywordVariadic := some a }
  else if ← accept "*" then
    if p.starred then refuse
    else if ← atSign "," then return { p with starred := true, pending := true }
    else
      let a ← parameterName rules typed true
      if ← atSign "=" then refuse
      else return { p with starred := true, variadic := some a }
  else
    let a ← parameterName rules typed false
    let default ← if ← accept "=" then some <$> rules .expression else pure none
    if p.starred then
      return { p with keywordOnly := p.keywordOnly ++ [a], pending := false
                      keywordDefaults := p.keywordDefaults ++ [optional default] }
    else match default with
      | some d => return { p with plain := p.plain ++ [a], defaults := p.defaults ++ [d] }
      | none =>
        if p.defaults.isEmpty then return { p with plain := p.plain ++ [a] } else refuse

def parametersUpTo (rules : Rules) (typed : Bool) (close : String) : Nat → Parameters → Rule Parameters
  | 0, _ => refuse
  | n + 1, p => do
    if ← atSign close then return p
    let p ← parameter rules typed p
    if ← accept "," then parametersUpTo rules typed close n p
    else if ← atSign close then return p
    else refuse

def parameters (rules : Rules) (typed : Bool) (close : String) : Rule Tree := do
  let p ← parametersUpTo rules typed close ((← get).length + 1) {}
  if p.pending then refuse else return p.tree

/-! ## Atoms -/

def clause (rules : Rules) : Rule (Option Tree) := do
  let isAsync ← if ← atWord "async" then
      match ← peekSecond with
      | some t => if t.isWord "for" then skip; pure true else pure false
      | none => pure false
    else pure false
  if ← acceptWord "for" then
    let t ← rules .loopTargets
    expectWord "in"
    let iter ← rules .disjunction
    let conds ← many do
      if ← acceptWord "if" then return some (← rules .disjunction) else return none
    return some (.node {} (.comprehension isAsync) [t, iter, .seq conds])
  else if isAsync then refuse
  else return none

def atClause : Rule Bool := do
  if ← atWord "for" then return true
  if ← atWord "async" then
    return ((← peekSecond).map (·.isWord "for")).getD false
  else return false

def closesWith (s : String) : Rule Bool := atSign s

def namedExpression (rules : Rules) : Rule Tree := do
  if ← atNameThen ":=" then
    let line ← lineHere
    let id ← identifier
    skip
    let value ← rules .expression
    return node line .namedExpr [node line (.name id .store) [], value]
  else
    let t ← rules .expression
    if ← atSign ":=" then refuse else return t

def starredNamed (rules : Rules) : Rule Tree := do
  if ← atSign "*" then
    let line ← lineHere
    skip
    let v ← rules .bitOr
    return node line (.starred .load) [v]
  else rules .named

def yieldExpression (rules : Rules) : Rule Tree := do
  let line ← lineHere
  expectWord "yield"
  if ← acceptWord "from" then
    let v ← rules .expression
    return node line .yieldFrom [v]
  else
    let t ← peek
    let ends := match t.kind with
      | .newline | .finish => true
      | .sign s => [")", ";", "=", "]", "\x7d", ",", ":"].contains s
      | .word s => ["in", "if", "else", "for"].contains s
      | _ => false
    if ends then return node line .yield [.absent]
    else
      let v ← rules .sequence
      return node line .yield [v]

def clauses (rules : Rules) : Rule Tree := do
  return .seq (← many (clause rules))

def roundAtom (rules : Rules) : Rule Tree := do
  let line ← lineHere
  expect "("
  if ← accept ")" then return node line (.tuple .load) [.seq []]
  if ← atWord "yield" then
    let y ← yieldExpression rules
    expect ")"
    return y
  let first ← starredNamed rules
  let isStar := match first with
    | .node _ (.starred _) _ => true
    | _ => false
  if ← accept "," then
    if ← accept ")" then return node line (.tuple .load) [.seq [first]]
    let (rest, _) ← commaItems (closesWith ")") (starredNamed rules)
    expect ")"
    return node line (.tuple .load) [.seq (first :: rest)]
  else if isStar then refuse
  else if ← atClause then
    let cs ← clauses rules
    expect ")"
    return node line .generatorExp [first, cs]
  else
    expect ")"
    return first

def squareAtom (rules : Rules) : Rule Tree := do
  let line ← lineHere
  expect "["
  if ← accept "]" then return node line (.list .load) [.seq []]
  let first ← starredNamed rules
  let isStar := match first with
    | .node _ (.starred _) _ => true
    | _ => false
  if !isStar && (← atClause) then
    let cs ← clauses rules
    expect "]"
    return node line .listComp [first, cs]
  else
    let rest ← moreItems (closesWith "]") (starredNamed rules)
    expect "]"
    return node line (.list .load) [.seq (first :: rest)]

def dictItem (rules : Rules) : Rule (Tree × Tree) := do
  if ← accept "**" then
    let v ← rules .bitOr
    return (.absent, v)
  else
    let k ← rules .expression
    expect ":"
    let v ← rules .expression
    return (k, v)

def dictNode (line : Nat) (items : List (Tree × Tree)) : Tree :=
  node line .dict [.seq (items.map (·.1)), .seq (items.map (·.2))]

def curlyAtom (rules : Rules) : Rule Tree := do
  let line ← lineHere
  expect "\x7b"
  if ← accept "\x7d" then return dictNode line []
  if ← atSign "**" then
    let (items, _) ← commaItems (closesWith "\x7d") (dictItem rules)
    expect "\x7d"
    return dictNode line items
  let isNamed ← atNameThen ":="
  let first ← starredNamed rules
  let isStar := match first with
    | .node _ (.starred _) _ => true
    | _ => false
  if !isStar && !isNamed && (← atSign ":") then
    skip
    let value ← rules .expression
    if ← atClause then
      let cs ← clauses rules
      expect "\x7d"
      return node line .dictComp [first, value, cs]
    else
      let rest ← moreItems (closesWith "\x7d") (dictItem rules)
      expect "\x7d"
      return dictNode line ((first, value) :: rest)
  else if !isStar && (← atClause) then
    let cs ← clauses rules
    expect "\x7d"
    return node line .setComp [first, cs]
  else
    let rest ← moreItems (closesWith "\x7d") (starredNamed rules)
    expect "\x7d"
    return node line .setDisplay [.seq (first :: rest)]

def atom (rules : Rules) : Rule Tree := do
  let t ← peek
  match t.kind with
  | .word w =>
    match t.name? with
    | some id => skip; return nameNode t.line id
    | none =>
      if w == "True" then skip; return constantNode t.line (.bool true)
      else if w == "False" then skip; return constantNode t.line (.bool false)
      else if w == "None" then skip; return constantNode t.line .none
      else refuse
  | .name id => skip; return nameNode t.line id
  | .number v => skip; return constantNode t.line v
  | .string _ => strings rules
  | .sign s =>
    if s == "(" then roundAtom rules
    else if s == "[" then squareAtom rules
    else if s == "\x7b" then curlyAtom rules
    else if s == "..." then skip; return constantNode t.line .ellipsis
    else refuse
  | _ => refuse

/-! ## Calls, attributes, subscripts -/

/-- Arguments as they are collected: after a keyword only keywords and stars may follow, after an unpacked
mapping only keywords and further mappings. -/
structure Arguments where
  positional : List Tree := []
  keywords : List Tree := []
  unpacked : Bool := false

def argument (rules : Rules) (a : Arguments) : Rule Arguments := do
  let line ← lineHere
  if ← accept "**" then
    let v ← rules .expression
    return { a with keywords := a.keywords ++ [node line (.keyword none) [v]], unpacked := true }
  else if ← accept "*" then
    let v ← rules .expression
    if a.unpacked then refuse
    else return { a with positional := a.positional ++ [node line (.starred .load) [v]] }
  else if ← atNameThen "=" then
    let name ← identifier
    skip
    let v ← rules .expression
    return { a with keywords := a.keywords ++ [node line (.keyword (some name)) [v]] }
  else
    let v ← rules .named
    if !a.keywords.isEmpty then refuse
    else return { a with positional := a.positional ++ [v] }

def argumentsUpTo (rules : Rules) : Nat → Arguments → Rule Arguments
  | 0, _ => refuse
  | n + 1, a => do
    if ← atSign ")" then return a
    let a ← argument rules a
    if ← accept "," then argumentsUpTo rules n a
    else if ← atSign ")" then return a
    else refuse

def callArguments (rules : Rules) (a : Arguments) : Rule Arguments := do
  let a ← argumentsUpTo rules ((← get).length + 1) a
  expect ")"
  return a

/-- The brackets of a call. A generator that is the only argument shares them. -/
def callBrackets (rules : Rules) : Rule Arguments := do
  let line ← lineHere
  expect "("
  if ← accept ")" then return {}
  let a ← argument rules {}
  match a.positional, a.keywords with
  | [.node t k ps], [] =>
    let isStar := match k with
      | .starred _ => true
      | _ => false
    if !isStar && (← atClause) then
      let cs ← clauses rules
      expect ")"
      return { positional := [node line .generatorExp [.node t k ps, cs]] }
  | _, _ => pure ()
  if ← accept "," then callArguments rules a
  else
    expect ")"
    return a

def sliceItem (rules : Rules) : Rule Tree := do
  let line ← lineHere
  let ends : Rule Bool := do
    let t ← peek
    return t.isSign ":" || t.isSign "]" || t.isSign ","
  if ← atSign "*" then starredNamed rules
  else
    let isNamed ← atNameThen ":="
    let lower ← if ← atSign ":" then pure .absent else rules .named
    if !isNamed && (← accept ":") then
      let upper ← if ← ends then pure .absent else rules .expression
      let step ← if ← accept ":" then
          if ← ends then pure .absent else rules .expression
        else pure .absent
      return node line .slice [lower, upper, step]
    else return lower

def subscriptIndex (rules : Rules) : Rule Tree := do
  let line ← lineHere
  let (items, comma) ← commaItems (closesWith "]") (sliceItem rules)
  expect "]"
  match items with
  | [t] =>
    let isStar := match t with
      | .node _ (.starred _) _ => true
      | _ => false
    if comma || isStar then return node line (.tuple .load) [.seq [t]] else return t
  | ts => return node line (.tuple .load) [.seq ts]

def trailers (rules : Rules) (line : Nat) : Nat → Tree → Rule Tree
  | 0, acc => return acc
  | n + 1, acc => do
    if ← accept "." then
      let name ← identifier
      trailers rules line n (node line (.attr name .load) [acc])
    else if ← atSign "(" then
      let a ← callBrackets rules
      trailers rules line n (node line .call [acc, .seq a.positional, .seq a.keywords])
    else if ← accept "[" then
      let index ← subscriptIndex rules
      trailers rules line n (node line (.subscript .load) [acc, index])
    else return acc

def primary (rules : Rules) : Rule Tree := do
  let line ← lineHere
  let a ← atom rules
  let t ← peek
  if t.isSign "." || t.isSign "(" || t.isSign "[" then trailers rules line ((← get).length + 1) a
  else return a

def targetItem (operand : Rule Tree) : Rule Tree := do
  if ← atSign "*" then
    let line ← lineHere
    skip
    if ← atSign "*" then refuse
    let v ← operand
    return node line (.starred .load) [v]
  else operand

def atTargetEnd : Rule Bool := do
  let t ← peek
  return t.isWord "in" || t.isSign "=" || t.isSign ":" || t.isSign ")" || t.isSign ";"

/-- The targets of a loop or a comprehension: they end before `in`, so their parts are atoms with their
trailers. -/
def loopTargets (rules : Rules) : Rule Tree := do
  let line ← lineHere
  let (items, comma) ← commaItems atTargetEnd (targetItem (primary rules))
  match items with
  | [t] => if comma then target .store (node line (.tuple .load) [.seq [t]]) else target .store t
  | ts => target .store (node line (.tuple .load) [.seq ts])

/-! ## Operators -/

def power (rules : Rules) : Rule Tree := do
  let line ← lineHere
  let base ← if ← acceptWord "await" then do
      let v ← primary rules
      pure (node line .await [v])
    else primary rules
  if ← accept "**" then
    let e ← rules .factor
    return node line (.binOp .pow) [base, e]
  else return base

def factor (rules : Rules) : Rule Tree := do
  let t ← peek
  let signs : List UnaryOp := [.plus, .minus, .invert]
  match signs.find? fun op => t.isSign op.sign with
  | some op =>
    skip
    let v ← rules .factor
    return node t.line (.unaryOp op) [v]
  | none => power rules

def term (rules : Rules) : Rule Tree :=
  binaryLevel [.mult, .div, .floorDiv, .mod, .matMult] (factor rules)

def sum (rules : Rules) : Rule Tree := binaryLevel [.add, .sub] (term rules)

def shift (rules : Rules) : Rule Tree := binaryLevel [.lShift, .rShift] (sum rules)

def bitAnd (rules : Rules) : Rule Tree := binaryLevel [.bitAnd] (shift rules)

def bitXor (rules : Rules) : Rule Tree := binaryLevel [.bitXor] (bitAnd rules)

def bitOr (rules : Rules) : Rule Tree := binaryLevel [.bitOr] (bitXor rules)

def compareSign : Rule (Option CompareOp) := do
  let t ← peek
  match t.kind with
  | .sign s =>
    let signs : List CompareOp := [.eq, .notEq, .ltE, .lt, .gtE, .gt]
    match signs.find? fun op => op.sign == s with
    | some op => skip; return some op
    | none => return none
  | .word "in" => skip; return some .isIn
  | .word "is" =>
    skip
    if ← acceptWord "not" then return some .isNot else return some .is
  | .word "not" =>
    match ← peekSecond with
    | some u => if u.isWord "in" then skip; skip; return some .notIn else return none
    | none => return none
  | _ => return none

def comparison (rules : Rules) : Rule Tree := do
  let line ← lineHere
  let left ← bitOr rules
  let rest ← many do
    match ← compareSign with
    | some op => return some (op, ← bitOr rules)
    | none => return none
  if rest.isEmpty then return left
  else return node line (.compare (rest.map (·.1))) [left, .seq (rest.map (·.2))]

def inversion (rules : Rules) : Rule Tree := do
  let line ← lineHere
  if ← acceptWord "not" then
    let v ← rules .inversion
    return node line (.unaryOp .not) [v]
  else comparison rules

def joinWords (op : BoolOp) (operand : Rule Tree) : Rule Tree := do
  let line ← lineHere
  let first ← operand
  let rest ← many do
    if ← acceptWord op.sign then return some (← operand) else return none
  if rest.isEmpty then return first else return node line (.boolOp op) [.seq (first :: rest)]

def conjunction (rules : Rules) : Rule Tree := joinWords .and (inversion rules)

def disjunction (rules : Rules) : Rule Tree := joinWords .or (conjunction rules)

def lambdaExpression (rules : Rules) : Rule Tree := do
  let line ← lineHere
  expectWord "lambda"
  let ps ← parameters rules false ":"
  expect ":"
  let body ← rules .expression
  return node line .lambda [ps, body]

def expression (rules : Rules) : Rule Tree := do
  if ← atWord "lambda" then lambdaExpression rules
  else
    let line ← lineHere
    let body ← disjunction rules
    if ← acceptWord "if" then
      let test ← disjunction rules
      expectWord "else"
      let other ← rules .expression
      return node line .ifExp [test, body, other]
    else return body

def starredExpression (rules : Rules) : Rule Tree := do
  let line ← lineHere
  if ← accept "*" then
    let v ← rules .bitOr
    return node line (.starred .load) [v]
  else rules .expression

def atExpression : Rule Bool := do
  let t ← peek
  match t.kind with
  | .name _ | .number _ | .string _ => return true
  | .word w =>
    return t.name?.isSome || ["True", "False", "None", "not", "lambda", "await"].contains w
  | .sign s => return ["(", "[", "\x7b", "-", "+", "~", "...", "*"].contains s
  | _ => return false

def sequence (rules : Rules) : Rule Tree := do
  let line ← lineHere
  let (items, comma) ← commaItems (return !(← atExpression)) (starredExpression rules)
  match items with
  | [t] => if comma then return node line (.tuple .load) [.seq [t]] else return t
  | ts => return node line (.tuple .load) [.seq ts]

end SourceOptimizer.Grammar
