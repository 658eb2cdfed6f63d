import SourceOptimizer.Grammar.Pattern

/-! Statements: simple ones, several on a line, and compound ones with their blocks. -/
namespace SourceOptimizer.Grammar

def assigned (rules : Rules) : Rule Tree := do
  if ← atWord "yield" then yieldExpression rules else rules .sequence

def augmentedSign? : Rule (Option BinaryOp) := do
  let t ← peek
  match BinaryOp.all.find? fun op => t.isSign (op.sign ++ "=") with
  | some op => skip; return some op
  | none => return none

def assignChain (rules : Rules) : Nat → List Tree → Rule (List Tree × Tree)
  | 0, _ => refuse
  | n + 1, targets => do
    let isYield ← atWord "yield"
    let v ← assigned rules
    if ← atSign "=" then
      if isYield then refuse
      match asTarget .store v with
      | some t => skip; assignChain rules n (targets ++ [t])
      | none => refuse
    else return (targets, v)

def expressionStatement (rules : Rules) : Rule Tree := do
  let first ← peek
  let isYield := first.isWord "yield"
  let v ← assigned rules
  if isYield then
    if ← atSign "=" then refuse else return node first.line .exprStmt [v]
  else if ← accept "=" then
    match asTarget .store v with
    | some t =>
      let (targets, value) ← assignChain rules ((← get).length + 1) [t]
      return node first.line .assign [.seq targets, value]
    | none => refuse
  else if ← atSign ":" then
    match asSingleTarget v with
    | some t =>
      skip
      let type ← rules .expression
      let value ← if ← accept "=" then assigned rules else pure .absent
      let simple := match t.kind? with
        | some (.name _ _) => !first.isSign "("
        | _ => false
      return node first.line (.annAssign simple) [t, type, value]
    | none => refuse
  else
    match ← augmentedSign? with
    | some op =>
      match asSingleTarget v with
      | some t =>
        let value ← assigned rules
        return node first.line (.augAssign op) [t, value]
      | none => refuse
    | none => return node first.line .exprStmt [v]

def dottedPath : Rule String := do
  let first ← identifier
  let rest ← many do
    if ← accept "." then return some (← identifier) else return none
  return ".".intercalate (first :: rest)

def asName? : Rule (Option String) := do
  if ← acceptWord "as" then return some (← identifier) else return none

def importStatement (line : Nat) : Rule Tree := do
  let (names, comma) ← commaItems (return false) do
    let l ← lineHere
    let path ← dottedPath
    return node l (.importName path (← asName?)) []
  if comma then refuse else return node line .importStmt [.seq names]

def importedName : Rule Tree := do
  let l ← lineHere
  let id ← identifier
  return node l (.importName id (← asName?)) []

def leadingDots : Rule Nat := do
  let dots ← many do
    if ← accept "." then return some 1
    else if ← accept "..." then return some 3
    else return none
  return dots.foldl (· + ·) 0

def importFromStatement (line : Nat) : Rule Tree := do
  let level ← leadingDots
  let source ← if level != 0 && (← atWord "import") then pure none else some <$> dottedPath
  expectWord "import"
  let l ← lineHere
  let names ← if ← accept "*" then pure [node l (.importName "*" none) []]
    else if ← accept "(" then do
      let (names, _) ← commaItems (closesWith ")") importedName
      expect ")"
      pure names
    else do
      let (names, comma) ← commaItems (return false) importedName
      if comma then refuse else pure names
  return node line (.importFrom source level) [.seq names]

def nameList : Rule (List String) := do
  let (names, _) ← commaItems (return false) identifier
  return names

def atStatementEnd : Rule Bool := do
  return (← atNewline) || (← atSign ";")

def deleteStatement (rules : Rules) (line : Nat) : Rule Tree := do
  let (items, _) ← commaItems atStatementEnd (primary rules)
  let targets ← items.mapM (target .del)
  if ← atStatementEnd then return node line .deleteStmt [.seq targets] else refuse

def simpleStatement (rules : Rules) : Rule Tree := do
  let t ← peek
  let line := t.line
  match t.kind with
  | .word "pass" => skip; return node line .passStmt []
  | .word "break" => skip; return node line .breakStmt []
  | .word "continue" => skip; return node line .continueStmt []
  | .word "return" =>
    skip
    if ← atStatementEnd then return node line .returnStmt [.absent]
    else return node line .returnStmt [← rules .sequence]
  | .word "raise" =>
    skip
    if ← atStatementEnd then return node line .raiseStmt [.absent, .absent]
    else
      let e ← rules .expression
      let cause ← if ← acceptWord "from" then rules .expression else pure .absent
      return node line .raiseStmt [e, cause]
  | .word "assert" =>
    skip
    let test ← rules .expression
    let message ← if ← accept "," then rules .expression else pure .absent
    return node line .assertStmt [test, message]
  | .word "global" => skip; return node line (.globalStmt (← nameList)) []
  | .word "nonlocal" => skip; return node line (.nonlocalStmt (← nameList)) []
  | .word "del" => skip; deleteStatement rules line
  | .word "import" => skip; importStatement line
  | .word "from" => skip; importFromStatement line
  | _ => expressionStatement rules

def simpleStatements (rules : Rules) : Rule (List Tree) := do
  let first ← simpleStatement rules
  let rest ← many do
    if ← accept ";" then
      if ← atNewline then return none else return some (← simpleStatement rules)
    else return none
  expectNewline
  return first :: rest

def block (rules : Rules) : Rule Tree := rules .block

def colonBlock (rules : Rules) : Rule Tree := do
  expect ":"
  block rules

def elseBlock (rules : Rules) : Rule Tree := do
  if ← acceptWord "else" then colonBlock rules else return .seq []

def ifRest (rules : Rules) : Nat → Rule Tree
  | 0 => refuse
  | n + 1 => do
    let line ← lineHere
    if ← acceptWord "elif" then
      let test ← rules .named
      let body ← colonBlock rules
      let other ← ifRest rules n
      return .seq [node line .ifStmt [test, body, other]]
    else elseBlock rules

def ifStatement (rules : Rules) (line : Nat) : Rule Tree := do
  let test ← rules .named
  let body ← colonBlock rules
  let other ← ifRest rules ((← get).length + 1)
  return node line .ifStmt [test, body, other]

def whileStatement (rules : Rules) (line : Nat) : Rule Tree := do
  let test ← rules .named
  let body ← colonBlock rules
  let other ← elseBlock rules
  return node line .whileStmt [test, body, other]

def forStatement (rules : Rules) (line : Nat) (kind : Kind) : Rule Tree := do
  let t ← rules .loopTargets
  expectWord "in"
  let iter ← rules .sequence
  let body ← colonBlock rules
  let other ← elseBlock rules
  return node line kind [t, iter, body, other]

def withItem (rules : Rules) : Rule Tree := do
  let context ← rules .expression
  if ← acceptWord "as" then
    let t ← targetItem (primary rules)
    let t ← target .store t
    let next ← peek
    if next.isSign "," || next.isSign ")" || next.isSign ":" then
      return .node {} .withItem [context, t]
    else refuse
  else return .node {} .withItem [context, .absent]

def withItems (rules : Rules) : Rule (List Tree) :=
  orElse
    (do
      expect "("
      let (items, _) ← commaItems (closesWith ")") (withItem rules)
      expect ")"
      expect ":"
      return items)
    (do
      let (items, comma) ← commaItems (return false) (withItem rules)
      if comma then refuse
      expect ":"
      return items)

def withStatement (rules : Rules) (line : Nat) (kind : Kind) : Rule Tree := do
  let items ← withItems rules
  let body ← block rules
  return node line kind [.seq items, body]

def handler? (rules : Rules) (star : Bool) : Rule (Option Tree) := do
  let line ← lineHere
  if ← acceptWord "except" then
    let isStar ← accept "*"
    if isStar != star then refuse
    if !star && (← atSign ":") then
      return some (node line (.exceptHandler none) [.absent, ← colonBlock rules])
    else
      let type ← rules .expression
      let name ← asName?
      return some (node line (.exceptHandler name) [type, ← colonBlock rules])
  else return none

def tryStatement (rules : Rules) (line : Nat) : Rule Tree := do
  let body ← colonBlock rules
  let star := (← atWord "except") && (((← peekSecond).map (·.isSign "*")).getD false)
  let handlers ← many (handler? rules star)
  let other ← if handlers.isEmpty then pure (.seq []) else elseBlock rules
  let final ← if ← acceptWord "finally" then some <$> colonBlock rules else pure none
  if handlers.isEmpty && final.isNone then refuseWord
  else
    return node line (if star then .tryStar else .tryStmt)
      [body, .seq handlers, other, final.getD (.seq [])]

def functionStatement (rules : Rules) (line : Nat) (isAsync : Bool) (decorators : List Tree) : Rule Tree := do
  let name ← identifier
  expect "("
  let ps ← parameters rules true ")"
  expect ")"
  let result ← if ← accept "->" then rules .expression else pure .absent
  let body ← colonBlock rules
  return node line (if isAsync then .asyncFunctionDef name else .functionDef name)
    [ps, body, .seq decorators, result]

def classStatement (rules : Rules) (line : Nat) (decorators : List Tree) : Rule Tree := do
  let name ← identifier
  let a ← if ← accept "(" then callArguments rules {} else pure {}
  let body ← colonBlock rules
  return node line (.classDef name) [.seq a.positional, .seq a.keywords, body, .seq decorators]

def definition (rules : Rules) (decorators : List Tree) : Rule Tree := do
  let line ← lineHere
  if ← acceptWord "def" then functionStatement rules line false decorators
  else if ← acceptWord "class" then classStatement rules line decorators
  else if ← acceptWord "async" then
    expectWord "def"
    functionStatement rules line true decorators
  else refuse

def decorated (rules : Rules) : Rule Tree := do
  let decorators ← many do
    if ← accept "@" then
      let e ← rules .named
      expectNewline
      return some e
    else return none
  definition rules decorators

def matchHead (rules : Rules) : Rule Tree := do
  expectWord "match"
  let line ← lineHere
  let (items, comma) ← commaItems (closesWith ":") (starredNamed rules)
  expect ":"
  expectNewline
  match items with
  | [t] =>
    let isStar := match t with
      | .node _ (.starred _) _ => true
      | _ => false
    if comma then return node line (.tuple .load) [.seq [t]]
    else if isStar then refuse
    else return t
  | ts => return node line (.tuple .load) [.seq ts]

def caseBlock (rules : Rules) : Rule (Option Tree) := do
  if ← acceptWord "case" then
    let p ← casePattern rules
    let guard ← if ← acceptWord "if" then rules .named else pure .absent
    let body ← colonBlock rules
    return some (.node {} .matchCase [p, guard, body])
  else return none

def matchCases (rules : Rules) (line : Nat) (subject : Tree) : Rule Tree := do
  match (← peek).kind with
  | .indent => skip
  | _ => refuseMissing
  let cases ← many (caseBlock rules)
  match (← peek).kind with
  | .dedent =>
    if cases.isEmpty then refuse
    skip
    return node line .matchStmt [subject, .seq cases]
  | _ => refuse

def statement (rules : Rules) : Rule (List Tree) := do
  let t ← peek
  let line := t.line
  match t.kind with
  | .word "if" => skip; return [← ifStatement rules line]
  | .word "while" => skip; return [← whileStatement rules line]
  | .word "for" => skip; return [← forStatement rules line .forStmt]
  | .word "with" => skip; return [← withStatement rules line .withStmt]
  | .word "try" => skip; return [← tryStatement rules line]
  | .word "def" | .word "class" | .sign "@" => return [← decorated rules]
  | .word "async" =>
    match ← peekSecond with
    | some u =>
      if u.isWord "for" then skip; skip; return [← forStatement rules line .asyncFor]
      else if u.isWord "with" then skip; skip; return [← withStatement rules line .asyncWith]
      else return [← decorated rules]
    | none => refuse
  | .word "match" =>
    match ← optionally (matchHead rules) with
    | some subject => return [← matchCases rules line subject]
    | none => simpleStatements rules
  | _ => simpleStatements rules

def statements (rules : Rules) : Rule (List Tree) := do
  let groups ← many do
    match (← peek).kind with
    | .dedent | .finish => return none
    | _ => return some (← statement rules)
  return groups.flatten

def blockBody (rules : Rules) : Rule Tree := do
  if ← atNewline then
    skip
    match (← peek).kind with
    | .indent =>
      skip
      let body ← statements rules
      match (← peek).kind with
      | .dedent => skip; return .seq body
      | _ => refuse
    | _ => refuseMissing
  else return .seq (← simpleStatements rules)

end SourceOptimizer.Grammar
