import SourceOptimizer.Grammar.Expression

/-! Patterns of case blocks. -/
namespace SourceOptimizer.Grammar

def captureName : Rule String := do
  let id ← identifier
  if id == "_" then refuse
  let t ← peek
  if t.isSign "." || t.isSign "(" || t.isSign "=" then refuse else return id

def signedNumber : Rule Tree := do
  let line ← lineHere
  let minus ← accept "-"
  let t ← peek
  match t.kind with
  | .number v =>
    skip
    let c := constantNode t.line v
    return if minus then node line (.unaryOp .minus) [c] else c
  | _ => refuse

def patternNumber : Rule Tree := do
  let line ← lineHere
  let left ← signedNumber
  let join (op : BinaryOp) : Rule Tree := do
    skip
    let t ← peek
    match t.kind with
    | .number (.complex _ _) =>
      let isReal := match left with
        | .node _ (.constant l) _ | .node _ (.unaryOp _) [.node _ (.constant l) _] =>
          match l.value with
          | .complex _ _ => false
          | _ => true
        | _ => false
      if !isReal then refuse
      let right ← signedNumber
      return node line (.binOp op) [left, right]
    | _ => refuse
  if ← atSign "+" then join .add
  else if ← atSign "-" then join .sub
  else return left

def dottedName (line : Nat) : Nat → Tree → Rule Tree
  | 0, acc => return acc
  | n + 1, acc => do
    if ← accept "." then
      let name ← identifier
      dottedName line n (node line (.attr name .load) [acc])
    else return acc

def patternLiteral? (rules : Rules) : Rule (Option Tree) := do
  let t ← peek
  match t.kind with
  | .number _ => return some (← patternNumber)
  | .sign "-" => return some (← patternNumber)
  | .string _ => return some (← strings rules)
  | _ => return none

def singleton? (t : Token) : Option Value :=
  match t.kind with
  | .word "None" => some .none
  | .word "True" => some (.bool true)
  | .word "False" => some (.bool false)
  | _ => none

def sequenceItem (rules : Rules) : Rule Tree := do
  let line ← lineHere
  if ← accept "*" then
    if ← acceptWord "_" then return node line (.matchStar none) []
    else
      let id ← captureName
      return node line (.matchStar (some id)) []
  else rules .pattern

def isStarPattern : Tree → Bool
  | .node _ (.matchStar _) _ => true
  | _ => false

def bracketPattern (rules : Rules) (line : Nat) (close : String) : Rule Tree := do
  if ← accept close then return node line .matchSequence [.seq []]
  let (items, comma) ← commaItems (closesWith close) (sequenceItem rules)
  expect close
  match items with
  | [t] =>
    if close == ")" && !comma then
      if isStarPattern t then refuse else return t
    else return node line .matchSequence [.seq [t]]
  | ts => return node line .matchSequence [.seq ts]

def mappingItem (rules : Rules) : Rule ((Tree × Tree) ⊕ String) := do
  if ← accept "**" then
    let id ← captureName
    return .inr id
  else
    let t ← peek
    let key ← match ← patternLiteral? rules with
      | some k => pure k
      | none =>
        match singleton? t with
        | some v => do skip; pure (constantNode t.line v)
        | none => do
          let id ← identifier
          if !(← atSign ".") then refuse
          dottedName t.line ((← get).length + 1) (nameNode t.line id)
    expect ":"
    let p ← rules .pattern
    return .inl (key, p)

def mappingPattern (rules : Rules) (line : Nat) : Rule Tree := do
  if ← accept "\x7d" then return node line (.matchMapping none) [.seq [], .seq []]
  let (items, _) ← commaItems (closesWith "\x7d") (mappingItem rules)
  expect "\x7d"
  let pairs := items.filterMap Sum.getLeft?
  let rests := items.filterMap Sum.getRight?
  let restLast := match items.getLast? with
    | some (.inr _) => true
    | _ => false
  if rests.isEmpty || (rests.length == 1 && restLast) then
    return node line (.matchMapping rests.head?) [.seq (pairs.map (·.1)), .seq (pairs.map (·.2))]
  else refuse

def classItem (rules : Rules) : Rule (Option String × Tree) := do
  if ← atNameThen "=" then
    let id ← identifier
    skip
    return (some id, ← rules .pattern)
  else return (none, ← rules .pattern)

def classPattern (rules : Rules) (line : Nat) (cls : Tree) : Rule Tree := do
  expect "("
  let items ← if ← atSign ")" then pure []
    else do
      let (items, _) ← commaItems (closesWith ")") (classItem rules)
      pure items
  expect ")"
  let named := items.dropWhile (·.1.isNone)
  if named.all (·.1.isSome) then
    let plain := items.takeWhile (·.1.isNone)
    return node line (.matchClass (named.filterMap (·.1)))
      [cls, .seq (plain.map (·.2)), .seq (named.map (·.2))]
  else refuse

def closedPattern (rules : Rules) : Rule Tree := do
  let t ← peek
  match ← patternLiteral? rules with
  | some v => return node t.line .matchValue [v]
  | none =>
    match singleton? t with
    | some v => skip; return node t.line (.matchSingleton v) []
    | none =>
      if ← accept "(" then bracketPattern rules t.line ")"
      else if ← accept "[" then bracketPattern rules t.line "]"
      else if ← accept "\x7b" then mappingPattern rules t.line
      else if ← acceptWord "_" then return node t.line (.matchAs none) [.absent]
      else
        let id ← identifier
        if ← atSign "." then
          let v ← dottedName t.line ((← get).length + 1) (nameNode t.line id)
          if ← atSign "(" then classPattern rules t.line v
          else if ← atSign "=" then refuse
          else return node t.line .matchValue [v]
        else if ← atSign "(" then classPattern rules t.line (nameNode t.line id)
        else if ← atSign "=" then refuse
        else return node t.line (.matchAs (some id)) [.absent]

def pattern (rules : Rules) : Rule Tree := do
  let line ← lineHere
  let first ← closedPattern rules
  let rest ← many do
    if ← accept "|" then return some (← closedPattern rules) else return none
  let p := if rest.isEmpty then first else node line .matchOr [.seq (first :: rest)]
  if ← acceptWord "as" then
    let id ← captureName
    return node line (.matchAs (some id)) [p]
  else return p

def casePattern (rules : Rules) : Rule Tree := do
  let line ← lineHere
  let closes : Rule Bool := do return (← atSign ":") || (← atWord "if")
  let (items, comma) ← commaItems closes (sequenceItem rules)
  match items with
  | [t] =>
    if comma then return node line .matchSequence [.seq [t]]
    else if isStarPattern t then refuse
    else return t
  | ts => return node line .matchSequence [.seq ts]

end SourceOptimizer.Grammar
