import SourceOptimizer.Tree.Printer.Basic

/-! How expressions and patterns are written, given their parts. -/
namespace SourceOptimizer.Printer

def writeValue (v : Value) : Writing Unit := do
  match v with
  | .float _ | .complex _ _ =>
    match v.repr with
    | .ok s => write (writeOverflow s)
    | .error e => throw e
  | .str s =>
    if (← get).plain then write (literalText allQuotes s) else write (Text.quoted s)
  | v =>
    match v.repr with
    | .ok s => write s
    | .error e => throw e

def writeConstant (l : Literal) : Writing Unit := do
  match l.value with
  | .tuple vs => between "(" ")" (tupleItems (vs.map writeValue))
  | .ellipsis => write "..."
  | v =>
    if l.marked then write "u"
    writeValue v

def comprehensionIn (left right : String) (element : Writing Unit) (generators : Piece) : Writing Unit :=
  between left right do
    element
    generators.put

def wordOperands (sign : String) : Binding → List Piece → Writing Unit
  | _, [] => pure ()
  | b, p :: ps => do
    p.putAt b.next
    if !ps.isEmpty then write sign
    wordOperands sign b.next ps

def comparisons : List (CompareOp × Piece) → Writing Unit
  | [] => pure ()
  | (op, p) :: rest => do
    write (" " ++ op.sign ++ " ")
    p.put
    comparisons rest

def isWhole : Piece → Bool
  | .one _ (.constant l) _ _ _ => l.value.asInt?.isSome
  | _ => false

def indexItems? : Piece → Option (List Piece)
  | .one _ (.tuple _) [.many (p :: ps)] _ _ => some (p :: ps)
  | _ => none

def dictItem : Piece × Piece → Writing Unit
  | (.absent, v) => do
    write "**"
    v.putAt .bitOr
  | (k, v) => do
    k.put
    write ": "
    v.put

def marked (mark : String) (p : Piece) : Writing Unit := do
  if !p.isAbsent then
    write mark
    p.put

def plainParameters (positional : Nat) : Nat → List (Piece × Option Piece) → Writing Unit
  | _, [] => pure ()
  | i, (a, d) :: rest => do
    if i != 0 then write ", "
    a.put
    match d with
    | some d =>
      write "="
      d.put
    | none => pure ()
    if i + 1 == positional then write ", /"
    plainParameters positional (i + 1) rest

def keywordParameters : List (Piece × Piece) → Writing Unit
  | [] => pure ()
  | (a, d) :: rest => do
    write ", "
    a.put
    marked "=" d
    keywordParameters rest

def writeParameters (positional plain : List Piece) (variadic : Piece) (keywordOnly keywordDefaults : List Piece)
    (keywordVariadic : Piece) (defaults : List Piece) : Writing Unit := do
  let all := positional ++ plain
  let padded := List.replicate (all.length - defaults.length) none ++ defaults.map some
  plainParameters positional.length 0 (all.zip padded)
  let first := all.isEmpty
  let starred := !variadic.isAbsent || !keywordOnly.isEmpty
  if starred then
    if !first then write ", "
    write "*"
    if !variadic.isAbsent then variadic.put
  keywordParameters (keywordOnly.zip keywordDefaults)
  if !keywordVariadic.isAbsent then
    if !first || starred then write ", "
    write "**"
    keywordVariadic.put

def writeField (k : Kind) (conversion : Option Char) (value format : Piece) : Writing Unit :=
  between "\x7b" "\x7d" do
    need k "value" value
    let expr ← aside (value.putAt Binding.test.next)
    if expr.toList.contains '\\' then throw (.value .backslashInFormatted)
    if expr.toList.head? == some '\x7b' then write " "
    write expr
    match conversion with
    | some c => write (String.ofList ['!', c])
    | none => pure ()
    if !format.isAbsent then
      write ":"
      format.putInner

def doubleBraces (s : Text) : Text :=
  s.flatMap fun c => if c == 0x7b || c == 0x7d then [c, c] else [c]

def captureInner (p : Piece) : Writing (Text × Bool) := do
  let (s, _) ← captured p.putInner
  let isText := match p.kind? with
    | some (.constant _) => true
    | _ => false
  return (Text.ofString s, isText)

def writeFormatted (inner : Writing Unit) (values : List Piece) : Writing Unit := do
  write "f"
  if (← get).plain then
    let (s, _) ← captured inner
    write (literalText allQuotes (Text.ofString s))
  else
    let parts ← values.mapM captureInner
    write (formattedLiteral parts)

/-- How a part of a formatted text is written: nested ones are spliced, texts have their braces doubled. -/
def innerLayout (k : Kind) (parts : List Piece) : Writing Unit :=
  match k, parts with
  | .joinedStr, [values] => values.items.forM Piece.putInner
  | .constant l, _ =>
    match l.value with
    | .str s => write (Text.display (doubleBraces s))
    | _ => throw (.value .unexpectedPart)
  | .formattedValue c, [value, format] => writeField k c value format
  | _, _ => throw (.value .unexpectedPart)

def namedPatterns (names : List String) (ps : List Piece) : List (Writing Unit) :=
  (names.zip ps).map fun (name, p) => do
    write (name ++ "=")
    p.put

def patternLayout (tag : Tag) (k : Kind) (parts : List Piece) : Writing Unit :=
  match k, parts with
  | .matchValue, [v] => v.put
  | .matchSingleton v, _ => writeValue v
  | .matchSequence, [ps] => between "[" "]" (commas ps.items)
  | .matchStar name, _ => write ("*" ++ name.getD "_")
  | .matchMapping rest, [keys, ps] =>
    between "\x7b" "\x7d" do
      separated ", " ((keys.items.zip ps.items).map dictItem)
      match rest with
      | some r =>
        if !keys.items.isEmpty then write ", "
        write ("**" ++ r)
      | none => pure ()
  | .matchClass names, [cls, ps, named] => do
    cls.putAt .atom
    between "(" ")" do
      commas ps.items
      if !names.isEmpty then
        if !ps.items.isEmpty then write ", "
        separated ", " (namedPatterns names named.items)
  | .matchAs name, [p] =>
    match name with
    | none => write "_"
    | some n =>
      if p.isAbsent then write n
      else guarded .test tag do
        p.putAt .bitOr
        write (" as " ++ n)
  | .matchOr, [ps] =>
    guarded .bitOr tag do
      ps.items.forM (Piece.bind Binding.bitOr.next)
      separated " | " (ps.items.map Piece.put)
  | _, _ => pure ()

def expressionLayout (tag : Tag) (k : Kind) (parts : List Piece) : Writing Unit :=
  match k, parts with
  | .boolOp op, [values] =>
    guarded op.binding tag (wordOperands (" " ++ op.sign ++ " ") op.binding values.items)
  | .namedExpr, [target, value] =>
    guarded .namedExpr tag do
      need k "target" target
      need k "value" value
      target.bind .atom
      value.bind .atom
      target.put
      write " := "
      value.put
  | .binOp op, [left, right] =>
    guarded op.binding tag do
      let (l, r) := match op with
        | .pow => (op.binding.next, op.binding)
        | _ => (op.binding, op.binding.next)
      need k "left" left
      left.putAt l
      write (" " ++ op.sign ++ " ")
      need k "right" right
      right.putAt r
  | .unaryOp op, [operand] =>
    guarded op.binding tag do
      write op.sign
      if op == .not then write " "
      need k "operand" operand
      operand.putAt op.binding
  | .lambda, [ps, body] =>
    guarded .test tag do
      write "lambda"
      need k "args" ps
      let (s, wrote) ← captured ps.put
      if wrote then write (" " ++ s)
      write ": "
      need k "body" body
      body.putAt .test
  | .ifExp, [test, body, other] =>
    guarded .test tag do
      need k "body" body
      need k "test" test
      body.bind Binding.test.next
      test.bind Binding.test.next
      body.put
      write " if "
      test.put
      write " else "
      need k "orelse" other
      other.putAt .test
  | .dict, [keys, values] =>
    between "\x7b" "\x7d" (separated ", " ((keys.items.zip values.items).map dictItem))
  | .setDisplay, [items] =>
    if items.items.isEmpty then write "\x7b*()\x7d" else between "\x7b" "\x7d" (commas items.items)
  | .listComp, [e, gens] => comprehensionIn "[" "]" (do need k "elt" e; e.put) gens
  | .generatorExp, [e, gens] => comprehensionIn "(" ")" (do need k "elt" e; e.put) gens
  | .setComp, [e, gens] => comprehensionIn "\x7b" "\x7d" (do need k "elt" e; e.put) gens
  | .dictComp, [key, value, gens] =>
    comprehensionIn "\x7b" "\x7d"
      (do
        need k "key" key
        key.put
        write ": "
        need k "value" value
        value.put)
      gens
  | .comprehension isAsync, [target, iter, conditions] => do
    write (if isAsync then " async for " else " for ")
    need k "target" target
    target.putAt .tuple
    write " in "
    need k "iter" iter
    iter.bind Binding.test.next
    conditions.items.forM (Piece.bind Binding.test.next)
    iter.put
    conditions.items.forM fun c => do
      write " if "
      c.put
  | .await, [value] =>
    guarded .await tag do
      write "await"
      need k "value" value
      write " "
      value.putAt .atom
  | .yield, [value] =>
    guarded .yield tag do
      write "yield"
      if !value.isAbsent then
        write " "
        value.putAt .atom
  | .yieldFrom, [value] =>
    guarded .yield tag do
      write "yield from "
      need k "value" value
      value.putAt .atom
  | .compare ops, [left, others] =>
    guarded .compare tag do
      need k "left" left
      left.bind Binding.compare.next
      others.items.forM (Piece.bind Binding.compare.next)
      left.put
      comparisons (ops.zip others.items)
  | .call, [function, args, keywords] => do
    need k "func" function
    function.putAt .atom
    between "(" ")" (commas (args.items ++ keywords.items))
  | .formattedValue c, [value, format] => writeField k c value format
  | .joinedStr, [values] => writeFormatted (innerLayout k parts) values.items
  | .constant l, _ => writeConstant l
  | .attr name _, [value] => do
    need k "value" value
    value.putAt .atom
    if isWhole value then write " "
    write "."
    write name
  | .subscript _, [value, index] => do
    need k "value" value
    value.putAt .atom
    between "[" "]" do
      need k "slice" index
      match indexItems? index with
      | some items => tupleItems (items.map Piece.put)
      | none => index.put
  | .starred _, [value] => do
    write "*"
    need k "value" value
    value.putAt .bitOr
  | .name id _, _ => write id
  | .list _, [items] => between "[" "]" (commas items.items)
  | .tuple _, [items] => do
    let tight := Binding.tuple.rank < (← bindingOf tag).rank
    betweenIf (items.items.isEmpty || tight) "(" ")" (tupleItems (items.items.map Piece.put))
  | .slice, [lower, upper, step] => do
    if !lower.isAbsent then lower.put
    write ":"
    if !upper.isAbsent then upper.put
    marked ":" step
  | .arguments, [positional, plain, variadic, keywordOnly, keywordDefaults, keywordVariadic, defaults] =>
    writeParameters positional.items plain.items variadic keywordOnly.items keywordDefaults.items
      keywordVariadic defaults.items
  | .arg name, [type] => do
    write name
    marked ": " type
  | .keyword name, [value] => do
    match name with
    | none => write "**"
    | some n =>
      write n
      write "="
    need k "value" value
    value.put
  | k, parts => patternLayout tag k parts

end SourceOptimizer.Printer
