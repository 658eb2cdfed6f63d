import SourceOptimizer.Tree.Printer.Expression

/-! How statements are written, given their parts. -/
namespace SourceOptimizer.Printer

def decorators (ds : Piece) : Writing Unit :=
  ds.items.forM fun d => do
    fill "@"
    d.put

def elseBlock (word : String) (body : Piece) : Writing Unit := do
  if !body.items.isEmpty then
    fill word
    block body.put

def writeFunction (tag : Tag) (k : Kind) (words name : String) (ps body ds result : Piece) :
    Writing Unit := do
  newlineUnlessFirst
  decorators ds
  fill (words ++ " " ++ name)
  between "(" ")" (do need k "args" ps; ps.put)
  marked " -> " result
  needLine tag k
  block (documentedBody body.items)

def writeFor (tag : Tag) (k : Kind) (words : String) (target iter body other : Piece) : Writing Unit := do
  fill words
  need k "target" target
  target.putAt .tuple
  write " in "
  need k "iter" iter
  iter.put
  needLine tag k
  block body.put
  elseBlock "else" other

def writeWith (tag : Tag) (k : Kind) (words : String) (items body : Piece) : Writing Unit := do
  fill words
  commas items.items
  needLine tag k
  block body.put

def insideTry (groups : Bool) (body : Writing Unit) : Writing Unit := do
  let before := (← get).groups
  modify fun st => { st with groups }
  body
  modify fun st => { st with groups := before }

def writeTry (body handlers other final : Piece) : Writing Unit := do
  fill "try"
  block body.put
  handlers.put
  elseBlock "else" other
  elseBlock "finally" final

def isContinuation : List Piece → Bool
  | [.one _ .ifStmt _ _ _] => true
  | _ => false

def writeIf (k : Kind) (test body other : Piece) : Writing Unit := do
  let word := if (← get).continues then "elif " else "if "
  modify fun st => { st with continues := false }
  fill word
  need k "test" test
  test.put
  block body.put
  if isContinuation other.items then
    modify fun st => { st with continues := true }
    other.put
  else elseBlock "else" other

def dots (n : Nat) : String := String.ofList (List.replicate n '.')

def layout (tag : Tag) (k : Kind) (parts : List Piece) : Writing Unit :=
  match k, parts with
  | .moduleDef, [body] => documentedBody body.items
  | .functionDef name, [ps, body, ds, result] => writeFunction tag k "def" name ps body ds result
  | .asyncFunctionDef name, [ps, body, ds, result] =>
    writeFunction tag k "async def" name ps body ds result
  | .classDef name, [bases, keywords, body, ds] => do
    newlineUnlessFirst
    decorators ds
    fill ("class " ++ name)
    let all := bases.items ++ keywords.items
    betweenIf (!all.isEmpty) "(" ")" (commas all)
    block (documentedBody body.items)
  | .returnStmt, [value] => do
    fill "return"
    marked " " value
  | .deleteStmt, [targets] => do
    fill "del "
    commas targets.items
  | .assign, [targets, value] => do
    fill ""
    targets.items.forM fun t => do
      t.putAt .tuple
      write " = "
    need k "value" value
    value.put
    needLine tag k
  | .augAssign op, [target, value] => do
    fill ""
    need k "target" target
    target.put
    write (" " ++ op.sign ++ "= ")
    need k "value" value
    value.put
  | .annAssign simple, [target, type, value] => do
    fill ""
    need k "target" target
    let isName := match target.kind? with
      | some (.name _ _) => true
      | _ => false
    betweenIf (!simple && isName) "(" ")" target.put
    write ": "
    need k "annotation" type
    type.put
    marked " = " value
  | .forStmt, [target, iter, body, other] => writeFor tag k "for " target iter body other
  | .asyncFor, [target, iter, body, other] => writeFor tag k "async for " target iter body other
  | .whileStmt, [test, body, other] => do
    fill "while "
    need k "test" test
    test.put
    block body.put
    elseBlock "else" other
  | .ifStmt, [test, body, other] => writeIf k test body other
  | .withStmt, [items, body] => writeWith tag k "with " items body
  | .asyncWith, [items, body] => writeWith tag k "async with " items body
  | .matchStmt, [subject, cases] => do
    fill "match "
    need k "subject" subject
    subject.put
    block cases.put
  | .raiseStmt, [e, cause] => do
    fill "raise"
    if !e.isAbsent then
      write " "
      e.put
      marked " from " cause
  | .tryStmt, [body, handlers, other, final] => insideTry false (writeTry body handlers other final)
  | .tryStar, [body, handlers, other, final] => insideTry true (writeTry body handlers other final)
  | .assertStmt, [test, message] => do
    fill "assert "
    need k "test" test
    test.put
    marked ", " message
  | .importStmt, [names] => do
    fill "import "
    commas names.items
  | .importFrom source level, [names] => do
    fill "from "
    write (dots level)
    match source with
    | some m => if m != "" then write m
    | none => pure ()
    write " import "
    commas names.items
  | .globalStmt names, _ => do
    fill "global "
    separated ", " (names.map write)
  | .nonlocalStmt names, _ => do
    fill "nonlocal "
    separated ", " (names.map write)
  | .exprStmt, [value] => do
    fill ""
    need k "value" value
    value.putAt .yield
  | .passStmt, _ => fill "pass"
  | .breakStmt, _ => fill "break"
  | .continueStmt, _ => fill "continue"
  | .exceptHandler name, [type, body] => do
    fill (if (← get).groups then "except*" else "except")
    marked " " type
    match name with
    | some n =>
      write " as "
      write n
    | none => pure ()
    block body.put
  | .importName name asName, _ => do
    write name
    match asName with
    | some n => write (" as " ++ n)
    | none => pure ()
  | .withItem, [context, target] => do
    need k "context_expr" context
    context.put
    marked " as " target
  | .matchCase, [p, guard, body] => do
    fill "case "
    need k "pattern" p
    p.put
    marked " if " guard
    block body.put
  | k, parts => expressionLayout tag k parts

mutual

def pieceOf : Tree → Piece
  | .node tag kind parts =>
    let ps := piecesOf parts
    .one tag kind ps (layout tag kind ps) (innerLayout kind ps)
  | .seq items => .many (piecesOf items)
  | .absent => .absent
  | .shared _ => .absent

def piecesOf : List Tree → List Piece
  | [] => []
  | t :: ts => pieceOf t :: piecesOf ts

end
end SourceOptimizer.Printer

namespace SourceOptimizer.Tree

def print (t : Tree) : Except Fault String := do
  let (_, st) ← (Printer.pieceOf t).put.run {}
  return st.out

end SourceOptimizer.Tree
