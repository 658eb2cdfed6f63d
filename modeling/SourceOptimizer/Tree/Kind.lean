import SourceOptimizer.Operator
import SourceOptimizer.Value.Equal

/-! Kinds of nodes. A kind holds what a node says apart from its parts: names, operators, contexts,
literals. The comment at a kind lists its parts in order; a star marks a list of parts and a question mark
a part that may be absent. -/
namespace SourceOptimizer

/-- A value written in a program. Two literals that were computed from one another share their origin, which
is how a program can tell one value object from another; a marked text is spelled with a leading `u`. -/
structure Literal where
  value : Value
  origin : Nat := 0
  marked : Bool := false
  deriving Inhabited

/-- Whether two literals are one object. The call operation of a function is a new object every time. -/
def Literal.same (a b : Literal) : Bool :=
  match a.value, b.value with
  | .method _, _ | _, .method _ => false
  | v, w => (a.origin != 0 && a.origin == b.origin) || Value.interned v w

inductive Kind where
  /-- body* -/
  | moduleDef
  /-- parameters, body*, decorators*, result? -/
  | functionDef (name : String)
  /-- parameters, body*, decorators*, result? -/
  | asyncFunctionDef (name : String)
  /-- bases*, keywords*, body*, decorators* -/
  | classDef (name : String)
  /-- value? -/
  | returnStmt
  /-- targets* -/
  | deleteStmt
  /-- targets*, value -/
  | assign
  /-- target, value -/
  | augAssign (op : BinaryOp)
  /-- target, type, value? -/
  | annAssign (simple : Bool)
  /-- target, iterable, body*, otherwise* -/
  | forStmt
  /-- target, iterable, body*, otherwise* -/
  | asyncFor
  /-- test, body*, otherwise* -/
  | whileStmt
  /-- test, body*, otherwise* -/
  | ifStmt
  /-- items*, body* -/
  | withStmt
  /-- items*, body* -/
  | asyncWith
  /-- subject, cases* -/
  | matchStmt
  /-- exception?, cause? -/
  | raiseStmt
  /-- body*, handlers*, otherwise*, finally* -/
  | tryStmt
  /-- body*, handlers*, otherwise*, finally* -/
  | tryStar
  /-- test, message? -/
  | assertStmt
  /-- names* -/
  | importStmt
  /-- names* -/
  | importFrom (source : Option String) (level : Nat)
  | globalStmt (names : List String)
  | nonlocalStmt (names : List String)
  /-- value -/
  | exprStmt
  | passStmt
  | breakStmt
  | continueStmt
  /-- values* -/
  | boolOp (op : BoolOp)
  /-- target, value -/
  | namedExpr
  /-- left, right -/
  | binOp (op : BinaryOp)
  /-- operand -/
  | unaryOp (op : UnaryOp)
  /-- parameters, body -/
  | lambda
  /-- test, body, otherwise -/
  | ifExp
  /-- keys* (absent for an unpacked mapping), values* -/
  | dict
  /-- elements* -/
  | setDisplay
  /-- element, generators* -/
  | listComp
  /-- element, generators* -/
  | setComp
  /-- key, value, generators* -/
  | dictComp
  /-- element, generators* -/
  | generatorExp
  /-- value -/
  | await
  /-- value? -/
  | yield
  /-- value -/
  | yieldFrom
  /-- left, others* -/
  | compare (ops : List CompareOp)
  /-- function, arguments*, keywords* -/
  | call
  /-- value, format? -/
  | formattedValue (conversion : Option Char)
  /-- parts* -/
  | joinedStr
  | constant (literal : Literal)
  /-- value -/
  | attr (name : String) (ctx : Context)
  /-- value, index -/
  | subscript (ctx : Context)
  /-- value -/
  | starred (ctx : Context)
  | name (id : String) (ctx : Context)
  /-- elements* -/
  | list (ctx : Context)
  /-- elements* -/
  | tuple (ctx : Context)
  /-- lower?, upper?, step? -/
  | slice
  /-- target, iterable, conditions* -/
  | comprehension (isAsync : Bool)
  /-- type?, body* -/
  | exceptHandler (name : Option String)
  /-- positional-only*, plain*, variadic?, keyword-only*, keyword-only defaults* (absent ones included),
  keyword-variadic?, defaults* -/
  | arguments
  /-- type? -/
  | arg (name : String)
  /-- value -/
  | keyword (name : Option String)
  | importName (name : String) (asName : Option String)
  /-- context, target? -/
  | withItem
  /-- pattern, guard?, body* -/
  | matchCase
  /-- value -/
  | matchValue
  | matchSingleton (value : Value)
  /-- patterns* -/
  | matchSequence
  /-- keys*, patterns* -/
  | matchMapping (rest : Option String)
  /-- class, patterns*, named patterns* -/
  | matchClass (names : List String)
  | matchStar (name : Option String)
  /-- pattern? -/
  | matchAs (name : Option String)
  /-- patterns* -/
  | matchOr
  deriving Inhabited

namespace Kind

def kindName : Kind → String
  | moduleDef => "Module" | functionDef _ => "FunctionDef" | asyncFunctionDef _ => "AsyncFunctionDef"
  | classDef _ => "ClassDef" | returnStmt => "Return" | deleteStmt => "Delete" | assign => "Assign"
  | augAssign _ => "AugAssign" | annAssign _ => "AnnAssign" | forStmt => "For" | asyncFor => "AsyncFor"
  | whileStmt => "While" | ifStmt => "If" | withStmt => "With" | asyncWith => "AsyncWith"
  | matchStmt => "Match" | raiseStmt => "Raise" | tryStmt => "Try" | tryStar => "TryStar"
  | assertStmt => "Assert" | importStmt => "Import" | importFrom _ _ => "ImportFrom"
  | globalStmt _ => "Global" | nonlocalStmt _ => "Nonlocal" | exprStmt => "Expr" | passStmt => "Pass"
  | breakStmt => "Break" | continueStmt => "Continue" | boolOp _ => "BoolOp" | namedExpr => "NamedExpr"
  | binOp _ => "BinOp" | unaryOp _ => "UnaryOp" | lambda => "Lambda" | ifExp => "IfExp" | dict => "Dict"
  | setDisplay => "Set" | listComp => "ListComp" | setComp => "SetComp" | dictComp => "DictComp"
  | generatorExp => "GeneratorExp" | await => "Await" | yield => "Yield" | yieldFrom => "YieldFrom"
  | compare _ => "Compare" | call => "Call" | formattedValue _ => "FormattedValue"
  | joinedStr => "JoinedStr" | constant _ => "Constant" | attr _ _ => "Attribute"
  | subscript _ => "Subscript" | starred _ => "Starred" | name _ _ => "Name" | list _ => "List"
  | tuple _ => "Tuple" | slice => "Slice" | comprehension _ => "comprehension"
  | exceptHandler _ => "ExceptHandler" | arguments => "arguments" | arg _ => "arg"
  | keyword _ => "keyword" | importName _ _ => "alias" | withItem => "withitem" | matchCase => "match_case"
  | matchValue => "MatchValue" | matchSingleton _ => "MatchSingleton" | matchSequence => "MatchSequence"
  | matchMapping _ => "MatchMapping" | matchClass _ => "MatchClass" | matchStar _ => "MatchStar"
  | matchAs _ => "MatchAs" | matchOr => "MatchOr"

def isExpr : Kind → Bool
  | boolOp _ | namedExpr | binOp _ | unaryOp _ | lambda | ifExp | dict | setDisplay | listComp | setComp
  | dictComp | generatorExp | await | yield | yieldFrom | compare _ | call | formattedValue _ | joinedStr
  | constant _ | attr _ _ | subscript _ | starred _ | name _ _ | list _ | tuple _ | slice => true
  | _ => false

/-- Kinds whose nodes have no line of their own. -/
def hasLine : Kind → Bool
  | moduleDef | comprehension _ | arguments | withItem | matchCase => false
  | _ => true

end Kind
end SourceOptimizer
