/-! Operators and the contexts of names, with their spelling, the names of their kinds, and how tightly
they bind. -/
namespace SourceOptimizer

inductive BinaryOp where
  | add | sub | mult | matMult | div | mod | pow | lShift | rShift | bitOr | bitXor | bitAnd | floorDiv
  deriving DecidableEq, Repr, Inhabited

inductive UnaryOp where
  | invert | not | plus | minus
  deriving DecidableEq, Repr, Inhabited

inductive BoolOp where
  | and | or
  deriving DecidableEq, Repr, Inhabited

inductive CompareOp where
  | eq | notEq | lt | ltE | gt | gtE | is | isNot | isIn | notIn
  deriving DecidableEq, Repr, Inhabited

inductive Context where
  | load | store | del
  deriving DecidableEq, Repr, Inhabited

inductive Binding where
  | namedExpr | tuple | yield | test | or | and | not | compare | bitOr | bitXor | bitAnd | shift
  | arith | term | factor | power | await | atom
  deriving DecidableEq, Repr, Inhabited

namespace Binding

def rank : Binding → Nat
  | namedExpr => 1 | tuple => 2 | yield => 3 | test => 4 | or => 5 | and => 6 | not => 7
  | compare => 8 | bitOr => 9 | bitXor => 10 | bitAnd => 11 | shift => 12 | arith => 13
  | term => 14 | factor => 15 | power => 16 | await => 17 | atom => 18

def next : Binding → Binding
  | namedExpr => tuple | tuple => yield | yield => test | test => or | or => and | and => not
  | not => compare | compare => bitOr | bitOr => bitXor | bitXor => bitAnd | bitAnd => shift
  | shift => arith | arith => term | term => factor | factor => power | power => await
  | await => atom | atom => atom

end Binding

namespace BinaryOp

def sign : BinaryOp → String
  | add => "+" | sub => "-" | mult => "*" | matMult => "@" | div => "/" | mod => "%" | pow => "**"
  | lShift => "<<" | rShift => ">>" | bitOr => "|" | bitXor => "^" | bitAnd => "&" | floorDiv => "//"

def kindName : BinaryOp → String
  | add => "Add" | sub => "Sub" | mult => "Mult" | matMult => "MatMult" | div => "Div" | mod => "Mod"
  | pow => "Pow" | lShift => "LShift" | rShift => "RShift" | bitOr => "BitOr" | bitXor => "BitXor"
  | bitAnd => "BitAnd" | floorDiv => "FloorDiv"

def binding : BinaryOp → Binding
  | add | sub => .arith
  | mult | matMult | div | mod | floorDiv => .term
  | pow => .power
  | lShift | rShift => .shift
  | bitOr => .bitOr
  | bitXor => .bitXor
  | bitAnd => .bitAnd

def all : List BinaryOp :=
  [add, sub, mult, matMult, div, mod, pow, lShift, rShift, bitOr, bitXor, bitAnd, floorDiv]

end BinaryOp

namespace UnaryOp

def sign : UnaryOp → String
  | invert => "~" | not => "not" | plus => "+" | minus => "-"

def kindName : UnaryOp → String
  | invert => "Invert" | not => "Not" | plus => "UAdd" | minus => "USub"

def binding : UnaryOp → Binding
  | not => .not
  | _ => .factor

end UnaryOp

namespace BoolOp

def sign : BoolOp → String
  | and => "and" | or => "or"

def kindName : BoolOp → String
  | and => "And" | or => "Or"

def binding : BoolOp → Binding
  | and => .and
  | or => .or

end BoolOp

namespace CompareOp

def sign : CompareOp → String
  | eq => "==" | notEq => "!=" | lt => "<" | ltE => "<=" | gt => ">" | gtE => ">="
  | is => "is" | isNot => "is not" | isIn => "in" | notIn => "not in"

def kindName : CompareOp → String
  | eq => "Eq" | notEq => "NotEq" | lt => "Lt" | ltE => "LtE" | gt => "Gt" | gtE => "GtE"
  | is => "Is" | isNot => "IsNot" | isIn => "In" | notIn => "NotIn"

end CompareOp

namespace Context

def kindName : Context → String
  | load => "Load" | store => "Store" | del => "Del"

end Context
end SourceOptimizer
