import SourceOptimizer.Fault
import SourceOptimizer.Value.Basic

/-! Tokens of a source text. -/
namespace SourceOptimizer

structure StringToken where
  raw : Bool
  bytes : Bool
  formatted : Bool
  /-- spelled with a leading lower-case `u` -/
  marked : Bool
  body : List Char
  deriving Inhabited

inductive TokenKind where
  /-- identifiers and keywords -/
  | word (text : String)
  /-- an identifier spelled with other characters than those of keywords, in its normal form -/
  | name (text : String)
  | number (value : Value)
  | string (literal : StringToken)
  | sign (text : String)
  | newline
  | indent
  | dedent
  | finish
  | bad (cause : SyntaxCause)
  deriving Inhabited

structure Token where
  kind : TokenKind
  line : Nat
  deriving Inhabited

namespace Token

def keywords : List String :=
  ["False", "None", "True", "and", "as", "assert", "async", "await", "break", "class", "continue", "def",
   "del", "elif", "else", "except", "finally", "for", "from", "global", "if", "import", "in", "is",
   "lambda", "nonlocal", "not", "or", "pass", "raise", "return", "try", "while", "with", "yield"]

def isKeyword (s : String) : Bool := keywords.contains s

def signs : List String :=
  ["**=", "//=", ">>=", "<<=", "...", "!=", "%=", "&=", "**", "*=", "+=", "-=", "->", "//", "/=", ":=",
   "<<", "<=", "==", ">=", ">>", "@=", "^=", "|=", "%", "&", "(", ")", "*", "+", ",", "-", ".", "/", ":",
   ";", "<", "=", ">", "@", "[", "]", "^", "\x7b", "|", "\x7d", "~"]

def isWord (w : String) (t : Token) : Bool :=
  match t.kind with
  | .word s => s == w
  | _ => false

def isSign (w : String) (t : Token) : Bool :=
  match t.kind with
  | .sign s => s == w
  | _ => false

def isBad (t : Token) : Bool :=
  match t.kind with
  | .bad .token => true
  | _ => false

def name? (t : Token) : Option String :=
  match t.kind with
  | .word s => if isKeyword s then none else some s
  | .name s => some s
  | _ => none

end Token
end SourceOptimizer
