import SourceOptimizer.Grammar.Literal
import SourceOptimizer.Proofs.NumberText

/-! The lexemes that a value is spelled with, and the tokens that stand for them. Tokens may break off in a
spelling: where brackets nest too deeply, and where a function stands, whose text is no expression. -/
namespace SourceOptimizer

open Number Token

variable {a b : List Lexeme} {ts : List Token} {st : Option (List Token)}

/-- What stands at one place of a spelling: a word, a sign, a number with some value, a literal, or the text of
something that has no spelling. -/
inductive Lexeme where
  | word (w : String)
  | sign (s : String)
  | number (ok : Value → Prop)
  | text (s : Text)
  | bytes (bs : List Nat)
  | foreign

def Lexeme.Is : Lexeme → TokenKind → Prop
  | .word w, k => k = .word w
  | .sign s, k => k = .sign s
  | .number ok, k => ∃ v, k = .number v ∧ ok v
  | .text s, k => ∃ body, k = .string ⟨false, false, false, false, body⟩ ∧ Grammar.unescape false false body = some s
  | .bytes bs, k => ∃ body, k = .string ⟨false, true, false, false, body⟩ ∧
      (body.all fun c => c.toNat < 0x80) = true ∧ Grammar.unescape true false body = some bs
  | .foreign, _ => False

/-- Tokens that begin with the lexemes of a spelling, with the tokens after them, or break off in it. -/
inductive Follows : List Lexeme → List Token → Option (List Token) → Prop
  | done {ts : List Token} : Follows [] ts (some ts)
  | broken {a : Lexeme} {as : List Lexeme} {cause : SyntaxCause} {l : Nat} {ts : List Token} :
      Follows (a :: as) (⟨.bad cause, l⟩ :: ts) none
  | foreign {as : List Lexeme} {l : Nat} {ts : List Token} : Follows (.foreign :: as) (⟨.sign "<", l⟩ :: ts) none
  | next {a : Lexeme} {as : List Lexeme} {k : TokenKind} {l : Nat} {ts : List Token} {st : Option (List Token)} :
      a.Is k → Follows as ts st → Follows (a :: as) (⟨k, l⟩ :: ts) st

namespace Follows

theorem append_none (h : Follows a ts none) : Follows (a ++ b) ts none := by
  generalize hst : (none : Option (List Token)) = st at h
  induction h with
  | done => cases hst
  | broken => exact .broken
  | foreign => exact .foreign
  | next hk _ ih => exact .next hk (ih hst)

theorem append {mid : List Token} (ha : Follows a ts (some mid))
    (hb : Follows b mid st) : Follows (a ++ b) ts st := by
  generalize hst : some mid = st' at ha
  induction ha with
  | done =>
    cases hst
    exact hb
  | broken | foreign => cases hst
  | next hk _ ih => exact .next hk (ih hst)

/-- A spelling in two pieces breaks off in the first, or goes on with the second. -/
theorem of_append (h : Follows (a ++ b) ts st) :
    (st = none ∧ Follows a ts none) ∨ ∃ mid, Follows a ts (some mid) ∧ Follows b mid st := by
  induction a generalizing ts with
  | nil => exact .inr ⟨ts, .done, h⟩
  | cons _ a ih =>
    cases h with
    | broken => exact .inl ⟨rfl, .broken⟩
    | foreign => exact .inl ⟨rfl, .foreign⟩
    | next hk h =>
      rcases ih h with ⟨h1, h2⟩ | ⟨mid, h1, h2⟩
      · exact .inl ⟨h1, .next hk h2⟩
      · exact .inr ⟨mid, .next hk h1, h2⟩

end Follows

/-! ## Spellings of values -/

/-- A double in a layout, with what its digits may stand for; `suffix` is written after it. -/
def numberLexemes (suffix : String) (ok : Float → Value → Prop) (x : Float) : List Lexeme :=
  if isNaN x then [.word ("nan" ++ suffix)]
  else (if isNegative x then [.sign "-"] else []) ++
    [if isInf x then .word ("inf" ++ suffix) else .number (ok (absolute x))]

def RealPart (x : Float) (v : Value) : Prop := v = .float x ∨ ∃ n : Nat, v = .int n ∧ WholeOf x n

def separated (s : String) : List (List Lexeme) → List Lexeme
  | [] => []
  | [ps] => ps
  | ps :: rest => ps ++ .sign s :: separated s rest

def complexLexemes (re im : Float) : List Lexeme :=
  let imaginary := numberLexemes "j" (fun x v => v = .complex 0.0 x) im
  if isZero re && !isNegative re then imaginary
  else .sign "(" :: numberLexemes "" RealPart re ++
    ((if isNaN im || !isNegative im then [.sign "+"] else []) ++ imaginary ++ [.sign ")"])

namespace Value

mutual

def lexemes : Value → List Lexeme
  | .none => [.word "None"]
  | .ellipsis => [.word "Ellipsis"]
  | .notImplemented => [.word "NotImplemented"]
  | .bool b => [.word (if b then "True" else "False")]
  | .int n => if n < 0 then [.sign "-", .number (· = .int n.natAbs)] else [.number (· = .int n)]
  | .float x => numberLexemes "" (fun x v => v = .float x) x
  | .complex re im => complexLexemes re im
  | .str s => [.text s]
  | .bytes bs => [.bytes bs]
  | .tuple [x] => .sign "(" :: lexemes x ++ [.sign ",", .sign ")"]
  | .tuple xs => .sign "(" :: separated "," (lexemesAll xs) ++ [.sign ")"]
  | .list xs => .sign "[" :: separated "," (lexemesAll xs) ++ [.sign "]"]
  | .setOf [] => [.word "set", .sign "(", .sign ")"]
  | .setOf xs => .sign "\x7b" :: separated "," (lexemesAll xs) ++ [.sign "\x7d"]
  | .frozen [] => [.word "frozenset", .sign "(", .sign ")"]
  | .frozen xs => .word "frozenset" :: .sign "(" :: .sign "\x7b" :: separated "," (lexemesAll xs) ++
      [.sign "\x7d", .sign ")"]
  | .dict kvs => .sign "\x7b" :: separated "," (lexemesPairs kvs) ++ [.sign "\x7d"]
  | .union names => separated "|" (names.map fun n => [.word n])
  | .builtin _ => [.foreign]
  | .method _ => [.foreign]

def lexemesAll : List Value → List (List Lexeme)
  | [] => []
  | x :: xs => lexemes x :: lexemesAll xs

def lexemesPairs : List (Value × Value) → List (List Lexeme)
  | [] => []
  | (k, v) :: kvs => (lexemes k ++ .sign ":" :: lexemes v) :: lexemesPairs kvs

end

end Value

end SourceOptimizer
