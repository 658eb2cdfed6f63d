/-! Texts as sequences of code points. A text value may hold surrogates, which `String` cannot, so the
values that programs compute with are lists of code points; source code itself is a `String`. -/
namespace SourceOptimizer

abbrev Text := List Nat

namespace Text

def isSurrogate (c : Nat) : Bool := 0xd800 ≤ c && c ≤ 0xdfff

def ofString (s : String) : Text := s.toList.map Char.toNat

def toString? (t : Text) : Option String :=
  if t.any isSurrogate then none else some (String.ofList (t.map Char.ofNat))

/-- The text as a string, each surrogate shown as the replacement character. -/
def display (t : Text) : String :=
  String.ofList (t.map fun c => if isSurrogate c then Char.ofNat 0xfffd else Char.ofNat c)

def hexDigit (n : Nat) : Char := Nat.digitChar n

def hexPadded (width n : Nat) : List Char :=
  (List.range width).reverse.map fun i => hexDigit (n / Nat.pow 16 i % 16)

def containsRun (sub : Text) : Text → Bool
  | [] => sub.isEmpty
  | c :: cs => sub.isPrefixOf (c :: cs) || containsRun sub cs

def compare : Text → Text → Ordering
  | [], [] => .eq
  | [], _ :: _ => .lt
  | _ :: _, [] => .gt
  | a :: as, b :: bs => if a < b then .lt else if b < a then .gt else compare as bs

end Text
end SourceOptimizer
