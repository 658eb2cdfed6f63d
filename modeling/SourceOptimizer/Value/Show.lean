import SourceOptimizer.Fault
import SourceOptimizer.Number.Shortest
import SourceOptimizer.Value.Quoted

/-! Values as text. `Value.repr` writes a value the way a program would spell it; `Value.show` is the same
except that a text stands for itself. An integer of more than 4300 digits has no text. -/
namespace SourceOptimizer

def maxDigits : Nat := 4300

def showInt (n : Int) : Except Fault String :=
  -- below `10 ^ 4300` there are at most 14285 binary digits
  if 15000 < n.natAbs.log2 then .error (.value .tooManyDigits)
  else
    let digits := Nat.repr n.natAbs
    if maxDigits < digits.length then .error (.value .tooManyDigits)
    else .ok (if n < 0 then "-" ++ digits else digits)

def showFloat (x : Float) : String := Number.plainLayout.show x

def showComplex (re im : Float) : String :=
  let imText := Number.partLayout.show im
  if Number.isZero re && !Number.isNegative re then imText ++ "j"
  else
    let sign := if Number.isNaN im || !Number.isNegative im then "+" else ""
    "(" ++ Number.partLayout.show re ++ sign ++ imText ++ "j)"

namespace Value

def showBuiltin (name : String) : String :=
  if isClass name then s!"<class '{name}'>" else s!"<built-in function {name}>"

def showMethod : String :=
  "<bound method PyFunction.call of <utils.simulation.objects.PyFunction.PyFunction object at 0x>>"

mutual

def repr : Value → Except Fault String
  | .none => .ok "None"
  | .ellipsis => .ok "Ellipsis"
  | .notImplemented => .ok "NotImplemented"
  | .bool b => .ok (if b then "True" else "False")
  | .int n => showInt n
  | .float x => .ok (showFloat x)
  | .complex re im => .ok (showComplex re im)
  | .str s => .ok (Text.quoted s)
  | .bytes bs => .ok (Text.quotedBytes bs)
  | .tuple [x] => do .ok ("(" ++ (← repr x) ++ ",)")
  | .tuple xs => do .ok ("(" ++ ", ".intercalate (← reprAll xs) ++ ")")
  | .list xs => do .ok ("[" ++ ", ".intercalate (← reprAll xs) ++ "]")
  | .setOf [] => .ok "set()"
  | .setOf xs => do .ok ("\x7b" ++ ", ".intercalate (← reprAll xs) ++ "\x7d")
  | .frozen [] => .ok "frozenset()"
  | .frozen xs => do .ok ("frozenset(\x7b" ++ ", ".intercalate (← reprAll xs) ++ "\x7d)")
  | .dict kvs => do .ok ("\x7b" ++ ", ".intercalate (← reprPairs kvs) ++ "\x7d")
  | .builtin name => .ok (showBuiltin name)
  | .union names => .ok (" | ".intercalate names)
  | .method _ => .ok showMethod

def reprAll : List Value → Except Fault (List String)
  | [] => .ok []
  | x :: xs => do
    let t ← repr x
    .ok (t :: (← reprAll xs))

def reprPairs : List (Value × Value) → Except Fault (List String)
  | [] => .ok []
  | (k, v) :: kvs => do
    let a ← repr k
    let b ← repr v
    .ok ((a ++ ": " ++ b) :: (← reprPairs kvs))

end

def toText : Value → Except Fault Text
  | .str s => .ok s
  | v => do .ok (Text.ofString (← repr v))

def display (v : Value) : Except Fault String := do
  .ok (Text.display (← toText v))

end Value
end SourceOptimizer
