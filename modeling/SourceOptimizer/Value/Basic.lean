import SourceOptimizer.Text.Basic
import SourceOptimizer.Number.Binary64

/-! Values that a program can write down or compute before it runs: numbers, texts, byte strings,
the three singletons, containers, and the callables that stand for themselves. -/
namespace SourceOptimizer

inductive Value where
  | none
  | ellipsis
  | notImplemented
  | bool (b : Bool)
  | int (n : Int)
  | float (x : Float)
  | complex (re im : Float)
  | str (s : Text)
  | bytes (bs : List Nat)
  | tuple (items : List Value)
  | list (items : List Value)
  | setOf (items : List Value)
  | frozen (items : List Value)
  | dict (items : List (Value × Value))
  /-- a predefined function or class -/
  | builtin (name : String)
  /-- a choice between classes, by their names -/
  | union (members : List String)
  /-- the call operation of a simulated function, by its number -/
  | method (object : Nat)
  deriving Inhabited

namespace Value

def classNames : List String :=
  ["bool", "bytearray", "bytes", "classmethod", "complex", "dict", "enumerate", "filter", "float",
   "frozenset", "int", "list", "map", "memoryview", "object", "property", "range", "reversed", "set",
   "slice", "staticmethod", "str", "super", "tuple", "type", "zip"]

/-- Whether a predefined callable is a class; the classes of faults are those with a capital. -/
def isClass (name : String) : Bool := classNames.contains name || (name.toList.head?.map Char.isUpper).getD false

def text (s : String) : Value := .str (Text.ofString s)

def typeName : Value → String
  | .none => "NoneType"
  | .ellipsis => "ellipsis"
  | .notImplemented => "NotImplementedType"
  | .bool _ => "bool"
  | .int _ => "int"
  | .float _ => "float"
  | .complex _ _ => "complex"
  | .str _ => "str"
  | .bytes _ => "bytes"
  | .tuple _ => "tuple"
  | .list _ => "list"
  | .setOf _ => "set"
  | .frozen _ => "frozenset"
  | .dict _ => "dict"
  | .builtin name => if isClass name then "type" else "builtin_function_or_method"
  | .union _ => "UnionType"
  | .method _ => "method"

def truth : Value → Bool
  | .none => false
  | .bool b => b
  | .int n => n != 0
  | .float x => !Number.isZero x
  | .complex re im => !(Number.isZero re && Number.isZero im)
  | .str s => !s.isEmpty
  | .bytes bs => !bs.isEmpty
  | .tuple xs | .list xs | .setOf xs | .frozen xs => !xs.isEmpty
  | .dict kvs => !kvs.isEmpty
  | .ellipsis | .notImplemented | .builtin _ | .union _ | .method _ => true

def asInt? : Value → Option Int
  | .bool b => some (if b then 1 else 0)
  | .int n => some n
  | _ => Option.none

def isCallable : Value → Bool
  | .builtin _ | .method _ => true
  | _ => false

end Value
end SourceOptimizer
