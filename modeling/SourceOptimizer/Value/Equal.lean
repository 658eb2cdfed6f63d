import SourceOptimizer.Value.Basic

/-! Equality and identity of values. Numbers are equal across their types when they are the same number;
containers are equal item by item; everything else is equal only within its type. -/
namespace SourceOptimizer

def floatEqInt (x : Float) (n : Int) : Bool :=
  Number.isFinite x && Number.compareInt x n == .eq

namespace Value

def atomEq : Value → Value → Bool
  | .none, .none | .ellipsis, .ellipsis | .notImplemented, .notImplemented => true
  | .str a, .str b => a == b
  | .bytes a, .bytes b => a == b
  | .float x, .float y => x == y
  | .complex a b, .complex c d => a == c && b == d
  | .complex a b, .float x => a == x && Number.isZero b
  | .float x, .complex a b => a == x && Number.isZero b
  | .builtin a, .builtin b => a == b
  | .union a, .union b => a == b
  | .method a, .method b => a == b
  | a, b =>
    match a.asInt?, b.asInt? with
    | some m, some n => m == n
    | some m, Option.none =>
      match b with
      | .float x => floatEqInt x m
      | .complex re im => floatEqInt re m && Number.isZero im
      | _ => false
    | Option.none, some n =>
      match a with
      | .float x => floatEqInt x n
      | .complex re im => floatEqInt re n && Number.isZero im
      | _ => false
    | Option.none, Option.none => false

mutual

def equal : Value → Value → Bool
  | .tuple xs, .tuple ys => equalAll xs ys
  | .list xs, .list ys => equalAll xs ys
  | .setOf xs, .setOf ys | .setOf xs, .frozen ys
  | .frozen xs, .setOf ys | .frozen xs, .frozen ys => xs.length == ys.length && within xs ys
  | .dict xs, .dict ys => xs.length == ys.length && pairsWithin xs ys
  | a, b => atomEq a b

def equalAll : List Value → List Value → Bool
  | [], [] => true
  | x :: xs, y :: ys => equal x y && equalAll xs ys
  | _, _ => false

def within : List Value → List Value → Bool
  | [], _ => true
  | x :: xs, ys => ys.any (equal x) && within xs ys

def pairsWithin : List (Value × Value) → List (Value × Value) → Bool
  | [], _ => true
  | (k, v) :: xs, ys => ys.any (fun p => equal k p.1 && equal v p.2) && pairsWithin xs ys

end

/-- Whether two values are one object even when they come from different places: the singletons, small
integers, texts of at most one character below 256, byte strings of at most one byte. -/
def interned : Value → Value → Bool
  | .none, .none | .ellipsis, .ellipsis | .notImplemented, .notImplemented => true
  | .bool a, .bool b => a == b
  | .int a, .int b => a == b && -5 ≤ a && a ≤ 256
  | .str [], .str [] => true
  | .str [a], .str [b] => a == b && a < 256
  | .bytes [], .bytes [] => true
  | .bytes [a], .bytes [b] => a == b
  | .builtin a, .builtin b => a == b
  | _, _ => false

end Value
end SourceOptimizer
