/-! Bitwise operations on integers in two's complement of enough width, and shifts. -/
namespace SourceOptimizer.Number

def commonWidth (a b : Int) : Nat := max a.natAbs.log2 b.natAbs.log2 + 2

def toBits (width : Nat) (a : Int) : Nat := (a % (Nat.pow 2 width : Nat)).toNat

def ofBits (width bits : Nat) : Int :=
  if bits < Nat.pow 2 (width - 1) then bits else (bits : Int) - (Nat.pow 2 width : Nat)

def bitwise (f : Nat → Nat → Nat) (a b : Int) : Int :=
  let w := commonWidth a b
  ofBits w (f (toBits w a) (toBits w b) % Nat.pow 2 w)

def bitAnd (a b : Int) : Int := bitwise (· &&& ·) a b

def bitOr (a b : Int) : Int := bitwise (· ||| ·) a b

def bitXor (a b : Int) : Int := bitwise (· ^^^ ·) a b

def shiftLeft (a : Int) (k : Nat) : Int := a * (Nat.pow 2 k : Nat)

def shiftRight (a : Int) (k : Nat) : Int :=
  if a.natAbs.log2 + 1 < k then (if a < 0 then -1 else 0) else Int.fdiv a (Nat.pow 2 k : Nat)

end SourceOptimizer.Number
