import SourceOptimizer.Text.Coding
import SourceOptimizer.Value.Reading
import SourceOptimizer.Value.Sequence

/-! The predefined functions that have no effect: what they return for given values and keyword values,
and which fault they answer wrong arguments with. -/
namespace SourceOptimizer.Builtin

open Value

def pureNames : List String :=
  ["abs", "round", "pow", "divmod", "sum", "min", "max", "str", "int", "float", "bool", "tuple", "list",
   "dict", "set", "len", "sorted", "all", "any"]

def isPure (name : String) : Bool := pureNames.contains name

abbrev Keywords := List (String × Value)

abbrev Answer := Except Fault Value

def fail {α : Type} (cause : TypeCause) : Except Fault α := .error (.type cause)

def noKeywords (f : String) (kws : Keywords) : Except Fault Unit :=
  if kws.isEmpty then .ok () else fail (.noKeywords f)

def onlyArgument (f : String) (args : List Value) (kws : Keywords) : Answer := do
  noKeywords f kws
  match args with
  | [x] => .ok x
  | _ => fail (.exactlyOne f args.length)

def optionalArgument (f : String) (args : List Value) (kws : Keywords) :
    Except Fault (Option Value) := do
  noKeywords f kws
  match args with
  | [] => .ok Option.none
  | [x] => .ok (some x)
  | _ => fail (.expectedAtMostOne f args.length)

/-- The values of named parameters in order, from positional and keyword arguments. The first `required`
parameters must be given and the first `positional` cannot be named. -/
def bind (f : String) (params : List String) (required positional : Nat) (args : List Value) (kws : Keywords) :
    Except Fault (List (Option Value)) := do
  let given := args.length + kws.length
  if params.length < given then
    .error (if args.isEmpty then .type (.atMostKeywords f params.length given)
      else .type (.atMost f params.length given))
  else
    for (p, i) in params.zipIdx do
      if args.length ≤ i && i < required && !(kws.any (·.1 == p)) then fail (.missingArgument f p (i + 1))
    for (k, _) in kws do
      match params.findIdx? (· == k) with
      | some i => if i < args.length && positional ≤ i then fail (.twiceGiven f k (i + 1))
      | Option.none => pure ()
    for (k, _) in kws do
      if !(params.drop positional).contains k then fail (.unknownKeyword f k)
    .ok (params.zipIdx.map fun (p, i) =>
      if i < args.length then args[i]? else (kws.find? (·.1 == p)).map (·.2))

def index (v : Value) : Except Fault Int :=
  match v.asInt? with
  | some n => .ok n
  | Option.none => fail (.notIndex v.typeName)

def abs (v : Value) : Answer :=
  match v.asInt?, v with
  | some n, _ => .ok (.int n.natAbs)
  | Option.none, .float x => .ok (.float (Number.absolute x))
  | Option.none, .complex re im =>
    let r := Number.hypotenuse re im
    if Number.isInf r && Number.isFinite re && Number.isFinite im then
      .error (.overflow .absoluteTooLarge)
    else .ok (.float r)
  | Option.none, _ => fail (.noAbsolute v.typeName)

def roundFloat (x : Float) : Answer :=
  if Number.isNaN x then .error (.value .notANumberToInt)
  else if Number.isInf x then .error (.overflow .infinityToInt)
  else
    let (num, den) := Number.ratio x
    let n := Number.divideNearest num den
    .ok (.int (if Number.isNegative x then -(n : Int) else n))

def roundInt (n : Int) (places : Int) : Int :=
  if 0 ≤ places then n
  else
    let unit := Nat.pow 10 places.natAbs
    let r := Number.divideNearest n.natAbs unit * unit
    if n < 0 then -(r : Int) else r

def roundPlaces (x : Float) (places : Int) : Answer :=
  if !Number.isFinite x || 323 < places then .ok (.float x)
  else if places < -308 then .ok (.float (Number.withSign 0.0 x))
  else match Number.roundTo? x places with
    | some y => .ok (.float y)
    | Option.none => .error (.overflow .roundedTooLarge)

def round (args : List Value) (kws : Keywords) : Answer := do
  match ← bind "round" ["number", "ndigits"] 1 0 args kws with
  | [some v, digits] =>
    match v.asInt?, v, digits.getD .none with
    | some n, _, .none => .ok (.int n)
    | some n, _, d => do
      let places ← index d
      .ok (.int (if places < -100000 then 0 else roundInt n places))
    | Option.none, .float x, .none => roundFloat x
    | Option.none, .float x, d => do roundPlaces x (← index d)
    | Option.none, _, _ => fail (.noRound v.typeName)
  | _ => fail (.missingArgument "round" "number" 1)

def powModLoop (m : Nat) : Nat → Nat → Nat → Nat → Nat
  | 0, r, _, _ => r
  | fuel + 1, r, b, e =>
    if e = 0 then r
    else powModLoop m fuel (if e % 2 = 1 then r * b % m else r) (b * b % m) (e / 2)

def powMod (b e m : Nat) : Nat := powModLoop m (e.log2 + 1) (1 % m) (b % m) e

/-- The coefficient `x` with `a x ≡ gcd (mod m)` and the greatest common divisor. -/
def inverseLoop : Nat → Int → Int → Int → Int → Int × Int
  | 0, r, _, x, _ => (r, x)
  | fuel + 1, r, r', x, x' =>
    if r' = 0 then (r, x) else inverseLoop fuel r' (r - Int.fdiv r r' * r') x' (x - Int.fdiv r r' * x')

def inverseMod (a m : Int) : Option Int :=
  let (g, x) := inverseLoop (2 * (m.natAbs.log2 + 2) + 2) (Int.fmod a m) m 1 0
  if g = 1 then some (Int.fmod x m) else Option.none

/-- Power modulo a third integer; the result has the sign of the modulus. -/
def powInts (b e m : Int) : Answer :=
  if m = 0 then .error (.value .zeroModulus)
  else
    let size := (m.natAbs : Int)
    let finish (r : Nat) : Answer := .ok (.int (if m < 0 && r != 0 then (r : Int) - size else r))
    if 0 ≤ e then finish (powMod (Int.fmod b size).toNat e.toNat m.natAbs)
    else if size = 1 then finish 0
    else match inverseMod b size with
      | some x => finish (powMod x.toNat e.natAbs m.natAbs)
      | Option.none => .error (.value .notInvertible)

inductive NumberKind where
  | integer
  | real
  | complex
deriving DecidableEq, Repr

def numberKind? : Value → Option NumberKind
  | .float _ => some .real
  | .complex _ _ => some .complex
  | v => v.asInt?.map fun _ => .integer

/-- A power with a modulus that is not made of three integers. The kinds of the operands are asked in
turn, and the first one that has something to say about it answers: reals refuse a modulus, complex
numbers refuse one when base and exponent are numbers. -/
def powRefusal (b e m : Value) : Fault :=
  let refusal : NumberKind → Option Fault
    | .integer => Option.none
    | .real => some (.type .modulusNeedsIntegers)
    | .complex =>
      if (numberKind? b).isSome && (numberKind? e).isSome then some (.value .complexModulus) else Option.none
  (([b, e, m].filterMap numberKind?).findSome? refusal).getD
    (.type (.operands3 "** or pow()" b.typeName e.typeName m.typeName))

def pow (args : List Value) (kws : Keywords) : Answer := do
  match ← bind "pow" ["base", "exp", "mod"] 2 0 args kws with
  | [some b, some e, m] =>
    match m.getD .none with
    | .none => binary .pow b e
    | m =>
      match b.asInt?, e.asInt?, m.asInt? with
      | some x, some y, some z => powInts x y z
      | _, _, _ => .error (powRefusal b e m)
  | _ => fail (.missingArgument "pow" "base" 1)

def divmod (args : List Value) (kws : Keywords) : Answer := do
  noKeywords "divmod" kws
  match args with
  | [a, b] =>
    let bad : Answer := fail (.operands "divmod()" a.typeName b.typeName)
    if numberKind? a = some .complex || numberKind? b = some .complex then bad
    else match numbers? a b with
      | some (.ok (.ints x y)) =>
        if y = 0 then .error (.zero .integerDivision)
        else .ok (.tuple [.int (Int.fdiv x y), .int (Int.fmod x y)])
      | some (.ok (.floats x y)) =>
        if Number.isZero y then .error (.zero .floatDivmod)
        else
          let (q, r) := floorDivMod x y
          .ok (.tuple [.float q, .float r])
      | some (.ok (.complexes _ _)) => bad
      | some (.error e) => .error e
      | Option.none => bad
  | _ => fail (.expected "divmod" 2 args.length)

def sumFrom : Value → List Value → Answer
  | acc, [] => .ok acc
  | acc, x :: xs => do sumFrom (← binary .add acc x) xs

def sum (args : List Value) (kws : Keywords) : Answer := do
  if args.isEmpty then fail (.atLeastOnePositional "sum")
  else
    match ← bind "sum" ["iterable", "start"] 1 1 args kws with
    | [some v, start] =>
      let xs ← items v
      match start.getD (.int 0) with
      | .str _ => fail .textsNotSummed
      | .bytes _ => fail .bytesNotSummed
      | s => sumFrom s xs
    | _ => fail (.atLeastOnePositional "sum")

abbrev Caller := Value → Value → Answer

def keyed (call : Caller) (key : Value) (xs : List Value) : Except Fault (List Keyed) :=
  match key with
  | .none => .ok (xs.map fun x => (x, x))
  | f => xs.mapM fun x => do .ok (← call f x, x)

def extreme (call : Caller) (f : String) (op : CompareOp) (args : List Value) (kws : Keywords) :
    Answer := do
  match args with
  | [] => fail (.expectedAtLeastOne f)
  | first :: more =>
    for (k, _) in kws do
      if k != "key" && k != "default" then fail (.unknownKeyword f k)
    let find (k : String) : Option Value := (kws.find? (·.1 == k)).map (·.2)
    let fallback := find "default"
    if fallback.isSome && !more.isEmpty then fail (.defaultWithMany f)
    else
      let xs ← if more.isEmpty then items first else pure args
      match ← keyed call ((find "key").getD .none) xs with
      | x :: rest => choose op x rest
      | [] =>
        match fallback with
        | some v => .ok v
        | Option.none => .error (.value (.emptyChoice f))

def textParameter (name : String) : Option Value → Except Fault (Option String)
  | Option.none => .ok Option.none
  | some (.str s) => if s.contains 0 then .error (.value .nullCharacter) else .ok (some (Text.display s))
  | some .none => fail (.encodingNotText name "None")
  | some v => fail (.encodingNotText name v.typeName)

def str (args : List Value) (kws : Keywords) : Answer := do
  match ← bind "str" ["object", "encoding", "errors"] 0 0 args kws with
  | [object, encoding, errors] =>
    let enc ← textParameter "encoding" encoding
    let err ← textParameter "errors" errors
    match object with
    | Option.none => .ok (.str [])
    | some v =>
      if enc.isNone && err.isNone then do .ok (.str (← v.toText))
      else match v with
        | .bytes bs => do .ok (.str (← Text.decodeNamed (enc.getD "utf-8") (err.getD "strict") bs))
        | .str _ => fail .decodingText
        | _ => fail (.decodingNeedsBytes v.typeName)
  | _ => .ok (.str [])

def shortened (s : String) : String := (s.take 200).toString

def readText (base : Nat) (s : Text) : Answer := do
  .ok (.int (← readInt base (shortened (Text.quoted s)) (plainDigits s)))

def readBytes (base : Nat) (bs : List Nat) : Answer := do
  let chars := if bs.any (fun b => 0x80 ≤ b) then Option.none else some (bs.map Char.ofNat)
  .ok (.int (← readInt base (shortened (Text.quotedBytes bs)) chars))

def int (args : List Value) (kws : Keywords) : Answer := do
  match ← bind "int" ["", "base"] 0 1 args kws with
  | [Option.none, Option.none] => .ok (.int 0)
  | [Option.none, some _] => fail .textMissing
  | [some v, Option.none] =>
    match v.asInt?, v with
    | some n, _ => .ok (.int n)
    | Option.none, .float x => do .ok (.int (← Formatting.intOfFloat x))
    | Option.none, .str s => readText 10 s
    | Option.none, .bytes bs => readBytes 10 bs
    | Option.none, _ => fail (.integerArgument v.typeName)
  | [some v, some b] => do
    let base ← index b
    if (base != 0 && base < 2) || 36 < base then .error (.value .baseRange)
    else match v with
      | .str s => readText base.toNat s
      | .bytes bs => readBytes base.toNat bs
      | _ => fail .baseWithoutText
  | _ => .ok (.int 0)

def float (args : List Value) (kws : Keywords) : Answer := do
  match ← optionalArgument "float" args kws with
  | Option.none => .ok (.float 0.0)
  | some v =>
    let read (chars : Option (List Char)) (shown : String) : Answer :=
      match chars.bind signedFloat with
      | some x => .ok (.float x)
      | Option.none => .error (.value (.floatText shown))
    match v.asInt?, v with
    | some n, _ => do .ok (.float (← floatOfInt n))
    | Option.none, .float x => .ok (.float x)
    | Option.none, .str s => read (plainDigits s) (Text.quoted s)
    | Option.none, .bytes bs => read (some (bs.map Char.ofNat)) (Text.quotedBytes bs)
    | Option.none, _ => fail (.floatArgument v.typeName)

def len (v : Value) : Answer :=
  match v with
  | .str s => .ok (.int s.length)
  | .bytes bs => .ok (.int bs.length)
  | .tuple xs | .list xs | .setOf xs | .frozen xs => .ok (.int xs.length)
  | .dict kvs => .ok (.int kvs.length)
  | _ => fail (.noLength v.typeName)

def pairOf (position : Nat) (v : Value) : Except Fault (Value × Value) :=
  match items v with
  | .error _ => fail (.pairNotSequence position)
  | .ok [k, x] => .ok (k, x)
  | .ok xs => .error (.value (.pairLength position xs.length))

def pairsOf : Nat → List (Value × Value) → List Value → Except Fault (List (Value × Value))
  | _, acc, [] => .ok acc
  | i, acc, v :: vs => do
    let (k, x) ← pairOf i v
    checkKey k
    pairsOf (i + 1) (setKey acc k x) vs

def dict (args : List Value) (kws : Keywords) : Answer := do
  let start ← match args with
    | [] => .ok []
    | [.dict kvs] => .ok kvs
    | [v] => do pairsOf 0 [] (← items v)
    | _ => fail (.expectedAtMostOne "dict" args.length)
  .ok (.dict (kws.foldl (fun acc (k, v) => setKey acc (Value.text k) v) start))

def sorted (call : Caller) (args : List Value) (kws : Keywords) : Answer := do
  match args with
  | [v] =>
    let xs ← items v
    for (k, _) in kws do
      if k != "key" && k != "reverse" then fail (.unknownKeyword "sort" k)
    let find (k : String) : Option Value := (kws.find? (·.1 == k)).map (·.2)
    let reverse ← match find "reverse" with
      | some r => do pure ((← index r) != 0)
      | Option.none => pure false
    let ks ← keyed call ((find "key").getD .none) xs
    let out ← sortKeyed (if reverse then ks.reverse else ks)
    let out := out.map (·.2)
    .ok (.list (if reverse then out.reverse else out))
  | _ => fail (.expected "sorted" 1 args.length)

def apply (call : Caller) (name : String) (args : List Value) (kws : Keywords) : Option Answer :=
  match name with
  | "abs" => some do abs (← onlyArgument "abs" args kws)
  | "round" => some (round args kws)
  | "pow" => some (pow args kws)
  | "divmod" => some (divmod args kws)
  | "sum" => some (sum args kws)
  | "min" => some (extreme call "min" .lt args kws)
  | "max" => some (extreme call "max" .gt args kws)
  | "str" => some (str args kws)
  | "int" => some (int args kws)
  | "float" => some (float args kws)
  | "bool" => some do .ok (.bool (match ← optionalArgument "bool" args kws with
      | some v => v.truth
      | Option.none => false))
  | "tuple" => some do
    match ← optionalArgument "tuple" args kws with
    | some v => .ok (.tuple (← items v))
    | Option.none => .ok (.tuple [])
  | "list" => some do
    match ← optionalArgument "list" args kws with
    | some v => .ok (.list (← items v))
    | Option.none => .ok (.list [])
  | "set" => some do
    match ← optionalArgument "set" args kws with
    | some v => .ok (.setOf (← distinct [] (← items v)))
    | Option.none => .ok (.setOf [])
  | "dict" => some (dict args kws)
  | "len" => some do len (← onlyArgument "len" args kws)
  | "sorted" => some (sorted call args kws)
  | "all" => some do .ok (.bool ((← items (← onlyArgument "all" args kws)).all truth))
  | "any" => some do .ok (.bool ((← items (← onlyArgument "any" args kws)).any truth))
  | _ => Option.none

/-- Keys by a predefined function, which is called without keys of its own; `invoke` is how a simulated
function answers. -/
def keyCaller (invoke : Nat → Value → Answer) : Caller
  | .builtin name, x =>
    (apply (fun f _ => fail (.notCallable f.typeName)) name [x] []).getD (.error .unknown)
  | .method object, x => invoke object x
  | f, _ => fail (.notCallable f.typeName)

def call? (invoke : Nat → Value → Answer) (name : String) (args : List Value) (kws : Keywords) :
    Option Answer :=
  apply (keyCaller invoke) name args kws

end SourceOptimizer.Builtin
