import SourceOptimizer.Number.Fixed
import SourceOptimizer.Value.Equal
import SourceOptimizer.Value.Show

/-! Formats: texts and byte strings with fields introduced by a percent sign. A field has an optional key,
flags, width, precision and a letter; the arguments are a tuple, a mapping for the keys, or one value. -/
namespace SourceOptimizer.Value.Formatting

structure Supply where
  rest : List Value
  mapping : Option Value

structure Field where
  left : Bool
  sign : Bool
  blank : Bool
  alternate : Bool
  zero : Bool
  width : Nat
  precision : Option Nat

inductive Target where
  | text | bytes
  deriving DecidableEq

def Target.name : Target → String
  | .text => "string"
  | .bytes => "bytes"

def supplyOf (target : Target) (arg : Value) : Supply :=
  match arg with
  | .tuple xs => ⟨xs, Option.none⟩
  | .dict _ | .list _ => ⟨[arg], some arg⟩
  | .bytes _ => ⟨[arg], if target = .text then some arg else Option.none⟩
  | _ => ⟨[arg], Option.none⟩

def Supply.next (s : Supply) : Except Fault (Value × Supply) :=
  match s.rest with
  | v :: vs => .ok (v, { s with rest := vs })
  | [] => .error (.type .notEnoughArguments)

def lookup (mapping : Value) (key : Value) : Except Fault Value :=
  match mapping with
  | .dict kvs =>
    match kvs.find? fun p => equal p.1 key with
    | some p => .ok p.2
    | Option.none => do .error (.key (← key.repr))
  | .bytes _ => .error (.type (.byteIndices key.typeName))
  | v => .error (.type (.sequenceIndices v.typeName key.typeName))

/-- The key of a field up to its closing parenthesis, nested ones included. -/
def takeKey : Nat → List Nat → Option (List Nat × List Nat)
  | _, [] => Option.none
  | depth, c :: cs =>
    if c == 0x29 then
      match depth with
      | 0 => some ([], cs)
      | d + 1 => (takeKey d cs).map fun (k, r) => (c :: k, r)
    else (takeKey (if c == 0x28 then depth + 1 else depth) cs).map fun (k, r) => (c :: k, r)

def takeFlags : Field → List Nat → Field × List Nat
  | f, [] => (f, [])
  | f, c :: cs =>
    if c == 0x2d then takeFlags { f with left := true } cs
    else if c == 0x2b then takeFlags { f with sign := true } cs
    else if c == 0x20 then takeFlags { f with blank := true } cs
    else if c == 0x23 then takeFlags { f with alternate := true } cs
    else if c == 0x30 then takeFlags { f with zero := true } cs
    else (f, c :: cs)

def takeNumber : Nat → List Nat → Nat × List Nat
  | n, [] => (n, [])
  | n, c :: cs => if 0x30 ≤ c && c ≤ 0x39 then takeNumber (10 * n + (c - 0x30)) cs else (n, c :: cs)

def maxWidth : Nat := 9223372036854775807

def maxPrecision : Nat := 2147483647

def starNumber (limit : Nat) (word : String) (s : Supply) : Except Fault (Int × Supply) := do
  let (v, s) ← s.next
  match v.asInt? with
  | some n =>
    if (limit : Int) < n || n < -(limit : Int) - 1 then .error (.overflow (.machineSize word)) else .ok (n, s)
  | Option.none => .error (.type .starWantsInt)

def writtenNumber (limit : Nat) (part : String) (cs : List Nat) : Except Fault (Nat × List Nat) :=
  let (n, r) := takeNumber 0 cs
  if limit < n then .error (.value (.fieldTooBig part)) else .ok (n, r)

def takeWidth (f : Field) (s : Supply) : List Nat → Except Fault (Field × Supply × List Nat)
  | 0x2a :: cs => do
    let (n, s) ← starNumber maxWidth "ssize_t" s
    .ok ({ f with width := n.natAbs, left := f.left || n < 0 }, s, cs)
  | cs => do
    let (n, r) ← writtenNumber maxWidth "width" cs
    .ok ({ f with width := n }, s, r)

def takePrecision (target : Target) (f : Field) (s : Supply) :
    List Nat → Except Fault (Field × Supply × List Nat)
  | 0x2e :: 0x2a :: cs => do
    let (n, s) ← starNumber maxPrecision "int" s
    .ok ({ f with precision := some n.toNat }, s, cs)
  | 0x2e :: cs => do
    let (n, r) ← writtenNumber maxPrecision (if target = .text then "precision" else "prec") cs
    .ok ({ f with precision := some n }, s, r)
  | cs => .ok (f, s, cs)

def skipLength : List Nat → List Nat
  | c :: cs => if c == 0x68 || c == 0x6c || c == 0x4c then cs else c :: cs
  | [] => []

def spaces (n : Nat) : List Nat := List.replicate n 0x20

def padPlain (f : Field) (s : List Nat) : List Nat :=
  let gap := f.width - s.length
  if f.left then s ++ spaces gap else spaces gap ++ s

/-- Pad a number, written with an optional minus sign and a leading base mark of `mark` characters; zeros go
between the sign and the digits. -/
def padNumber (f : Field) (mark : Nat) (s : List Nat) : List Nat :=
  let (sign, body) : List Nat × List Nat := match s with
    | 0x2d :: r => ([0x2d], r)
    | r => (if f.sign then [0x2b] else if f.blank then [0x20] else [], r)
  let gap := f.width - (sign.length + body.length)
  if f.left then sign ++ body ++ spaces gap
  else if f.zero then sign ++ body.take mark ++ List.replicate gap 0x30 ++ body.drop mark
  else spaces gap ++ sign ++ body

def isUpper (c : Nat) : Bool := 0x41 ≤ c && c ≤ 0x5a

def lower (c : Nat) : Nat := if isUpper c then c + 32 else c

def upperText (s : List Nat) : List Nat := s.map fun c => if 0x61 ≤ c && c ≤ 0x7a then c - 32 else c

def intOfFloat (x : Float) : Except Fault Int :=
  if Number.isNaN x then .error (.value .notANumberToInt)
  else if Number.isInf x then .error (.overflow .infinityToInt)
  else .ok (Number.truncate x)

def fieldInt (letter : Nat) (v : Value) : Except Fault Int :=
  let name := String.singleton (Char.ofNat letter)
  let strict := letter == 0x6f || letter == 0x78 || letter == 0x58
  match v.asInt?, v with
  | some n, _ => .ok n
  | Option.none, .float x =>
    if strict then .error (.type (.integerFormat name "float")) else intOfFloat x
  | Option.none, _ =>
    .error (.type (if strict then .integerFormat name v.typeName else .realFormat name v.typeName))

def intDigits (f : Field) (letter : Nat) (n : Int) : Except Fault (Nat × List Nat) := do
  let sign : List Nat := if n < 0 then [0x2d] else []
  let base := lower letter
  let digits ← if base == 0x6f then pure (String.ofList (Nat.toDigits 8 n.natAbs))
    else if base == 0x78 then pure (String.ofList (Nat.toDigits 16 n.natAbs))
    else showInt n.natAbs
  let digits := Number.padLeft (f.precision.getD 0) digits
  let mark := if !f.alternate then "" else if base == 0x6f then "0o" else if base == 0x78 then "0x" else ""
  let s := Text.ofString (mark ++ digits)
  pure (mark.length, sign ++ (if letter == 0x58 then upperText s else s))

def fieldFloat (target : Target) (v : Value) : Except Fault Float :=
  match v.asInt?, v with
  | some n, _ =>
    match Number.ofInt? n with
    | some x => .ok x
    | Option.none => .error (.overflow .intToFloat)
  | Option.none, .float x => .ok x
  | Option.none, _ =>
    .error (.type (if target = .text then .realRequired v.typeName else .floatRequired v.typeName))

def floatField (target : Target) (f : Field) (letter : Nat) (v : Value) : Except Fault (List Nat) := do
  let x ← fieldFloat target v
  let s := Text.ofString
    (Number.formatLetter (Char.ofNat (lower letter)) x (f.precision.getD 6) f.alternate)
  pure (padNumber f 0 (if isUpper letter then upperText s else s))

def charField (target : Target) (v : Value) : Except Fault (List Nat) :=
  match target, v with
  | .text, .str [c] => .ok [c]
  | .bytes, .bytes [c] => .ok [c]
  | _, _ =>
    match target, v.asInt? with
    | .text, some n =>
      if 0 ≤ n && n < 0x110000 then .ok [n.toNat] else .error (.overflow .characterRange)
    | .text, Option.none => .error (.type .charRequired)
    | .bytes, some n =>
      if 0 ≤ n && n < 256 then .ok [n.toNat]
      else .error (.raised "OverflowError" ["%c arg not in range(256)"] "%c arg not in range(256)")
    | .bytes, Option.none => .error (.type .byteCharRequired)

def plainRepr (v : Value) : Except Fault (List Nat) :=
  match v with
  | .str s => .ok (Text.ofString (Text.quotedPlain s))
  | v => do pure ((Text.ofString (← v.repr)).flatMap fun c =>
      if c < 0x80 then [c] else (Text.escapeNumber c).map Char.toNat)

def textField (target : Target) (letter : Nat) (v : Value) : Except Fault (List Nat) :=
  match target with
  | .text =>
    if letter == 0x73 then v.toText
    else if letter == 0x72 then do pure (Text.ofString (← v.repr))
    else plainRepr v
  | .bytes =>
    if letter == 0x73 || letter == 0x62 then
      match v with
      | .bytes bs => .ok bs
      | _ => .error (.type (.bytesFormat "b" v.typeName))
    else plainRepr v

def isTextLetter (target : Target) (c : Nat) : Bool :=
  c == 0x73 || c == 0x72 || c == 0x61 || (c == 0x62 && target == .bytes)

def isIntLetter (c : Nat) : Bool := [0x64, 0x69, 0x75, 0x6f, 0x78, 0x58].contains c

def isFloatLetter (c : Nat) : Bool := [0x65, 0x45, 0x66, 0x46, 0x67, 0x47].contains c

def convert (target : Target) (f : Field) (letter : Nat) (position : Nat) (v : Value) :
    Except Fault (List Nat) := do
  if isTextLetter target letter then
    let s ← textField target letter v
    pure (padPlain f (match f.precision with
      | some p => s.take p
      | Option.none => s))
  else if isIntLetter letter then
    let n ← fieldInt letter v
    let (mark, s) ← intDigits f letter n
    pure (padNumber f mark s)
  else if isFloatLetter letter then floatField target f letter v
  else if letter == 0x63 then do pure (padPlain f (← charField target v))
  else
    let shown := if 31 ≤ letter && letter ≤ 126 then String.singleton (Char.ofNat letter) else "?"
    .error (.value (.formatCharacter shown (String.ofList (Nat.toDigits 16 letter)) position))

def emptyField : Field := ⟨false, false, false, false, false, 0, Option.none⟩

def takeMapping (target : Target) (s : Supply) : List Nat → Except Fault (Supply × List Nat)
  | 0x28 :: cs =>
    match s.mapping with
    | Option.none => .error (.type .mappingRequired)
    | some m =>
      match takeKey 0 cs with
      | Option.none => .error (.value .incompleteKey)
      | some (key, r) => do
        let v ← lookup m (if target = .text then .str key else .bytes key)
        .ok ({ s with rest := [v] }, r)
  | cs => .ok (s, cs)

def run (target : Target) (size : Nat) : Nat → Supply → List Nat → Except Fault (Supply × List Nat)
  | 0, s, _ => .ok (s, [])
  | _ + 1, s, [] => .ok (s, [])
  | fuel + 1, s, c :: cs => do
    if c != 0x25 then
      let (s, out) ← run target size fuel s cs
      .ok (s, c :: out)
    else
      let (s, cs) ← takeMapping target s cs
      let (f, cs) := takeFlags emptyField cs
      let (f, s, cs) ← takeWidth f s cs
      let (f, s, cs) ← takePrecision target f s cs
      match skipLength cs with
      | [] => .error (.value .incompleteFormat)
      | letter :: cs =>
        if letter == 0x25 then
          let (s, out) ← run target size fuel s cs
          .ok (s, 0x25 :: out)
        else
          let (v, s) ← s.next
          let piece ← convert target f letter (size - cs.length - 1) v
          let (s, out) ← run target size fuel s cs
          .ok (s, piece ++ out)

def formatCodes (target : Target) (format : List Nat) (arg : Value) : Except Fault (List Nat) := do
  let (s, out) ← run target format.length (format.length + 1) (supplyOf target arg) format
  if s.mapping.isNone && !s.rest.isEmpty then .error (.type (.notAllConverted target.name)) else .ok out

def formatText (format : Text) (arg : Value) : Except Fault Value := do
  .ok (.str (← formatCodes .text format arg))

def formatBytes (format : List Nat) (arg : Value) : Except Fault Value := do
  .ok (.bytes (← formatCodes .bytes format arg))

end SourceOptimizer.Value.Formatting
