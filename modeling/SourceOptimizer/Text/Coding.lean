import SourceOptimizer.Text.Utf8

/-! Codings of text as bytes: their names, and what becomes of bytes that a coding cannot read. -/
namespace SourceOptimizer.Text

inductive Coding where
  | utf8 | latin1 | ascii
  deriving DecidableEq, Repr

/-- The plain form of a coding's name: small letters, and one underscore for each run of other signs between
letters and digits. The flag says that such a run is open. -/
def plainName : Bool → List Char → List Char
  | _, [] => []
  | gap, c :: cs =>
    if c.isAlphanum || c == '.' then
      if gap then '_' :: c.toLower :: plainName false cs else c.toLower :: plainName false cs
    else plainName true cs

def Coding.names : List (String × Coding) :=
  [("utf_8", .utf8), ("utf8", .utf8), ("u8", .utf8), ("utf", .utf8), ("cp65001", .utf8),
   ("latin_1", .latin1), ("latin1", .latin1), ("latin", .latin1), ("l1", .latin1), ("8859", .latin1),
   ("cp819", .latin1), ("iso_8859_1", .latin1), ("iso8859_1", .latin1), ("iso8859", .latin1),
   ("ascii", .ascii), ("us_ascii", .ascii), ("646", .ascii)]

def Coding.ofName? (name : String) : Option Coding :=
  let signs := name.toList.dropWhile fun c => !(c.isAlphanum || c == '.')
  Coding.names.lookup (String.ofList (plainName false signs))

def recover (rule codec message : String) (bytes : List Nat) : Except Fault Text :=
  match rule with
  | "strict" | "surrogatepass" => .error (.undecodable codec message)
  | "ignore" => .ok []
  | "replace" => .ok [0xfffd]
  | "backslashreplace" => .ok (bytes.flatMap fun b => ofString (String.ofList ('\\' :: 'x' :: hexPadded 2 b)))
  | "surrogateescape" => .ok (bytes.map (0xdc00 + ·))
  | _ => .error (.recoveryUnknown rule)

def decodeAscii (rule : String) : Nat → List Nat → Except Fault Text
  | _, [] => .ok []
  | position, b :: bs => do
    let c ← if b < 0x80 then .ok [b]
      else recover rule "ascii" s!"byte {byteText b} in position {position}: ordinal not in range(128)" [b]
    .ok (c ++ (← decodeAscii rule (position + 1) bs))

/-- Bytes as text in the coding of the given name. No bytes are the empty text in every coding. -/
def decodeNamed (name rule : String) (bs : List Nat) : Except Fault Text :=
  if bs.isEmpty then .ok []
  else match Coding.ofName? name with
    | some .utf8 =>
      let onFault (f : Utf8Fault) := recover rule "utf-8" f.describe ((bs.drop f.position).take f.length)
      decodeUtf8With onFault 0 0 bs
    | some .latin1 => .ok bs
    | some .ascii => decodeAscii rule 0 bs
    | none => .error (.encodingUnknown name)

end SourceOptimizer.Text
