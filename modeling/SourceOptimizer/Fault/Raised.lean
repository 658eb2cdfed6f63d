import SourceOptimizer.Text.Utf8
import SourceOptimizer.Value.Sequence

/-! Faults that are built from a class and values, as a program would raise them. Most classes take any values;
faults of system operations, of source texts, of codings and groups of faults give their values a meaning. -/
namespace SourceOptimizer.Fault

def outermostClasses : List String :=
  ["BaseException", "KeyboardInterrupt", "SystemExit", "GeneratorExit", "BaseExceptionGroup"]

def mainName : String → String
  | "IOError" | "EnvironmentError" => "OSError"
  | name => name

def wording (name : String) (args : List Value) : Except Fault String :=
  match args with
  | [] => .ok ""
  | [v] => if name == "KeyError" then v.repr else v.display
  | vs => Value.repr (.tuple vs)

/-! ## System operations -/

def systemNumbers : List (Int × String) :=
  [(1, "PermissionError"), (13, "PermissionError"), (2, "FileNotFoundError"), (3, "ProcessLookupError"),
   (4, "InterruptedError"), (10, "ChildProcessError"), (11, "BlockingIOError"), (114, "BlockingIOError"),
   (115, "BlockingIOError"), (17, "FileExistsError"), (20, "NotADirectoryError"), (21, "IsADirectoryError"),
   (32, "BrokenPipeError"), (108, "BrokenPipeError"), (103, "ConnectionAbortedError"),
   (104, "ConnectionResetError"), (110, "TimeoutError"), (111, "ConnectionRefusedError")]

def systemClasses : List String := "OSError" :: "ConnectionError" :: (systemNumbers.map (·.2)).eraseDups

def systemClass (name : String) (number : Value) : String :=
  if name != "OSError" then name
  else ((systemNumbers.find? fun e => Value.equal number (.int e.1)).map (·.2)).getD name

/-- Whether a value stands for an amount of data, where a blocked operation takes one in the place of a path. -/
def isAmount (name : String) (v : Value) : Except Fault Bool := do
  if name != "BlockingIOError" then return false
  match v.asInt?, v with
  | some n, _ =>
    if 9223372036854775807 < n || n < -9223372036854775808 then throw (.value .indexSize) else return true
  | none, .float _ | none, .complex _ _ => throw (.type (.notIndex v.typeName))
  | none, _ => return false

/-- A failed system operation with a number, words, and perhaps a path and a second one. A path is told but is no
part of the fault. -/
def buildSystem (name : String) (number words : Value) (rest : List Value) : Except Fault Fault := do
  let name := systemClass name number
  let told := "[Errno " ++ (← number.display) ++ "] " ++ (← words.display)
  let all ← (number :: words :: rest).mapM Value.display
  match rest with
  | [] | .none :: _ => return .raised name all told
  | path :: more =>
    if ← isAmount name path then return .raised name all told
    else
      let second ← match more with
        | [_, .none] => pure ""
        | [_, v] => do pure (" -> " ++ (← v.repr))
        | _ => pure ""
      return .raised name (all.take 2) (told ++ ": " ++ (← path.repr) ++ second)

/-! ## Source texts -/

def sourceClasses : List String := ["SyntaxError", "IndentationError", "TabError"]

def sourcePlace (place : List Value) : String :=
  let file := match place[0]? with
    | some (.str s) => some (((Text.display s).splitOn "/").getLastD "")
    | _ => none
  let line := match place[1]? with
    | some (.int n) => some (if 9223372036854775807 < n || n < -9223372036854775808 then -1 else n)
    | _ => none
  match file, line with
  | some f, some n => s!" ({f}, line {n})"
  | some f, none => s!" ({f})"
  | none, some n => s!" (line {n})"
  | none, none => ""

def sourceWording (args : List Value) : Except Fault String := do
  match args with
  | [] => return "None"
  | [words, place] =>
    let place ← Value.items place
    if place.length < 4 then throw (.type (.parameterCount "at least" 4 place.length))
    else if 6 < place.length then throw (.type (.parameterCount "at most" 6 place.length))
    else if place.length == 5 then throw (.type .endOffsetMissing)
    else return (← words.display) ++ sourcePlace place
  | words :: _ => words.display

/-! ## Codings -/

def textAt (position : Nat) : Value → Except Fault Text
  | .str s => .ok s
  | .none => .error (.type (.parameterNotText position "None"))
  | v => .error (.type (.parameterNotText position v.typeName))

def positionOf (v : Value) : Except Fault Int :=
  match v.asInt? with
  | some n =>
    if 9223372036854775807 < n || n < -9223372036854775808 then .error (.overflow (.machineSize "ssize_t")) else .ok n
  | none => .error (.type (.notIndex v.typeName))

def stretch (name : String) (things : List Nat) (one : Nat → String) (start stop : Int) (why : Text) : String :=
  let what := match (if stop == start + 1 then things[start.toNat]? else none) with
    | some c => name ++ one c ++ s!" in position {start}: "
    | none => name ++ s!"s in position {start}-{stop - 1}: "
  what ++ Text.display why

def characterText (c : Nat) : String := " '" ++ String.ofList (Text.escapeNumber c) ++ "'"

def codingWording (name : String) (args : List Value) : Except Fault String := do
  match name, args with
  | "UnicodeDecodeError", [coding, object, start, stop, why] =>
    let coding ← textAt 1 coding
    let start ← positionOf start
    let stop ← positionOf stop
    let why ← textAt 5 why
    match object with
    | .bytes bs =>
      return s!"'{Text.display coding}' codec can't decode " ++
        stretch "byte" bs (fun b => " " ++ Text.byteText b) start stop why
    | v => throw (.type (.bytesLike v.typeName))
  | "UnicodeEncodeError", [coding, object, start, stop, why] =>
    let coding ← textAt 1 coding
    let object ← textAt 2 object
    let start ← positionOf start
    let stop ← positionOf stop
    let why ← textAt 5 why
    return s!"'{Text.display coding}' codec can't encode " ++ stretch "character" object characterText start stop why
  | "UnicodeTranslateError", [object, start, stop, why] =>
    let object ← textAt 1 object
    let start ← positionOf start
    let stop ← positionOf stop
    let why ← textAt 4 why
    return "can't translate " ++ stretch "character" object characterText start stop why
  | "UnicodeTranslateError", _ => throw (.type (.parameterCount "exactly" 4 args.length))
  | _, _ => throw (.type (.parameterCount "exactly" 5 args.length))

def codingClasses : List String := ["UnicodeDecodeError", "UnicodeEncodeError", "UnicodeTranslateError"]

/-! ## Groups -/

def groupClasses : List String := ["BaseExceptionGroup", "ExceptionGroup"]

def groupFault (args : List Value) : Fault :=
  match args with
  | [.str _, members] =>
    match members with
    | .str _ | .bytes _ | .tuple _ | .list _ =>
      match Value.items members with
      | .ok (_ :: _) => .value (.groupMember 0)
      | _ => .value .emptyGroup
    | _ => .type .groupNotSequence
  | [.none, _] => .type (.groupMessageNotText "None")
  | [v, _] => .type (.groupMessageNotText v.typeName)
  | _ => .type (.groupCount args.length)

def build (name : String) (args : List Value) : Except Fault Fault := do
  let name := mainName name
  let plain : Except Fault Fault := do return .raised name (← args.mapM Value.display) (← wording name args)
  if systemClasses.contains name then
    match args with
    | number :: words :: rest => if rest.length ≤ 3 then buildSystem name number words rest else plain
    | _ => plain
  else if groupClasses.contains name then throw (groupFault args)
  else if sourceClasses.contains name then
    let told ← sourceWording args
    return .raised name (← args.mapM Value.display) told
  else if codingClasses.contains name then
    let told ← codingWording name args
    return .raised name (← args.mapM Value.display) told
  else plain

end SourceOptimizer.Fault
