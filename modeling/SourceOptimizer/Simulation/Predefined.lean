import SourceOptimizer.Simulation.Machine
import SourceOptimizer.Value.Builtin

/-! What a simulation starts from: the predefined names, and those that every module has. -/
namespace SourceOptimizer.Simulation

def functionNames : List String :=
  ["__build_class__", "__import__", "abs", "aiter", "all", "anext", "any", "ascii", "bin", "breakpoint",
   "callable", "chr", "compile", "delattr", "dir", "divmod", "eval", "exec", "format", "getattr", "globals",
   "hasattr", "hash", "hex", "id", "input", "isinstance", "issubclass", "iter", "len", "locals", "max", "min",
   "next", "oct", "open", "ord", "pow", "print", "repr", "round", "setattr", "sorted", "sum", "vars"]

def faultNames : List String :=
  ["ArithmeticError", "AssertionError", "AttributeError", "BaseException", "BaseExceptionGroup",
   "BlockingIOError", "BrokenPipeError", "BufferError", "BytesWarning", "ChildProcessError",
   "ConnectionAbortedError", "ConnectionError", "ConnectionRefusedError", "ConnectionResetError",
   "DeprecationWarning", "EOFError", "EncodingWarning", "EnvironmentError", "Exception", "ExceptionGroup",
   "FileExistsError", "FileNotFoundError", "FloatingPointError", "FutureWarning", "GeneratorExit", "IOError",
   "ImportError", "ImportWarning", "IndentationError", "IndexError", "InterruptedError", "IsADirectoryError",
   "KeyError", "KeyboardInterrupt", "LookupError", "MemoryError", "ModuleNotFoundError", "NameError",
   "NotADirectoryError", "NotImplementedError", "OSError", "OverflowError", "PendingDeprecationWarning",
   "PermissionError", "ProcessLookupError", "RecursionError", "ReferenceError", "ResourceWarning",
   "RuntimeError", "RuntimeWarning", "StopAsyncIteration", "StopIteration", "SyntaxError", "SyntaxWarning",
   "SystemError", "SystemExit", "TabError", "TimeoutError", "TypeError", "UnboundLocalError",
   "UnicodeDecodeError", "UnicodeEncodeError", "UnicodeError", "UnicodeTranslateError", "UnicodeWarning",
   "UserWarning", "ValueError", "Warning", "ZeroDivisionError"]

def callableObject (name : String) : Object :=
  if Builtin.isPure name then .builtin name [] else .unknown

def predefined : List (String × Object × String) :=
  functionNames.map (fun n => (n, callableObject n, "builtin_function_or_method")) ++
  (Value.classNames ++ faultNames ++ ["__loader__"]).map (fun n => (n, callableObject n, "type")) ++
  ["copyright", "credits", "license"].map (fun n => (n, .unknown, "_Printer")) ++
  ["exit", "quit"].map (fun n => (n, .unknown, "Quitter")) ++
  [("help", .unknown, "_Helper"), ("__spec__", .unknown, "ModuleSpec")] ++
  [("Ellipsis", Value.ellipsis), ("False", .bool false), ("None", .none), ("NotImplemented", .notImplemented),
   ("True", .bool true), ("__debug__", .bool true), ("__name__", .text "builtins"), ("__package__", .text ""),
   ("__doc__", .text "")].map fun (n, v) => (n, .constant { value := v }, v.typeName)

def moduleNames : List (String × Object × String) :=
  [("__builtins__", .unknown, "object"), ("__doc__", .constant { value := .none }, "NoneType"),
   ("__loader__", .unknown, "object"), ("__name__", .unknown, "str"), ("__package__", .unknown, "str"),
   ("__spec__", .unknown, "object")]

def variablesFrom (unused : Bool) (first : Ref) (table : List (String × Object × String)) :
    List (String × Variable) :=
  table.mapIdx fun i (name, _, type) => (name, { object := first + i, type, unused })

def Machine.start (root : Nat) : Machine :=
  let table := predefined ++ moduleNames
  { objects := (table.map (·.2.1)).toArray
    builtins := variablesFrom false 0 predefined
    stack := [{ id := 0, parent := .node root, entries := variablesFrom true predefined.length moduleNames }]
    spaces := 1 }

end SourceOptimizer.Simulation
