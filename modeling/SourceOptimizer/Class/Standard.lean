import SourceOptimizer.Class.Linear

/-! The predefined classes, and new ones on top of them. -/
namespace SourceOptimizer.Hierarchy

def properName : String → String
  | "IOError" | "EnvironmentError" => "OSError"
  | name => name

def plainClasses : List String :=
  ["type", "int", "float", "complex", "str", "bytes", "bytearray", "list", "tuple", "set", "frozenset", "dict",
   "range", "slice", "memoryview", "property", "classmethod", "staticmethod", "super", "enumerate", "filter",
   "map", "reversed", "zip", "NoneType", "ellipsis", "NotImplementedType", "function", "method",
   "builtin_function_or_method"]

def faultClasses : List (String × String) :=
  [("BaseException", "object"), ("Exception", "BaseException"), ("BaseExceptionGroup", "BaseException"),
   ("GeneratorExit", "BaseException"), ("KeyboardInterrupt", "BaseException"), ("SystemExit", "BaseException"),
   ("ArithmeticError", "Exception"), ("FloatingPointError", "ArithmeticError"),
   ("OverflowError", "ArithmeticError"), ("ZeroDivisionError", "ArithmeticError"),
   ("AssertionError", "Exception"), ("AttributeError", "Exception"), ("BufferError", "Exception"),
   ("EOFError", "Exception"), ("ImportError", "Exception"), ("ModuleNotFoundError", "ImportError"),
   ("LookupError", "Exception"), ("IndexError", "LookupError"), ("KeyError", "LookupError"),
   ("MemoryError", "Exception"), ("NameError", "Exception"), ("UnboundLocalError", "NameError"),
   ("OSError", "Exception"), ("BlockingIOError", "OSError"), ("ChildProcessError", "OSError"),
   ("ConnectionError", "OSError"), ("BrokenPipeError", "ConnectionError"),
   ("ConnectionAbortedError", "ConnectionError"), ("ConnectionRefusedError", "ConnectionError"),
   ("ConnectionResetError", "ConnectionError"), ("FileExistsError", "OSError"),
   ("FileNotFoundError", "OSError"), ("InterruptedError", "OSError"), ("IsADirectoryError", "OSError"),
   ("NotADirectoryError", "OSError"), ("PermissionError", "OSError"), ("ProcessLookupError", "OSError"),
   ("TimeoutError", "OSError"), ("ReferenceError", "Exception"), ("RuntimeError", "Exception"),
   ("NotImplementedError", "RuntimeError"), ("RecursionError", "RuntimeError"),
   ("StopAsyncIteration", "Exception"), ("StopIteration", "Exception"), ("SyntaxError", "Exception"),
   ("IndentationError", "SyntaxError"), ("TabError", "IndentationError"), ("SystemError", "Exception"),
   ("TypeError", "Exception"), ("ValueError", "Exception"), ("UnicodeError", "ValueError"),
   ("UnicodeDecodeError", "UnicodeError"), ("UnicodeEncodeError", "UnicodeError"),
   ("UnicodeTranslateError", "UnicodeError"), ("Warning", "Exception"), ("BytesWarning", "Warning"),
   ("DeprecationWarning", "Warning"), ("EncodingWarning", "Warning"), ("FutureWarning", "Warning"),
   ("ImportWarning", "Warning"), ("PendingDeprecationWarning", "Warning"), ("ResourceWarning", "Warning"),
   ("RuntimeWarning", "Warning"), ("SyntaxWarning", "Warning"), ("UnicodeWarning", "Warning"),
   ("UserWarning", "Warning")]

def abstractClasses : List (String × List String) :=
  [("Number", []), ("Complex", ["Number"]), ("Real", ["Complex"]), ("Rational", ["Real"]),
   ("Integral", ["Rational"]), ("Hashable", []), ("Iterable", []), ("Sized", []), ("Container", []),
   ("Callable", []), ("Awaitable", []), ("AsyncIterable", []), ("Coroutine", ["Awaitable"]),
   ("AsyncIterator", ["AsyncIterable"]), ("AsyncGenerator", ["AsyncIterator"]), ("Iterator", ["Iterable"]),
   ("Generator", ["Iterator"]), ("Reversible", ["Iterable"]),
   ("Collection", ["Sized", "Iterable", "Container"]), ("Set", ["Collection"]), ("MutableSet", ["Set"]),
   ("Mapping", ["Collection"]), ("MutableMapping", ["Mapping"]), ("MappingView", ["Sized"]),
   ("KeysView", ["MappingView", "Set"]), ("ItemsView", ["MappingView", "Set"]),
   ("ValuesView", ["MappingView", "Collection"]), ("Sequence", ["Reversible", "Collection"]),
   ("MutableSequence", ["Sequence"]), ("ByteString", ["Sequence"])]

def extend (h : Hierarchy) (name : String) (bases : List String) : Hierarchy :=
  match h.orderOf name (if bases.isEmpty then ["object"] else bases) with
  | .ok order => h.add name order
  | .error _ => h

def standard : Hierarchy :=
  let root : Hierarchy := ⟨[("object", ["object"])]⟩
  let plain := plainClasses.foldl (fun h c => h.extend c []) root
  let faults := faultClasses.foldl (fun h (c, base) => h.extend c [base]) (plain.extend "bool" ["int"])
  let faults := faults.extend "ExceptionGroup" ["BaseExceptionGroup", "Exception"]
  abstractClasses.foldl (fun h (c, bases) => h.extend c bases) faults

def finalClasses : List String :=
  ["bool", "range", "slice", "memoryview", "NoneType", "ellipsis", "NotImplementedType", "function", "method",
   "builtin_function_or_method"]

def layoutClasses : List String :=
  plainClasses ++ ["BaseException", "BaseExceptionGroup", "SystemExit", "AttributeError", "ImportError", "NameError",
    "OSError", "StopIteration", "SyntaxError", "UnicodeDecodeError", "UnicodeEncodeError", "UnicodeTranslateError",
    "MappingView"]

def layout (h : Hierarchy) (c : String) : String :=
  ((h.order c).find? layoutClasses.contains).getD "object"

/-- The layout for all bases, which has to extend the layout of each of them; `best` is that of the bases before. -/
def joinLayouts (h : Hierarchy) (best : String) : List String → Except Fault String
  | [] => .ok best
  | c :: cs =>
    if finalClasses.contains c then .error (.type (.finalBase c))
    else if h.below best (h.layout c) then h.joinLayouts best cs
    else if h.below (h.layout c) best then h.joinLayouts (h.layout c) cs
    else .error (.type .layoutConflict)

def define (h : Hierarchy) (name : String) (bases : List String) : Except Fault Hierarchy := do
  let bases := if bases.isEmpty then ["object"] else bases.map properName
  let _ ← h.joinLayouts "object" bases
  match bases.find? fun c => 1 < bases.count c with
  | some c => throw (.type (.duplicateBase c))
  | none => pure ()
  match h.orderOf name bases with
  | .ok order => return h.add name order
  | .error heads => throw (.type (.inconsistentOrder heads))

end SourceOptimizer.Hierarchy
