import SourceOptimizer.Pipeline.Transform

/-! The command line: options in any order and case, files and folders to read, and where to write. -/
namespace SourceOptimizer.CommandLine

structure Options where
  level : Int := 1
  logLevel : LogLevel := .info
  logToFile : Bool := false
  files : List String := []
  output : String := ".\\out"
  compiler : Option String := none
  deriving Inhabited

def plainOption? (o : Options) : String → Option Options
  | "-o0" => some { o with level := 0 }
  | "-o1" => some { o with level := 1 }
  | "-o2" => some { o with level := 2 }
  | "-o3" => some { o with level := 3 }
  | "-critical" => some { o with logLevel := .critical }
  | "-error" => some { o with logLevel := .error }
  | "-warn" => some { o with logLevel := .warn }
  | "-info" => some { o with logLevel := .info }
  | "-debug" => some { o with logLevel := .debug }
  | "-tofile" => some { o with logToFile := true }
  | _ => none

def valueOption? (fs : Files) (o : Options) (option value : String) : Option (Except String Options) :=
  match option with
  | "-f" => some (.ok { o with files := o.files ++ [value] })
  | "-d" =>
    if value.toList.contains '\x00' then some (.error ValueCause.nullByte.message)
    else some (.ok { o with files := o.files ++ fs.walk value })
  | "-o" => some (.ok { o with output := value })
  | "-compiler" => some (.ok { o with compiler := some value })
  | _ => none

def lower (s : String) : String := String.ofList (s.toList.map Char.toLower)

def read (fs : Files) : Options → List String → Except String Options
  | o, [] => .ok o
  | o, [a] => .ok ((plainOption? o (lower a)).getD o)
  | o, a :: b :: rest =>
    match valueOption? fs o (lower a) b with
    | some (.ok o) => read fs o rest
    | some (.error e) => .error e
    | none => read fs ((plainOption? o (lower a)).getD o) (b :: rest)

def outputPath (output path : String) : String :=
  replaceAll (output ++ String.ofList (path.toList.drop 1)) "\\" "/"

def writeSources (output : String) : List Source → Work Unit
  | [] => return ()
  | s :: rest => do
    let path := outputPath output s.path
    Work.write .debug ["Write to " ++ Style.cyan ++ path]
    Native.makeFolders (Path.folderName path)
    Native.writeFile path s.bytes
    writeSources output rest

def work (o : Options) : Work Unit := do
  let workers ← Pipeline.register
  Work.write .debug ["Start parsing files."]
  (o.files.filter (·.endsWith ".py")).forM parseFile
  Work.write .info [s!"Parsed {(← get).sources.length} files."]
  let _ ← Pipeline.transform workers
  writeSources o.output (← get).sources

inductive Ending where
  | finished
  | exit (code : Nat)
  | failed (fault : Fault)

structure Run where
  output : String
  files : Files
  ending : Ending

def logFile : String := "latest.log"

def run (fs : Files) (toolchain : Toolchain) (args : List String) : Run :=
  let greeting := "Starting...\n"
  match read fs {} args with
  | .error e => ⟨greeting ++ "Exception during parse args.\n" ++ e ++ "\n", fs, .exit 1⟩
  | .ok o =>
    let start : Session :=
      { files := if o.logToFile then fs.place logFile [] else fs
        log := { threshold := o.logLevel.rank }
        level := o.level
        toolchain := { toolchain with chosen := o.compiler } }
    let (result, s) := (work o).run.run start
    let ending := match result with
      | .ok _ => Ending.finished
      | .error e => .failed e
    if o.logToFile then
      ⟨greeting, s.files.place logFile (Text.encodeUtf8 (Text.ofString s.log.text)), ending⟩
    else ⟨greeting ++ s.log.text, s.files, ending⟩

end SourceOptimizer.CommandLine
