import SourceOptimizer.Pipeline.CommandLine

/-! The command line program: it reads the files that its arguments name, runs, prints what there is to say and
writes the files that are new or have changed. -/
namespace SourceOptimizer.Main

def bytesOf (data : ByteArray) : List Nat := data.toList.map UInt8.toNat

def readFile (fs : Files) (path : String) : IO Files := do
  try return fs.place path (bytesOf (← IO.FS.readBinFile path))
  catch _ => return fs

partial def readFolder (fs : Files) (path : String) : IO Files := do
  try
    let here ← IO.FS.realPath path
    let mut fs := fs
    for entry in ← here.readDir do
      let inner := Files.joined path entry.fileName
      fs ← if ← entry.path.isDir then readFolder fs inner else readFile fs inner
    return fs
  catch _ => return fs

def readNamed : Files → List String → IO Files
  | fs, option :: path :: rest => do
    match CommandLine.lower option with
    | "-f" => readNamed (← readFile fs path) rest
    | "-d" => readNamed (← readFolder fs path) rest
    | _ => readNamed fs (path :: rest)
  | fs, _ => return fs

def writeFile (path : Path) (bytes : List Nat) : IO Unit := do
  IO.FS.createDirAll (Path.toString path.dropLast)
  IO.FS.writeBinFile (Path.toString path) ⟨(bytes.map Nat.toUInt8).toArray⟩

end SourceOptimizer.Main

open SourceOptimizer in
def main (args : List String) : IO UInt32 := do
  let before ← Main.readNamed {} args
  let run := CommandLine.run before { available := [] } args
  IO.print run.output
  for (path, bytes) in run.files.changedSince before do Main.writeFile path bytes
  match run.ending with
  | .finished => return 0
  | .exit code => return code.toUInt32
  | .failed fault =>
    IO.eprintln fault.headline
    return 1
