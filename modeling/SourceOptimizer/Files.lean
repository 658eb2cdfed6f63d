import SourceOptimizer.Fault
import SourceOptimizer.Value.Quoted

/-! A tree of files below one folder. Paths are relative; empty parts and single dots do not count, and two
dots go up. -/
namespace SourceOptimizer

abbrev Path := List String

namespace Path

def ofString (s : String) : Path :=
  (s.splitOn "/").foldl (fun acc part =>
    if part == "" || part == "." then acc
    else if part == ".." then acc.dropLast
    else acc ++ [part]) []

def toString (p : Path) : String := "./" ++ "/".intercalate p

def lastName (s : String) : String := ((s.splitOn "/").getLast?).getD ""

def folderName (s : String) : String :=
  let head := "/".intercalate (s.splitOn "/").dropLast
  let trimmed := String.ofList (head.toList.reverse.dropWhile (· == '/')).reverse
  if trimmed == "" && s.toList.head? == some '/' then "/" else trimmed

def asksFolder (s : String) : Bool := s.toList.getLast? == some '/'

end Path

structure Files where
  files : List (Path × List Nat) := []
  folders : List Path := []
  deriving Inhabited

namespace Files

def content? (fs : Files) (p : Path) : Option (List Nat) := (fs.files.find? (·.1 == p)).map (·.2)

def isFile (fs : Files) (p : Path) : Bool := (fs.content? p).isSome

def isFolder (fs : Files) (p : Path) : Bool := p.isEmpty || fs.folders.contains p

def blocked (fs : Files) (p : Path) : Bool :=
  (List.range p.length).any fun n => fs.isFile (p.take n)

def quotedPath (s : String) : String := Text.quoted (Text.ofString s)

def openFault (fs : Files) (s : String) : Fault :=
  let p := Path.ofString s
  if s == "" then .file (.notFound (quotedPath s))
  else if fs.isFolder p then .file (.isDirectory (quotedPath s))
  else if fs.blocked p || fs.isFile p then .file (.notDirectory (quotedPath s))
  else .file (.notFound (quotedPath s))

def read (fs : Files) (s : String) : Except Fault (List Nat) :=
  let p := Path.ofString s
  if s.toList.contains '\x00' then .error (.value .nullByte)
  else if s == "" || Path.asksFolder s then .error (fs.openFault s)
  else match fs.content? p with
    | some bytes => .ok bytes
    | none => .error (fs.openFault s)

def put (fs : Files) (p : Path) (bytes : List Nat) : Files :=
  if fs.isFile p then { fs with files := fs.files.map fun f => if f.1 == p then (p, bytes) else f }
  else { fs with files := fs.files ++ [(p, bytes)] }

def write (fs : Files) (s : String) (bytes : List Nat) : Except Fault Files :=
  let p := Path.ofString s
  if s == "" || fs.isFolder p || fs.blocked p then .error (fs.openFault s)
  else if Path.asksFolder s then
    .error (if fs.isFile p then .file (.notDirectory (quotedPath s)) else .file (.isDirectory (quotedPath s)))
  else if fs.isFolder p.dropLast then .ok (fs.put p bytes)
  else .error (.file (.notFound (quotedPath s)))

def addFolder (fs : Files) (p : Path) : Files :=
  if fs.isFolder p then fs else { fs with folders := fs.folders ++ [p] }

/-- The folders of a written path from the path itself up, as they are written; `fuel` bounds their number. -/
def written : Nat → String → List String
  | 0, s => [s]
  | fuel + 1, s => s :: (if Path.folderName s == "" || Path.folderName s == s then [] else written fuel (Path.folderName s))

/-- Make a folder and all folders above it. The topmost one that cannot be made is to blame. -/
def makeFolders (fs : Files) (s : String) : Except Fault Files :=
  let p := Path.ofString s
  if s == "" then .error (.file (.notFound (quotedPath s)))
  else if fs.isFile p then .error (.file (.exists (quotedPath s)))
  else if fs.blocked p then
    let topmost := (written s.length s).reverse.find? fun w => fs.blocked (Path.ofString w)
    .error (.file (.notDirectory (quotedPath (topmost.getD s))))
  else .ok ((List.range (p.length + 1)).foldl (fun fs n => fs.addFolder (p.take n)) fs)

def place (fs : Files) (s : String) (bytes : List Nat) : Files :=
  let p := Path.ofString s
  ((List.range p.length).foldl (fun fs n => fs.addFolder (p.take n)) fs).put p bytes

def sorted (xs : List String) : List String :=
  xs.mergeSort fun a b => Text.compare (Text.ofString a) (Text.ofString b) != .gt

def entries (fs : Files) (p : Path) : List String × List String :=
  let inside (q : Path) : Option String := if q.dropLast == p && !q.isEmpty then q.getLast? else none
  (sorted (fs.files.filterMap fun f => inside f.1), sorted (fs.folders.filterMap inside))

def joined (folder name : String) : String :=
  if folder == "" || Path.asksFolder folder then folder ++ name else folder ++ "/" ++ name

/-- All files below a folder as written paths: first its own files, then those of its folders. The bound is
on the depth of folders. -/
def walkWithin (fs : Files) : Nat → String → List String
  | 0, _ => []
  | depth + 1, root =>
    let (files, folders) := fs.entries (Path.ofString root)
    files.map (joined root) ++ folders.flatMap fun f => fs.walkWithin depth (joined root f)

def walk (fs : Files) (root : String) : List String :=
  if root != "" && fs.isFolder (Path.ofString root) then fs.walkWithin (fs.folders.length + 1) root else []

def changedSince (fs before : Files) : List (Path × List Nat) :=
  let changed := fs.files.filter fun f => before.content? f.1 != some f.2
  changed.mergeSort fun a b =>
    Text.compare (Text.ofString (Path.toString a.1)) (Text.ofString (Path.toString b.1)) != .gt

end Files
end SourceOptimizer
