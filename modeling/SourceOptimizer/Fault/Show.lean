import SourceOptimizer.Fault
import SourceOptimizer.Value.Quoted

/-! Faults as expressions that build them. -/
namespace SourceOptimizer.Fault

def fileArgs : FileCause → List String
  | .notFound _ => ["2", "'No such file or directory'"]
  | .isDirectory _ => ["21", "'Is a directory'"]
  | .notDirectory _ => ["20", "'Not a directory'"]
  | .exists _ => ["17", "'File exists'"]
  | .undecodable p => [Text.quoted (Text.ofString (FileCause.undecodable p).message)]

def constructorText (e : Fault) : String :=
  let args := match e with
    | .file cause => fileArgs cause
    | e => e.args.map fun a => Text.quoted (Text.ofString a)
  e.className ++ "(" ++ ", ".intercalate args ++ ")"

end SourceOptimizer.Fault
