import SourceOptimizer.Fault
import SourceOptimizer.Tree.Basic

/-! New pieces of programs. They have no lines and get their identities when they are taken into a store. -/
namespace SourceOptimizer.Tree

def make (kind : Kind) (parts : List Tree) : Tree := .node {} kind parts

def constant (v : Value) : Tree := make (.constant { value := v }) []

def text (s : String) : Tree := constant (Value.text s)

def loadName (id : String) : Tree := make (.name id .load) []

def callOf (function : Tree) (args : List Tree) : Tree := make .call [function, .seq args, .seq []]

def noParameters : Tree := make .arguments [.seq [], .seq [], .absent, .seq [], .seq [], .absent, .seq []]

def emptyGenerator : Tree :=
  make .generatorExp
    [loadName "_",
     .seq [make (.comprehension false) [make (.name "_" .store) [], make (.tuple .load) [.seq []], .seq []]]]

/-- An expression that raises an exception of the named class, built from texts, when it is evaluated: an
empty generator is told to throw it. -/
def raising (className : String) (args : List String) : Tree :=
  let exception := callOf (loadName className) (args.map text)
  let throwing := callOf (make (.attr "throw" .load) [emptyGenerator]) [exception]
  callOf (make .lambda [noParameters, throwing]) []

def raisingFault (e : Fault) : Tree := raising e.className e.args

def pass : Tree := make .passStmt []

end SourceOptimizer.Tree
