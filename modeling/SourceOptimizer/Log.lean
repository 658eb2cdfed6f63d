import SourceOptimizer.Value.Equal
import SourceOptimizer.Value.Show

/-! The log: messages with a level, a colour and a time that never moves. Messages below the threshold are
dropped. -/
namespace SourceOptimizer

-- terminal codes
namespace Style

def red : String := "\x1b[31m"
def green : String := "\x1b[32m"
def yellow : String := "\x1b[33m"
def magenta : String := "\x1b[35m"
def cyan : String := "\x1b[36m"
def white : String := "\x1b[37m"
def plain : String := "\x1b[39m"
def brightCyan : String := "\x1b[96m"
def underline : String := "\x1b[4m"
def reset : String := "\x1b[0m"

end Style

inductive LogLevel where
  | debug | info | warn | error | critical
  deriving DecidableEq, Repr, Inhabited

namespace LogLevel

def rank : LogLevel → Int
  | debug => 0 | info => 1 | warn => 2 | error => 3 | critical => 4

def name : LogLevel → String
  | debug => "DEBUG" | info => "INFO" | warn => "WARN" | error => "ERROR" | critical => "CRITICAL"

def color : LogLevel → String
  | debug => Style.cyan | info => Style.green | warn => Style.yellow | error => Style.red
  | critical => Style.magenta

def all : List LogLevel := [debug, info, warn, error, critical]

def ofName? (s : String) : Option LogLevel := all.find? (·.name == s)

def ofValue? (v : Value) : Option LogLevel := all.find? fun l => Value.equal v (.int l.rank)

def ofValue (v : Value) : Except Fault LogLevel :=
  match ofValue? v with
  | some l => .ok l
  | none => do throw (.value (.notALevel (← v.repr)))

def colorOf (v : Value) : String := ((ofValue? v).map color).getD Style.white

end LogLevel

structure Log where
  threshold : Int := 0
  text : String := ""
  deriving Inhabited

namespace Log

def line (level : LogLevel) (parts : List String) : String :=
  level.color ++ "[00:00:00] [" ++ level.name ++ "]: " ++ String.join parts ++ Style.reset ++ "\n"

def write (log : Log) (level : LogLevel) (parts : List String) : Log :=
  if log.threshold ≤ level.rank then { log with text := log.text ++ line level parts } else log

end Log
end SourceOptimizer
