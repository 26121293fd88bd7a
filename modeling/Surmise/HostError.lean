import Surmise.ErrorKind
import Surmise.Source.Excerpt

/-!
Errors of the host: malformed source text, faults raised by built-in functions, and failures of the
surroundings. Exceptions thrown by a script are values and never appear here.
-/

namespace Surmise

inductive HostError where
  /-- Source text that breaks up into no tokens. -/
  | lexical (message : String) (location : Location) (excerpt : String)
  | grammatical (message : String) (location : Location) (excerpt : String)
  /-- A fault of a built-in function that a script may see as an error of this kind. -/
  | native (kind : ErrorKind) (message : String)
  | internal (message : String)
  | file (message : String)
  | config (message : String)
deriving DecidableEq, Repr

namespace HostError

def isSyntaxError : HostError → Bool
  | lexical .. | grammatical .. => true
  | _ => false

def kind : HostError → ErrorKind
  | lexical .. | grammatical .. => .syntaxError
  | native kind _ => kind
  | _ => .generic

def message : HostError → String
  | lexical m .. | grammatical m .. | native _ m | internal m | file m | config m => m

def location? : HostError → Option Location
  | lexical _ p _ | grammatical _ p _ => some p
  | _ => none

def withExcerpt (source : String) : HostError → HostError
  | lexical m p _ => lexical m p (Excerpt.render source p)
  | grammatical m p _ => grammatical m p (Excerpt.render source p)
  | e => e

def located (message : String) (location : Location) (excerpt : String) : String :=
  "SyntaxError: " ++ message ++ " at " ++ location.text ++
    (if excerpt = "" then "" else "\n" ++ excerpt)

def text : HostError → String
  | lexical m p x | grammatical m p x => located m p x
  | native kind m => kind.name ++ ": " ++ m
  | internal m => "InternalError: " ++ m
  | file m => "IOError: " ++ m
  | config m => "ConfigError: " ++ m

end HostError
end Surmise
