import Surmise.ErrorKind
import Surmise.Json.Problem

/-!
Diagnostics: what is reported about each fault of a built-in operation, and about each text that is no
JSON document. A diagnostic keeps what it is about; its kind and its message follow from that.
-/

namespace Surmise

def stackExceeded : String := "Maximum call stack size exceeded"

inductive Finding where
  | fault (kind : ErrorKind) (message : String)
  /-- A text that cannot be read as JSON, with the problem in it. -/
  | unread (p : Json.Problem) (text : List Char)
deriving DecidableEq, Repr

namespace Finding

def told : Finding → ErrorKind × String
  | fault kind message => (kind, message)
  | unread p text =>
    match p.cause with
    | .nestingTooDeep => (.rangeError, stackExceeded)
    | _ => (.syntaxError, p.message text)

end Finding

inductive Disposition where
  | recovered
  | thrown
deriving DecidableEq, Repr

structure Diagnostic where
  finding : Finding
  filename : String
  disposition : Disposition
deriving DecidableEq, Repr

namespace Disposition

def text : Disposition → String
  | recovered => "recovered"
  | thrown => "thrown"

end Disposition

namespace Diagnostic

def kind (d : Diagnostic) : ErrorKind := d.finding.told.1

def message (d : Diagnostic) : String := d.finding.told.2

def text (d : Diagnostic) : String :=
  d.filename ++ ": " ++ d.kind.name ++ ": " ++ d.message ++ " (" ++ d.disposition.text ++ ")"

end Diagnostic
end Surmise
