/-!
The kinds of error that scripts can see.
-/

namespace Surmise

inductive ErrorKind where
  | typeError
  | referenceError
  | rangeError
  | syntaxError
  | evalError
  | uriError
  | generic
deriving DecidableEq, Repr

namespace ErrorKind

def name : ErrorKind → String
  | typeError => "TypeError"
  | referenceError => "ReferenceError"
  | rangeError => "RangeError"
  | syntaxError => "SyntaxError"
  | evalError => "EvalError"
  | uriError => "URIError"
  | generic => "Error"

def ofName? : String → Option ErrorKind
  | "TypeError" => some typeError
  | "ReferenceError" => some referenceError
  | "RangeError" => some rangeError
  | "SyntaxError" => some syntaxError
  | "EvalError" => some evalError
  | "URIError" => some uriError
  | "Error" => some generic
  | _ => none

def ofName (s : String) : ErrorKind := (ofName? s).getD generic

end ErrorKind
end Surmise
