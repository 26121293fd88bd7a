import Surmise.HostError

/-!
What can be wrong with script text. A complaint names the fault and a rejection places it.
-/

namespace Surmise

inductive Complaint where
  | unterminatedComment
  | unterminatedString
  | invalidNumber
  | unexpectedCharacter (c : Char)
  | invalidEscape
  | unexpectedEnd
  | unexpectedToken (text : String)
  | missingInitializer
  | illegalReturn
  | newlineAfterThrow
  | missingHandler
  | invalidTarget
  | outOfSteps
deriving DecidableEq, Repr

namespace Complaint

def message : Complaint → String
  | unterminatedComment => "Unterminated comment"
  | unterminatedString => "Unterminated string literal"
  | invalidNumber => "Invalid or unexpected token"
  | unexpectedCharacter c => "Unexpected character '" ++ c.toString ++ "'"
  | invalidEscape => "Invalid escape sequence"
  | unexpectedEnd => "Unexpected end of input"
  | unexpectedToken text => "Unexpected token '" ++ text ++ "'"
  | missingInitializer => "Missing initializer in const declaration"
  | illegalReturn => "Illegal return statement"
  | newlineAfterThrow => "Illegal newline after throw"
  | missingHandler => "Missing catch or finally after try"
  | invalidTarget => "Invalid left-hand side in assignment"
  | outOfSteps => "Program is nested too deeply"

def isLexical : Complaint → Bool
  | unterminatedComment | unterminatedString | invalidNumber | unexpectedCharacter _
  | invalidEscape => true
  | _ => false

end Complaint

structure Rejection where
  complaint : Complaint
  location : Location
deriving DecidableEq, Repr

namespace Rejection

def bare (r : Rejection) : HostError :=
  if r.complaint.isLexical then .lexical r.complaint.message r.location ""
  else .grammatical r.complaint.message r.location ""

def toError (source : String) (r : Rejection) : HostError := r.bare.withExcerpt source

end Rejection
end Surmise
