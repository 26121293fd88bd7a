import Surmise.Text.Units

/-!
What can be wrong with a JSON text, and where. A problem remembers how many bytes of the text were
left when it arose; its line and column follow from the text.
-/

namespace Surmise.Json

inductive Cause where
  | endInValue
  | endInList
  | endInObject
  | endInString
  | expectedValue
  | expectedIdent
  | expectedColon
  | expectedListEnd
  | expectedObjectEnd
  | keyNotString
  | trailingComma
  | trailingCharacters
  | controlCharacter
  | invalidEscape
  | loneSurrogate
  | endInHexEscape
  | invalidNumber
  | numberOutOfRange
  | nestingTooDeep
  /-- A well-formed value of the wrong form for its reader. -/
  | unsuitable (message : String)
deriving DecidableEq, Repr

namespace Cause

def message : Cause → String
  | endInValue => "EOF while parsing a value"
  | endInList => "EOF while parsing a list"
  | endInObject => "EOF while parsing an object"
  | endInString => "EOF while parsing a string"
  | expectedValue => "expected value"
  | expectedIdent => "expected ident"
  | expectedColon => "expected `:`"
  | expectedListEnd => "expected `,` or `]`"
  | expectedObjectEnd => "expected `,` or `\x7d`"
  | keyNotString => "key must be a string"
  | trailingComma => "trailing comma"
  | trailingCharacters => "trailing characters"
  | controlCharacter => "control character (\\u0000-\\u001F) found while parsing a string"
  | invalidEscape => "invalid escape"
  | loneSurrogate => "lone leading surrogate in hex escape"
  | endInHexEscape => "unexpected end of hex escape"
  | invalidNumber => "invalid number"
  | numberOutOfRange => "number out of range"
  | nestingTooDeep => "recursion limit exceeded"
  | unsuitable m => m

end Cause

structure Problem where
  cause : Cause
  /-- Bytes of the text that lie after the place of the problem. -/
  remaining : Nat
deriving DecidableEq, Repr

namespace Problem

def here (cause : Cause) (rest : List Char) : Problem := ⟨cause, Text.byteSize rest⟩

def next (cause : Cause) (rest : List Char) : Problem := ⟨cause, Text.byteSize rest - 1⟩

def after (bytes : Nat) (cause : Cause) (rest : List Char) : Problem :=
  ⟨cause, Text.byteSize rest - bytes⟩

/-- Line and column of the byte `index`: the column counts bytes from the last line feed before it. -/
def position (index : Nat) : (line lineStart offset : Nat) → List Char → Nat × Nat
  | line, lineStart, _, [] => (line, index - lineStart)
  | line, lineStart, offset, c :: cs =>
    if index ≤ offset then (line, index - lineStart)
    else if c = '\n' then position index (line + 1) (offset + 1) (offset + 1) cs
    else position index line lineStart (offset + c.utf8Size) cs

def message (p : Problem) (text : List Char) : String :=
  let (line, column) := position (Text.byteSize text - p.remaining) 1 0 0 text
  s!"{p.cause.message} at line {line} column {column}"

end Problem
end Surmise.Json
