import Surmise.Source.Complaint
import Surmise.Token.Basic

/-!
A place among the tokens of a script and the steps that a parser makes from there. There is always a
current token; the last one is the end of input and is never passed.
-/

namespace Surmise

structure Cursor where
  current : Token
  rest : List Token
deriving Inhabited

namespace Cursor

def ofTokens? : List Token → Option Cursor
  | [] => none
  | t :: ts => some ⟨t, ts⟩

def advance (c : Cursor) : Cursor :=
  match c.rest with
  | [] => c
  | t :: ts => ⟨t, ts⟩

def remaining (c : Cursor) : Nat := c.rest.length

end Cursor

abbrev Parse := StateT Cursor (Except Rejection)

namespace Parse

variable {α : Type}

def current : Parse Token := fun c => .ok (c.current, c)

def kind : Parse Token.Kind := fun c => .ok (c.current.kind, c)

def location : Parse Location := fun c => .ok (c.current.location, c)

def advance : Parse Token := fun c => .ok (c.current, c.advance)

def nextSatisfies (test : Token → Bool) : Parse Bool := fun c =>
  .ok (c.rest.head?.all test, c)

def reject (complaint : Complaint) (location : Location) : Parse α := fun _ =>
  .error ⟨complaint, location⟩

def rejectHere (complaint : Complaint) : Parse α := fun c => .error ⟨complaint, c.current.location⟩

def surprise (t : Token) : Complaint :=
  if t.kind = .eof then .unexpectedEnd else .unexpectedToken t.text

def unexpected : Parse α := fun c => .error ⟨surprise c.current, c.current.location⟩

def expect (kind : Token.Kind) : Parse Token := fun c =>
  if c.current.kind = kind then .ok (c.current, c.advance) else unexpected c

def consume (kind : Token.Kind) : Parse Bool := fun c =>
  if c.current.kind = kind then .ok (true, c.advance) else .ok (false, c)

def expectMark (p : Punctuator) : Parse Token := expect (.punctuator p)

def consumeMark (p : Punctuator) : Parse Bool := consume (.punctuator p)

def atMark (p : Punctuator) : Parse Bool := fun c => .ok (c.current.kind = .punctuator p, c)

def atEnd : Parse Bool := fun c => .ok (c.current.kind = .eof, c)

/-- Whether a statement may end before a token without a semicolon. -/
def endsStatement (t : Token) : Bool :=
  t.kind = .punctuator .rightBrace || t.kind = .eof || t.newlineBefore

def semicolon : Parse Unit := fun c =>
  if c.current.kind = .punctuator .semicolon then .ok ((), c.advance)
  else if endsStatement c.current then .ok ((), c)
  else unexpected c

end Parse
end Surmise
