/-!
Places in a source text. Only a line feed starts a new line; columns count characters and offsets
count bytes of UTF-8. Lines and columns are numbers of 32 bits in every source that is shorter than
those reach.
-/

namespace Surmise

structure Location where
  line : Nat
  column : Nat
  offset : Nat
deriving DecidableEq, Repr, Inhabited

namespace Location

def start : Location := ⟨1, 1, 0⟩

def next (p : Location) (c : Char) : Location :=
  if c = '\n' then ⟨p.line + 1, 1, p.offset + c.utf8Size⟩
  else ⟨p.line, p.column + 1, p.offset + c.utf8Size⟩

def advance (p : Location) (cs : List Char) : Location := cs.foldl next p

def text (p : Location) : String := s!"{p.line}:{p.column}"

end Location

structure Span where
  start : Location
  stop : Location
deriving DecidableEq, Repr, Inhabited

end Surmise
