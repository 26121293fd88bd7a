import Surmise.Source.Location

/-!
The lines of a source text around a place, with a caret under it.
-/

namespace Surmise

namespace Text

def lines : List Char → List (List Char)
  | [] => []
  | '\r' :: '\n' :: cs => [] :: lines cs
  | c :: cs =>
    if c = '\n' then [] :: lines cs
    else
      match lines cs with
      | [] => [[c]]
      | l :: ls => (c :: l) :: ls

def padLeft (width : Nat) (s : String) : String :=
  String.ofList (List.replicate (width - s.length) ' ') ++ s

end Text

namespace Excerpt

def gutter (width : Nat) (label : String) (line : List Char) : String :=
  Text.padLeft width label ++ " | " ++ String.ofList line ++ "\n"

def render (source : String) (p : Location) : String :=
  let lines := Text.lines source.toList
  let index := p.line - 1
  match lines[index]? with
  | none => ""
  | some line =>
    let width := max 3 (toString (p.line + 1)).length
    let before :=
      if index = 0 then "" else gutter width (toString (p.line - 1)) (lines.getD (index - 1) [])
    before ++ gutter width (toString p.line) line ++
      gutter width "" (List.replicate (p.column - 1) ' ' ++ ['^'])

end Excerpt
end Surmise
