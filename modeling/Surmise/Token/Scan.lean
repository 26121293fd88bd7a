import Surmise.Number.Reader
import Surmise.Platform
import Surmise.Source.Complaint
import Surmise.Token.Basic

/-!
Breaking script text up into tokens. Every scanner splits the text ahead into the part it takes and
the rest, so that the parts taken, one after the other, are the text.
-/

namespace Surmise

variable [Platform]

abbrev Split := List Char × List Char

/-! ### Gaps -/

namespace Gap

inductive Mode where
  | plain
  | lineComment
  | blockComment
deriving DecidableEq, Repr

inductive Result where
  | ends (gap rest : List Char)
  | unterminated (before : List Char)
  | openComment
deriving DecidableEq, Repr

def Result.prepend (taken : List Char) : Result → Result
  | ends gap rest => ends (taken ++ gap) rest
  | unterminated before => unterminated (taken ++ before)
  | openComment => openComment

def split : Mode → List Char → Result
  | .plain, '/' :: '/' :: cs => (split .lineComment cs).prepend ['/', '/']
  | .plain, '/' :: '*' :: cs =>
    match split .blockComment cs with
    | .openComment => .unterminated []
    | r => r.prepend ['/', '*']
  | .plain, c :: cs =>
    if Text.isScriptBlank c then (split .plain cs).prepend [c] else .ends [] (c :: cs)
  | .lineComment, c :: cs =>
    if Text.isLineEnd c then (split .plain cs).prepend [c] else (split .lineComment cs).prepend [c]
  | .blockComment, '*' :: '/' :: cs => (split .plain cs).prepend ['*', '/']
  | .blockComment, c :: cs => (split .blockComment cs).prepend [c]
  | .blockComment, [] => .openComment
  | _, [] => .ends [] []

end Gap

/-! ### Names -/

namespace Text

def isIdentifierStart (c : Char) : Bool := c == '_' || c == '$' || Platform.isXidStart c

def isIdentifierPart (c : Char) : Bool := c == '_' || c == '$' || Platform.isXidContinue c

end Text

namespace Token

def kindOfName (text : String) : Kind :=
  match Keyword.ofText? text with
  | some k => .keyword k
  | none => .identifier

def scanName (cs : List Char) : Kind × Split :=
  let taken := cs.takeWhile Text.isIdentifierPart
  (kindOfName (String.ofList taken), taken, cs.dropWhile Text.isIdentifierPart)

/-! ### Numbers -/

def spanDigits (radix : Nat) (cs : List Char) : Split := cs.span (Radix.isDigit radix)

def spanFraction : List Char → Split
  | '.' :: cs =>
    match spanDigits 10 cs with
    | (digits, rest) => ('.' :: digits, rest)
  | cs => ([], cs)

def spanSign : List Char → Split
  | '+' :: cs => (['+'], cs)
  | '-' :: cs => (['-'], cs)
  | cs => ([], cs)

def spanExponent? : List Char → Option Split
  | [] => some ([], [])
  | c :: cs =>
    if c = 'e' ∨ c = 'E' then
      match spanSign cs with
      | (sign, rest) =>
        match spanDigits 10 rest with
        | ([], _) => none
        | (digits, rest) => some (c :: sign ++ digits, rest)
    else some ([], c :: cs)

def spanDecimal? (cs : List Char) : Option Split :=
  match spanDigits 10 cs with
  | (whole, rest) =>
    match spanFraction rest with
    | (fraction, rest) =>
      (spanExponent? rest).map fun s => (whole ++ fraction ++ s.1, s.2)

def spanRadix? (mark : Char) (radix : Nat) (cs : List Char) : Option Split :=
  match spanDigits radix cs with
  | ([], _) => none
  | (digits, rest) => some ('0' :: mark :: digits, rest)

def spanNumber? : List Char → Option Split
  | '0' :: mark :: cs =>
    match Number.radixOf? mark with
    | some radix => spanRadix? mark radix cs
    | none => spanDecimal? ('0' :: mark :: cs)
  | cs => spanDecimal? cs

def endsNumber : List Char → Bool
  | [] => true
  | c :: _ => !(Text.isIdentifierStart c || Numeral.isDigit c)

def scanNumber? (cs : List Char) : Option Split :=
  (spanNumber? cs).filter fun s => endsNumber s.2

/-! ### Strings -/

/-- What follows an opening quote, up to the closing one. A backslash takes the next character with
it, whatever that is. -/
def spanString? (quote : Char) : List Char → Option Split
  | [] => none
  | '\\' :: c :: cs => (spanString? quote cs).map fun s => ('\\' :: c :: s.1, s.2)
  | c :: cs =>
    if Text.isLineEnd c then none
    else if c = quote then some ([c], cs)
    else (spanString? quote cs).map fun s => (c :: s.1, s.2)

/-! ### Punctuators -/

def scanPunctuator? : List Char → Option (Punctuator × List Char)
  | '(' :: cs => some (.leftParen, cs)
  | ')' :: cs => some (.rightParen, cs)
  | '\x7b' :: cs => some (.leftBrace, cs)
  | '\x7d' :: cs => some (.rightBrace, cs)
  | '[' :: cs => some (.leftBracket, cs)
  | ']' :: cs => some (.rightBracket, cs)
  | '.' :: cs => some (.dot, cs)
  | ';' :: cs => some (.semicolon, cs)
  | ',' :: cs => some (.comma, cs)
  | ':' :: cs => some (.colon, cs)
  | '?' :: cs => some (.question, cs)
  | '+' :: '=' :: cs => some (.plusEquals, cs)
  | '+' :: cs => some (.plus, cs)
  | '-' :: '=' :: cs => some (.minusEquals, cs)
  | '-' :: cs => some (.minus, cs)
  | '*' :: '=' :: cs => some (.starEquals, cs)
  | '*' :: cs => some (.star, cs)
  | '/' :: '=' :: cs => some (.slashEquals, cs)
  | '/' :: cs => some (.slash, cs)
  | '%' :: '=' :: cs => some (.percentEquals, cs)
  | '%' :: cs => some (.percent, cs)
  | '<' :: '=' :: cs => some (.lessEquals, cs)
  | '<' :: cs => some (.less, cs)
  | '>' :: '=' :: cs => some (.greaterEquals, cs)
  | '>' :: cs => some (.greater, cs)
  | '=' :: '=' :: '=' :: cs => some (.equalsEqualsEquals, cs)
  | '=' :: '=' :: cs => some (.equalsEquals, cs)
  | '=' :: cs => some (.equals, cs)
  | '!' :: '=' :: '=' :: cs => some (.bangEqualsEquals, cs)
  | '!' :: '=' :: cs => some (.bangEquals, cs)
  | '!' :: cs => some (.bang, cs)
  | '&' :: '&' :: cs => some (.ampersandAmpersand, cs)
  | '|' :: '|' :: cs => some (.pipePipe, cs)
  | _ => none

/-! ### Tokens -/

def startsNumber : List Char → Bool
  | '.' :: d :: _ => Numeral.isDigit d
  | c :: _ => Numeral.isDigit c
  | [] => false

def orComplain {α : Type} (complaint : Complaint) : Option α → Except Complaint α
  | some a => .ok a
  | none => .error complaint

def scanOne (cs : List Char) : Except Complaint (Kind × Split) :=
  match cs with
  | [] => .ok (.eof, [], [])
  | c :: tail =>
    if Text.isIdentifierStart c then .ok (scanName cs)
    else if startsNumber cs then
      orComplain .invalidNumber ((scanNumber? cs).map fun s => (.number, s))
    else if c = '"' ∨ c = '\'' then
      orComplain .unterminatedString
        ((spanString? c tail).map fun s => (.string, c :: s.1, s.2))
    else
      orComplain (.unexpectedCharacter c)
        ((scanPunctuator? cs).map fun s => (.punctuator s.1, s.1.text.toList, s.2))

def next (p : Location) (cs : List Char) : Except Rejection (Token × Location × List Char) :=
  match Gap.split .plain cs with
  | .unterminated before => .error ⟨.unterminatedComment, p.advance before⟩
  | .openComment => .error ⟨.unterminatedComment, p⟩
  | .ends gap rest =>
    let start := p.advance gap
    match scanOne rest with
    | .error complaint => .error ⟨complaint, start⟩
    | .ok (kind, taken, rest) =>
      .ok (⟨kind, String.ofList taken, start, gap.any Text.isLineEnd⟩, start.advance taken, rest)

def scanFrom : (fuel : Nat) → Location → List Char → List Token × Option Rejection
  | 0, p, _ => ([], some ⟨.outOfSteps, p⟩)
  | fuel + 1, p, cs =>
    match next p cs with
    | .error r => ([], some r)
    | .ok (token, stop, rest) =>
      if token.kind = .eof then ([token], none)
      else
        match scanFrom fuel stop rest with
        | (tokens, fault) => (token :: tokens, fault)

def scan (source : String) : List Token × Option Rejection :=
  scanFrom (source.toList.length + 1) .start source.toList

def tokenize (source : String) : Except Rejection (List Token) :=
  match scan source with
  | (tokens, none) => .ok tokens
  | (_, some r) => .error r

end Token
end Surmise
