import Surmise.Decimal.Notation
import Surmise.HostError
import Surmise.Json.Reader
import Surmise.Options.Basic
import Surmise.Text.Quoted

/-!
Options read from JSON text: an object with any of the four fields, or a list of their values in order.
Fields that are not named keep their defaults; other keys are skipped, but their values have to be well
formed. Skipping has rules of its own: it neither decodes strings nor computes numbers, and it has no
limit on nesting.
-/

namespace Surmise

namespace Json

/-! ### Skipping a value -/

def skipChars : (fuel : Nat) → List Char → Read Unit
  | 0, cs => .error (.here .endInString cs)
  | _, [] => .error (.here .endInString [])
  | fuel + 1, c :: cs =>
    if c = '"' then .ok ((), cs)
    else if c = '\\' then
      match cs with
      | [] => .error (.here .endInString [])
      | e :: rest =>
        if (shortEscape? e).isSome then skipChars fuel rest
        else if e = 'u' then Read.andThen (readHex rest) fun _ rest => skipChars fuel rest
        else .error (.next .invalidEscape (e :: rest))
    else if c.toNat < 0x20 then .error (.here .controlCharacter (c :: cs))
    else skipChars fuel cs

def skipDigits (missing : List Char → Problem) : List Char → Read Unit
  | [] => .error (missing [])
  | c :: cs =>
    if Numeral.isDigit c then .ok ((), cs.dropWhile Numeral.isDigit) else .error (missing (c :: cs))

def skipExponent (cs : List Char) : Read Unit :=
  skipDigits (.next .invalidNumber) (Numeral.splitSign cs).2

def skipScale : List Char → Read Unit
  | [] => .ok ((), [])
  | c :: cs => if isExponentMark c then skipExponent cs else .ok ((), c :: cs)

def skipAfterInteger : List Char → Read Unit
  | [] => .ok ((), [])
  | c :: cs =>
    if c = '.' then Read.andThen (skipDigits (.next .invalidNumber) cs) fun _ rest => skipScale rest
    else skipScale (c :: cs)

def skipNumber : List Char → Read Unit
  | [] => .error (.here .invalidNumber [])
  | '0' :: cs =>
    match cs with
    | [] => .ok ((), [])
    | c :: rest =>
      if Numeral.isDigit c then .error (.next .invalidNumber (c :: rest))
      else skipAfterInteger (c :: rest)
  | c :: cs =>
    if Numeral.isDigit c then skipAfterInteger (cs.dropWhile Numeral.isDigit)
    else .error (.next .invalidNumber (c :: cs))

inductive Bracket where
  | list
  | object
deriving DecidableEq, Repr

namespace Bracket

def close : Bracket → Char
  | list => ']'
  | object => '\x7d'

def atEnd : Bracket → Cause
  | list => .endInList
  | object => .endInObject

def expectedEnd : Bracket → Cause
  | list => .expectedListEnd
  | object => .expectedObjectEnd

end Bracket

def skipKey (fuel : Nat) (bracket : Bracket) (cs : List Char) : Read Unit :=
  match bracket with
  | .list => .ok ((), cs)
  | .object =>
    match skipSpace cs with
    | [] => .error (.here .endInObject [])
    | c :: rest =>
      if c = '"' then Read.andThen (skipChars fuel rest) fun _ rest => readColon rest
      else .error (.next .keyNotString (c :: rest))

mutual

def skipValue : (fuel : Nat) → (brackets : List Bracket) → List Char → Read Unit
  | 0, _, cs => .error (.here .endInValue cs)
  | fuel + 1, brackets, cs =>
    match skipSpace cs with
    | [] => .error (.here .endInValue [])
    | c :: rest =>
      if c = 'n' then
        Read.andThen (readLetters "ull".toList rest) fun _ rest => skipOn fuel true brackets rest
      else if c = 't' then
        Read.andThen (readLetters "rue".toList rest) fun _ rest => skipOn fuel true brackets rest
      else if c = 'f' then
        Read.andThen (readLetters "alse".toList rest) fun _ rest => skipOn fuel true brackets rest
      else if c = '-' then Read.andThen (skipNumber rest) fun _ rest => skipOn fuel true brackets rest
      else if Numeral.isDigit c then
        Read.andThen (skipNumber (c :: rest)) fun _ rest => skipOn fuel true brackets rest
      else if c = '"' then
        Read.andThen (skipChars fuel rest) fun _ rest => skipOn fuel true brackets rest
      else if c = '[' then skipOn fuel false (.list :: brackets) rest
      else if c = '\x7b' then skipOn fuel false (.object :: brackets) rest
      else .error (.next .expectedValue (c :: rest))

def skipOn : (fuel : Nat) → (comma : Bool) → (brackets : List Bracket) → List Char → Read Unit
  | 0, _, _, cs => .error (.here .endInValue cs)
  | _, _, [], cs => .ok ((), cs)
  | fuel + 1, comma, bracket :: outer, cs =>
    match skipSpace cs with
    | [] => .error (.here bracket.atEnd [])
    | c :: rest =>
      if c = bracket.close then skipOn fuel true outer rest
      else if comma then
        if c = ',' then
          Read.andThen (skipKey fuel bracket rest) fun _ rest =>
            skipValue fuel (bracket :: outer) rest
        else .error (.next bracket.expectedEnd (c :: rest))
      else
        Read.andThen (skipKey fuel bracket (c :: rest)) fun _ rest =>
          skipValue fuel (bracket :: outer) rest

end

/-! ### Values of the wrong type -/

def realStyle : Decimal.Style := ⟨.even, 16, 5, true⟩

def realText (x : Float) : String :=
  match Parts.ofFloat? x with
  | none => "null"
  | some p => p.text realStyle

def Number.describe : Json.Number → String
  | natural n => s!"integer `{n}`"
  | negative n => s!"integer `-{n}`"
  | real x => "floating point `" ++ realText x ++ "`"

def invalidType (found expected : String) : Cause :=
  .unsuitable (s!"invalid type: {found}, expected {expected}")

def wrongType (fuel : Nat) (expected : String) (cs : List Char) : Problem :=
  let refuse (found : String) (rest : List Char) : Problem := .here (invalidType found expected) rest
  let number (r : Read Json.Number) : Problem :=
    match r with
    | .ok (n, rest) => refuse n.describe rest
    | .error p => p
  let letters (expected found : String) (rest : List Char) : Problem :=
    match readLetters expected.toList rest with
    | .ok (_, rest) => refuse found rest
    | .error p => p
  match cs with
  | [] => .here .endInValue []
  | c :: rest =>
    if c = 'n' then letters "ull" "null" rest
    else if c = 't' then letters "rue" "boolean `true`" rest
    else if c = 'f' then letters "alse" "boolean `false`" rest
    else if c = '-' then number (readNumber true rest)
    else if Numeral.isDigit c then number (readNumber false (c :: rest))
    else if c = '"' then
      match readChars fuel [] rest with
      | .ok (s, rest) => refuse ("string " ++ Text.quote s) rest
      | .error p => p
    else if c = '[' then refuse "sequence" (c :: rest)
    else if c = '\x7b' then refuse "map" (c :: rest)
    else .next .expectedValue (c :: rest)

def readBool (fuel : Nat) (cs : List Char) : Read Bool :=
  match skipSpace cs with
  | [] => .error (.here .endInValue [])
  | c :: rest =>
    if c = 't' then Read.map (fun _ => true) (readLetters "rue".toList rest)
    else if c = 'f' then Read.map (fun _ => false) (readLetters "alse".toList rest)
    else .error (wrongType fuel "a boolean" (c :: rest))

def readText (fuel : Nat) (cs : List Char) : Read String :=
  match skipSpace cs with
  | [] => .error (.here .endInValue [])
  | c :: rest =>
    if c = '"' then readChars fuel [] rest else .error (wrongType fuel "a string" (c :: rest))

def natOf (r : Read Json.Number) : Read Nat :=
  Read.andThen r fun n rest =>
    match n with
    | .natural n => .ok (n, rest)
    | .negative n =>
      .error (.here (.unsuitable (s!"invalid value: integer `-{n}`, expected usize")) rest)
    | .real x => .error (.here (invalidType (Json.Number.real x).describe "usize") rest)

def readNat (fuel : Nat) (cs : List Char) : Read Nat :=
  match skipSpace cs with
  | [] => .error (.here .endInValue [])
  | c :: rest =>
    if c = '-' then natOf (readNumber true rest)
    else if Numeral.isDigit c then natOf (readNumber false (c :: rest))
    else .error (wrongType fuel "usize" (c :: rest))

end Json

namespace Options

open Json

inductive Field where
  | exactMode
  | recovery
  | defaultFilename
  | maxCallDepth
deriving DecidableEq, Repr

namespace Field

def all : List Field := [exactMode, recovery, defaultFilename, maxCallDepth]

def name : Field → String
  | exactMode => "exactMode"
  | recovery => "nativeExceptionRecovery"
  | defaultFilename => "defaultFilename"
  | maxCallDepth => "maxCallDepth"

def ofName? (s : String) : Option Field := all.find? fun f => f.name == s

def read (fuel : Nat) (o : Options) (cs : List Char) : Field → Read Options
  | exactMode => Read.map (fun b => { o with exactMode := b }) (readBool fuel cs)
  | recovery => Read.map (fun b => { o with recovery := b }) (readBool fuel cs)
  | defaultFilename => Read.map (fun s => { o with defaultFilename := s }) (readText fuel cs)
  | maxCallDepth => Read.map (fun n => { o with maxCallDepth := n }) (readNat fuel cs)

end Field

def readList (fuel : Nat) (o : Options) (first : Bool) : List Field → List Char → Read Options
  | [], cs =>
    match skipSpace cs with
    | [] => .error (.here .endInList [])
    | c :: rest =>
      if c = ']' then .ok (o, rest)
      else if c = ',' then
        match skipSpace rest with
        | ']' :: _ => .error (.next .trailingComma (skipSpace rest))
        | rest => .error (.next .trailingCharacters rest)
      else .error (.next .trailingCharacters (c :: rest))
  | field :: fields, cs =>
    Read.andThen (readListMark first cs) fun more rest =>
      if more then
        Read.andThen (field.read fuel o rest) fun o rest => readList fuel o false fields rest
      else .ok (o, rest.drop 1)

/-- A repeated field is noticed after its key; space and a closing brace there still count. -/
def duplicate (field : Field) (cs : List Char) : Problem :=
  let cause := Cause.unsuitable ("duplicate field `" ++ field.name ++ "`")
  match skipSpace cs with
  | '\x7d' :: rest => .here cause rest
  | rest => .here cause rest

def readMembers : (fuel : Nat) → (o : Options) → (seen : List Field) → (first : Bool) → List Char →
    Read Options
  | 0, _, _, _, cs => .error (.here .endInObject cs)
  | fuel + 1, o, seen, first, cs =>
    Read.andThen (readObjectMark first cs) fun more rest =>
      if more then
        Read.andThen (readChars fuel [] rest) fun key rest =>
          match Field.ofName? key with
          | none =>
            Read.andThen (readColon rest) fun _ rest =>
              Read.andThen (skipValue fuel [] rest) fun _ rest =>
                readMembers fuel o seen false rest
          | some field =>
            if seen.contains field then .error (duplicate field rest)
            else
              Read.andThen (readColon rest) fun _ rest =>
                Read.andThen (field.read fuel o rest) fun o rest =>
                  readMembers fuel o (field :: seen) false rest
      else .ok (o, rest.drop 1)

def readDocument (cs : List Char) : Except Problem Options :=
  let fuel := 2 * cs.length + 2
  let result : Read Options :=
    match skipSpace cs with
    | [] => .error (.here .endInValue [])
    | c :: rest =>
      if c = '[' then readList fuel {} true Field.all rest
      else if c = '\x7b' then readMembers fuel {} [] true rest
      else .error (wrongType fuel "struct AnalysisOptions" (c :: rest))
  match result with
  | .error p => .error p
  | .ok (o, rest) =>
    match readEnd rest with
    | .error p => .error p
    | .ok _ => .ok o

def load (text : String) : Except HostError Options :=
  match readDocument text.toList with
  | .ok o => .ok o
  | .error p => .error (.config ("Failed to parse analysis options: " ++ p.message text.toList))

end Options
end Surmise
