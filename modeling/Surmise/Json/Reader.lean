import Surmise.Dict
import Surmise.Json.Problem
import Surmise.Json.Tree
import Surmise.Decimal.Numeral

/-!
Reading JSON text. Each reader takes what lies ahead in the text and gives a result with the rest, or
the first problem. The argument `fuel` bounds the number of steps by the length of the text.
-/

namespace Surmise.Json

abbrev Read (α : Type) := Except Problem (α × List Char)

def Read.andThen {α β : Type} (r : Read α) (f : α → List Char → Read β) : Read β :=
  match r with
  | .ok (a, rest) => f a rest
  | .error p => .error p

def Read.map {α β : Type} (f : α → β) (r : Read α) : Read β :=
  r.andThen fun a rest => .ok (f a, rest)

def isSpace (c : Char) : Bool := c == ' ' || c == '\t' || c == '\n' || c == '\r'

def skipSpace (cs : List Char) : List Char := cs.dropWhile isSpace

def readLetters : (expected : List Char) → List Char → Read Unit
  | [], cs => .ok ((), cs)
  | _ :: _, [] => .error (.here .endInValue [])
  | e :: es, c :: cs => if c = e then readLetters es cs else .error (.next .expectedIdent (c :: cs))

/-! ### Strings -/

/-- Four hexadecimal digits. They are counted in bytes, so that a text that is too short is used up. -/
def readHex (cs : List Char) : Read Nat :=
  if Text.byteSize cs < 4 then .error (.here .endInString [])
  else
    let digits := cs.take 4
    if digits.all (Radix.isDigit 16) then .ok (Radix.value 16 digits, cs.drop 4)
    else .error (.after 4 .invalidEscape cs)

def readPairMark (expected : Char) : List Char → Read Unit
  | [] => .error (.here .endInString [])
  | c :: cs => if c = expected then .ok ((), cs) else .error (.next .endInHexEscape (c :: cs))

def isHighSurrogate (n : Nat) : Bool := 0xD800 ≤ n && n ≤ 0xDBFF

def isLowSurrogate (n : Nat) : Bool := 0xDC00 ≤ n && n ≤ 0xDFFF

def joinSurrogates (high low : Nat) : Char :=
  Char.ofNat (0x10000 + (high - 0xD800) * 0x400 + (low - 0xDC00))

def readUnicode (cs : List Char) : Read Char :=
  Read.andThen (readHex cs) fun n rest =>
    if isLowSurrogate n then .error (.here .loneSurrogate rest)
    else if isHighSurrogate n then
      Read.andThen (readPairMark '\\' rest) fun _ rest =>
        Read.andThen (readPairMark 'u' rest) fun _ rest =>
          Read.andThen (readHex rest) fun low rest =>
            if isLowSurrogate low then .ok (joinSurrogates n low, rest)
            else .error (.here .loneSurrogate rest)
    else .ok (Char.ofNat n, rest)

def shortEscape? : Char → Option Char
  | '"' => some '"'
  | '\\' => some '\\'
  | '/' => some '/'
  | 'b' => some '\x08'
  | 'f' => some '\x0c'
  | 'n' => some '\n'
  | 'r' => some '\r'
  | 't' => some '\t'
  | _ => none

def readEscape : List Char → Read Char
  | [] => .error (.here .endInString [])
  | c :: cs =>
    match shortEscape? c with
    | some e => .ok (e, cs)
    | none => if c = 'u' then readUnicode cs else .error (.next .invalidEscape (c :: cs))

def readChars : (fuel : Nat) → (acc : List Char) → List Char → Read String
  | 0, _, cs => .error (.here .endInString cs)
  | _, _, [] => .error (.here .endInString [])
  | fuel + 1, acc, c :: cs =>
    if c = '"' then .ok (String.ofList acc.reverse, cs)
    else if c = '\\' then
      Read.andThen (readEscape cs) fun e rest => readChars fuel (e :: acc) rest
    else if c.toNat < 0x20 then .error (.next .controlCharacter (c :: cs))
    else readChars fuel (c :: acc) cs

/-! ### Numbers -/

def pushDigit? (significand : Nat) (c : Char) : Option Nat :=
  let n := 10 * significand + (c.toNat - '0'.toNat)
  if n < 18446744073709551616 then some n else none

/-- Multiplies by a power of ten as doubles do, in steps of `10 ^ 308` when the power is lower than
that; `none` when the result is not finite. -/
def scaleTen (fuel : Nat) (x : Float) (exponent : Int) : Option Float :=
  match fuel with
  | 0 => some 0
  | fuel + 1 =>
    if exponent.natAbs ≤ 308 then
      let power := Numeral.magnitude 1 exponent.natAbs
      if 0 ≤ exponent then
        let y := x * power
        if y.isInf then none else some y
      else some (x / power)
    else if x == 0 then some x
    else if 0 ≤ exponent then none
    else scaleTen fuel (x / Numeral.magnitude 1 308) (exponent + 308)

/-- The double `± significand · 10 ^ exponent`. Three divisions by `10 ^ 308` leave nothing. -/
def realOf (negative : Bool) (significand : Nat) (exponent : Int) (rest : List Char) :
    Read Json.Number :=
  match scaleTen 4 (Number.ofWord significand) exponent with
  | some x => .ok (.real (Number.signed negative x), rest)
  | none => .error (.here .numberOutOfRange rest)

def saturate (n : Int) : Int := max (-2147483648) (min 2147483647 n)

def readExponentDigits (negative : Bool) (significand : Nat) (start : Int) (minus : Bool) :
    (exponent : Nat) → List Char → Read Json.Number
  | exponent, [] =>
    realOf negative significand (saturate (if minus then start - exponent else start + exponent)) []
  | exponent, c :: cs =>
    if Numeral.isDigit c then
      let n := 10 * exponent + (c.toNat - '0'.toNat)
      if n < 2147483648 then readExponentDigits negative significand start minus n cs
      else if significand ≠ 0 ∧ minus = false then .error (.here .numberOutOfRange cs)
      else .ok (.real (Number.signed negative 0), cs.dropWhile Numeral.isDigit)
    else
      realOf negative significand (saturate (if minus then start - exponent else start + exponent))
        (c :: cs)

def readExponent (negative : Bool) (significand : Nat) (start : Int) (cs : List Char) :
    Read Json.Number :=
  match Numeral.splitSign cs with
  | (_, []) => .error (.here .endInValue [])
  | (minus, c :: rest) =>
    if Numeral.isDigit c then
      readExponentDigits negative significand start minus (c.toNat - '0'.toNat) rest
    else .error (.next .invalidNumber (c :: rest))

def isExponentMark (c : Char) : Bool := c == 'e' || c == 'E'

def readScale (negative : Bool) (significand : Nat) (exponent : Int) : List Char → Read Json.Number
  | [] => realOf negative significand exponent []
  | c :: cs =>
    if isExponentMark c then readExponent negative significand exponent cs
    else realOf negative significand exponent (c :: cs)

def readFraction (negative : Bool) : (significand : Nat) → (exponent : Int) → (some : Bool) →
    List Char → Read Json.Number
  | significand, exponent, true, [] => readScale negative significand exponent []
  | _, _, false, [] => .error (.here .endInValue [])
  | significand, exponent, any, c :: cs =>
    if Numeral.isDigit c then
      match pushDigit? significand c with
      | some n => readFraction negative n (exponent - 1) true cs
      | none => readScale negative significand exponent (cs.dropWhile Numeral.isDigit)
    else if any then readScale negative significand exponent (c :: cs)
    else .error (.next .invalidNumber (c :: cs))

def integerOf (negative : Bool) (significand : Nat) : Json.Number :=
  if negative then
    if significand = 0 ∨ 9223372036854775808 < significand then .real (-Number.ofWord significand)
    else .negative significand
  else .natural significand

def readAfterInteger (negative : Bool) (significand : Nat) : List Char → Read Json.Number
  | [] => .ok (integerOf negative significand, [])
  | c :: cs =>
    if c = '.' then readFraction negative significand 0 false cs
    else if isExponentMark c then readExponent negative significand 0 cs
    else .ok (integerOf negative significand, c :: cs)

def readDropped (negative : Bool) (significand : Nat) : (dropped : Nat) → List Char →
    Read Json.Number
  | dropped, [] => realOf negative significand dropped []
  | dropped, c :: cs =>
    if Numeral.isDigit c then readDropped negative significand (dropped + 1) cs
    else if c = '.' then readFraction negative significand dropped false cs
    else readScale negative significand dropped (c :: cs)

def readInteger (negative : Bool) : (significand : Nat) → List Char → Read Json.Number
  | significand, [] => readAfterInteger negative significand []
  | significand, c :: cs =>
    if Numeral.isDigit c then
      match pushDigit? significand c with
      | some n => readInteger negative n cs
      | none => readDropped negative significand 1 cs
    else readAfterInteger negative significand (c :: cs)

def readNumber (negative : Bool) : List Char → Read Json.Number
  | [] => .error (.here .endInValue [])
  | '0' :: cs =>
    match cs with
    | [] => readAfterInteger negative 0 []
    | c :: rest =>
      if Numeral.isDigit c then .error (.next .invalidNumber (c :: rest))
      else readAfterInteger negative 0 (c :: rest)
  | c :: cs =>
    if Numeral.isDigit c then readInteger negative (c.toNat - '0'.toNat) cs
    else .error (.next .invalidNumber (c :: cs))

/-! ### Values -/

/-- How deep brackets may nest, plus one. -/
def nestingLimit : Nat := 128

def readListMark (first : Bool) (cs : List Char) : Read Bool :=
  match skipSpace cs with
  | [] => .error (.here .endInList [])
  | c :: rest =>
    if c = ']' then .ok (false, c :: rest)
    else if first then .ok (true, c :: rest)
    else if c = ',' then
      match skipSpace rest with
      | [] => .error (.here .endInValue [])
      | d :: rest =>
        if d = ']' then .error (.next .trailingComma (d :: rest)) else .ok (true, d :: rest)
    else .error (.next .expectedListEnd (c :: rest))

def readObjectMark (first : Bool) (cs : List Char) : Read Bool :=
  match skipSpace cs with
  | [] => .error (.here .endInObject [])
  | c :: rest =>
    if c = '\x7d' then .ok (false, c :: rest)
    else if first then
      if c = '"' then .ok (true, rest) else .error (.next .keyNotString (c :: rest))
    else if c = ',' then
      match skipSpace rest with
      | [] => .error (.here .endInValue [])
      | d :: rest =>
        if d = '"' then .ok (true, rest)
        else if d = '\x7d' then .error (.next .trailingComma (d :: rest))
        else .error (.next .keyNotString (d :: rest))
    else .error (.next .expectedObjectEnd (c :: rest))

def readColon (cs : List Char) : Read Unit :=
  match skipSpace cs with
  | [] => .error (.here .endInObject [])
  | c :: rest => if c = ':' then .ok ((), rest) else .error (.next .expectedColon (c :: rest))

def readLiteral (letters : String) (value : Json) (cs : List Char) : Read Json :=
  Read.map (fun _ => value) (readLetters letters.toList cs)

mutual

def readValue : (fuel depth : Nat) → List Char → Read Json
  | 0, _, cs => .error (.here .endInValue cs)
  | fuel + 1, depth, cs =>
    match skipSpace cs with
    | [] => .error (.here .endInValue [])
    | c :: rest =>
      if c = 'n' then readLiteral "ull" .null rest
      else if c = 't' then readLiteral "rue" (.bool true) rest
      else if c = 'f' then readLiteral "alse" (.bool false) rest
      else if c = '"' then Read.map .string (readChars fuel [] rest)
      else if c = '-' then Read.map .number (readNumber true rest)
      else if Numeral.isDigit c then Read.map .number (readNumber false (c :: rest))
      else if c = '[' then
        if depth ≤ 1 then .error (.next .nestingTooDeep (c :: rest))
        else Read.map .array (readItems fuel (depth - 1) [] rest)
      else if c = '\x7b' then
        if depth ≤ 1 then .error (.next .nestingTooDeep (c :: rest))
        else
          Read.map (fun members => .object members.entries)
            (readMembers fuel (depth - 1) .empty true rest)
      else .error (.next .expectedValue (c :: rest))

def readItems : (fuel depth : Nat) → (acc : List Json) → List Char → Read (List Json)
  | 0, _, _, cs => .error (.here .endInList cs)
  | fuel + 1, depth, acc, cs =>
    Read.andThen (readListMark acc.isEmpty cs) fun more rest =>
      if more then
        Read.andThen (readValue fuel depth rest) fun item rest =>
          readItems fuel depth (item :: acc) rest
      else .ok (acc.reverse, rest.drop 1)

/-- The members of an object and its closing brace. A repeated key keeps its first place and takes the
last value. -/
def readMembers : (fuel depth : Nat) → (acc : Dict Json) → (first : Bool) → List Char →
    Read (Dict Json)
  | 0, _, _, _, cs => .error (.here .endInObject cs)
  | fuel + 1, depth, acc, first, cs =>
    Read.andThen (readObjectMark first cs) fun more rest =>
      if more then
        Read.andThen (readChars fuel [] rest) fun key rest =>
          Read.andThen (readColon rest) fun _ rest =>
            Read.andThen (readValue fuel depth rest) fun value rest =>
              readMembers fuel depth (acc.insert key value) false rest
      else .ok (acc, rest.drop 1)

end

def readEnd (cs : List Char) : Except Problem Unit :=
  match skipSpace cs with
  | [] => .ok ()
  | c :: rest => .error (.next .trailingCharacters (c :: rest))

def parse (cs : List Char) : Except Problem Json :=
  match readValue (2 * cs.length + 2) nestingLimit cs with
  | .error p => .error p
  | .ok (value, rest) =>
    match readEnd rest with
    | .error p => .error p
    | .ok _ => .ok value

end Surmise.Json
