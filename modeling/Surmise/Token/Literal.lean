import Surmise.Number.Reader

/-!
The values that number and string tokens stand for.
-/

namespace Surmise.Token

def numberValue (text : String) : Float := Number.ofText text.toList

/-! ### Escapes in strings -/

def takeHex? (count : Nat) (cs : List Char) : Option (Nat × List Char) :=
  let digits := cs.take count
  if digits.length = count ∧ digits.all (Radix.isDigit 16) then
    some (Radix.value 16 digits, cs.drop count)
  else none

def takeBraced? (cs : List Char) : Option (Nat × List Char) :=
  match cs.span (Radix.isDigit 16) with
  | (d :: ds, '\x7d' :: rest) =>
    let n := Radix.value 16 (d :: ds)
    if n ≤ 0x10FFFF then some (n, rest) else none
  | _ => none

def takeUnicode? : List Char → Option (Nat × List Char)
  | '\x7b' :: cs => takeBraced? cs
  | cs => takeHex? 4 cs

def replacementChar : Char := Char.ofNat 0xFFFD

def takeLowSurrogate? : List Char → Option (Nat × List Char)
  | '\\' :: 'u' :: cs =>
    (takeUnicode? cs).filter fun r => decide (0xDC00 ≤ r.1) && decide (r.1 < 0xE000)
  | _ => none

def decodeUnicode? (cs : List Char) : Option (Char × List Char) :=
  match takeUnicode? cs with
  | none => none
  | some (unit, rest) =>
    if 0xD800 ≤ unit ∧ unit < 0xDC00 then
      match takeLowSurrogate? rest with
      | some (low, rest) =>
        some (Char.ofNat (0x10000 + (unit - 0xD800) * 0x400 + (low - 0xDC00)), rest)
      | none => some (replacementChar, rest)
    else if unit.isValidChar then some (Char.ofNat unit, rest)
    else some (replacementChar, rest)

def decodeHex? (cs : List Char) : Option (Char × List Char) :=
  (takeHex? 2 cs).map fun r => (Char.ofNat r.1, r.2)

def namedEscape? : Char → Option Char
  | 'n' => some '\n'
  | 't' => some '\t'
  | 'r' => some '\r'
  | 'b' => some '\x08'
  | 'f' => some '\x0c'
  | 'v' => some '\x0b'
  | _ => none

def startsWithDigit : List Char → Bool
  | c :: _ => Numeral.isDigit c
  | [] => false

/-- What an escape stands for, after its backslash: a character, or nothing for a line end. -/
def decodeEscape? : List Char → Option (List Char × List Char)
  | [] => none
  | 'x' :: cs => (decodeHex? cs).map fun r => ([r.1], r.2)
  | 'u' :: cs => (decodeUnicode? cs).map fun r => ([r.1], r.2)
  | '\r' :: '\n' :: cs => some ([], cs)
  | c :: cs =>
    match namedEscape? c with
    | some e => some ([e], cs)
    | none =>
      if c = '0' ∧ startsWithDigit cs = false then some (['\x00'], cs)
      else if Text.isLineEnd c then some ([], cs)
      else if Numeral.isDigit c then none
      else some ([c], cs)

def decodeString? : (fuel : Nat) → List Char → Option (List Char)
  | _, [] => some []
  | 0, _ :: _ => none
  | fuel + 1, '\\' :: cs =>
    match decodeEscape? cs with
    | none => none
    | some (out, rest) => (decodeString? fuel rest).map (out ++ ·)
  | fuel + 1, c :: cs => (decodeString? fuel cs).map (c :: ·)

def stringValue? (text : String) : Option String :=
  let inner := text.toList.tail.dropLast
  (decodeString? inner.length inner).map String.ofList

end Surmise.Token
