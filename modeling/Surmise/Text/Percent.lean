import Surmise.Text.Radix

/-!
Percent coding of text. Each byte of a character's UTF-8 form is written as `%` and two hexadecimal
digits. Decoding takes either case of digits and refuses whatever is no complete, shortest form of a
character.
-/

namespace Surmise.Text

def utf8Bytes (c : Char) : List Nat :=
  let n := c.toNat
  if n < 0x80 then [n]
  else if n < 0x800 then [0xC0 + n / 0x40, 0x80 + n % 0x40]
  else if n < 0x10000 then [0xE0 + n / 0x1000, 0x80 + n / 0x40 % 0x40, 0x80 + n % 0x40]
  else
    [0xF0 + n / 0x40000, 0x80 + n / 0x1000 % 0x40, 0x80 + n / 0x40 % 0x40, 0x80 + n % 0x40]

namespace Percent

def escapeByte (b : Nat) : List Char :=
  ['%', Radix.hexDigitUpper (b / 16), Radix.hexDigitUpper (b % 16)]

def encode (keep : Char → Bool) (cs : List Char) : List Char :=
  cs.flatMap fun c =>
    if c.toNat < 0x80 && keep c then [c] else (utf8Bytes c).flatMap escapeByte

structure Pending where
  left : Nat
  code : Nat
  /-- The least code point that needs this many bytes. -/
  least : Nat
deriving DecidableEq, Repr

def Pending.ofLead? (b : Nat) : Option Pending :=
  if 0xC0 ≤ b ∧ b < 0xE0 then some ⟨1, b - 0xC0, 0x80⟩
  else if 0xE0 ≤ b ∧ b < 0xF0 then some ⟨2, b - 0xE0, 0x800⟩
  else if 0xF0 ≤ b ∧ b < 0xF8 then some ⟨3, b - 0xF0, 0x10000⟩
  else none

def hexByte? (a b : Char) : Option Nat :=
  match Radix.digit? 16 a, Radix.digit? 16 b with
  | some x, some y => some (16 * x + y)
  | _, _ => none

/-- The character of a complete form, unless a shorter form would do or the code point is none. -/
def Pending.finish? (p : Pending) (code : Nat) : Option Char :=
  if p.least ≤ code ∧ code.isValidChar then some (Char.ofNat code) else none

def decodeFrom (preserve : Char → Bool) : Option Pending → List Char → Option (List Char)
  | none, [] => some []
  | some _, [] => none
  | pending, '%' :: a :: b :: cs =>
    match hexByte? a b, pending with
    | none, _ => none
    | some byte, none =>
      if byte < 0x80 then
        let c := Char.ofNat byte
        (decodeFrom preserve none cs).map fun out =>
          if preserve c then '%' :: a :: b :: out else c :: out
      else
        match Pending.ofLead? byte with
        | none => none
        | some p => decodeFrom preserve (some p) cs
    | some byte, some p =>
      if 0x80 ≤ byte ∧ byte < 0xC0 then
        let code := 0x40 * p.code + (byte - 0x80)
        if p.left = 1 then
          match p.finish? code with
          | none => none
          | some c => (decodeFrom preserve none cs).map (c :: ·)
        else decodeFrom preserve (some { p with left := p.left - 1, code := code }) cs
      else none
  | none, c :: cs => if c = '%' then none else (decodeFrom preserve none cs).map (c :: ·)
  | some _, _ :: _ => none

def decode? (preserve : Char → Bool) (cs : List Char) : Option (List Char) :=
  decodeFrom preserve none cs

def isReserved (c : Char) : Bool := ";/?:@&=+$,".toList.contains c

def isUnreserved (c : Char) : Bool := c.isAlphanum || "-_.!~*'()".toList.contains c

def isReservedOrHash (c : Char) : Bool := isReserved c || c == '#'

end Percent
end Surmise.Text
