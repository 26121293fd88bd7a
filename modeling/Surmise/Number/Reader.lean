import Surmise.Decimal.Numeral
import Surmise.Text.Blank

/-!
Numbers read from text: as a whole (`ofText`), from the start of a text (`leadingDecimal`,
`leadingInteger`), and digit by digit in a radix.
-/

namespace Surmise.Number

/-- Digits of a radix folded in doubles, so that a long run rounds at every step; `none` for an empty
run or a character that is no digit. -/
def ofDigits? (radix : Nat) (digits : List Char) : Option Float :=
  if digits = [] then none
  else digits.foldlM (fun acc c => (Radix.digit? radix c).map fun d => acc * ofNat radix + ofNat d) 0.0

def radixOf? (c : Char) : Option Nat :=
  if c = 'x' ∨ c = 'X' then some 16
  else if c = 'o' ∨ c = 'O' then some 8
  else if c = 'b' ∨ c = 'B' then some 2
  else none

/-- A radix mark counts only when something follows it. -/
def radixLiteral? : List Char → Option (Nat × List Char)
  | '0' :: mark :: d :: ds => (radixOf? mark).map fun radix => (radix, d :: ds)
  | _ => none

def ofDecimalText (cs : List Char) : Float :=
  match Numeral.scan cs with
  | some (n, []) => n.toFloat
  | _ => nan

/-- The number that a text stands for: blanks around it are ignored, the empty text is 0, and a text
that is not a number as a whole is a NaN. -/
def ofText (cs : List Char) : Float :=
  let cs := Text.trim cs
  if cs = [] then 0
  else if cs = "Infinity".toList ∨ cs = "+Infinity".toList then infinity
  else if cs = "-Infinity".toList then -infinity
  else
    match radixLiteral? cs with
    | some (radix, digits) => (ofDigits? radix digits).getD nan
    | none => ofDecimalText cs

def leadingDecimal (cs : List Char) : Float :=
  let cs := Text.trimStart cs
  if "Infinity".toList.isPrefixOf cs ∨ "+Infinity".toList.isPrefixOf cs then infinity
  else if "-Infinity".toList.isPrefixOf cs then -infinity
  else
    match Numeral.scan cs with
    | some (n, _) => n.toFloat
    | none => nan

def dropHexMark : List Char → Option (List Char)
  | '0' :: 'x' :: cs => some cs
  | '0' :: 'X' :: cs => some cs
  | _ => none

/-- The value of a run of digits. In radix ten the run is rounded once, in any other radix at every
digit. -/
def digitsValue (radix : Nat) (digits : List Char) : Float :=
  if radix = 10 then Numeral.magnitude (Radix.value 10 digits) 0
  else digits.foldl (fun acc c => acc * ofNat radix + ofNat ((Radix.digit? radix c).getD 0)) 0.0

def leadingDigits (negative : Bool) (radix : Nat) (cs : List Char) : Float :=
  match cs.takeWhile (Radix.isDigit radix) with
  | [] => nan
  | digits => signed negative (digitsValue radix digits)

/-- The longest integer literal after leading blanks. Radix 0 stands for ten, and a hexadecimal mark
is understood for radix 0 and 16. -/
def leadingInteger (cs : List Char) (radix : Int) : Float :=
  match Numeral.splitSign (Text.trimStart cs) with
  | (negative, cs) =>
    if radix ≠ 0 ∧ (radix < 2 ∨ 36 < radix) then nan
    else if radix ≠ 0 ∧ radix ≠ 16 then leadingDigits negative radix.toNat cs
    else
      match dropHexMark cs with
      | some digits => leadingDigits negative 16 digits
      | none => leadingDigits negative (if radix = 0 then 10 else 16) cs

end Surmise.Number
