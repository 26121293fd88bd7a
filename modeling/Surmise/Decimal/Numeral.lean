import Surmise.Number.Integer
import Surmise.Text.Radix

/-!
Decimal literals. The scanner takes the longest start of a text of the form
`[+-]? (D+ (. D*)? | . D+) ([eE] [+-]? D+)?`; the value is the exact decimal, rounded once.
-/

namespace Surmise

structure Numeral where
  negative : Bool
  coefficient : Nat
  exponent : Int
deriving DecidableEq, Repr

namespace Numeral

/-- More bits of a coefficient than a double and the middle between two doubles can have. What lies
below them only matters by being zero or not. -/
def decidingBits : Nat := 4096

/-- A shorter decimal that is rounded like `coefficient · 10 ^ exponent`: the digits below the
deciding bits are replaced by one that is zero exactly if all of them are. -/
def cut (coefficient : Nat) (exponent : Int) : Nat × Int :=
  let places := (coefficient.log2 - decidingBits) * 3 / 10
  if places = 0 then (coefficient, exponent)
  else
    let unit := Nat.pow 10 places
    let last := if coefficient % unit = 0 then 0 else 1
    (10 * (coefficient / unit) + last, exponent + places - 1)

/-- `coefficient · 10 ^ exponent`, rounded once to the nearest double. -/
def magnitude (coefficient : Nat) (exponent : Int) : Float :=
  let (coefficient, exponent) := cut coefficient exponent
  Float.ofScientific coefficient (decide (exponent < 0)) exponent.natAbs

def toFloat (n : Numeral) : Float :=
  Number.signed n.negative (magnitude n.coefficient n.exponent)

def isDigit (c : Char) : Bool := '0' ≤ c && c ≤ '9'

def splitDigits (cs : List Char) : List Char × List Char := cs.span isDigit

def splitSign : List Char → Bool × List Char
  | '-' :: cs => (true, cs)
  | '+' :: cs => (false, cs)
  | cs => (false, cs)

def splitFraction : List Char → List Char × List Char
  | '.' :: cs => splitDigits cs
  | cs => ([], cs)

/-- The exponent and what follows it. Without a digit there is no exponent and nothing is taken. -/
def splitExponent : List Char → Int × List Char
  | [] => (0, [])
  | c :: cs =>
    if c = 'e' ∨ c = 'E' then
      match splitSign cs with
      | (negative, tail) =>
        match splitDigits tail with
        | ([], _) => (0, c :: cs)
        | (ds, rest) => (if negative then -(Radix.value 10 ds : Int) else Radix.value 10 ds, rest)
    else (0, c :: cs)

def scan (cs : List Char) : Option (Numeral × List Char) :=
  match splitSign cs with
  | (negative, unsigned) =>
    match splitDigits unsigned with
    | (whole, afterWhole) =>
      match splitFraction afterWhole with
      | (fraction, afterFraction) =>
        if whole = [] ∧ fraction = [] then none
        else
          match splitExponent afterFraction with
          | (exponent, rest) =>
            some (⟨negative, Radix.value 10 (whole ++ fraction), exponent - fraction.length⟩, rest)

end Numeral
end Surmise
