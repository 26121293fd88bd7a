import Surmise.Decimal.Shortest
import Surmise.Number.Integer

/-!
The text of a number. A style says how many digits before the point and how many zeros after it are
written out; beyond that a power of ten follows the digits, with its sign.
-/

namespace Surmise

namespace Decimal

structure Style where
  tie : Tie
  width : Nat
  /-- The least number of zeros after the point that is too many. -/
  zeros : Nat
  pointed : Bool
deriving DecidableEq, Repr

namespace Style

def fraction (style : Style) : List Char := if style.pointed then ['.', '0'] else []

end Style

def layout (style : Style) (digits : List Char) (point : Int) : List Char :=
  if digits.length ≤ point ∧ point ≤ style.width then
    digits ++ List.replicate (point - digits.length).toNat '0' ++ style.fraction
  else if 0 < point ∧ point ≤ style.width then
    digits.take point.toNat ++ '.' :: digits.drop point.toNat
  else if -style.zeros < point ∧ point ≤ 0 then
    '0' :: '.' :: List.replicate (-point).toNat '0' ++ digits
  else
    let e := point - 1
    let tail := 'e' :: (if 0 ≤ e then '+' else '-') :: Nat.toDigits 10 e.natAbs
    match digits with
    | [] => tail
    | [d] => d :: tail
    | d :: ds => d :: '.' :: ds ++ tail

def text (style : Style) (d : Decimal) : List Char :=
  let digits := Nat.toDigits 10 d.coefficient
  layout style digits (d.exponent + digits.length)

end Decimal

def Parts.text (style : Decimal.Style) (p : Parts) : String :=
  let digits := (Decimal.shortest style.tie p).text style
  String.ofList (if p.negative then '-' :: digits else digits)

namespace Number

def style : Decimal.Style := ⟨.up, 21, 6, false⟩

def text (x : Float) : String :=
  match Parts.ofFloat? x with
  | none => if x.isNaN then "NaN" else if isNegative x then "-Infinity" else "Infinity"
  | some p => if p.significand = 0 then "0" else p.text style

end Number
end Surmise
