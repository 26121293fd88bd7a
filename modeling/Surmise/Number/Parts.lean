/-!
The parts of a double. A finite double is `± significand · 2 ^ exponent`; every exact rule about
numbers in this library (integer part, remainder, shortest digits) is a rule about these integers.
-/

namespace Surmise

structure Parts where
  negative : Bool
  significand : Nat
  exponent : Int
deriving DecidableEq, Repr

namespace Parts

def ofFloat? (x : Float) : Option Parts :=
  let bits := x.toBits.toNat
  let negative := decide (9223372036854775808 ≤ bits)
  let biased : Nat := bits / 4503599627370496 % 2048
  let fraction : Nat := bits % 4503599627370496
  if biased = 2047 then none
  else if biased = 0 then some ⟨negative, fraction, -1074⟩
  else some ⟨negative, fraction + 4503599627370496, (biased : Int) - 1075⟩

def signBit (negative : Bool) : Nat :=
  if negative then 9223372036854775808 else 0

/-- The double with these parts. Exact when the significand has at most 53 bits and the exponent is
not below -1074; a value beyond the largest double becomes an infinity. -/
def toFloat (p : Parts) : Float :=
  if p.significand = 0 then Float.ofBits (signBit p.negative).toUInt64
  else
    let room := 52 - p.significand.log2
    let shift := min room (p.exponent + 1074).toNat
    let significand := p.significand * Nat.pow 2 shift
    let exponent := p.exponent - shift
    let magnitude :=
      if significand < 4503599627370496 then significand
      else if exponent + 1075 < 2047 then
        (exponent + 1075).toNat * 4503599627370496 + (significand - 4503599627370496)
      else 2047 * 4503599627370496
    Float.ofBits (signBit p.negative + magnitude).toUInt64

def whole (p : Parts) : Nat :=
  if 0 ≤ p.exponent then p.significand * Nat.pow 2 p.exponent.toNat
  else p.significand / Nat.pow 2 (-p.exponent).toNat

def IsInteger (p : Parts) : Prop :=
  0 ≤ p.exponent ∨ p.significand % Nat.pow 2 (-p.exponent).toNat = 0

instance (p : Parts) : Decidable p.IsInteger :=
  inferInstanceAs (Decidable (_ ∨ _))

end Parts
end Surmise
