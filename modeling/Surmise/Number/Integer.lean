import Surmise.Number.Parts

/-!
Integer views of a double: its integer part, its residue modulo `2 ^ 32`, the remainder of a
division, and the natural number it stands for when there is one.
-/

namespace Surmise.Number

def nan : Float := 0.0 / 0.0

def infinity : Float := 1.0 / 0.0

/-- A natural number as a double: exactly below `2 ^ 53`, and from there on the nearest. -/
def ofNat (n : Nat) : Float :=
  if n < 9007199254740992 then Parts.toFloat ⟨false, n, 0⟩ else Float.ofScientific n false 0

def ofWord (n : Nat) : Float := n.toUInt64.toFloat

def signed (negative : Bool) (magnitude : Float) : Float :=
  if negative then -magnitude else magnitude

def isNegative (x : Float) : Bool := decide (9223372036854775808 ≤ x.toBits.toNat)

def integerPart (x : Float) : Float :=
  match Parts.ofFloat? x with
  | none => if x.isNaN then 0 else x
  | some p => if 0 ≤ p.exponent then x else signed p.negative (ofNat p.whole)

def toUInt32 (x : Float) : Nat :=
  match Parts.ofFloat? x with
  | none => 0
  | some p =>
    let whole : Int := if p.negative then -(p.whole : Int) else p.whole
    (whole % 4294967296).toNat

def toInt32 (x : Float) : Int :=
  let n := toUInt32 x
  if n < 2147483648 then n else (n : Int) - 4294967296

def remainder (x y : Float) : Float :=
  match Parts.ofFloat? x, Parts.ofFloat? y with
  | none, _ => nan
  | some _, none => if y.isNaN then nan else x
  | some p, some q =>
    if q.significand = 0 then nan
    else
      let low := min p.exponent q.exponent
      let a := p.significand * Nat.pow 2 (p.exponent - low).toNat
      let b := q.significand * Nat.pow 2 (q.exponent - low).toNat
      Parts.toFloat ⟨p.negative, a % b, low⟩

def toNat? (x : Float) : Option Nat :=
  match Parts.ofFloat? x with
  | none => none
  | some p =>
    if p.IsInteger ∧ (p.negative = false ∨ p.significand = 0) then some p.whole else none

def leNat (x : Float) (n : Nat) : Bool :=
  match Parts.ofFloat? x with
  | none => !x.isNaN && isNegative x
  | some p =>
    p.negative ||
      (if 0 ≤ p.exponent then decide (p.whole ≤ n)
       else decide (p.significand ≤ n * Nat.pow 2 (-p.exponent).toNat))

end Surmise.Number
