import Surmise.Number.Parts

/-!
The fewest decimal digits that read back as a given double. A decimal reads back exactly when it lies
in the interval of reals that round to the double; the ends belong to it when the significand is
even. The digits are those of the first decimal grid, from coarse to fine, that meets the interval
next to the value.
-/

namespace Surmise

structure Decimal where
  coefficient : Nat
  exponent : Int
deriving DecidableEq, Repr

inductive Tie where
  | up
  | even
deriving DecidableEq, Repr

def Tie.takesUpper : Tie → Nat → Bool
  | up, _ => true
  | even, n => n % 2 == 1

/-- A positive rational `value / unit` inside an interval from `low / unit` to `high / unit`. -/
structure Bracket where
  low : Nat
  value : Nat
  high : Nat
  unit : Nat
  closed : Bool
deriving DecidableEq, Repr

namespace Bracket

/-- The reals that round to a positive double. Below a power of two the doubles lie twice as dense. -/
def ofParts (p : Parts) : Bracket :=
  let scale := Nat.pow 2 p.exponent.toNat
  let below := if p.significand = 4503599627370496 ∧ -1074 < p.exponent then 1 else 2
  { low := (4 * p.significand - below) * scale
    value := 4 * p.significand * scale
    high := (4 * p.significand + 2) * scale
    unit := 4 * Nat.pow 2 (-p.exponent).toNat
    closed := p.significand % 2 = 0 }

def rescale (b : Bracket) (t : Int) : Bracket :=
  let up := Nat.pow 10 (-t).toNat
  { b with
    low := b.low * up
    value := b.value * up
    high := b.high * up
    unit := b.unit * Nat.pow 10 t.toNat }

def Holds (b : Bracket) (n : Nat) : Prop :=
  if b.closed then b.low ≤ n * b.unit ∧ n * b.unit ≤ b.high
  else b.low < n * b.unit ∧ n * b.unit < b.high

instance (b : Bracket) (n : Nat) : Decidable (b.Holds n) := by
  unfold Holds; infer_instance

def roundsUp (b : Bracket) (tie : Tie) (n : Nat) : Bool :=
  match compare b.unit (2 * (b.value % b.unit)) with
  | .lt => true
  | .eq => tie.takesUpper n
  | .gt => false

def nearest? (b : Bracket) (tie : Tie) : Option Nat :=
  let n := b.value / b.unit
  if b.Holds n then
    if b.Holds (n + 1) ∧ b.roundsUp tie n then some (n + 1) else some n
  else if b.Holds (n + 1) then some (n + 1)
  else none

def order (b : Bracket) : Int :=
  if b.unit ≤ b.value then (Nat.toDigits 10 (b.value / b.unit)).length
  else 1 - ((Nat.toDigits 10 ((b.unit + b.value - 1) / b.value - 1)).length : Int)

def withDigits? (b : Bracket) (tie : Tie) (n : Nat) : Option Decimal :=
  let t := b.order - n
  ((b.rescale t).nearest? tie).map fun c => if c = Nat.pow 10 n then ⟨1, t + n⟩ else ⟨c, t⟩

end Bracket

def Decimal.shortest (tie : Tie) (p : Parts) : Decimal :=
  if p.significand = 0 then ⟨0, 0⟩
  else
    let b := Bracket.ofParts p
    ((List.range 17).findSome? fun i => b.withDigits? tie (i + 1)).getD ⟨0, 0⟩

end Surmise
