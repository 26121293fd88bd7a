import Surmise.Conversion

/-!
The functions and constants of `Math`.
-/

namespace Surmise

namespace Number

/-- Rounds to the nearest integer, a half toward positive infinity. What lies between a half below zero
and zero becomes negative zero. -/
def round (x : Float) : Float :=
  if !x.isFinite || x.floor == x then x
  else if x < 0 && -0.5 ≤ x then -0.0
  else (x + 0.5).floor

/-- A power, except that a NaN exponent, or an infinite one over a base of magnitude 1, gives a NaN. -/
def power (x y : Float) : Float :=
  if y.isNaN || (x.abs == 1 && y.isInf) then nan else x.pow y

def larger (a b : Float) : Float :=
  if b > a || (b == 0 && a == 0 && isNegative a) then b else a

def smaller (a b : Float) : Float :=
  if b < a || (b == 0 && a == 0 && isNegative b) then b else a

def foldNumbers (f : Float → Float → Float) (start : Float) (xs : List Float) : Float :=
  if xs.any Float.isNaN then nan else xs.foldl f start

end Number

namespace MathFunction

def unary : MathFunction → Float → Float
  | abs => Float.abs
  | acos => Float.acos
  | asin => Float.asin
  | atan => Float.atan
  | ceil => Float.ceil
  | cos => Float.cos
  | exp => Float.exp
  | floor => Float.floor
  | log => Float.log
  | round => Number.round
  | sin => Float.sin
  | sqrt => Float.sqrt
  | tan => Float.tan
  | _ => fun x => x

def argument? (h : Heap) (args : List Value) (i : Nat) : Option Float :=
  match args[i]? with
  | none => some Number.nan
  | some v => h.toNumber? v

def binary (f : Float → Float → Float) (h : Heap) (args : List Value) : Option Float :=
  match argument? h args 0, argument? h args 1 with
  | some x, some y => some (f x y)
  | _, _ => none

def result? (m : MathFunction) (h : Heap) (args : List Value) : Option Float :=
  match m with
  | atan2 => binary Float.atan2 h args
  | pow => binary Number.power h args
  | max => (args.mapM h.toNumber?).map (Number.foldNumbers Number.larger (-Number.infinity))
  | min => (args.mapM h.toNumber?).map (Number.foldNumbers Number.smaller Number.infinity)
  | random => none
  | m => (argument? h args 0).map m.unary

end MathFunction

def mathConstants : List (String × Float) :=
  [("E", 2.718281828459045), ("LN10", 2.302585092994046), ("LN2", 0.6931471805599453),
    ("LOG2E", 1.4426950408889634), ("LOG10E", 0.4342944819032518), ("PI", 3.141592653589793),
    ("SQRT1_2", 0.7071067811865476), ("SQRT2", 1.4142135623730951)]

end Surmise
