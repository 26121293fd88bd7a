/-!
Digits of a radix from 2 to 36. Letters count in either case.
-/

namespace Surmise.Radix

def digitValue (c : Char) : Option Nat :=
  if '0' ≤ c ∧ c ≤ '9' then some (c.toNat - '0'.toNat)
  else if 'a' ≤ c ∧ c ≤ 'z' then some (c.toNat - 'a'.toNat + 10)
  else if 'A' ≤ c ∧ c ≤ 'Z' then some (c.toNat - 'A'.toNat + 10)
  else none

def digit? (radix : Nat) (c : Char) : Option Nat :=
  (digitValue c).filter (· < radix)

def isDigit (radix : Nat) (c : Char) : Bool :=
  (digit? radix c).isSome

/-- The number `high · scale + low`. Digits are collected in the low part, which stays small, so that a
long run rarely touches the high one. -/
structure Tally where
  high : Nat := 0
  scale : Nat := 1
  low : Nat := 0

namespace Tally

def total (t : Tally) : Nat := t.high * t.scale + t.low

def push (t : Tally) (radix digit : Nat) : Tally :=
  if t.scale < 281474976710656 then ⟨t.high, radix * t.scale, radix * t.low + digit⟩
  else ⟨t.total, radix, digit⟩

theorem total_push (t : Tally) (radix digit : Nat) :
    (t.push radix digit).total = radix * t.total + digit := by
  unfold push
  split
  · simp only [total, Nat.mul_add, Nat.mul_left_comm, Nat.add_assoc]
  · simp only [total, Nat.mul_comm]

end Tally

def value (radix : Nat) (digits : List Char) : Nat :=
  (digits.foldl (fun (t : Tally) c => t.push radix ((digit? radix c).getD 0)) {}).total

theorem value_eq_foldl (radix : Nat) (digits : List Char) :
    value radix digits = digits.foldl (fun n c => radix * n + (digit? radix c).getD 0) 0 := by
  suffices h : ∀ t : Tally,
      (digits.foldl (fun (t : Tally) c => t.push radix ((digit? radix c).getD 0)) t).total =
        digits.foldl (fun n c => radix * n + (digit? radix c).getD 0) t.total from h {}
  induction digits with
  | nil => exact fun _ => rfl
  | cons c cs ih =>
    intro t
    simp only [List.foldl_cons, ih, Tally.total_push]

def hexDigits : List Char :=
  ['0', '1', '2', '3', '4', '5', '6', '7', '8', '9', 'a', 'b', 'c', 'd', 'e', 'f']

def hexDigit (n : Nat) : Char := hexDigits.getD n '0'

def hexDigitUpper (n : Nat) : Char := (hexDigit n).toUpper

end Surmise.Radix
