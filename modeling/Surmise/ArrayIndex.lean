/-!
Property names that number the elements of an array.
-/

namespace Surmise

def maxArrayLength : Nat := 4294967295

def digitsToNat (cs : List Char) : Nat :=
  cs.foldl (fun n c => 10 * n + (c.toNat - '0'.toNat)) 0

/-- The index that a name stands for: a decimal numeral without leading zeros, below the largest
array length. No such numeral has more than ten digits. -/
def arrayIndex? (key : String) : Option Nat :=
  match key.toList with
  | [] => none
  | '0' :: _ :: _ => none
  | cs =>
    if cs.length ≤ 10 ∧ cs.all Char.isDigit ∧ digitsToNat cs < maxArrayLength then
      some (digitsToNat cs)
    else none

def indexKey (i : Nat) : String := Nat.repr i

end Surmise
