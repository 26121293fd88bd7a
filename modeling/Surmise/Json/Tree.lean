import Surmise.Number.Integer

/-!
JSON documents. An integer that fits a machine word is kept exactly; every other number is a double.
-/

namespace Surmise

inductive Json.Number where
  /-- A natural number below `2 ^ 64`. -/
  | natural (n : Nat)
  /-- The integer `-n`, not below `-2 ^ 63`. -/
  | negative (n : Nat)
  | real (x : Float)

def Json.Number.toFloat : Json.Number → Float
  | natural n => Number.ofWord n
  | negative n => -Number.ofWord n
  | real x => x

inductive Json where
  | null
  | bool (b : Bool)
  | number (n : Json.Number)
  | string (s : String)
  | array (items : List Json)
  | object (members : List (String × Json))

end Surmise
