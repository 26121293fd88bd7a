/-!
Sixteen-bit units of a text: a character beyond U+FFFF counts as two, a high and a low half. Lengths
and the order of strings are those of the units.
-/

namespace Surmise.Text

/-- No character is one half of a pair of units. -/
theorem not_surrogate (c : Char) : ¬ (0xD800 ≤ c.toNat ∧ c.toNat < 0xE000) ∧ c.toNat < 0x110000 := by
  have hvalid : c.toNat < 0xD800 ∨ 0xDFFF < c.toNat ∧ c.toNat < 0x110000 := c.valid
  omega

def units (c : Char) : List Nat :=
  if c.toNat < 0x10000 then [c.toNat]
  else [0xD800 + (c.toNat - 0x10000) / 0x400, 0xDC00 + (c.toNat - 0x10000) % 0x400]

def unitWidth (c : Char) : Nat := if c.toNat < 0x10000 then 1 else 2

def unitCount (s : String) : Nat := s.toList.foldr (fun c n => unitWidth c + n) 0

def compareUnits : List Nat → List Nat → Ordering
  | [], [] => .eq
  | [], _ :: _ => .lt
  | _ :: _, [] => .gt
  | a :: as, b :: bs => (compare a b).then (compareUnits as bs)

def compareStrings (a b : String) : Ordering :=
  compareUnits (a.toList.flatMap units) (b.toList.flatMap units)

def byteSize (cs : List Char) : Nat :=
  cs.foldr (fun c n => c.utf8Size + n) 0

end Surmise.Text
