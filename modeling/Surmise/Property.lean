import Surmise.Value

/-!
Properties of objects and their attributes.
-/

namespace Surmise

structure Attributes where
  writable : Bool
  enumerable : Bool
  configurable : Bool
deriving DecidableEq, Repr

namespace Attributes

def data : Attributes := ⟨true, true, true⟩

def hidden : Attributes := ⟨true, false, true⟩

def fixed : Attributes := ⟨false, false, false⟩

def lengthOfArray : Attributes := ⟨true, false, false⟩

end Attributes

structure Property where
  value : Value
  attributes : Attributes

namespace Property

def data (v : Value) : Property := ⟨v, .data⟩

/-- Whether `q` may take the place of `p`: always if `p` is configurable, and otherwise only to change
the value of a writable property. -/
def allows (p q : Property) : Bool :=
  p.attributes.configurable || (p.attributes.writable && q.attributes == p.attributes)

end Property
end Surmise
