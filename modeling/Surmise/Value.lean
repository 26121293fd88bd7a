import Surmise.Number.Integer
import Surmise.ArrayIndex
import Surmise.Text.Units

/-!
Values of scripts. Beside the values of the language there is `unknown`, which stands for whatever
cannot be told without running the script for real.
-/

namespace Surmise

structure ObjectId where
  index : Nat
deriving DecidableEq, Repr, Inhabited

inductive Value where
  | undefined
  | null
  | boolean (b : Bool)
  | number (x : Float)
  | string (s : String)
  | object (id : ObjectId)
  | unknown
deriving Inhabited

namespace Value

def isUnknown : Value → Bool
  | unknown => true
  | _ => false

def isUndefined : Value → Bool
  | undefined => true
  | _ => false

def isNull : Value → Bool
  | null => true
  | _ => false

def isNullish (v : Value) : Bool := v.isUndefined || v.isNull

def isObject : Value → Bool
  | object _ => true
  | _ => false

def isString : Value → Bool
  | string _ => true
  | _ => false

def asNumber? : Value → Option Float
  | number x => some x
  | _ => none

def asString? : Value → Option String
  | string s => some s
  | _ => none

def asObject? : Value → Option ObjectId
  | object id => some id
  | _ => none

def typeName : Value → String
  | undefined => "Undefined"
  | null => "Null"
  | boolean _ => "Boolean"
  | number _ => "Number"
  | string _ => "String"
  | object _ => "Object"
  | unknown => "Unknown"

/-- Whether two values are certainly identical. The unknown value is identical to none, not even to
itself. -/
def strictEquals : Value → Value → Bool
  | undefined, undefined => true
  | null, null => true
  | boolean a, boolean b => a == b
  | number a, number b => a == b
  | string a, string b => a == b
  | object a, object b => a == b
  | _, _ => false

def ofBool? : Option Bool → Value
  | some b => boolean b
  | none => unknown

def ofNumber? : Option Float → Value
  | some x => number x
  | none => unknown

def ofString? : Option String → Value
  | some s => string s
  | none => unknown

def truth? : Value → Option Bool
  | undefined | null => some false
  | boolean b => some b
  | number x => some (x != 0 && !x.isNaN)
  | string s => some (s != "")
  | object _ => some true
  | unknown => none

def ofText (s : String) (key : String) : Value :=
  if key = "length" then number (Number.ofNat (Text.unitCount s))
  else
    match arrayIndex? key with
    | some i => (s.toList[i]?).elim undefined fun c => string (String.singleton c)
    | none => undefined

end Value
end Surmise
