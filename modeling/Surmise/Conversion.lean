import Surmise.Decimal.Notation
import Surmise.Heap
import Surmise.Number.Reader
import Surmise.Text.Quoted

/-!
Conversions between kinds of value. None of them runs a script: an object whose conversion would have to
do so converts to the unknown value. An array is joined from its elements, where an array that is being
joined already counts as empty, so that cycles of arrays come to an end.
-/

namespace Surmise

namespace Value

def primitiveText? : Value → Option String
  | undefined => some "undefined"
  | null => some "null"
  | boolean true => some "true"
  | boolean false => some "false"
  | number x => some (Number.text x)
  | string s => some s
  | object _ | unknown => none

def primitiveNumber? : Value → Option Float
  | undefined => some Number.nan
  | null => some 0
  | boolean b => some (if b then 1 else 0)
  | number x => some x
  | string s => some (Number.ofText s.toList)
  | object _ | unknown => none

def settle (primitive : ObjectId → Option Value) : Nat → Value → Option Value
  | 0, object _ => none
  | n + 1, object id =>
    match primitive id with
    | some v => settle primitive n v
    | none => none
  | _, v => some v

end Value

def joinElements (part : Nat → Option Value) : Nat → Nat → List String → Option Value
  | 0, _, done => some (.string (",".intercalate done.reverse))
  | n + 1, i, done =>
    match part i with
    | some (.string s) => joinElements part n (i + 1) (s :: done)
    | some _ => some .unknown
    | none => none

def elementText (primitive : ObjectId → Option Value) : Value → Option Value
  | .undefined | .null => some (.string "")
  | .unknown => some .unknown
  | .object id =>
    match primitive id with
    | some .unknown => some .unknown
    | some v => some (.string (v.primitiveText?.getD ""))
    | none => none
  | v => some (.string (v.primitiveText?.getD ""))

def headline (name message : String) : String :=
  if message = "" then name
  else if name = "" then message
  else name ++ ": " ++ message

def errorText (settled : Value → Option Value) (r : Record) : Option Value :=
  match settled (r.get "name") with
  | none => none
  | some name =>
    match name.primitiveText? with
    | none => some .unknown
    | some name =>
      match r.get "message" with
      | .undefined => some (.string name)
      | message =>
        match settled message with
        | none => none
        | some message => some (.ofString? (message.primitiveText?.map (headline name)))

namespace Heap

/-- Whether a plain object brings its own conversion, or may do so. -/
def overridesConversion (h : Heap) (r : Record) : Bool :=
  ["toString", "valueOf"].any fun key => h.isCallable (r.get key) || (r.get key).isUnknown

def primitiveOf? (h : Heap) : (fuel : Nat) → (path : List ObjectId) → ObjectId → Option Value
  | 0, _, _ => none
  | fuel + 1, path, id =>
    let r := h.record id
    match r.objectClass with
    | .boolean | .number | .string => some (r.primitive.getD .undefined)
    | .array =>
      if path.contains id then some (.string "")
      else
        match r.extent with
        | .walkable n =>
          joinElements
            (fun i => elementText (h.primitiveOf? fuel (id :: path)) (r.get (indexKey i))) n 0 []
        | _ => some .unknown
    | .error _ => errorText (Value.settle (h.primitiveOf? fuel []) (h.size + 1)) r
    | .function =>
      some (.string ("function " ++ (r.callable.elim "" Callable.name) ++
        "() \x7b [native code] \x7d"))
    | .math | .json => some (.string ("[object " ++ r.objectClass.name ++ "]"))
    | .object =>
      if h.overridesConversion r then some .unknown else some (.string "[object Object]")

/-- No conversion that comes to an end goes deeper: between two errors, or before the first, no array is
entered twice, and an error inside itself never ends. -/
def conversionDepth (h : Heap) : Nat := (h.size + 1) * (h.size + 2)

def toPrimitive (h : Heap) : Value → Value
  | .object id => (h.primitiveOf? h.conversionDepth [] id).getD .unknown
  | v => v

def settled (h : Heap) (v : Value) : Value :=
  (v.settle (h.primitiveOf? h.conversionDepth []) (h.size + 1)).getD .unknown

def toText? (h : Heap) (v : Value) : Option String := (h.settled v).primitiveText?

def toNumber? (h : Heap) (v : Value) : Option Float := (h.settled v).primitiveNumber?

def toInteger? (h : Heap) (v : Value) : Option Float := (h.toNumber? v).map Number.integerPart

def toInt32? (h : Heap) (v : Value) : Option Int := (h.toNumber? v).map Number.toInt32

def toUInt32? (h : Heap) (v : Value) : Option Nat := (h.toNumber? v).map Number.toUInt32

def typeof? (h : Heap) : Value → Option String
  | .undefined => some "undefined"
  | .null => some "object"
  | .boolean _ => some "boolean"
  | .number _ => some "number"
  | .string _ => some "string"
  | .object id => some (if (h.record id).callable.isSome then "function" else "object")
  | .unknown => none

def display (h : Heap) (v : Value) : String := (h.toText? v).getD "<unknown>"

def inspectWith (describe : ObjectId → String) : Value → String
  | .string s => Text.quote s
  | .object id => describe id
  | .unknown => "<unknown>"
  | v => v.primitiveText?.getD ""

def describe (h : Heap) : Nat → ObjectId → String
  | 0, _ => ""
  | fuel + 1, id =>
    let r := h.record id
    match r.objectClass, r.callable with
    | .function, some c => "[Function: " ++ c.name ++ "]"
    | .array, _ => "[Array(" ++ indexKey r.arrayLength ++ ")]"
    | .error _, _ =>
      "[" ++ h.display (r.get "name") ++ ": " ++ inspectWith (h.describe fuel) (r.get "message") ++ "]"
    | c, _ => "[object " ++ c.name ++ "]"

def inspect (h : Heap) : Value → String := inspectWith (h.describe (h.size + 1))

end Heap
end Surmise
