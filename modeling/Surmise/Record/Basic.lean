import Surmise.Callable
import Surmise.Dict
import Surmise.ErrorKind
import Surmise.Property

/-!
Object records: a class, ordered properties, and what the class needs besides. The operations that can
be refused return the record they leave together with whether they took place.
-/

namespace Surmise

inductive ObjectClass where
  | object
  | array
  | function
  | error (kind : ErrorKind)
  | boolean
  | number
  | string
  | math
  | json
deriving DecidableEq, Repr, Inhabited

namespace ObjectClass

def name : ObjectClass → String
  | object => "Object"
  | array => "Array"
  | function => "Function"
  | error kind => kind.name
  | boolean => "Boolean"
  | number => "Number"
  | string => "String"
  | math => "Math"
  | json => "JSON"

def isWrapper : ObjectClass → Bool
  | boolean | number | string => true
  | _ => false

end ObjectClass

structure Record where
  objectClass : ObjectClass
  properties : Dict Property := .empty
  primitive : Option Value := none
  callable : Option Callable := none
  extensible : Bool := true
deriving Inhabited

namespace Record

def empty (c : ObjectClass) : Record := { objectClass := c }

def getOwn? (r : Record) (key : String) : Option Property := r.properties.get? key

def has (r : Record) (key : String) : Bool := r.properties.contains key

def get (r : Record) (key : String) : Value := ((r.getOwn? key).map Property.value).getD .undefined

def setProperty (r : Record) (key : String) (p : Property) : Record :=
  { r with properties := r.properties.insert key p }

def keys (r : Record) : List String := r.properties.keys

def enumerableKeys (r : Record) : List String :=
  (r.properties.entries.filter fun p => p.2.attributes.enumerable).map Prod.fst

def define (r : Record) (key : String) (p : Property) : Record × Bool :=
  match r.getOwn? key with
  | some old => if old.allows p then (r.setProperty key p, true) else (r, false)
  | none => (r.setProperty key p, true)

def assign (r : Record) (key : String) (v : Value) : Record × Bool :=
  match r.getOwn? key with
  | some old =>
    if old.attributes.writable then (r.setProperty key { old with value := v }, true) else (r, false)
  | none => if r.extensible then (r.setProperty key (.data v), true) else (r, false)

def delete (r : Record) (key : String) : Record × Bool :=
  match r.getOwn? key with
  | some old =>
    if old.attributes.configurable then ({ r with properties := r.properties.erase key }, true)
    else (r, false)
  | none => (r, true)

end Record
end Surmise
