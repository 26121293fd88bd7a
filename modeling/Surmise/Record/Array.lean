import Surmise.Record.Basic

/-!
Array records. Their `length` follows the indexes that are written, and writing `length` drops the
indexes from there on. `put` is the assignment of a property for records of every class.
-/

namespace Surmise

inductive Extent where
  | walkable (length : Nat)
  | unknown
  | tooLong (length : Nat)
deriving DecidableEq, Repr

def maxWalkedLength : Nat := 4194304

namespace Record

def lengthOf? (x : Float) : Option Nat :=
  (Number.toNat? x).filter fun n => n ≤ maxArrayLength

def writeLength (r : Record) (v : Value) : Record × Bool :=
  match r.getOwn? "length" with
  | some old =>
    if old.attributes.writable then (r.setProperty "length" { old with value := v }, true)
    else (r, false)
  | none => (r, false)

def dropElements (r : Record) (n : Nat) : Record :=
  { r with properties := r.properties.filter fun k => (arrayIndex? k).all fun i => i < n }

/-- An unknown length replaces the present one and drops nothing; a number that is no array length, or
a value of another type, is refused. -/
def putLength (r : Record) : Value → Record × Bool
  | .unknown => r.writeLength .unknown
  | .number x =>
    match lengthOf? x with
    | some n => (r.dropElements n).writeLength (.number x)
    | none => (r, false)
  | _ => (r, false)

def coverIndex (r : Record) (i : Nat) : Record :=
  match r.getOwn? "length" with
  | some ⟨.number x, attributes⟩ =>
    if Number.leNat x i then r.setProperty "length" ⟨.number (Number.ofNat (i + 1)), attributes⟩ else r
  | _ => r

def putIndex (r : Record) (key : String) (i : Nat) (v : Value) : Record × Bool :=
  match r.assign key v with
  | (r', true) => (r'.coverIndex i, true)
  | (r', false) => (r', false)

def put (r : Record) (key : String) (v : Value) : Record × Bool :=
  if r.objectClass = .array then
    if key = "length" then r.putLength v
    else
      match arrayIndex? key with
      | some i => r.putIndex key i v
      | none => r.assign key v
  else r.assign key v

def arrayLength (r : Record) : Nat :=
  match r.get "length" with
  | .number x =>
    match Parts.ofFloat? x with
    | some p => if p.negative then 0 else min p.whole maxArrayLength
    | none => 0
  | _ => 0

def extent (r : Record) : Extent :=
  match r.get "length" with
  | .unknown => .unknown
  | _ => if maxWalkedLength < r.arrayLength then .tooLong r.arrayLength else .walkable r.arrayLength

def indexes (r : Record) : List Nat :=
  (r.keys.filterMap arrayIndex?).mergeSort fun i j => decide (i ≤ j)

def emptyArray : Record :=
  (Record.empty .array).setProperty "length" ⟨.number 0, .lengthOfArray⟩

def putElements (r : Record) : Nat → List (Option Value) → Record
  | _, [] => r
  | i, none :: vs => r.putElements (i + 1) vs
  | i, some v :: vs => (r.put (indexKey i) v).1.putElements (i + 1) vs

/-- The array of an array literal, as long as the literal even where it ends in holes. -/
def ofElements (vs : List (Option Value)) : Record :=
  ((emptyArray.putElements 0 vs).put "length" (.number (Number.ofNat vs.length))).1

def ofList (vs : List Value) : Record := emptyArray.putElements 0 (vs.map some)

end Record
end Surmise
