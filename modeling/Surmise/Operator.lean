import Surmise.Conversion

/-!
Binary operators. An operand that is unknown, or converts to an unknown value, makes the result
unknown; otherwise the result is that of the language.
-/

namespace Surmise

def compareNumbers (a b : Float) : Option Ordering :=
  if a < b then some .lt
  else if b < a then some .gt
  else if a == b then some .eq
  else none

namespace BinaryOp

def accepts (op : BinaryOp) (o : Ordering) : Bool :=
  match op with
  | less => o == .lt
  | greater => o == .gt
  | lessEq => o != .gt
  | greaterEq => o != .lt
  | _ => false

end BinaryOp

namespace Heap

def arithmetic (h : Heap) (f : Float → Float → Float) (a b : Value) : Value :=
  match h.toNumber? a, h.toNumber? b with
  | some x, some y => .number (f x y)
  | _, _ => .unknown

def concat (h : Heap) (a b : Value) : Value :=
  match h.toText? a, h.toText? b with
  | some s, some t => .string (s ++ t)
  | _, _ => .unknown

def add (h : Heap) (a b : Value) : Value :=
  let a := h.toPrimitive a
  let b := h.toPrimitive b
  if a.isUnknown || b.isUnknown then .unknown
  else if a.isString || b.isString then h.concat a b
  else h.arithmetic (· + ·) a b

def relational (h : Heap) (accept : Ordering → Bool) (a b : Value) : Value :=
  match h.toPrimitive a, h.toPrimitive b with
  | .string s, .string t => .boolean (accept (Text.compareStrings s t))
  | a, b =>
    match h.toNumber? a, h.toNumber? b with
    | some x, some y => .boolean ((compareNumbers x y).any accept)
    | _, _ => .unknown

def looseEqualsIn (h : Heap) : Nat → Value → Value → Option Bool
  | 0, _, _ => none
  | fuel + 1, a, b =>
    match a, b with
    | .unknown, _ => none
    | _, .unknown => none
    | .undefined, b => some b.isNullish
    | .null, b => some b.isNullish
    | _, .undefined => some false
    | _, .null => some false
    | .number x, .number y => some (x == y)
    | .string s, .string t => some (s == t)
    | .boolean p, .boolean q => some (p == q)
    | .object i, .object j => some (i == j)
    | .boolean p, b => h.looseEqualsIn fuel (.ofNumber? (h.toNumber? (.boolean p))) b
    | a, .boolean q => h.looseEqualsIn fuel a (.ofNumber? (h.toNumber? (.boolean q)))
    | .number x, .string t => h.looseEqualsIn fuel (.number x) (.ofNumber? (h.toNumber? (.string t)))
    | .string s, .number y => h.looseEqualsIn fuel (.ofNumber? (h.toNumber? (.string s))) (.number y)
    | .object i, b => h.looseEqualsIn fuel (h.toPrimitive (.object i)) b
    | a, .object j => h.looseEqualsIn fuel a (h.toPrimitive (.object j))

/-- The `==` comparison, `none` if it cannot be told. Four conversions are enough unless wrappers
hold objects. -/
def looseEquals (h : Heap) (a b : Value) : Option Bool := h.looseEqualsIn (h.size + 5) a b

def binary (h : Heap) (op : BinaryOp) (a b : Value) : Value :=
  if a.isUnknown || b.isUnknown then .unknown
  else
    match op with
    | .add => h.add a b
    | .sub => h.arithmetic (· - ·) a b
    | .mul => h.arithmetic (· * ·) a b
    | .div => h.arithmetic (· / ·) a b
    | .mod => h.arithmetic Number.remainder a b
    | .equal => .ofBool? (h.looseEquals a b)
    | .notEqual => .ofBool? ((h.looseEquals a b).map not)
    | .strictEqual => .boolean (a.strictEquals b)
    | .strictNotEqual => .boolean (!a.strictEquals b)
    | .less | .greater | .lessEq | .greaterEq => h.relational op.accepts a b

end Heap
end Surmise
