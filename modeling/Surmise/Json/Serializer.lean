import Surmise.Evaluation.Tree
import Surmise.Platform

/-!
Values written as JSON text. Hooks of the script may take part; an unknown value anywhere in what is
written makes the whole text unknown.
-/

namespace Surmise

variable [Platform]

open Eval

namespace Json

inductive Piece where
  | text (s : String)
  | omitted
  | unknown

structure Style where
  replacer : Option Value
  keys : Option (List String)
  gap : String

namespace Style

def enclose (style : Style) (indent : String) (left right : String) (parts : List String) :
    String :=
  if parts.isEmpty then left ++ right
  else if style.gap = "" then left ++ ",".intercalate parts ++ right
  else
    let inner := indent ++ style.gap
    left ++ "\n" ++ inner ++ (",\n" ++ inner).intercalate parts ++ "\n" ++ indent ++ right

def member (style : Style) (key text : String) : String :=
  Platform.quoteJson key ++ (if style.gap = "" then ":" else ": ") ++ text

end Style

def hooked (call : Invoke) (key : String) : Value → Eval (Option Value)
  | .object id => do
    let h ← read Session.heap
    let hook := h.get id "toJSON"
    if hook.isUnknown then return none
    else if h.isCallable hook then
      let v ← call hook (.object id) [.string key] {}
      return some v
    else return some (.object id)
  | v => return some v

def replaced (call : Invoke) (style : Style) (holder : ObjectId) (key : String) (v : Value) :
    Eval Value :=
  match style.replacer with
  | some f => call f (.object holder) [.string key, v] {}
  | none => return v

def unwrapped (h : Heap) (v : Value) : Value :=
  match v with
  | .object id =>
    match (h.record id).objectClass with
    | .number => .ofNumber? (h.toNumber? v)
    | .string => .ofString? (h.toText? v)
    | .boolean => h.toPrimitive v
    | _ => v
  | v => v

def elementParts (element : Nat → Eval Piece) :
    Nat → Nat → List String → Eval (Option (List String))
  | 0, _, parts => return some parts.reverse
  | n + 1, i, parts => do
    match ← element i with
    | .text s => elementParts element n (i + 1) (s :: parts)
    | .omitted => elementParts element n (i + 1) ("null" :: parts)
    | .unknown => return none

def memberParts (style : Style) (member : String → Eval Piece) :
    List String → List String → Eval (Option (List String))
  | [], parts => return some parts.reverse
  | key :: keys, parts => do
    match ← member key with
    | .text s => memberParts style member keys (style.member key s :: parts)
    | .omitted => memberParts style member keys parts
    | .unknown => return none

def Piece.ofParts (write : List String → String) : Option (List String) → Piece
  | some parts => .text (write parts)
  | none => .unknown

def routed (kind : ErrorKind) (message : String) : Eval Piece := do
  let _ ← route kind message
  return .unknown

def primitivePiece : Value → Piece
  | .null => .text "null"
  | .boolean true => .text "true"
  | .boolean false => .text "false"
  | .string s => .text (Platform.quoteJson s)
  | .number x => if x.isFinite then .text (Number.text x) else .text "null"
  | .unknown => .unknown
  | .undefined | .object _ => .omitted

def arrayPiece (style : Style) (indent : String) (r : Record) (element : Nat → Eval Piece) :
    Eval Piece :=
  match r.extent with
  | .unknown => return .unknown
  | .tooLong _ => routed .rangeError "Invalid string length"
  | .walkable n => do
    let parts ← elementParts element n 0 []
    return .ofParts (style.enclose indent "[" "]") parts

def objectPiece (style : Style) (indent : String) (r : Record) (member : String → Eval Piece) :
    Eval Piece := do
  let parts ← memberParts style member (style.keys.getD r.enumerableKeys) []
  return .ofParts (style.enclose indent "\x7b" "\x7d") parts

def serialize (call : Invoke) (style : Style) :
    (fuel : Nat) → (indent : String) → (path : List ObjectId) → (holder : ObjectId) →
      (key : String) → Eval Piece
  | 0, _, _, _, _ => exhausted
  | fuel + 1, indent, path, holder, key => do
    let v ← onHeap fun h => h.get holder key
    match ← hooked call key v with
    | none => return .unknown
    | some v =>
      let v ← replaced call style holder key v
      let v ← onHeap fun h => unwrapped h v
      match v with
      | .object id =>
        let r ← onHeap fun h => h.record id
        if r.callable.isSome then return .omitted
        else if path.contains id then
          routed .typeError "Converting circular structure to JSON"
        else
          let inner := serialize call style fuel (indent ++ style.gap) (id :: path) id
          if r.objectClass = .array then
            arrayPiece style indent r fun i => inner (indexKey i)
          else objectPiece style indent r inner
      | v => return primitivePiece v

def listedKey? (h : Heap) (v : Value) : Option (Option String) :=
  match v with
  | .string s => some (some s)
  | .number x => some (some (Number.text x))
  | .object id =>
    match (h.record id).objectClass with
    | .number | .string => (h.toText? v).map some
    | _ => some none
  | .unknown => none
  | _ => some none

def listedKeys? (h : Heap) (r : Record) : Option (List String) :=
  match r.extent with
  | .unknown => none
  | .walkable n | .tooLong n =>
    ((r.indexes.filter (· < n)).mapM fun i => listedKey? h (r.get (indexKey i))).map fun keys =>
      (keys.filterMap id).eraseDups

def gapWidth (x : Float) : Nat :=
  match Parts.ofFloat? x with
  | some p => if p.negative then 0 else min p.whole 10
  | none => if x.isNaN || Number.isNegative x then 0 else 10

def gapValue (h : Heap) (v : Value) : Value :=
  match v with
  | .object id =>
    match (h.record id).objectClass with
    | .number | .string => h.toPrimitive v
    | _ => v
  | v => v

def gap? (h : Heap) (v : Value) : Option String :=
  match gapValue h v with
  | .number x => some (String.ofList (List.replicate (gapWidth x) ' '))
  | .string s => some (String.ofList (s.toList.take 10))
  | .unknown => none
  | _ => some ""

def onlyKeys? (h : Heap) : Value → Option (Option (List String))
  | .object id =>
    let r := h.record id
    if r.objectClass = .array then (listedKeys? h r).map some else some none
  | _ => some none

def style? (h : Heap) (replacer space : Value) : Option Style :=
  if h.isCallable replacer then (gap? h space).map fun gap => ⟨some replacer, none, gap⟩
  else
    match onlyKeys? h replacer, gap? h space with
    | some keys, some gap => some ⟨none, keys, gap⟩
    | _, _ => none

def Piece.value : Piece → Value
  | text s => .string s
  | omitted => .undefined
  | unknown => .unknown

/-- How many objects made by hooks may be inside one another. -/
def hookBudget : Nat := 65536

/-- The JSON text of a value. Of the objects that are there already, each is written inside itself at
most once. -/
def stringify (call : Invoke) (v replacer space : Value) : Eval Value := do
  let h ← read Session.heap
  match style? h replacer space with
  | none => return .unknown
  | some style =>
    let holder ← allocate (.ofEntries [("", v)])
    let piece ← serialize call style (h.size + hookBudget) "" [] holder ""
    return piece.value

end Json
end Surmise
