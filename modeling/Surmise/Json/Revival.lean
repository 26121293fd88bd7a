import Surmise.Evaluation.Tree
import Surmise.Platform

/-!
Values made from JSON documents, directly or through a reviver that sees every member from the inside
out.
-/

namespace Surmise

variable [Platform]

open Eval

namespace Json

mutual

def toValue : Json → Eval Value
  | .null => return .null
  | .bool b => return .boolean b
  | .number n => return .number n.toFloat
  | .string s => return .string s
  | .array items => do
    let vs ← itemValues items
    newObject (.ofList vs)
  | .object members => do
    let vs ← memberValues members
    newObject (.ofEntries vs)

def itemValues : List Json → Eval (List Value)
  | [] => return []
  | item :: items => do
    let v ← toValue item
    let vs ← itemValues items
    return v :: vs

def memberValues : List (String × Json) → Eval (List (String × Value))
  | [] => return []
  | (key, item) :: members => do
    let v ← toValue item
    let vs ← memberValues members
    return (key, v) :: vs

end

def settleMember (holder : ObjectId) (key : String) (revived : Value) : Eval Unit := do
  let _ ← if revived.isUndefined then delete holder key else define holder key (.data revived)

/-- Puts a member into its holder and hands it to the reviver, whose result takes its place. Before
that the member is not enumerated. -/
def reviveMember (call : Invoke) (reviver : Value) (holder : ObjectId) (key : String) (v : Value) :
    Eval Unit := do
  let _ ← put holder key v
  let _ ← define holder key ⟨v, .hidden⟩
  let revived ← call reviver (.object holder) [.string key, v] {}
  settleMember holder key revived

mutual

def revive (call : Invoke) (reviver : Value) : Json → Eval Value
  | .array items => do
    let holder ← allocate .emptyArray
    reviveItems call reviver holder 0 items
    return .object holder
  | .object members => do
    let holder ← allocate (.empty .object)
    reviveMembers call reviver holder members
    return .object holder
  | .null => return .null
  | .bool b => return .boolean b
  | .number n => return .number n.toFloat
  | .string s => return .string s

def reviveItems (call : Invoke) (reviver : Value) (holder : ObjectId) :
    Nat → List Json → Eval Unit
  | _, [] => return ()
  | i, item :: items => do
    let v ← revive call reviver item
    reviveMember call reviver holder (indexKey i) v
    reviveItems call reviver holder (i + 1) items

def reviveMembers (call : Invoke) (reviver : Value) (holder : ObjectId) :
    List (String × Json) → Eval Unit
  | [] => return ()
  | (key, item) :: members => do
    let v ← revive call reviver item
    reviveMember call reviver holder key v
    reviveMembers call reviver holder members

end

/-- Reports a text that cannot be read, always as recovered, wherever the call stands. -/
def reportUnread (p : Problem) (text : List Char) : Eval Unit :=
  modify fun s => s.report (.unread p text) .recovered

def reviveRoot (call : Invoke) (reviver : Value) (tree : Json) : Eval Value := do
  let v ← revive call reviver tree
  let root ← newObject (.ofEntries [("", v)])
  call reviver root [.string "", v] {}

def parseText (call : Invoke) (reviver : Value) (text : String) : Eval Value := do
  match Platform.readJson text.toList with
  | .error p =>
    reportUnread p text.toList
    return .unknown
  | .ok tree =>
    if ← onHeap fun h => h.isCallable reviver then reviveRoot call reviver tree else tree.toValue

end Json
end Surmise
