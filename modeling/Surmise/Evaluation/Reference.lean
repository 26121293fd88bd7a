import Surmise.Evaluation.Channel
import Surmise.Operator

/-!
Reading and writing what an expression refers to: names and properties.
-/

namespace Surmise.Eval

def notDefined (name : String) : String := name ++ " is not defined"

def resolve (name : String) : Eval Value := do
  match ← read fun s => s.store.lookup s.current.lexical name with
  | some v => return v
  | none => route .referenceError (notDefined name)

def routeOnly (kind : ErrorKind) (message : String) : Eval Unit := do
  let _ ← route kind message

def isGlobalProperty (name : String) : Eval Bool :=
  read fun s => (s.heap.record s.globalObject).has name

def putGlobal (name : String) (v : Value) : Eval Unit := do
  let _ ← put (← read Session.globalObject) name v

/-- Assigns to a name. A name without a binding becomes a property of the global object, except in
strict code. -/
def assignName (name : String) (v : Value) : Eval Unit := do
  let context ← current
  match ← onStore fun st => st.assign context.lexical name v with
  | .done => return ()
  | .immutable =>
    if context.strict || !(← isGlobalProperty name) then
      routeOnly .typeError ("Assignment to constant variable '" ++ name ++ "'")
  | .unresolved =>
    if context.strict then routeOnly .referenceError (notDefined name) else putGlobal name v

def readMember (object : Value) : Option String → Eval Value
  | none => return .unknown
  | some key => do
    let h ← read Session.heap
    if object.isNullish then
      route .typeError ("Cannot read property '" ++ key ++ "' of " ++ h.display object)
    else
      return h.member object key

/-- Writes a property. A write through an unknown key may hit any property that is there; a write to an
unknown value or to a primitive one has no effect. -/
def writeMember (forget : ObjectId → Eval Unit) (object : Value) (key? : Option String) (v : Value) :
    Eval Unit := do
  match key? with
  | none =>
    match object with
    | .object id => forget id
    | _ => return ()
  | some key =>
    match object with
    | .object id =>
      if !(← put id key v) && (← current).strict then
        routeOnly .typeError ("Cannot assign to read only property '" ++ key ++ "'")
    | .undefined | .null =>
      let h ← read Session.heap
      routeOnly .typeError ("Cannot set property '" ++ key ++ "' of " ++ h.display object)
    | _ => return ()

def isGlobalEval (callee : Value) : Eval Bool :=
  read fun s => callee.isObject && callee.strictEquals (s.heap.get s.globalObject "eval")

def typeofName (name : String) : Eval Value :=
  read fun s =>
    match s.store.lookup s.current.lexical name with
    | some v => .ofString? (s.heap.typeof? v)
    | none => .string "undefined"

end Surmise.Eval
