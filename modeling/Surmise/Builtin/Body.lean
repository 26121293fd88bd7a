import Surmise.Builtin.Math
import Surmise.Host
import Surmise.Json.Revival
import Surmise.Json.Serializer
import Surmise.Text.Percent

/-!
What the built-in functions do. They run behind the guard of `Eval.guarded`, so no operand is unknown.
-/

namespace Surmise

variable [Platform]

open Eval

def argument (args : List Value) (i : Nat) : Value := args.getD i .undefined

namespace Builtin

/-- The outcome of a call of `eval` whose code completed so. An error is thrown anew from its name and
message; another value becomes the message of an error. -/
def evalResult : Completion → Eval Value
  | .normal v => return v.getD .undefined
  | .throw none => throwNew "Error" "Missing throw value"
  | .throw (some v) => do
    let h ← read Session.heap
    match v with
    | .object id =>
      let r := h.record id
      match r.objectClass with
      | .error kind =>
        let name := (h.toText? (r.get "name")).getD kind.name
        let message :=
          if (r.get "message").isUndefined then "" else (h.toText? (r.get "message")).getD ""
        throw (← newObject (.errorNamed name message))
      | _ =>
        match h.toText? v with
        | some message => throwNew "Error" message
        | none => throw .unknown
    | .unknown => throw .unknown
    | v =>
      match h.toText? v with
      | some message => throwNew "Error" message
      | none => throw .unknown

def evalFragment (call : Invoke) (fragment : Fragment) (direct : Bool) (filename : String) :
    Eval Value := do
  if ← read Session.depthExceeded then
    route .rangeError stackExceeded
  else
    let scope ← newScope {}
    let context ← read fun s => s.evalContext fragment.strict direct filename scope
    let completion ← inContext context (fragment.run call)
    evalResult completion

def evalSource (host : Host) (call : Invoke) (options : CallOptions) : Value → Eval Value
  | .string source => do
    let filename := options.filename.getD (← current).filename
    match host.read source filename with
    | .error e => route .syntaxError e.message
    | .ok fragment => evalFragment call fragment options.direct filename
  | v => return v

def onText (f : List Char → Option (List Char)) (v : Value) : Eval Value := do
  match ← onHeap fun h => h.toText? v with
  | none => return .unknown
  | some s =>
    match f s.toList with
    | some out => return .string (String.ofList out)
    | none => fail (.host (.native .uriError "URI malformed"))

/-- Numbers are random only where one concrete run is followed. -/
def randomNumber : Eval Value := do
  if ← read fun s => s.options.exactMode then
    let randoms ← read Session.randoms
    modify fun s => { s with randoms := randoms.tail }
    return .number (randoms 0)
  else return .unknown

def leadingInteger? (h : Heap) (args : List Value) : Option Float :=
  match h.toText? (argument args 0), h.toInt32? (argument args 1) with
  | some s, some radix => some (Number.leadingInteger s.toList radix)
  | _, _ => none

def parseJson (call : Invoke) (args : List Value) : Eval Value := do
  match ← onHeap fun h => h.toText? (argument args 0) with
  | some text => Json.parseText call (argument args 1) text
  | none => return .unknown

/-- What a function does with its arguments. Code given to `eval` makes its calls by `inner`, the other
functions make theirs by `call`. -/
def run (host : Host) (inner call : Invoke) (args : List Value) (options : CallOptions) :
    Builtin → Eval Value
  | eval => evalSource host inner options (argument args 0)
  | parseInt => onHeap fun h => .ofNumber? (leadingInteger? h args)
  | parseFloat => onHeap fun h =>
    .ofNumber? ((h.toText? (argument args 0)).map fun s => Number.leadingDecimal s.toList)
  | isNaN => onHeap fun h => .ofBool? ((h.toNumber? (argument args 0)).map Float.isNaN)
  | isFinite => onHeap fun h => .ofBool? ((h.toNumber? (argument args 0)).map Float.isFinite)
  | decodeURI => onText (Text.Percent.decode? Text.Percent.isReservedOrHash) (argument args 0)
  | decodeURIComponent => onText (Text.Percent.decode? fun _ => false) (argument args 0)
  | encodeURI =>
    onText (fun cs => some (Text.Percent.encode
      (fun c => Text.Percent.isUnreserved c || Text.Percent.isReservedOrHash c) cs)) (argument args 0)
  | encodeURIComponent =>
    onText (fun cs => some (Text.Percent.encode Text.Percent.isUnreserved cs)) (argument args 0)
  | math .random => randomNumber
  | math m => onHeap fun h => .ofNumber? (m.result? h args)
  | jsonParse => parseJson call args
  | jsonStringify => Json.stringify call (argument args 0) (argument args 1) (argument args 2)

end Builtin
end Surmise
