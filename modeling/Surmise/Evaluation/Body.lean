import Surmise.Evaluation.Tree

/-!
Bodies of code: calling a function of the script and running a program.
-/

namespace Surmise

namespace Eval

def bindParams (scope : ScopeId) : List Identifier → List Value → Eval Unit
  | [], _ => return ()
  | p :: ps, args => do
    declare scope p.name (args.headD .undefined) true
    bindParams scope ps args.tail

/-- The value of `this` in a function: code that is not strict sees the global object in place of
nothing. -/
def receiverFor (strict : Bool) (receiver : Value) : Eval Value :=
  read fun s => if !strict && receiver.isNullish then .object s.globalObject else receiver

end Eval

open Eval

def Flow.result : Flow → Value
  | returned v => v
  | normal _ => .undefined

def Function.apply (call : Invoke) (f : Function) (chain : Chain) (receiver : Value)
    (args : List Value) : Eval Value := do
  if ← read Session.depthExceeded then
    route .rangeError stackExceeded
  else
    let scope ← newScope {}
    bindParams scope f.params args
    let receiver ← receiverFor f.strict receiver
    let filename := (← current).filename
    let context : Context :=
      { lexical := scope :: chain, varChain := scope :: chain, receiver, strict := f.strict,
        direct := false, filename }
    let flow ← inContext context do
      declareBody scope f.body
      Stmt.execAll call none f.body
    return flow.result

def Stmt.declareAll (body : List Stmt) : Eval Unit := do
  match (← current).varChain with
  | scope :: _ => declareBody scope body
  | [] => return ()

def Stmt.execBody (call : Invoke) (body : List Stmt) : Eval Flow := do
  Stmt.declareAll body
  Stmt.execAll call none body

def Program.run (call : Invoke) (p : Program) : Eval Completion := do
  match ← observe (Stmt.execBody call p.body) with
  | .ok (.normal v) => return .normal v
  | .ok (.returned v) => return .normal (some v)
  | .error f => settle (.error f)

end Surmise
