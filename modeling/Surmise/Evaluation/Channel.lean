import Surmise.Evaluation.Basic

/-!
The way of a fault: outside of `try` blocks and with recovery allowed it is reported and the faulting
operation evaluates to the unknown value; everywhere else an error is thrown in the script.
-/

namespace Surmise

inductive Completion where
  | normal (v : Option Value)
  | throw (v : Option Value)

namespace Completion

def value? : Completion → Option Value
  | normal v | throw v => v

def normalValue? : Completion → Option Value
  | normal v => some (v.getD .undefined)
  | throw _ => none

end Completion

namespace Eval

variable {α : Type}

def reportRecovered (kind : ErrorKind) (message : String) : Eval Unit :=
  modify fun s => s.report (.fault kind message) .recovered

def raise (name message : String) : Eval Value := do
  let e ← newObject (.errorNamed name message)
  modify fun s => s.report (.fault (.ofName name) message) .thrown
  return e

def throwNew (name message : String) : Eval α := do
  throw (← raise name message)

/-- Routes a fault. A recovered one evaluates to the unknown value. -/
def route (kind : ErrorKind) (message : String) : Eval Value := do
  if ← read Session.recovers then
    reportRecovered kind message
    return .unknown
  else
    throwNew kind.name message

def settle : Except Fault Value → Eval Completion
  | .ok v => return .normal (some v)
  | .error (.thrown v) => return .throw (some v)
  | .error (.host e) => do
    if ← read Session.recovers then
      reportRecovered e.kind e.message
      return .normal (some .unknown)
    else
      return .throw (some (← raise e.kind.name e.message))

/-- The calling convention of built-in functions: an unknown operand makes the result unknown without
any effect, and faults of the host are routed. -/
def guarded (receiver : Value) (args : List Value) (body : Eval Value) : Eval Value :=
  if receiver.isUnknown || args.any Value.isUnknown then return .unknown
  else do
    match ← observe body with
    | .error (.host e) => route e.kind e.message
    | r => resume r

end Eval
end Surmise
