import Surmise.Builtin.Body

/-!
Calls. Functions of the script and `eval` enter a context and count toward the limit on the depth of
calls; the other functions stay in the context of their caller. So calls are bounded by two budgets:
one for the contexts that may still be entered, and, inside each context, one for the calls that pass
from function to function without entering another.
-/

namespace Surmise

variable [Platform]

open Eval

/-- Runs what a function object runs. Code in a new context makes its calls by `inner`, a function that
stays in the present one by `call`. -/
def Callable.run (host : Host) (inner call : Invoke) (receiver : Value) (args : List Value)
    (options : CallOptions) : Callable → Eval Value
  | closure f chain => f.apply inner chain receiver args
  | builtin b => guarded receiver args (b.run host inner call args options)
  | foreign name _ true => guarded receiver args (host.foreign name call receiver args options)
  | foreign name _ false => host.foreign name call receiver args options

def calleeText (h : Heap) : Value → String
  | .string s => "\"" ++ s ++ "\""
  | v => h.display v

def callWith (run : Callable → Eval Value) (callee : Value) : Eval Value := do
  if callee.isUnknown then return .unknown
  else
    let h ← read Session.heap
    match h.callable? callee with
    | some c => run c
    | none => throwNew ErrorKind.typeError.name (calleeText h callee ++ " is not a function")

def relay (host : Host) (inner : Invoke) : (relays : Nat) → Invoke
  | 0, _, _, _, _ => exhausted
  | relays + 1, callee, receiver, args, options =>
    callWith (Callable.run host inner (relay host inner relays) receiver args options) callee

/-- Enough calls inside one another that enter no context. A function that passes its arguments on takes
at least the callee from them, and the hooks of JSON functions are called with two arguments at most,
the first of them a text. -/
def relayBudget (args : List Value) : Nat := args.length + 16

def invoke (host : Host) : (contexts : Nat) → Invoke
  | 0, _, _, _, _ => exhausted
  | contexts + 1, callee, receiver, args, options =>
    relay host (invoke host contexts) (relayBudget args) callee receiver args options

end Surmise
