import Surmise.Invocation
import Surmise.Session.Create

/-!
Running code and calling functions in a session.
-/

namespace Surmise

variable [Platform]

open Eval

namespace Session

/-- Enough contexts inside one another: one for each call that the limit on the depth of calls admits,
and one for the call that it refuses. -/
def contextBudget (s : Session) : Nat := s.options.maxCallDepth + 2

def runFragment (call : Invoke) (fragment : Fragment) (filename : String) : Eval Completion := do
  let context ← read fun s => s.topContext fragment.strict filename
  inContext context (fragment.run call)

end Session

namespace Host

def call (host : Host) : Invoke := fun callee receiver args options s =>
  invoke host s.contextBudget callee receiver args options s

/-- Runs top-level code. Malformed code is an error of the host, and shown with its place in the text;
nothing has been run then. -/
def runFile (host : Host) (source filename : String) : Except HostError (Eval Completion) :=
  match host.read source filename with
  | .error e => .error (e.withExcerpt source)
  | .ok fragment => .ok fun s => Session.runFragment (invoke host s.contextBudget) fragment filename s

def complete (host : Host) (callee receiver : Value) (args : List Value) (options : CallOptions) :
    Eval Completion := do
  settle (← observe (host.call callee receiver args options))

def callGlobal (host : Host) (name : String) (args : List Value) : Eval Completion := do
  let f ← Eval.read fun s => s.heap.get s.globalObject name
  host.complete f .undefined args {}

end Host

inductive RunResult where
  | completed (c : Completion)
  | refused (e : HostError)
  /-- The code did not complete within the budgets of calls. -/
  | unfinished

def Session.runFile (host : Host) (source filename : String) (s : Session) : RunResult × Session :=
  match host.runFile source filename with
  | .error e => (.refused e, s)
  | .ok m =>
    match m s with
    | (.done c, s) => (.completed c, s)
    | (_, s) => (.unfinished, s)

def Session.run (host : Host) (source : String) (s : Session) : RunResult × Session :=
  s.runFile host source s.options.defaultFilename

end Surmise
