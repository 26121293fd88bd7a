import Surmise.Conversion
import Surmise.HostError
import Surmise.Session.Basic

/-!
Evaluations: computations on a session that end with a value, with a fault, or not at all within the
calls allowed. Every ending carries the session it leaves.
-/

namespace Surmise

inductive Fault where
  | thrown (v : Value)
  /-- A fault that has not been routed yet. -/
  | host (e : HostError)

inductive Outcome (α : Type) where
  | done (a : α)
  | failed (f : Fault)
  | exhausted

def Eval (α : Type) : Type := Session → Outcome α × Session

namespace Eval

variable {α β : Type}

@[always_inline, inline]
protected def pure (a : α) : Eval α := fun s => (.done a, s)

@[always_inline, inline]
protected def bind (m : Eval α) (f : α → Eval β) : Eval β := fun s =>
  match m s with
  | (.done a, s) => f a s
  | (.failed e, s) => (.failed e, s)
  | (.exhausted, s) => (.exhausted, s)

instance : Monad Eval where
  pure := Eval.pure
  bind := Eval.bind

instance : Inhabited (Eval α) := ⟨fun s => (.exhausted, s)⟩

def exhausted : Eval α := fun s => (.exhausted, s)

def fail (f : Fault) : Eval α := fun s => (.failed f, s)

def throw (v : Value) : Eval α := fail (.thrown v)

def session : Eval Session := fun s => (.done s, s)

def modify (f : Session → Session) : Eval Unit := fun s => (.done (), f s)

def read (f : Session → α) : Eval α := fun s => (.done (f s), s)

def observe (m : Eval α) : Eval (Except Fault α) := fun s =>
  match m s with
  | (.done a, s) => (.done (.ok a), s)
  | (.failed f, s) => (.done (.error f), s)
  | (.exhausted, s) => (.exhausted, s)

def resume : Except Fault α → Eval α
  | .ok a => pure a
  | .error f => fail f

def onStore (f : Store → Store × α) : Eval α := fun s =>
  match s with
  | ⟨options, store, globalObject, globalContext, contexts, diagnostics, tryDepth, randoms⟩ =>
    let (store, a) := f store
    (.done a, ⟨options, store, globalObject, globalContext, contexts, diagnostics, tryDepth, randoms⟩)

def onHeap (f : Heap → α) : Eval α := read fun s => f s.heap

def allocate (r : Record) : Eval ObjectId := onStore fun st => st.allocate r

def newObject (r : Record) : Eval Value := do
  let id ← allocate r
  return .object id

def newScope (scope : Scope) : Eval ScopeId := onStore fun st => st.newScope scope

def declare (scope : ScopeId) (name : String) (v : Value) (mutable : Bool) : Eval Unit :=
  onStore fun st => (st.declare scope name v mutable, ())

def put (id : ObjectId) (key : String) (v : Value) : Eval Bool :=
  onStore fun st => st.put id key v

def define (id : ObjectId) (key : String) (p : Property) : Eval Bool :=
  onStore fun st => st.define id key p

def delete (id : ObjectId) (key : String) : Eval Bool :=
  onStore fun st => st.delete id key

def current : Eval Context := read Session.current

def inContext (c : Context) (m : Eval α) : Eval α := fun s =>
  let n := s.contexts.length
  match m { s with contexts := c :: s.contexts } with
  | (r, s) => (r, s.leave n)

def inScopes (chain : Chain) (m : Eval α) : Eval α := fun s =>
  let outer := s.current.lexical
  match m (s.setLexical chain) with
  | (r, s) => (r, s.setLexical outer)

def inTry (m : Eval α) : Eval α := fun s =>
  match m { s with tryDepth := s.tryDepth + 1 } with
  | (r, s) => (r, { s with tryDepth := s.tryDepth - 1 })

end Eval
end Surmise
