import Surmise.Diagnostic
import Surmise.Options.Basic
import Surmise.Random
import Surmise.Scope

/-!
Sessions: the state of an evaluation. The contexts under evaluation form a stack above the global
context, the innermost first.
-/

namespace Surmise

structure Context where
  lexical : Chain
  varChain : Chain
  receiver : Value
  strict : Bool
  /-- Whether the code was given to a direct `eval`. -/
  direct : Bool
  filename : String

structure Session where
  options : Options
  store : Store
  globalObject : ObjectId
  globalContext : Context
  contexts : List Context := []
  diagnostics : Array Diagnostic := #[]
  tryDepth : Nat := 0
  /-- The random numbers that the code has not asked for yet. -/
  randoms : Randoms := .standard

namespace Session

def heap (s : Session) : Heap := s.store.heap

def current (s : Session) : Context := s.contexts.headD s.globalContext

def globalChain (s : Session) : Chain := s.globalContext.lexical

def depth (s : Session) : Nat := s.contexts.length + 1

def depthExceeded (s : Session) : Bool := decide (s.options.maxCallDepth < s.depth)

def inTry (s : Session) : Bool := decide (0 < s.tryDepth)

/-- Whether a fault is recovered here: never while a `try` block is being evaluated. -/
def recovers (s : Session) : Bool := s.options.allowsRecovery && !s.inTry

def setLexical (s : Session) (chain : Chain) : Session :=
  match s.contexts with
  | [] => { s with globalContext := { s.globalContext with lexical := chain } }
  | c :: outer => { s with contexts := { c with lexical := chain } :: outer }

def leave (s : Session) (n : Nat) : Session :=
  { s with contexts := s.contexts.drop (s.contexts.length - n) }

def report (s : Session) (finding : Finding) (disposition : Disposition) : Session :=
  { s with diagnostics := s.diagnostics.push ⟨finding, s.current.filename, disposition⟩ }

/-- The context for code given to `eval`. Direct code sees the scopes of the caller, other code the
global one; strict code gets variables of its own. The new innermost scope is `scope`. -/
def evalContext (s : Session) (strict direct : Bool) (filename : String) (scope : ScopeId) :
    Context :=
  let caller := s.current
  let strict := strict || (direct && caller.strict)
  let lexical := scope :: (if direct then caller.lexical else s.globalChain)
  { lexical
    varChain :=
      if strict then lexical else if direct then caller.varChain else s.globalChain
    receiver := if direct then caller.receiver else .object s.globalObject
    strict, direct, filename }

def topContext (s : Session) (strict : Bool) (filename : String) : Context :=
  { lexical := s.globalChain
    varChain := s.globalChain
    receiver := .object s.globalObject
    strict, direct := false, filename }

end Session
end Surmise
