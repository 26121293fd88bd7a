import Surmise.Heap

/-!
Scopes and the store. A name is resolved along a chain of scopes; the global scope also resolves the
properties of the global object, which its own bindings hide.
-/

namespace Surmise

structure Binding where
  value : Value
  mutable : Bool

structure Scope where
  bindings : Dict Binding := .empty
  /-- The object whose properties are variables of the scope. -/
  object : Option ObjectId := none
deriving Inhabited

/-- Everything that lives longer than the evaluation of an expression: objects and scopes. -/
structure Store where
  heap : Heap := {}
  scopes : Array Scope := #[]
deriving Inhabited

inductive Assignment where
  | done
  | immutable
  | unresolved
deriving DecidableEq, Repr

namespace Store

def scope (s : Store) (id : ScopeId) : Scope := s.scopes.getD id.index default

@[inline]
def onHeap {α : Type} (f : Heap → Heap × α) : Store → Store × α
  | ⟨heap, scopes⟩ =>
    let (heap, a) := f heap
    (⟨heap, scopes⟩, a)

def newScope (scope : Scope) : Store → Store × ScopeId
  | ⟨heap, scopes⟩ =>
    let id : ScopeId := ⟨scopes.size⟩
    (⟨heap, scopes.push scope⟩, id)

def allocate (s : Store) (r : Record) : Store × ObjectId := s.onHeap fun h => h.allocate r

def bind (id : ScopeId) (name : String) (b : Binding) : Store → Store
  | ⟨heap, scopes⟩ =>
    ⟨heap, scopes.modify id.index fun c => { c with bindings := c.bindings.insert name b }⟩

def binding? (s : Store) (id : ScopeId) (name : String) : Option Binding :=
  (s.scope id).bindings.get? name

def put (s : Store) (id : ObjectId) (key : String) (v : Value) : Store × Bool :=
  s.onHeap fun h => h.put id key v

def define (s : Store) (id : ObjectId) (key : String) (p : Property) : Store × Bool :=
  s.onHeap fun h => h.define id key p

def delete (s : Store) (id : ObjectId) (key : String) : Store × Bool :=
  s.onHeap fun h => h.delete id key

def declare (s : Store) (id : ScopeId) (name : String) (v : Value) (mutable : Bool) : Store :=
  s.bind id name ⟨v, mutable⟩

def holder? (s : Store) (id : ScopeId) (name : String) : Option ObjectId :=
  if (s.binding? id name).isSome then none else (s.scope id).object

/-- Declares a variable. What is bound already keeps its value unless one is given. -/
def declareVariable (s : Store) (id : ScopeId) (name : String) (v? : Option Value) : Store :=
  match s.holder? id name with
  | some object =>
    match v? with
    | some v => (s.put object name v).1
    | none => if (s.heap.record object).has name then s else (s.put object name .undefined).1
  | none =>
    match s.binding? id name, v? with
    | some b, some v => s.bind id name { b with value := v }
    | some _, none => s
    | none, v? => s.bind id name ⟨v?.getD .undefined, true⟩

def hasOwn (s : Store) (id : ScopeId) (name : String) : Bool :=
  (s.binding? id name).isSome ||
    ((s.scope id).object.any fun object => (s.heap.record object).has name)

def ownValue? (s : Store) (id : ScopeId) (name : String) : Option Value :=
  match s.binding? id name with
  | some b => some b.value
  | none =>
    match (s.scope id).object with
    | some object =>
      if (s.heap.record object).has name then some (s.heap.get object name) else none
    | none => none

def lookup (s : Store) : Chain → String → Option Value
  | [], _ => none
  | id :: outer, name =>
    match s.ownValue? id name with
    | some v => some v
    | none => s.lookup outer name

def assignOwn? (s : Store) (id : ScopeId) (name : String) (v : Value) : Option (Store × Assignment) :=
  match s.binding? id name with
  | some b =>
    if b.mutable then some (s.bind id name { b with value := v }, .done) else some (s, .immutable)
  | none =>
    match (s.scope id).object with
    | some object =>
      if (s.heap.record object).has name then
        match s.put object name v with
        | (s', true) => some (s', .done)
        | (s', false) => some (s', .immutable)
      else none
    | none => none

def assign (s : Store) : Chain → String → Value → Store × Assignment
  | [], _, _ => (s, .unresolved)
  | id :: outer, name, v =>
    match s.assignOwn? id name v with
    | some result => result
    | none => s.assign outer name v

end Store
end Surmise
