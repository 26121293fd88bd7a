import Surmise.Record.Make

/-!
The heap: all objects made so far. Objects are never removed, so a place in the heap is the identity
of the object there.
-/

namespace Surmise

structure Heap where
  records : Array Record := #[]

namespace Heap

instance : Inhabited Heap := ⟨{}⟩

def size (h : Heap) : Nat := h.records.size

def record (h : Heap) (id : ObjectId) : Record := h.records.getD id.index default

def allocate (r : Record) : Heap → Heap × ObjectId
  | ⟨records⟩ =>
    let id : ObjectId := ⟨records.size⟩
    (⟨records.push r⟩, id)

def modify (h : Heap) (id : ObjectId) (f : Record → Record) : Heap :=
  ⟨h.records.modify id.index f⟩

def update (h : Heap) (id : ObjectId) (f : Record → Record × Bool) : Heap × Bool :=
  let (r, ok) := f (h.record id)
  (h.modify id fun _ => r, ok)

def put (h : Heap) (id : ObjectId) (key : String) (v : Value) : Heap × Bool :=
  h.update id fun r => r.put key v

def define (h : Heap) (id : ObjectId) (key : String) (p : Property) : Heap × Bool :=
  h.update id fun r => r.define key p

def delete (h : Heap) (id : ObjectId) (key : String) : Heap × Bool :=
  h.update id fun r => r.delete key

def get (h : Heap) (id : ObjectId) (key : String) : Value := (h.record id).get key

def callable? (h : Heap) : Value → Option Callable
  | .object id => (h.record id).callable
  | _ => none

def isCallable (h : Heap) (v : Value) : Bool := (h.callable? v).isSome

def member (h : Heap) (v : Value) (key : String) : Value :=
  match v with
  | .object id => h.get id key
  | .string s => .ofText s key
  | .unknown => .unknown
  | _ => .undefined

end Heap
end Surmise
