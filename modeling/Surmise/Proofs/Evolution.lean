import Mathlib.Logic.Relation
import Surmise.Proofs.Store
import Surmise.Session.Run

/-! How a session can change while code is evaluated, said once: single changes of the store, reports,
and stretches that run in another context, in other scopes or inside a `try` block. What every
evaluation keeps is proved by induction on these changes. -/
namespace Surmise

def Callable.Internal : Callable → Prop
  | closure .. | builtin _ => True
  | foreign .. => False

def Heap.Internal (h : Heap) : Prop :=
  ∀ id c, (h.record id).callable = some c → c.Internal

def Heap.Admits (A : Callable → Prop) (h : Heap) : Prop :=
  ∀ id c, (h.record id).callable = some c → A c

inductive Record.Fresh : Record → Prop
  | error (name message : String) : Fresh (.errorNamed name message)
  | closure (f : Function) (chain : Chain) : Fresh (.ofCallable (.closure f chain))
  | elements (vs : List (Option Value)) : Fresh (.ofElements vs)
  | list (vs : List Value) : Fresh (.ofList vs)
  | entries (es : List (String × Value)) : Fresh (.ofEntries es)

/-- A single change of the store. What is defined as a property could be deleted again. -/
inductive Store.Change (s : Store) : Store → Prop
  | allocate (r : Record) (h : r.Fresh) : Change s (s.allocate r).1
  | newScope : Change s (s.newScope {}).1
  | declare (id : ScopeId) (name : String) (v : Value) (mutable : Bool) :
      Change s (s.declare id name v mutable)
  | declareVariable (id : ScopeId) (name : String) (v? : Option Value) :
      Change s (s.declareVariable id name v?)
  | assign (chain : Chain) (name : String) (v : Value) : Change s (s.assign chain name v).1
  | put (id : ObjectId) (key : String) (v : Value) : Change s (s.put id key v).1
  | define (id : ObjectId) (key : String) (p : Property) (hp : p.attributes.configurable = true) :
      Change s (s.define id key p).1
  | delete (id : ObjectId) (key : String) : Change s (s.delete id key).1

abbrev Store.Changes : Store → Store → Prop := Relation.ReflTransGen Store.Change

def Record.Data (r : Record) : Prop := r.Fresh ∧ r.callable = none

/-- A single change of the store that makes no object. The properties of the objects that are kept are
assigned to only, not defined or deleted. -/
inductive Store.Edit (keep : ObjectId → Prop) (s : Store) : Store → Prop
  | newScope : Edit keep s (s.newScope {}).1
  | declare (id : ScopeId) (name : String) (v : Value) (mutable : Bool) :
      Edit keep s (s.declare id name v mutable)
  | declareVariable (id : ScopeId) (name : String) (v? : Option Value) :
      Edit keep s (s.declareVariable id name v?)
  | assign (chain : Chain) (name : String) (v : Value) : Edit keep s (s.assign chain name v).1
  | put (id : ObjectId) (key : String) (v : Value) : Edit keep s (s.put id key v).1
  | define (id : ObjectId) (key : String) (p : Property) (h : ¬ keep id)
      (hp : p.attributes.configurable = true) : Edit keep s (s.define id key p).1
  | delete (id : ObjectId) (key : String) (h : ¬ keep id) : Edit keep s (s.delete id key).1

abbrev Store.Edits (keep : ObjectId → Prop) : Store → Store → Prop :=
  Relation.ReflTransGen (Store.Edit keep)

/-- What evaluation can make of a session. -/
inductive Session.Evolves [Platform] : Session → Session → Prop
  | refl (s : Session) : Evolves s s
  | trans {s t u : Session} : Evolves s t → Evolves t u → Evolves s u
  | change {s : Session} {st : Store} : s.store.Change st → Evolves s { s with store := st }
  | recovered {s : Session} (kind : ErrorKind) (message : String) (h : s.recovers = true) :
      Evolves s (s.report (.fault kind message) .recovered)
  /-- A JSON text that cannot be read is reported as recovered everywhere. -/
  | unread (s : Session) {p : Json.Problem} {text : List Char} (h : Platform.readJson text = .error p) :
      Evolves s (s.report (.unread p text) .recovered)
  | thrown (s : Session) (kind : ErrorKind) (message : String) :
      Evolves s (s.report (.fault kind message) .thrown)
  | draw (s : Session) (randoms : Randoms) : Evolves s { s with randoms }
  | context {s t : Session} (c : Context) :
      Evolves { s with contexts := c :: s.contexts } t → Evolves s (t.leave s.contexts.length)
  | scopes {s t : Session} (chain : Chain) :
      Evolves (s.setLexical chain) t → Evolves s (t.setLexical s.current.lexical)
  | tried {s t : Session} :
      Evolves { s with tryDepth := s.tryDepth + 1 } t →
        Evolves s { t with tryDepth := t.tryDepth - 1 }

namespace Record

theorem data_error (name message : String) : Data (.errorNamed name message) := ⟨.error _ _, rfl⟩

theorem data_elements (vs : List (Option Value)) : Data (.ofElements vs) :=
  ⟨.elements vs, callable_of_shape (shape_ofElements vs)⟩

theorem data_list (vs : List Value) : Data (.ofList vs) :=
  ⟨.list vs, callable_of_shape (shape_ofList vs)⟩

theorem data_entries (es : List (String × Value)) : Data (.ofEntries es) :=
  ⟨.entries es, callable_of_shape (shape_ofEntries es)⟩

end Record

namespace Store
variable {keep : ObjectId → Prop} {s t : Store}

theorem Edit.change (h : s.Edit keep t) : s.Change t := by
  cases h with
  | newScope => exact .newScope
  | declare id name v mutable => exact .declare id name v mutable
  | declareVariable id name v? => exact .declareVariable id name v?
  | assign chain name v => exact .assign chain name v
  | put id key v => exact .put id key v
  | define id key p _ hp => exact .define id key p hp
  | delete id key _ => exact .delete id key

theorem Edit.heap_cases (h : s.Edit keep t) :
    t.heap = s.heap ∨ (∃ id key v, t.heap = (s.heap.put id key v).1) ∨
      (∃ id key p, ¬ keep id ∧ p.attributes.configurable = true ∧
        t.heap = (s.heap.define id key p).1) ∨
      ∃ id key, ¬ keep id ∧ t.heap = (s.heap.delete id key).1 := by
  cases h with
  | newScope | declare id name v mutable => exact .inl rfl
  | declareVariable id name v? =>
    obtain h | ⟨_, h⟩ | ⟨object, _, h⟩ := s.declareVariable_spec id name v? <;> rw [h]
    · exact .inl rfl
    · exact .inl rfl
    · exact .inr (.inl ⟨object, name, _, rfl⟩)
  | assign chain name v =>
    obtain ⟨_, h⟩ | ⟨id, b, _, _, h⟩ | ⟨_, _, object, p, _, _, _, h⟩ := s.assign_spec chain name v <;>
      rw [h]
    · exact .inl rfl
    · split <;> exact .inl rfl
    · exact .inr (.inl ⟨object, name, v, rfl⟩)
  | put id key v => exact .inr (.inl ⟨id, key, v, rfl⟩)
  | define id key p hid hp => exact .inr (.inr (.inl ⟨id, key, p, hid, hp, rfl⟩))
  | delete id key hid => exact .inr (.inr (.inr ⟨id, key, hid, rfl⟩))

theorem Change.cases (h : s.Change t) :
    (∃ r : Record, r.Fresh ∧ t = (s.allocate r).1) ∨ s.Edit (fun _ => False) t := by
  cases h with
  | allocate r hr => exact .inl ⟨r, hr, rfl⟩
  | newScope => exact .inr .newScope
  | declare id name v mutable => exact .inr (.declare id name v mutable)
  | declareVariable id name v? => exact .inr (.declareVariable id name v?)
  | assign chain name v => exact .inr (.assign chain name v)
  | put id key v => exact .inr (.put id key v)
  | define id key p hp => exact .inr (.define id key p not_false hp)
  | delete id key => exact .inr (.delete id key not_false)

theorem edits_declareNames (id : ScopeId) (names : List String) (s : Store) :
    s.Edits keep (names.foldl (fun s name => s.declareVariable id name none) s) := by
  induction names generalizing s with
  | nil => exact .refl
  | cons name names ih => exact .head (.declareVariable id name none) (ih _)

theorem Edits.changes (h : s.Edits keep t) : s.Changes t := by
  induction h with
  | refl => exact .refl
  | tail _ he ih => exact ih.tail he.change

end Store

structure Frame where
  options : Options
  globalObject : ObjectId
  globalContext : Context
  contexts : List Context
  tryDepth : Nat

def Session.frame (s : Session) : Frame :=
  ⟨s.options, s.globalObject, s.globalContext, s.contexts, s.tryDepth⟩

namespace Session

variable {s t : Session}

theorem current_of_frame (h : t.frame = s.frame) : t.current = s.current :=
  congrArg (fun f : Frame => f.contexts.headD f.globalContext) h

theorem globalChain_of_frame (h : t.frame = s.frame) : t.globalChain = s.globalChain :=
  congrArg (fun f : Frame => f.globalContext.lexical) h

theorem recovers_of_frame (h : t.frame = s.frame) : t.recovers = s.recovers :=
  congrArg (fun f : Frame => f.options.allowsRecovery && !decide (0 < f.tryDepth)) h

theorem Evolves.changes [Platform] {st : Store} (h : s.store.Changes st) : s.Evolves
    { s with store := st } := by
  induction h with
  | refl => exact .refl s
  | tail _ hc ih => exact ih.trans (.change hc)

theorem frame_setLexical (s t : Session) (chain : Chain)
    (h : t.frame = (s.setLexical chain).frame) :
    (t.setLexical s.current.lexical).frame = s.frame := by
  obtain ⟨options, store, object, global, contexts, diagnostics, depth, randoms⟩ := s
  obtain ⟨options', store', object', global', contexts', diagnostics', depth', randoms'⟩ := t
  cases contexts with
  | nil | cons c outer =>
    simp only [frame, setLexical, Frame.mk.injEq] at h
    obtain ⟨rfl, rfl, rfl, rfl, rfl⟩ := h
    rfl

theorem frame_leave (s t : Session) (c : Context)
    (h : t.frame = { s.frame with contexts := c :: s.contexts }) :
    (t.leave s.contexts.length).frame = s.frame := by
  simp only [frame, Frame.mk.injEq] at h
  obtain ⟨h₁, h₂, h₃, h₄, h₅⟩ := h
  simp [frame, leave, h₁, h₂, h₃, h₄, h₅]

theorem frame_endTry (s t : Session)
    (h : t.frame = { s.frame with tryDepth := s.tryDepth + 1 }) :
    Session.frame { t with tryDepth := t.tryDepth - 1 } = s.frame := by
  simp only [frame, Frame.mk.injEq] at h
  obtain ⟨h₁, h₂, h₃, h₄, h₅⟩ := h
  simp [frame, h₁, h₂, h₃, h₄, h₅]

/-- Every evaluation leaves the contexts, the global context and the count of `try` blocks as it found
them. -/
theorem Evolves.frame_eq [Platform] (h : s.Evolves t) : t.frame = s.frame := by
  induction h with
  | refl s => rfl
  | trans _ _ ih₁ ih₂ => exact ih₂.trans ih₁
  | change _ | recovered _ _ _ | unread _ _ | thrown _ _ _ | draw _ _ => rfl
  | context c _ ih => exact frame_leave _ _ c ih
  | scopes chain _ ih => exact frame_setLexical _ _ chain ih
  | tried _ ih => exact frame_endTry _ _ ih

end Session

/-! ### The only functions that appear are closures -/

section Functions

variable {A : Callable → Prop}

theorem Record.Data.admitted {r : Record} (h : r.Data) (c : Callable) (hc : r.callable = some c) :
    A c := by
  cases h.2.symm.trans hc

theorem Record.Fresh.admitted (hA : ∀ f chain, A (.closure f chain)) {r : Record} (h : r.Fresh)
    {c : Callable} (hc : r.callable = some c) : A c := by
  cases h with
  | error name message => cases hc
  | closure f chain => cases hc; exact hA f chain
  | elements vs => exact (data_elements vs).admitted c hc
  | list vs => exact (data_list vs).admitted c hc
  | entries es => exact (data_entries es).admitted c hc

namespace Heap

variable {h : Heap}

theorem Admits.update (hi : h.Admits A) (id : ObjectId) (f : Record → Record × Bool)
    (hf : ∀ r, (f r).1.shape = r.shape) : (h.update id f).1.Admits A := by
  intro j c hc
  rw [Record.callable_of_shape (shape_update h id j f hf)] at hc
  exact hi j c hc

theorem Admits.put (hi : h.Admits A) (id : ObjectId) (key : String) (v : Value) :
    (h.put id key v).1.Admits A :=
  hi.update id _ fun r => r.shape_put key v

theorem Admits.define (hi : h.Admits A) (id : ObjectId) (key : String) (p : Property) :
    (h.define id key p).1.Admits A :=
  hi.update id _ fun r => r.shape_define key p

theorem Admits.delete (hi : h.Admits A) (id : ObjectId) (key : String) : (h.delete id key).1.Admits A :=
  hi.update id _ fun r => r.shape_delete key

theorem Admits.allocate (hi : h.Admits A) {r : Record} (hr : ∀ c, r.callable = some c → A c) :
    (h.allocate r).1.Admits A := by
  intro j c hc
  rw [record_allocate] at hc
  split at hc
  · exact hr c hc
  · exact hi j c hc

end Heap

namespace Store

theorem Change.admits (hA : ∀ f chain, A (.closure f chain)) {s t : Store} (h : s.Change t)
    (hi : s.heap.Admits A) : t.heap.Admits A := by
  obtain ⟨r, hr, rfl⟩ | hedit := h.cases
  · exact hi.allocate fun c => hr.admitted hA
  · obtain h | ⟨id, key, v, h⟩ | ⟨id, key, p, _, _, h⟩ | ⟨id, key, _, h⟩ := hedit.heap_cases <;> rw [h]
    · exact hi
    · exact hi.put id key v
    · exact hi.define id key p
    · exact hi.delete id key

end Store

namespace Session

@[simp]
theorem store_setLexical (s : Session) (chain : Chain) : (s.setLexical chain).store = s.store := by
  unfold setLexical
  split <;> rfl

theorem heap_setLexical (s : Session) (chain : Chain) : (s.setLexical chain).heap = s.heap :=
  congrArg Store.heap (s.store_setLexical chain)

theorem current_setLexical (s : Session) (chain : Chain) :
    (s.setLexical chain).current = { s.current with lexical := chain } := by
  obtain ⟨options, store, object, global, contexts, diagnostics, depth, randoms⟩ := s
  cases contexts <;> rfl

theorem lexical_setLexical (s : Session) (chain : Chain) :
    (s.setLexical chain).current.lexical = chain := by
  rw [current_setLexical]

theorem globalObject_setLexical (s : Session) (chain : Chain) :
    (s.setLexical chain).globalObject = s.globalObject := by
  unfold setLexical
  split <;> rfl

theorem Evolves.admits [Platform] (hA : ∀ f chain, A (.closure f chain)) {s t : Session} (h : s.Evolves t)
    (hi : s.heap.Admits A) : t.heap.Admits A := by
  induction h with
  | refl s => exact hi
  | trans _ _ ih₁ ih₂ => exact ih₂ (ih₁ hi)
  | change hc => exact hc.admits hA hi
  | recovered _ _ _ | unread _ _ | thrown _ _ _ | draw _ _ => exact hi
  | context c _ ih => exact ih hi
  | scopes chain _ ih =>
    have ht := ih (by rw [heap, store_setLexical]; exact hi)
    rw [heap, store_setLexical]
    exact ht
  | tried _ ih => exact ih hi

end Session

end Functions

end Surmise
