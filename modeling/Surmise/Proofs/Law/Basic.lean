import Surmise.Proofs.Observation.Evaluation
import Surmise.Proofs.Running
import Surmise.Proofs.Widening

/-! Laws of evaluation: what holds of every evaluation because the operations on sessions have it and
putting evaluations together keeps it. The evaluator is gone through once, for all laws: those of one
evaluation, and those that compare two. -/
namespace Surmise

def Session.withoutRecovery (s : Session) : Session :=
  { s with options := { s.options with recovery := false } }

def Invoke.Has (call : Invoke) (P : ∀ {α : Type}, Eval α → Prop) : Prop :=
  ∀ callee receiver args options, P (call callee receiver args options)

def Invoke.Paired (R : Eval Value → Eval Value → Prop) (call' call : Invoke) : Prop :=
  ∀ callee receiver args options,
    R (call' callee receiver args options) (call callee receiver args options)

namespace Eval

abbrev dispatch (callee : Value) (run : Callable → Eval Value) (refuse : Heap → Eval Value) : Eval Value := do
  let h ← Eval.read Session.heap
  match h.callable? callee with
  | some c => run c
  | none => refuse h

/-- The function is in the heap, so it is among those that are admitted there. -/
theorem dispatch_cases {A : Callable → Prop} {s : Session} (hs : s.heap.Admits A) (callee : Value) :
    (∃ c, A c ∧ ∀ run refuse, dispatch callee run refuse s = run c s) ∨
      ∀ run refuse, dispatch callee run refuse s = refuse s.heap s := by
  cases hk : s.heap.callable? callee with
  | none => exact .inr fun run refuse => by rw [dispatch, run_read_bind, hk]
  | some c =>
    cases callee with
    | object id => exact .inl ⟨c, hs id c hk, fun run refuse => by rw [dispatch, run_read_bind, hk]⟩
    | _ => cases hk

def Within (F : Fault → Prop) {α : Type} (r : Except Fault α) : Prop := ∀ f, r = .error f → F f

/-- Making objects, reports and reading have `P`, and the ways of putting evaluations together that stay
in the scopes of the context keep it. Evaluations end with no faults but those of `F`. What is read of a
session does not depend on whether faults are recovered: only `recover` asks for that. -/
structure Core (F : Fault → Prop) (P : ∀ {α : Type}, Eval α → Prop) : Prop where
  pure {α : Type} (a : α) : P (Pure.pure a : Eval α)
  bind {α β : Type} {m : Eval α} {f : α → Eval β} : P m → (∀ a, P (f a)) → P (m >>= f)
  exhausted {α : Type} : P (Eval.exhausted : Eval α)
  thrown (v : Value) : F (.thrown v)
  fail {α : Type} {f : Fault} : F f → P (Eval.fail f : Eval α)
  observe {α β : Type} {m : Eval α} {k : Except Fault α → Eval β} : P m →
    (∀ r, Within F r → P (k r)) → P (Eval.observe m >>= k)
  read {α : Type} (f : Session → α) (hf : ∀ s : Session, f s.withoutRecovery = f s := by
    exact fun _ => rfl) : P (Eval.read f)
  allocate {r : Record} : r.Data → P (Eval.allocate r)
  inTry {α : Type} {m : Eval α} : P m → P (Eval.inTry m)
  reportThrown (kind : ErrorKind) (message : String) :
    P (Eval.modify fun s => s.report (.fault kind message) .thrown)
  recover {α : Type} (kind : ErrorKind) (message : String) {m m' : Eval α} : P m → P m' →
    P (do if ← Eval.read Session.recovers then reportRecovered kind message; m else m')

structure Stem [Platform] (F : Fault → Prop) (keep : ObjectId → Prop) (P : ∀ {α : Type}, Eval α → Prop) : Prop
    extends Core F @P where
  put (id : ObjectId) (key : String) (v : Value) : P (Eval.put id key v)
  define {id : ObjectId} : ¬ keep id → ∀ (key : String) {p : Property},
    p.attributes.configurable = true → P (Eval.define id key p)
  delete {id : ObjectId} : ¬ keep id → ∀ key : String, P (Eval.delete id key)
  assign (chain : Chain) (name : String) (v : Value) : P (Eval.onStore fun st => st.assign chain name v)
  forget {f : Store → Store} : (∀ st : Store, st.Forgets (f st)) → P (Eval.onStore fun st => (f st, ()))
  reportUnread {p : Json.Problem} {text : List Char} :
    Platform.readJson text = .error p → P (Json.reportUnread p text)
  draw (randoms : Randoms) : P (Eval.modify fun s => { s with randoms })

/-- Operations on the store have `P` too, as long as they only assign to properties of the objects that
are kept. -/
structure Leaf [Platform] (F : Fault → Prop) (keep : ObjectId → Prop) (P : ∀ {α : Type}, Eval α → Prop) : Prop
    extends Core F @P where
  edit {α : Type} {f : Store → Store × α} : (∀ st : Store, st.Edits keep (f st).1) →
    P (Eval.onStore f)
  reportUnread {p : Json.Problem} {text : List Char} :
    Platform.readJson text = .error p → P (Json.reportUnread p text)
  draw (randoms : Randoms) : P (Eval.modify fun s => { s with randoms })

structure Paired (F : Fault → Prop) (R : ∀ {α : Type}, Eval α → Eval α → Prop) : Prop where
  core : Core F fun m => R m m
  bind {α β : Type} {m' m : Eval α} {f' f : α → Eval β} : R m' m → (∀ a, R (f' a) (f a)) →
    R (m' >>= f') (m >>= f)
  observe {α β : Type} {m' m : Eval α} {k' k : Except Fault α → Eval β} : R m' m →
    (∀ r, Within F r → R (k' r) (k r)) → R (Eval.observe m' >>= k') (Eval.observe m >>= k)
  inTry {α : Type} {m' m : Eval α} : R m' m → R (Eval.inTry m') (Eval.inTry m)

variable {F : Fault → Prop} {α β : Type}

theorem within_ok (a : α) : Within F (.ok a) := fun f h => by cases h

theorem within_error {f : Fault} (h : F f) : Within F (.error f : Except Fault α) := fun f' h' => by
  cases h'
  exact h

namespace Core

variable {P : ∀ {α : Type}, Eval α → Prop} (L : Core F @P)
include L

theorem throw (v : Value) : P (Eval.throw v : Eval α) := L.fail (L.thrown v)

theorem onHeap (f : Heap → α) : P (Eval.onHeap f) := L.read _ fun _ => rfl

theorem current : P Eval.current := L.read _ fun _ => rfl

theorem resume {r : Except Fault α} (h : Within F r) : P (Eval.resume r) := by
  cases r with
  | ok a => exact L.pure a
  | error f => exact L.fail (h f rfl)

theorem newObject {r : Record} (hr : r.Data) : P (Eval.newObject r) :=
  L.bind (L.allocate hr) fun id => L.pure (Value.object id)

/-! ### Faults -/

theorem raise (name message : String) : P (Eval.raise name message) :=
  L.bind (L.newObject (Record.data_error name message)) fun e =>
    L.bind (L.reportThrown (.ofName name) message) fun _ => L.pure e

theorem throwNew (name message : String) : P (Eval.throwNew name message : Eval α) :=
  L.bind (L.raise name message) fun e => L.throw e

theorem route (kind : ErrorKind) (message : String) : P (Eval.route kind message) :=
  L.recover kind message (L.pure _) (L.throwNew kind.name message)

theorem settle (r : Except Fault Value) : P (Eval.settle r) := by
  unfold Eval.settle
  split
  · exact L.pure _
  · exact L.pure _
  next e =>
    exact L.recover e.kind e.message (L.pure _)
      (L.bind (L.raise e.kind.name e.message) fun v => L.pure _)

theorem routeOnly (kind : ErrorKind) (message : String) : P (Eval.routeOnly kind message) :=
  L.bind (L.route kind message) fun _ => L.pure ()

/-- A law of single evaluations, read as one of pairs of which the first does not matter. -/
theorem paired : Paired F fun _ m => P m where
  core := L
  bind := L.bind
  observe := L.observe
  inTry := L.inTry

end Core

/-! ### What stands still -/

structure Steady (F : Fault → Prop) (R : ∀ {α : Type}, Eval α → Eval α → Prop) : Prop where
  thrown (v : Value) : F (.thrown v)
  still {α : Type} {m : Eval α} : (∀ s, (m s).2.frame = s.frame) → (∀ s, (m s).2.store = s.store) →
    (∀ s f, (m s).1 = .failed f → F f) → R m m
  bind {α β : Type} {m' m : Eval α} {f' f : α → Eval β} : R m' m → (∀ a, R (f' a) (f a)) →
    R (m' >>= f') (m >>= f)
  observe {α β : Type} {m' m : Eval α} {k' k : Except Fault α → Eval β} : R m' m →
    (∀ r, Within F r → R (k' r) (k r)) → R (Eval.observe m' >>= k') (Eval.observe m >>= k)
  inTry {α : Type} {m' m : Eval α} : R m' m → R (Eval.inTry m') (Eval.inTry m)
  allocate {r : Record} : r.Data → R (Eval.allocate r) (Eval.allocate r)

namespace Steady

variable {R : ∀ {α : Type}, Eval α → Eval α → Prop} (L : Steady F @R)
include L

theorem read (f : Session → α) : R (Eval.read f) (Eval.read f) :=
  L.still (fun _ => rfl) (fun _ => rfl) fun _ _ h => by cases h

theorem modify {f : Session → Session} (hframe : ∀ s, (f s).frame = s.frame)
    (hstore : ∀ s, (f s).store = s.store) : R (Eval.modify f) (Eval.modify f) :=
  L.still hframe hstore fun _ _ h => by cases h

theorem core : Core F fun m => R m m where
  pure a := L.read fun _ => a
  bind := L.bind
  exhausted := L.still (fun _ => rfl) (fun _ => rfl) fun _ _ h => by cases h
  thrown := L.thrown
  fail hf := L.still (fun _ => rfl) (fun _ => rfl) fun _ _ h => by
    cases h
    exact hf
  observe := L.observe
  read f _ := L.read f
  allocate := L.allocate
  inTry := L.inTry
  reportThrown _ _ := L.modify (fun _ => rfl) fun _ => rfl
  recover _ _ _ _ hm hm' := L.bind (L.read _) fun recovers => by
    cases recovers with
    | true => exact L.bind (L.modify (fun _ => rfl) fun _ => rfl) fun _ => hm
    | false => exact hm'

theorem paired : Paired F @R where
  core := L.core
  bind := L.bind
  observe := L.observe
  inTry := L.inTry

theorem leaf [Platform] {keep : ObjectId → Prop} (hedit : ∀ {α : Type} {f : Store → Store × α},
    (∀ st : Store, st.Edits keep (f st).1) → R (Eval.onStore f) (Eval.onStore f)) :
    Leaf F keep fun m => R m m where
  toCore := L.core
  edit := hedit
  reportUnread _ := L.modify (fun _ => rfl) fun _ => rfl
  draw _ := L.modify (fun _ => rfl) fun _ => rfl

end Steady

/-! ### `try` statements and guards -/

namespace Paired

variable {R : ∀ {α : Type}, Eval α → Eval α → Prop} (L : Paired F @R)
include L

variable {r : Except Fault Flow} {k' k : Except Fault Flow → Eval α}
  {handler' handler : Option (Value → Eval Flow)}

theorem rethrow (hr : Within F r) (hk : ∀ r, Within F r → R (k' r) (k r)) :
    R (Eval.rethrow r >>= k') (Eval.rethrow r >>= k) := by
  unfold Eval.rethrow
  split
  next e =>
    rw [bind_assoc, bind_assoc]
    exact L.bind (L.core.raise _ _) fun v => hk _ (within_error (L.core.thrown v))
  · exact hk r hr

theorem handleWith (hh : Option.Rel (fun h' h => ∀ v, R (h' v) (h v)) handler' handler) (hr : Within F r)
    (hk : ∀ r, Within F r → R (k' r) (k r)) :
    R (Eval.handleWith handler' r >>= k') (Eval.handleWith handler r >>= k) := by
  cases hh with
  | none => exact hk r hr
  | some h =>
    obtain (v | e) | flow := r
    · exact L.observe (h v) hk
    · exact hk _ hr
    · exact hk _ hr

theorem attempt {seen : Except Fault Flow → Eval Unit} (hs : ∀ r, Within F r → R (seen r) (Pure.pure ()))
    {block' block : Eval Flow} {finalizer' finalizer : Option (Eval Flow)} (hb : R block' block)
    (hh : Option.Rel (fun h' h => ∀ v, R (h' v) (h v)) handler' handler)
    (hf : Option.Rel (fun f' f => R f' f) finalizer' finalizer) :
    R (attemptWith seen block' handler' finalizer') (Eval.attempt block handler finalizer) := by
  refine L.observe (L.inTry hb) fun r hr => L.bind (f := fun _ => Eval.rethrow r >>= _) (hs r hr)
    fun _ => L.rethrow hr fun r hr => L.handleWith hh hr fun r hr => ?_
  cases hf with
  | none => exact L.core.resume hr
  | some h =>
    refine L.bind h fun flow => ?_
    cases flow with
    | normal v => exact L.core.resume hr
    | returned v => exact L.core.pure _

theorem attempt_unwatched {block' block : Eval Flow} {handler' handler : Option (Value → Eval Flow)}
    {finalizer' finalizer : Option (Eval Flow)} (hb : R block' block)
    (hh : Option.Rel (fun h' h => ∀ v, R (h' v) (h v)) handler' handler)
    (hf : Option.Rel (fun f' f => R f' f) finalizer' finalizer) :
    R (Eval.attempt block' handler' finalizer') (Eval.attempt block handler finalizer) :=
  L.attempt (fun _ _ => L.core.pure ()) hb hh hf

theorem guarded (receiver : Value) (args : List Value) {body' body : Eval Value} (hb : R body' body) :
    R (Eval.guarded receiver args body') (Eval.guarded receiver args body) := by
  unfold Eval.guarded
  split
  · exact L.core.pure _
  · refine L.observe hb fun r hr => ?_
    split
    · exact L.core.route _ _
    · exact L.core.resume hr

end Paired

/-! ### Operations on the store -/

namespace Stem

variable [Platform] {keep : ObjectId → Prop} {P : ∀ {α : Type}, Eval α → Prop} (L : Stem F keep @P)
include L

theorem forgetAll (id : ObjectId) : P (Eval.forgetAll id) :=
  L.forget fun st => st.forgets_forgetAll id

theorem skip {widen : Chain → Store → Store} (h : ∀ chain (st : Store), st.Forgets (widen chain st)) :
    P (Eval.skip widen) :=
  L.bind L.current fun c => L.forget fun st => h c.lexical st

end Stem

namespace Leaf

variable [Platform] {keep : ObjectId → Prop} {P : ∀ {α : Type}, Eval α → Prop} (L : Leaf F keep @P)
include L

theorem edit_single {f : Store → Store × α} (hf : ∀ st : Store, st.Edit keep (f st).1) :
    P (Eval.onStore f) :=
  L.edit fun st => .single (hf st)

theorem newScope : P (Eval.newScope {}) := L.edit_single fun _ => .newScope

theorem declare (scope : ScopeId) (name : String) (v : Value) (mutable : Bool) :
    P (Eval.declare scope name v mutable) :=
  L.edit_single fun _ => .declare scope name v mutable

/-- What declares nothing is among the operations on the store. -/
theorem stem : Stem F keep @P where
  toCore := L.toCore
  put id key v := L.edit_single fun _ => .put id key v
  define hid key _ hp := L.edit_single fun _ => .define _ key _ hid hp
  delete hid key := L.edit_single fun _ => .delete _ key hid
  assign chain name v := L.edit_single fun _ => .assign chain name v
  forget hf := L.edit fun st => (hf st).edits
  reportUnread := L.reportUnread
  draw := L.draw

theorem declareVariable (scope : ScopeId) (name : String) (v? : Option Value) :
    P (Eval.declareVariable scope name v?) :=
  L.edit_single fun _ => .declareVariable scope name v?

theorem declareNames (scope : ScopeId) (names : List String) :
    P (Eval.declareNames scope names) :=
  L.edit (Store.edits_declareNames scope names)

end Leaf
end Eval
end Surmise
