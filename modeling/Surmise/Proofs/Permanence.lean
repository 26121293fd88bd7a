import Surmise.Proofs.Frame
import Surmise.Proofs.Observation.Regime
import Surmise.Proofs.Put

/-! Properties that can be neither written nor deleted stay. The one operation that does not ask for the
attributes of what it removes is shortening an array, and arrays never get such properties. -/
namespace Surmise

def Property.Fixed (p : Property) : Prop :=
  p.attributes.writable = false ∧ p.attributes.configurable = false

theorem Property.not_fixed_of_data {p : Property} (h : p.attributes = .data) : ¬ p.Fixed := fun hp => by
  have hw := hp.1
  rw [h] at hw
  cases hw

/-! ### Records -/

namespace Record
variable {r : Record} {key : String} {p : Property}

def Yielding (r : Record) : Prop :=
  r.objectClass = .array → ∀ key p, r.getOwn? key = some p → ¬ p.Fixed

theorem yielding_of_ne (h : r.objectClass ≠ .array) : r.Yielding := fun ha => (h ha).elim

theorem Yielding.put (h : r.Yielding) (key : String) (v : Value) : (r.put key v).1.Yielding := by
  intro ha k p hp hfixed
  rw [objectClass_of_shape (r.shape_put key v)] at ha
  obtain hdata | ⟨q, hq, hqp⟩ := r.inherits_put key v k p hp
  · exact Property.not_fixed_of_data hdata hfixed
  · refine h ha k q hq ?_
    rw [Property.Fixed, hqp]
    exact hfixed

theorem Yielding.define (h : r.Yielding) (key : String) (hp : p.attributes.configurable = true) :
    (r.define key p).1.Yielding := by
  intro ha k q hq hfixed
  rw [objectClass_of_shape (r.shape_define key p)] at ha
  have hset : (r.setProperty key p).getOwn? k = some q → False := by
    rw [getOwn?_setProperty]
    split
    · intro hpq
      cases hpq
      cases hp.symm.trans hfixed.2
    · exact fun hq => h ha k q hq hfixed
  unfold Record.define at hq
  split at hq
  · split at hq
    · exact hset hq
    · exact h ha k q hq hfixed
  · exact hset hq

theorem Yielding.delete (h : r.Yielding) (key : String) : (r.delete key).1.Yielding := by
  intro ha k p hp
  rw [objectClass_of_shape (r.shape_delete key)] at ha
  exact h ha k p (getOwn?_of_delete hp)

theorem yielding_emptyArray : emptyArray.Yielding := by
  intro _ key p hp hfixed
  rw [emptyArray, getOwn?_setProperty] at hp
  split at hp
  · cases hp
    cases hfixed.1
  · cases hp

theorem Yielding.putElements (h : r.Yielding) (i : Nat) (vs : List (Option Value)) :
    (r.putElements i vs).Yielding := by
  induction vs generalizing r i with
  | nil => exact h
  | cons v vs ih =>
    cases v with
    | none => exact ih h (i + 1)
    | some v => exact ih (h.put (indexKey i) v) (i + 1)

theorem Fresh.yielding (h : r.Fresh) : r.Yielding := by
  cases h with
  | error name message | closure f chain => exact yielding_of_ne nofun
  | elements vs => exact (yielding_emptyArray.putElements 0 vs).put "length" _
  | list vs => exact yielding_emptyArray.putElements 0 (vs.map some)
  | entries es =>
    refine yielding_of_ne ?_
    rw [objectClass_of_shape (shape_ofEntries es)]
    exact nofun

section Fixed

variable (hfixed : p.Fixed) (h : r.getOwn? key = some p)
include hfixed h

theorem getOwn?_put_fixed (hy : r.Yielding) (k : String) (v : Value) :
    (r.put k v).1.getOwn? key = some p := by
  by_cases hk : k = key
  · subst hk
    exact getOwn?_put_of_not_writable h hfixed.1 v
  · have ha : r.objectClass ≠ .array := fun ha => hy ha key p h hfixed
    rw [getOwn?_put_of_ne r hk (entangles_of_ne_array ha k key), h]

theorem getOwn?_define_fixed (k : String) (q : Property) :
    (r.define k q).1.getOwn? key = some p := by
  by_cases hk : k = key
  · subst hk
    have hno : p.allows q = false := by
      simp [Property.allows, hfixed.1, hfixed.2]
    simp [Record.define, h, hno]
  · rw [getOwn?_define_of_ne r hk, h]

end Fixed
end Record

/-! ### Stores -/

def Session.HasOwn (s : Session) (id : ObjectId) (key : String) (p : Property) : Prop :=
  (s.heap.record id).getOwn? key = some p

namespace Store

structure Settled (s : Store) : Prop where
  internal : s.heap.Admits Callable.Internal
  yielding : ∀ id, (s.heap.record id).Yielding

variable {s t : Store} {id : ObjectId} {key : String} {p : Property}

theorem Settled.allocate (h : s.Settled) {r : Record} (hr : r.Yielding)
    (hc : ∀ c, r.callable = some c → c.Internal) : (s.allocate r).1.Settled where
  internal := h.internal.allocate hc
  yielding id := by
    rw [Store.allocate, heap_onHeap, Heap.record_allocate]
    split
    · exact hr
    · exact h.yielding id

theorem getOwn?_allocate (h : (s.heap.record id).getOwn? key = some p) (r : Record) :
    ((s.allocate r).1.heap.record id).getOwn? key = some p := by
  rw [Store.allocate, heap_onHeap, Heap.record_allocate, if_neg fun hid => ?_, h]
  rw [Heap.record_of_size_le (Nat.le_of_eq hid.symm)] at h
  cases h

theorem Settled.update (h : s.Settled) {j : ObjectId} {f : Record → Record × Bool}
    (ht : t.heap = (s.heap.update j f).1) (hshape : ∀ r, (f r).1.shape = r.shape)
    (hy : ∀ r : Record, r.Yielding → (f r).1.Yielding)
    (hf : ∀ r : Record, r.Yielding → r.getOwn? key = some p → (f r).1.getOwn? key = some p) :
    t.Settled ∧ ((s.heap.record id).getOwn? key = some p → (t.heap.record id).getOwn? key = some p) := by
  refine ⟨⟨ht ▸ h.internal.update j f hshape, fun i => ?_⟩, fun hp => ?_⟩
  · rw [ht, Heap.record_update]
    split
    · exact hy _ (h.yielding i)
    · exact h.yielding i
  · rw [ht, Heap.record_update]
    split
    · exact hf _ (h.yielding id) hp
    · exact hp

theorem Settled.edit (h : s.Settled) (hp : p.Fixed) (he : s.Edit (fun _ => False) t) :
    t.Settled ∧ ((s.heap.record id).getOwn? key = some p → (t.heap.record id).getOwn? key = some p) := by
  obtain ht | ⟨j, k, v, ht⟩ | ⟨j, k, q, _, hq, ht⟩ | ⟨j, k, _, ht⟩ := he.heap_cases
  · exact ⟨⟨ht ▸ h.internal, ht ▸ h.yielding⟩, fun hs => ht ▸ hs⟩
  · exact h.update ht (fun r => r.shape_put k v) (fun _ hr => hr.put k v)
      fun _ hr hs => Record.getOwn?_put_fixed hp hs hr k v
  · exact h.update ht (fun r => r.shape_define k q) (fun _ hr => hr.define k hq)
      fun _ _ hs => Record.getOwn?_define_fixed hp hs k q
  · exact h.update ht (fun r => r.shape_delete k) (fun _ hr => hr.delete k)
      fun _ _ hs => Record.getOwn?_delete_of_not_configurable hs hp.2 k

/-- Being settled, and having a fixed property, is kept by whatever code does. -/
theorem regime_fixed (hp : p.Fixed) (id : ObjectId) (key : String) :
    Regime (fun _ _ => True) Settled fun s => (s.heap.record id).getOwn? key = some p where
  functions hs j c hc := by
    cases c with
    | closure f chain => exact Stmt.allIn_true _ f.body
    | builtin b => trivial
    | foreign name arity guarded => exact (hs.internal j _ hc).elim
  edit hs he := hs.edit hp he
  data hs hr := ⟨hs.allocate hr.1.yielding hr.admitted, fun h => getOwn?_allocate h _⟩
  closure chain hs _ := ⟨hs.allocate (Record.Fresh.closure _ chain).yielding fun c hc => by
    cases hc
    trivial, fun h => getOwn?_allocate h _⟩

end Store

/-! ### New sessions -/

namespace Store

structure Arrayless (s : Store) : Prop where
  internal : s.heap.Admits Callable.Internal
  plain : ∀ id, (s.heap.record id).objectClass ≠ .array

theorem Arrayless.allocate {s : Store} (h : s.Arrayless) {r : Record} (hr : r.Native) :
    (s.allocate r).1.Arrayless where
  internal := h.internal.allocate fun c hc => by
    obtain ⟨b, rfl⟩ := hr.builtin c hc
    trivial
  plain id := by
    rw [Store.allocate, heap_onHeap, Heap.record_allocate]
    split
    · cases hr <;> exact nofun
    · exact h.plain id

theorem Arrayless.define {s : Store} (h : s.Arrayless) (id : ObjectId) (key : String) (p : Property) :
    (s.define id key p).1.Arrayless where
  internal := h.internal.define id key p
  plain j := by
    rw [record_define]
    split
    · rw [Record.objectClass_of_shape (Record.shape_define _ key p)]
      exact h.plain j
    · exact h.plain j

theorem arrayless_empty : ({} : Store).Arrayless where
  internal _ _ hc := by cases hc
  plain _ h := by cases h

end Store

theorem Session.settled_new (options : Options) (randoms : Randoms) :
    (new options randoms).store.Settled := by
  obtain ⟨st, h, he⟩ := Store.addGlobal_keeps (P := Store.Arrayless) (fun _ _ hr h => h.allocate hr)
    (fun _ id key p h => h.define id key p) {} (Store.arrayless_empty.allocate .plain)
  unfold new fromStore
  rw [he]
  exact ⟨h.internal, fun id => Record.yielding_of_ne (h.plain id)⟩

/-- The constants of the language are properties of the global object in a new session. -/
theorem Session.hasOwn_new (options : Options) (randoms : Randoms) {c : String × Value}
    (hc : c ∈ Store.globalConstants) :
    (new options randoms).HasOwn (new options randoms).globalObject c.1 ⟨c.2, .fixed⟩ := by
  obtain ⟨st, h, he⟩ := Store.addGlobal_keeps_constants
    (P := fun st => (st.heap.record ⟨0⟩).getOwn? c.1 = some ⟨c.2, .fixed⟩)
    (fun s r _ h => Store.getOwn?_allocate h r)
    (fun s id key p h => by
      rw [Store.record_define]
      split
      · exact Record.getOwn?_define_fixed ⟨rfl, rfl⟩ h key p
      · exact h) {} (by
    simp only [Store.globalConstants, List.mem_cons, List.not_mem_nil, or_false] at hc
    obtain rfl | rfl | rfl := hc <;> rfl)
  unfold HasOwn heap new fromStore
  rw [he]
  exact h

/-! ### Runs -/

theorem Session.runAll_append (run : (source filename : String) → Session → RunResult × Session)
    (before after : List (String × String)) (s : Session) :
    (runAll run (before ++ after) s).2 = (runAll run after (runAll run before s).2).2 := by
  induction before generalizing s with
  | nil => rfl
  | cons file before ih => exact ih (run file.1 file.2 s).2

def Session.afterRuns [Platform] (options : Options) (randoms : Randoms) (files : List (String × String)) :
    Session :=
  (runAll (fun source filename s => s.runFile .standard source filename) files (new options randoms)).2

/-- However programs are run one after the other in a new session, a property that could be neither
written nor deleted is still there in the end if it was there after some of them, and also if it was there
at some point on the way of the code: to a run after which it is not there, no observer who waits for it
has made a difference. -/
theorem fixed_properties_stay [Platform] (options : Options) (randoms : Randoms) (id : ObjectId)
    (key : String) (p : Property) (hp : p.Fixed) :
    (∀ before after, (Session.afterRuns options randoms before).HasOwn id key p →
        (Session.afterRuns options randoms (before ++ after)).HasOwn id key p) ∧
      ∀ (o : Observer), o.Awaits (fun s => s.HasOwn id key p) → ∀ files,
        ¬ (Session.afterRuns options randoms files).HasOwn id key p →
          Session.runAll (o.runFile o.standard) files (.new options randoms) =
            Session.runAll (fun source filename s => s.runFile .standard source filename) files
              (.new options randoms) := by
  have hnew := Session.settled_new options randoms
  have H := Store.regime_fixed hp id key
  have hread : ∀ {source prog}, Program.parse source = .ok prog →
      Stmt.AllIn True (fun _ _ => True) (.head prog.strict prog.body) prog.body :=
    fun _ => Stmt.allIn_true _ _
  refine ⟨fun before after h => ?_, fun o ho files hend => ?_⟩
  · have hsilent : Observer.silent.Heeds (fun _ _ => True) Store.Settled fun s =>
        (s.heap.record id).getOwn? key = some p := (Observer.awaits_silent _).heeds _ _
    have hbefore := (H.runAll_standard hsilent hread hnew before).1
    unfold Session.afterRuns
    rw [Session.runAll_append]
    exact (H.runAll_standard hsilent hread hbefore.order after).1.lasts h
  · exact (H.runAll_standard (ho.heeds _ _) hread hnew files).2 hend

/-- A constant of the global object is assigned to, declared, forgotten and written through an unknown
key. -/
theorem fixed_properties_stay_undefined :
    (⟨.undefined, .fixed⟩ : Property).Fixed ∧
      (Session.afterRuns {} .standard [("undefined = 1; var undefined = 2; this.undefined = 3", "a.js"),
          ("if (Math.random()) undefined = 4; this[Math.random()] = 5", "b.js")]).HasOwn
        (Session.new {}).globalObject "undefined" ⟨.undefined, .fixed⟩ :=
  have hnew : (Session.afterRuns {} .standard []).HasOwn (Session.new {}).globalObject "undefined"
      ⟨.undefined, .fixed⟩ := Session.hasOwn_new {} .standard (.tail _ (.tail _ (.head _)))
  ⟨⟨rfl, rfl⟩, (fixed_properties_stay {} .standard _ "undefined" _ ⟨rfl, rfl⟩).1 [] _ hnew⟩

end Surmise
