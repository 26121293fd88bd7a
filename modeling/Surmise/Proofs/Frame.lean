import Surmise.Proofs.Tracking

/-! What evaluation finds in a session besides its store is there again when it has ended, whichever way
it ended. New sessions are among those for which this holds. -/
namespace Surmise

/-! ### New sessions -/

inductive Record.Native : Record → Prop
  | plain : Native (.empty .object)
  | math : Native (.empty .math)
  | json : Native (.empty .json)
  | function (b : Builtin) : Native (.ofCallable (.builtin b))

theorem Record.Native.builtin {r : Record} (h : r.Native) (c : Callable) (hc : r.callable = some c) :
    ∃ b, c = .builtin b := by
  cases h with
  | function b =>
    cases hc
    exact ⟨b, rfl⟩
  | _ => cases hc

namespace Store

def globalConstants : List (String × Value) :=
  [("NaN", .number Number.nan), ("Infinity", .number Number.infinity), ("undefined", .undefined)]

/-- The global object gets its constants, its functions, `Math` and `JSON`, in this order; then comes its
scope. -/
theorem addGlobal_steps {P : Store → Prop} (s : Store)
    (constants : P (globalConstants.foldl (defineConstant ⟨s.heap.size⟩)
      (s.allocate (.empty .object)).1))
    (function : ∀ t, P t → ∀ b ∈ Builtin.globals, P (t.defineCallable ⟨s.heap.size⟩ (.builtin b)))
    (math : ∀ t, P t → P (t.defineNamespace ⟨s.heap.size⟩ .math
      (mathConstants.map fun c => (c.1, .number c.2)) (MathFunction.all.map .math)))
    (json : ∀ t, P t → P (t.defineNamespace ⟨s.heap.size⟩ .json [] [.jsonParse, .jsonStringify])) :
    ∃ st, P st ∧ s.addGlobal =
      ((st.newScope { object := some ⟨s.heap.size⟩ }).1, ⟨s.heap.size⟩, ⟨st.scopes.size⟩) := by
  have hid : (s.allocate (.empty .object)).2 = ⟨s.heap.size⟩ := rfl
  rw [addGlobal]
  -- Each store is generalised once its property is known: left in place, it would be computed out.
  generalize s.allocate (.empty .object) = a at constants hid ⊢
  obtain ⟨s₁, global⟩ := a
  subst hid
  have h := json _ (math _ (List.foldlRecOn Builtin.globals _ constants function))
  dsimp only [globalConstants] at h ⊢
  generalize defineNamespace _ _ _ _ _ = st at h ⊢
  exact ⟨st, h, rfl⟩

section Populate

variable {P : Store → Prop}
  (allocate : ∀ (s : Store) (r : Record), r.Native → P s → P (s.allocate r).1)
  (define : ∀ (s : Store) (id : ObjectId) (key : String) (p : Property), P s → P (s.define id key p).1)
include allocate define

theorem defineBuiltin_keeps (target : ObjectId) (s : Store) (b : Builtin) (h : P s) :
    P (s.defineCallable target (.builtin b)) :=
  define _ target _ _ (allocate s _ (.function b) h)

theorem defineNamespace_keeps (target : ObjectId) (s : Store) (c : ObjectClass)
    (hc : (Record.empty c).Native) (constants : List (String × Value)) (functions : List Builtin)
    (h : P s) : P (s.defineNamespace target c constants functions) := by
  have h₁ := allocate s (.empty c) hc h
  have h₂ := List.foldlRecOn constants (defineConstant (s.allocate (.empty c)).2) h₁
    fun s hs a _ => define s _ a.1 _ hs
  have h₃ := List.foldlRecOn functions
    (fun t b => t.defineCallable (s.allocate (.empty c)).2 (.builtin b)) h₂
    fun s hs b _ => defineBuiltin_keeps allocate define _ s b hs
  exact define _ target _ _ h₃

/-- After the constants, the global object is filled by allocating built-in functions and defining
properties. -/
theorem addGlobal_keeps_constants (s : Store)
    (h : P (globalConstants.foldl (defineConstant ⟨s.heap.size⟩) (s.allocate (.empty .object)).1)) :
    ∃ st, P st ∧ s.addGlobal =
      ((st.newScope { object := some ⟨s.heap.size⟩ }).1, ⟨s.heap.size⟩, ⟨st.scopes.size⟩) :=
  addGlobal_steps s h (fun t ht b _ => defineBuiltin_keeps allocate define _ t b ht)
    (fun t ht => defineNamespace_keeps allocate define _ t _ .math _ _ ht)
    fun t ht => defineNamespace_keeps allocate define _ t _ .json _ _ ht

theorem addGlobal_keeps (s : Store) (h : P (s.allocate (.empty .object)).1) :
    ∃ st, P st ∧ s.addGlobal =
      ((st.newScope { object := some ⟨s.heap.size⟩ }).1, ⟨s.heap.size⟩, ⟨st.scopes.size⟩) :=
  addGlobal_keeps_constants allocate define s <|
    List.foldlRecOn globalConstants (defineConstant ⟨s.heap.size⟩) h fun s hs a _ => define s _ a.1 _ hs

end Populate

end Store

theorem Session.internal_new (options : Options) (randoms : Randoms) :
    (new options randoms).heap.Internal := by
  obtain ⟨st, h, he⟩ := Store.addGlobal_keeps (P := fun s => s.heap.Internal)
    (fun s r hr hi => Heap.Admits.allocate hi fun c hc => by obtain ⟨b, rfl⟩ := hr.builtin c hc; trivial)
    (fun s id key p hi => Heap.Admits.define hi id key p) {}
    (Heap.Admits.allocate (fun id c hc => by cases hc) fun c hc => by cases hc)
  unfold heap new fromStore
  rw [he]
  exact h

/-! ### Evaluation -/

/-- Runs, calls, evaluation of parts of a program and `eval` leave the stack of contexts, the global
context and the count of `try` blocks as they were, with a value or without one. -/
theorem evaluation_keeps_frame [Platform] (host : Host) (hr : host.ReadsPrograms) (s : Session)
    (hs : s.heap.Internal) :
    (∀ source filename, (s.runFile host source filename).2.frame = s.frame) ∧
      (∀ callee receiver args options,
        (host.call callee receiver args options s).2.frame = s.frame ∧
          (host.complete callee receiver args options s).2.frame = s.frame) ∧
      ∀ contexts,
        (∀ e : Expr, (e.eval (invoke host contexts) s).2.frame = s.frame) ∧
          (∀ last body, (Stmt.execAll (invoke host contexts) last body s).2.frame = s.frame) ∧
          ∀ options v,
            (Builtin.evalSource host (invoke host contexts) options v s).2.frame = s.frame := by
  have hcall := tracked_call hr
  refine ⟨fun source filename => (evolves_runFile hr source filename hs).frame_eq,
    fun callee receiver args options => ⟨?_, ?_⟩, fun contexts => ⟨fun e => ?_, fun last body => ?_,
      fun options v => ?_⟩⟩
  · exact (hcall callee receiver args options s hs).frame_eq
  · exact (tracked_complete hr callee receiver args options s hs).frame_eq
  · exact (Expr.tracked (tracked_invoke hr contexts) e s hs).frame_eq
  · exact (Stmt.trackedAll (tracked_invoke hr contexts) last body s hs).frame_eq
  · exact (Builtin.tracked_evalSource hr (tracked_invoke hr contexts) options v s hs).frame_eq

/-- A throw after nested uses of `eval`, in a new session. -/
theorem evaluation_keeps_frame_thrown :
    Host.standard.ReadsPrograms ∧ (Session.new {}).heap.Internal ∧
      ((Session.new {}).runFile Host.standard
        "var x = eval('eval(1), eval(unread = 2)') + JSON.parse(3, eval); throw x" "thrown.js").2.frame =
          (Session.new {}).frame :=
  ⟨Host.standard_readsPrograms, Session.internal_new {} .standard,
    (evaluation_keeps_frame Host.standard Host.standard_readsPrograms (Session.new {})
      (Session.internal_new {} .standard)).1 _ _⟩

end Surmise
