import Surmise.Proofs.Locals.Evaluation

/-! Calls of functions whose bodies are local: the value is the one that the body computes from the
arguments. Where some arguments are not known, so is the value, or it is what all the arguments give;
but a `return` in skipped code is lost. -/
namespace Surmise

open Eval (run_bind run_read_bind run_onStore)

/-! ### The scope of a call -/

namespace Store

variable {scope : ScopeId} {bound : List String} {l : Locals} {st : Store}

structure Declares (scope : ScopeId) (bound : List String) (l : Locals) (st : Store) : Prop where
  size : scope.index < st.scopes.size
  object : (st.scope scope).object = none
  binding : ∀ name, st.binding? scope name = if name ∈ bound then some ⟨l name, true⟩ else none
  rest : ∀ name, name ∉ bound → l name = .undefined

theorem declares_newScope (st : Store) :
    (st.newScope {}).1.Declares ⟨st.scopes.size⟩ [] fun _ => .undefined := by
  have hs : (st.newScope {}).1.scope ⟨st.scopes.size⟩ = {} := by rw [scope_newScope, if_pos rfl]
  refine ⟨by simp, by rw [hs], fun name => ?_, fun _ _ => rfl⟩
  rw [binding?, hs]
  rfl

theorem Declares.declare (h : st.Declares scope bound l) (name : String) (v : Value) :
    (st.declare scope name v true).Declares scope (bound ++ [name]) (l.set name v) where
  size := by simpa [Store.declare] using h.size
  object := (object_bind st scope scope name _).trans h.object
  binding n := by
    have hold := h.binding n
    by_cases he : name = n
    · simp [Store.declare, binding?, scope_bind, h.size, Dict.get?_insert, Locals.set, he]
    · simpa [Store.declare, binding?, scope_bind, h.size, Dict.get?_insert, Locals.set, he, Ne.symm he]
        using hold
  rest n hn := by
    simp only [List.mem_append, List.mem_singleton, not_or] at hn
    simpa [Locals.set, hn.2] using h.rest n hn.1

theorem Declares.declareVariable (h : st.Declares scope bound l) (name : String) :
    (st.declareVariable scope name none).Declares scope (bound ++ [name]) l ∧
      (st.declareVariable scope name none).heap = st.heap := by
  have hholder : st.holder? scope name = none := by simp [holder?, h.object]
  have hb := h.binding name
  unfold Store.declareVariable
  rw [hholder]
  by_cases hn : name ∈ bound
  · rw [if_pos hn] at hb
    rw [hb]
    refine ⟨⟨h.size, h.object, fun n => ?_, fun n hm => h.rest n ?_⟩, rfl⟩
    · rw [h.binding n]
      by_cases he : n = name <;> simp [he, hn]
    · exact fun hm' => hm (by simp [hm'])
  · rw [if_neg hn] at hb
    rw [hb]
    have hset : l.set name .undefined = l := by
      funext n
      by_cases he : n = name
      · simp [Locals.set, he, h.rest name hn]
      · simp [Locals.set, he]
    have hd := h.declare name .undefined
    rw [hset] at hd
    exact ⟨hd, rfl⟩

theorem Declares.declareNames (h : st.Declares scope bound l) (names : List String) :
    (names.foldl (fun st name => st.declareVariable scope name none) st).Declares scope
        (bound ++ names) l ∧
      (names.foldl (fun st name => st.declareVariable scope name none) st).heap = st.heap := by
  induction names generalizing st bound with
  | nil => simpa using h
  | cons name names ih =>
    obtain ⟨hd, hheap⟩ := h.declareVariable name
    obtain ⟨hds, hheaps⟩ := ih hd
    refine ⟨?_, hheaps.trans hheap⟩
    simpa using hds

theorem Declares.holds (h : st.Declares scope bound l) : st.Holds [] scope bound l where
  inner _ hid := by cases hid
  size := h.size
  binding name hn := by rw [h.binding name, if_pos hn]

end Store

variable {s : Session}

theorem Eval.run_bindParams {scope : ScopeId} (ps : List Identifier) (args : List Value) {bound : List String}
    {l : Locals} (h : s.store.Declares scope bound l) :
    ∃ st, Eval.bindParams scope ps args s = (.done (), { s with store := st }) ∧
      st.heap = s.heap ∧
      st.Declares scope (bound ++ ps.map Identifier.name) (Locals.bindParams ps args l) := by
  induction ps generalizing args s bound l with
  | nil => exact ⟨s.store, rfl, rfl, by simpa [Locals.bindParams] using h⟩
  | cons p ps ih =>
    have hd := h.declare p.name (args.headD .undefined)
    obtain ⟨st, hrun, hheap, hst⟩ := ih args.tail
      (s := { s with store := s.store.declare scope p.name (args.headD .undefined) true }) hd
    refine ⟨st, (run_bind (run_onStore _ s)).trans hrun, hheap, ?_⟩
    simpa [Locals.bindParams] using hst

theorem Flow.result_eq (flow : Flow) : flow.result = flow.returned?.getD .undefined := by
  cases flow <;> rfl

/-! ### Calls -/

variable {f : Function} {chain : Chain} {id : ObjectId}

/-- Once the parameters are bound, the variables join them and the body does what it computes. -/
theorem Function.body_local (call : Invoke) (hf : f.isLocal = true) {scope : ScopeId} {c : Context}
    (hc : c.lexical = scope :: chain) {args : List Value}
    (hst : s.store.Declares scope (f.params.map Identifier.name) (f.locals args)) :
    ∃ flow t, Eval.inContext c (do
        Eval.declareBody scope f.body
        Stmt.execAll call none f.body) s = (.done flow, t) ∧
      flow.returned? = (Stmt.computeAll s.heap f.body (f.locals args)).1 := by
  obtain ⟨hdeclared, hheap⟩ := hst.declareNames (Stmt.allVariableNames f.body)
  have hbody : Locals.Does scope chain f.localNames s.heap (fun flow r => flow.returned? = r)
      (Stmt.execAll call none f.body) (Stmt.computeAll s.heap f.body) := Stmt.doesAll none f.body hf
  obtain ⟨flow, t, hrun, hflow, -⟩ := hbody [] { s with
    contexts := c :: s.contexts
    store := (Stmt.allVariableNames f.body).foldl
      (fun st name => st.declareVariable scope name none) s.store } _ hc hheap hdeclared.holds
  refine ⟨flow, t.leave s.contexts.length, ?_, hflow⟩
  unfold Eval.inContext Eval.declareBody
  rw [Stmt.functions_local hf]
  change (match Stmt.execAll call none f.body _ with | (r, s') => (r, s'.leave s.contexts.length)) = _
  rw [hrun]

/-- Whatever the mode and the context, a call that is not too deep gives what the body computes. -/
theorem Function.apply_local (call : Invoke) (hf : f.isLocal = true) (chain : Chain) (receiver : Value)
    (args : List Value) (hd : s.depthExceeded = false) :
    ∃ t, f.apply call chain receiver args s = (.done (f.compute s.heap args), t) := by
  obtain ⟨st, hparams, hheap, hst⟩ := Eval.run_bindParams f.params args
    (s := { s with store := (s.store.newScope {}).1 }) s.store.declares_newScope
  unfold Function.apply
  rw [run_read_bind, hd, if_neg (by simp)]
  rw [show Eval.newScope {} = Eval.onStore (Store.newScope {}) from rfl,
    run_bind (run_onStore (Store.newScope {}) s)]
  rw [show (Store.newScope {} s.store).2 = ⟨s.store.scopes.size⟩ from rfl, run_bind hparams]
  unfold Eval.receiverFor
  rw [run_read_bind, show Eval.current = Eval.read Session.current from rfl, run_read_bind]
  rw [List.nil_append] at hst
  generalize hc : Context.mk _ _ _ _ _ _ = c
  have hlex : c.lexical = ⟨s.store.scopes.size⟩ :: chain := by rw [← hc]
  obtain ⟨flow, t, hrun, hflow⟩ := Function.body_local call hf hlex (s := { s with store := st }) hst
  refine ⟨t, ?_⟩
  rw [run_bind hrun, Flow.result_eq, hflow]
  have hh : Session.heap { s with store := st } = s.heap := hheap
  rw [hh]
  rfl

theorem Host.call_closure [Platform] (host : Host)
    (hid : s.heap.callable? (.object id) = some (.closure f chain))
    (receiver : Value) (args : List Value) (options : CallOptions) :
    host.call (.object id) receiver args options s =
      f.apply (invoke host (s.options.maxCallDepth + 1)) chain receiver args s := by
  unfold Host.call Session.contextBudget
  rw [invoke, relayBudget, relay, callWith, if_neg (by simp [Value.isUnknown]), run_read_bind, hid]
  rfl

theorem Host.call_local [Platform] (host : Host)
    (hid : s.heap.callable? (.object id) = some (.closure f chain))
    (hf : f.isLocal = true) (hd : s.depthExceeded = false) (receiver : Value) (args : List Value)
    (options : CallOptions) :
    (host.call (.object id) receiver args options s).1 = .done (f.compute s.heap args) := by
  rw [host.call_closure hid]
  obtain ⟨t, ht⟩ :=
    Function.apply_local (invoke host (s.options.maxCallDepth + 1)) hf chain receiver args hd
  rw [ht]

theorem Host.call_refused [Platform] (host : Host)
    (hid : s.heap.callable? (.object id) = some (.closure f chain))
    (hd : s.depthExceeded = true) (hr : s.recovers = true) (receiver : Value) (args : List Value)
    (options : CallOptions) : (host.call (.object id) receiver args options s).1 = .done .unknown := by
  rw [host.call_closure hid]
  unfold Function.apply
  rw [run_read_bind, hd, if_pos rfl, Eval.run_route hr]

/-- With some arguments unknown, a call of a function on local variables is unknown or has the value that
it has with all of them, provided that no choice with a `return` in it is skipped. -/
theorem call_covers_unless_return_skipped [Platform] (host : Host) (s : Session) (hs : s.recovers = true)
    (id : ObjectId) (f : Function) (chain : Chain)
    (hid : s.heap.callable? (.object id) = some (.closure f chain)) (hf : f.isLocal = true)
    (receiver : Value) (args args' : List Value) (hargs : List.Forall₂ Value.Covers args args')
    (options : CallOptions) (hsteady : f.steady s.heap args = true) :
    ∃ v w, (host.call (.object id) receiver args options s).1 = .done v ∧
      (host.call (.object id) receiver args' options s).1 = .done w ∧ (v = .unknown ∨ v = w) := by
  cases hd : s.depthExceeded with
  | true =>
    exact ⟨_, _, host.call_refused hid hd hs receiver args options,
      host.call_refused hid hd hs receiver args' options, .inl rfl⟩
  | false =>
    exact ⟨_, _, host.call_local hid hf hd receiver args options,
      host.call_local hid hf hd receiver args' options, f.covers_compute s.heap hargs hsteady⟩

/-! ### Early returns -/

/-- The function
`function (x, y) { var z; if (x) { z = true } else { z = false } if (y) { return z } }`. -/
def Function.choosing : Function :=
  .mk none [⟨"x", default⟩, ⟨"y", default⟩]
    [.declare .variable [.mk ⟨"z", default⟩ none],
      .branch (.identifier ⟨"x", default⟩)
        (.block [.expression (.assign .assign (.name ⟨"z", default⟩) (.literal (.boolean true)))])
        (some (.block
          [.expression (.assign .assign (.name ⟨"z", default⟩) (.literal (.boolean false)))])),
      .branch (.identifier ⟨"y", default⟩) (.block [.ret (some (.identifier ⟨"z", default⟩))]) none]
    false default

/-- The function `function (x) { if (x) { return true } return false }`. -/
def Function.early : Function :=
  .mk none [⟨"x", default⟩]
    [.branch (.identifier ⟨"x", default⟩) (.block [.ret (some (.literal (.boolean true)))]) none,
      .ret (some (.literal (.boolean false)))]
    false default

def Session.returning : Session where
  options := {}
  store :=
    { heap := ⟨#[.empty .object, .ofCallable (.closure .choosing []),
        .ofCallable (.closure .early [])]⟩ }
  globalObject := ⟨0⟩
  globalContext := ⟨[], [], .undefined, false, false, "a.js"⟩

/-- The first choice is skipped and returns nothing, the second one is decided. -/
theorem call_covers_unless_return_skipped_choosing :
    Session.returning.recovers = true ∧
      Session.returning.heap.callable? (.object ⟨1⟩) = some (.closure .choosing []) ∧
      Function.choosing.isLocal = true ∧
      Function.choosing.steady Session.returning.heap [.unknown, .boolean true] = true ∧
      ∃ v w,
        (Host.standard.call (.object ⟨1⟩) .undefined [.unknown, .boolean true] {} .returning).1 =
          .done v ∧
        (Host.standard.call (.object ⟨1⟩) .undefined [.boolean false, .boolean true] {} .returning).1 =
          .done w ∧
        (v = .unknown ∨ v = w) :=
  have hsteady : Function.choosing.steady Session.returning.heap [.unknown, .boolean true] = true := by
    decide +kernel
  ⟨rfl, rfl, rfl, hsteady, call_covers_unless_return_skipped .standard .returning rfl ⟨1⟩ .choosing [] rfl
    rfl .undefined _ _ (.cons (.inl rfl) (.cons (.inr rfl) .nil)) {} hsteady⟩

theorem Function.compute_early (h : Heap) (v : Value) :
    Function.early.compute h [v] = .boolean (v.truth? = some true) := by
  have hx : Expr.compute h (.identifier ⟨"x", default⟩) (Function.early.locals [v]) =
      (v, Function.early.locals [v]) := rfl
  change ((Stmt.computeAll h (.branch (.identifier ⟨"x", default⟩) _ none :: [_]) _).1.getD _) = _
  rw [Stmt.computeAll_cons, Stmt.compute_branch, hx]
  rcases v.truth? with _ | _ | _ <;> rfl

/-- The `return` of a skipped branch is lost: the call goes on behind it, and the value is not that of the
call with the argument. -/
theorem skipped_return_is_lost :
    Session.returning.recovers = true ∧
      Session.returning.heap.callable? (.object ⟨2⟩) = some (.closure .early []) ∧
      Function.early.isLocal = true ∧
      (Host.standard.call (.object ⟨2⟩) .undefined [.unknown] {} .returning).1 =
        .done (.boolean false) ∧
      (Host.standard.call (.object ⟨2⟩) .undefined [.boolean true] {} .returning).1 =
        .done (.boolean true) := by
  have hcall (v : Value) : (Host.standard.call (.object ⟨2⟩) .undefined [v] {} .returning).1 =
      .done (.boolean (v.truth? = some true)) := by
    rw [Host.call_local .standard rfl rfl rfl, Function.compute_early]
  exact ⟨rfl, rfl, rfl, hcall .unknown, hcall (.boolean true)⟩

end Surmise
