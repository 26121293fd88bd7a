import Surmise.Proofs.EvalCode.Rethrowing

/-! A direct `eval` of an expression is that expression: its code runs in one more context, with one more
scope that nothing is ever bound in, and neither can be told from outside. -/
namespace Surmise

open Eval

/-! ### One more scope -/

namespace Store

def roomier (s : Store) : Store := (s.newScope {}).1

def spare (s : Store) : ScopeId := (s.newScope {}).2

theorem scope_roomier (s : Store) (id : ScopeId) : s.roomier.scope id = s.scope id :=
  s.scope_newScope_empty id

theorem ownSlot?_roomier (s : Store) (id : ScopeId) (name : String) :
    s.roomier.ownSlot? id name = s.ownSlot? id name := by
  unfold ownSlot? binding?
  rw [scope_roomier]
  rfl

theorem ownSlot?_spare (s : Store) (name : String) : s.roomier.ownSlot? s.spare name = none := by
  have hscope : s.scope s.spare = {} := scope_of_size_le (Nat.le_refl s.scopes.size)
  rw [ownSlot?_roomier]
  unfold ownSlot? binding?
  rw [hscope]
  rfl

theorem slot?_roomier (s : Store) (chain : Chain) (name : String) :
    s.roomier.slot? chain name = s.slot? chain name := by
  induction chain with
  | nil => rfl
  | cons id outer ih => rw [slot?, slot?, ownSlot?_roomier, ih]

theorem lookup_roomier (s : Store) (chain : Chain) (name : String) :
    s.roomier.lookup (s.spare :: chain) name = s.lookup chain name := by
  rw [lookup_eq, lookup_eq, slot?, ownSlot?_spare, slot?_roomier]

theorem bind_roomier {s : Store} {id : ScopeId} (h : id.index < s.scopes.size) (name : String)
    (b : Binding) : s.roomier.bind id name b = (s.bind id name b).roomier := by
  refine congrArg (Store.mk s.heap) (Array.ext_getElem? fun j => ?_)
  change ((s.scopes.push {}).modify id.index _)[j]? = ((s.scopes.modify id.index _).push {})[j]?
  rw [Array.getElem?_modify, Array.getElem?_push, Array.getElem?_push, Array.size_modify,
    Array.getElem?_modify]
  by_cases hj : j = s.scopes.size
  · simp [hj, Nat.ne_of_lt h]
  · simp [hj]

theorem put_roomier (s : Store) (id : ObjectId) (key : String) (v : Value) :
    s.roomier.put id key v = ((s.put id key v).1.roomier, (s.put id key v).2) := rfl

theorem forgetAll_roomier (s : Store) (id : ObjectId) :
    s.roomier.forgetAll id = (s.forgetAll id).roomier := rfl

theorem assignOwn?_roomier (s : Store) (id : ScopeId) (name : String) (v : Value) :
    s.roomier.assignOwn? id name v =
      (s.assignOwn? id name v).map fun p => (p.1.roomier, p.2) := by
  have hb : s.roomier.binding? id name = s.binding? id name := by
    rw [binding?, binding?, scope_roomier]
  rw [assignOwn?_eq, assignOwn?_eq, hb, scope_roomier]
  cases hbind : s.binding? id name with
  | some b =>
    dsimp only [Option.map_some]
    rw [bind_roomier (lt_size_of_binding? hbind)]
    split <;> rfl
  | none =>
    cases (s.scope id).object with
    | none => rfl
    | some object =>
      dsimp only [Option.bind_some]
      rw [Option.map_map]
      rfl

theorem assign_roomier (s : Store) (chain : Chain) (name : String) (v : Value) :
    s.roomier.assign (s.spare :: chain) name v =
      ((s.assign chain name v).1.roomier, (s.assign chain name v).2) := by
  rw [assign_cons_of_none (s.ownSlot?_spare name)]
  induction chain with
  | nil => rfl
  | cons id outer ih =>
    rw [assign, assign, assignOwn?_roomier]
    cases s.assignOwn? id name v with
    | some result => rfl
    | none => exact ih

theorem widens_roomier (ok : Expr → Prop) (spare : ScopeId) (chain : Chain) :
    Widens ok (spare :: chain) chain fun s' s => s' = s.roomier ∧ s.spare = spare where
  name name := by
    rintro _ s ⟨rfl, rfl⟩
    exact ⟨congrArg Prod.fst (s.assign_roomier chain name .unknown),
      congrArg ScopeId.mk (s.size_assign chain name .unknown)⟩
  access _ :=
    { object := by
        rintro _ s ⟨rfl, rfl⟩ name
        unfold objectNamed?
        rw [lookup_roomier]
      property := by
        rintro id key _ s ⟨rfl, rfl⟩
        exact ⟨congrArg Prod.fst (s.put_roomier id key .unknown), rfl⟩
      all := by
        rintro id _ s ⟨rfl, rfl⟩
        exact ⟨s.forgetAll_roomier id, rfl⟩ }

end Store

/-! ### One more context -/

/-- The session in which the code runs that is given to a direct `eval` here. -/
def Session.layer (s : Session) : Session :=
  { s with
    store := s.store.roomier
    contexts := s.evalContext false true s.current.filename s.store.spare :: s.contexts }

theorem Session.layer_setStore {s : Session} {st : Store} (h : st.spare = s.store.spare) :
    { s with store := st }.layer = { s.layer with store := st.roomier } := by
  unfold layer
  rw [h]
  rfl

theorem Session.leave_layer (s : Session) :
    s.layer.leave s.contexts.length = { s with store := s.store.roomier } := by
  simp [leave, layer]

namespace Eval

variable {α β : Type}

/-- At this session, the first evaluation does one layer further inside what the second one does. -/
def LayersAt (s : Session) (m' m : Eval α) : Prop :=
  (m s).2.contexts = s.contexts ∧ m' s.layer = ((m s).1, (m s).2.layer)

def Layers (m' m : Eval α) : Prop := ∀ s, LayersAt s m' m

theorem LayersAt.bind {s : Session} {m' m : Eval α} {f' f : α → Eval β} (hm : LayersAt s m' m)
    (hf : ∀ a, Layers (f' a) (f a)) : LayersAt s (m' >>= f') (m >>= f) := by
  obtain ⟨hcontexts, hrun⟩ := hm
  cases hr : m s with
  | mk r t =>
    rw [hr] at hcontexts hrun
    unfold LayersAt
    cases r with
    | done a =>
      rw [run_bind hr, run_bind hrun]
      exact ⟨(hf a t).1.trans hcontexts, (hf a t).2⟩
    | failed e =>
      rw [run_bind_failed hr, run_bind_failed hrun]
      exact ⟨hcontexts, rfl⟩
    | exhausted =>
      rw [run_bind_exhausted hr, run_bind_exhausted hrun]
      exact ⟨hcontexts, rfl⟩

theorem LayersAt.onStore {s : Session} {f' f : Store → Store × α}
    (h : f' s.store.roomier = ((f s.store).1.roomier, (f s.store).2))
    (hspare : (f s.store).1.spare = s.store.spare) : LayersAt s (onStore f') (onStore f) := by
  refine ⟨rfl, ?_⟩
  have hstore : s.layer.store = s.store.roomier := rfl
  rw [run_onStore, run_onStore, hstore, h, Session.layer_setStore hspare]

namespace Layers

theorem pure (a : α) : Layers (Pure.pure a) (Pure.pure a) := fun _ => ⟨rfl, rfl⟩

theorem bind {m' m : Eval α} {f' f : α → Eval β} (hm : Layers m' m) (hf : ∀ a, Layers (f' a) (f a)) :
    Layers (m' >>= f') (m >>= f) := fun s => (hm s).bind hf

theorem read {f : Session → α} (h : ∀ s : Session, f s.layer = f s) : Layers (read f) (read f) :=
  fun s => ⟨rfl, congrArg (fun a => (Outcome.done a, s.layer)) (h s)⟩

theorem current_bind {k : Context → Eval α}
    (h : ∀ s : Session, LayersAt s (k s.layer.current) (k s.current)) :
    Layers (current >>= k) (current >>= k) := h

theorem onHeap (f : Heap → α) : Layers (onHeap f) (onHeap f) := read fun _ => rfl

theorem allocate (r : Record) : Layers (allocate r) (allocate r) := fun _ => .onStore rfl rfl

theorem newObject (r : Record) : Layers (newObject r) (newObject r) :=
  (allocate r).bind fun _ => pure _

theorem route (kind : ErrorKind) (message : String) :
    Layers (route kind message) (route kind message) := by
  intro s
  unfold LayersAt
  cases hr : s.recovers with
  | true =>
    rw [run_route hr]
    exact ⟨rfl, run_route (s := s.layer) hr kind message⟩
  | false =>
    rw [run_route_thrown hr]
    exact ⟨rfl, run_route_thrown (s := s.layer) hr kind message⟩

theorem routeOnly (kind : ErrorKind) (message : String) :
    Layers (routeOnly kind message) (routeOnly kind message) :=
  (route kind message).bind fun _ => pure ()

theorem lookup (name : String) :
    Layers (Eval.read fun s => s.store.lookup s.current.lexical name)
      (Eval.read fun s => s.store.lookup s.current.lexical name) :=
  read fun s => s.store.lookup_roomier s.current.lexical name

theorem resolve (name : String) : Layers (resolve name) (resolve name) := by
  refine (lookup name).bind fun v? => ?_
  cases v? with
  | some v => exact pure v
  | none => exact route _ _

theorem typeofName (name : String) : Layers (typeofName name) (typeofName name) := by
  refine read fun s => ?_
  have h : s.layer.store.lookup s.layer.current.lexical name =
    s.store.lookup s.current.lexical name := s.store.lookup_roomier s.current.lexical name
  rw [h]
  rfl

theorem readMember (object : Value) (key? : Option String) :
    Layers (readMember object key?) (readMember object key?) := by
  cases key? with
  | none => exact pure _
  | some key =>
    refine (read fun _ => rfl).bind fun h => ?_
    split
    · exact route _ _
    · exact pure _

theorem put (id : ObjectId) (key : String) (v : Value) : Layers (put id key v) (put id key v) :=
  fun s => .onStore (s.store.put_roomier id key v) rfl

theorem afterAssignment (context : Context) (name : String) (v : Value) (a : Assignment) :
    Layers (afterAssignment context name v a) (afterAssignment context name v a) := by
  cases a with
  | done => exact pure ()
  | immutable =>
    refine (read fun _ => rfl).bind fun isGlobal => ?_
    split
    · exact routeOnly _ _
    · exact pure ()
  | unresolved =>
    rw [Eval.afterAssignment]
    split
    · exact routeOnly _ _
    · exact (read fun _ => rfl).bind fun id => (put id name v).bind fun _ => pure ()

theorem assignName (name : String) (v : Value) : Layers (assignName name v) (assignName name v) := by
  rw [assignName_eq]
  refine current_bind fun s => LayersAt.bind (.onStore (s.store.assign_roomier _ name v)
    (congrArg ScopeId.mk (s.store.size_assign _ name v))) fun a => ?_
  -- both contexts are equally strict
  have hafter : Eval.afterAssignment s.layer.current name v a =
      Eval.afterAssignment s.current name v a := by
    cases a <;> rfl
  rw [hafter]
  exact afterAssignment _ name v a

theorem assignMember (object : Value) (key? : Option String) (v : Value) :
    Layers (assignMember object key? v) (assignMember object key? v) := by
  unfold Eval.assignMember writeMember
  cases key? with
  | none =>
    cases object with
    | object id => exact fun s => .onStore (congrArg (·, ()) (s.store.forgetAll_roomier id)) rfl
    | _ => exact pure ()
  | some key =>
    cases object with
    | object id =>
      refine (put id key v).bind fun ok => current_bind fun s => ?_
      have hstrict : s.layer.current.strict = s.current.strict := rfl
      rw [hstrict]
      split
      · exact routeOnly _ _ s
      · exact pure () s
    | undefined | null => exact (read fun _ => rfl).bind fun h => routeOnly _ _
    | boolean _ | number _ | string _ | unknown => exact pure ()

theorem skip (es : List Expr) : Layers (skip (Expr.widenAll · es)) (skip (Expr.widenAll · es)) := by
  refine current_bind fun s => ?_
  have hw := (Store.widens_roomier (fun _ => True) s.store.spare s.current.lexical).exprAll es
    (fun _ _ => trivial) ⟨rfl, rfl⟩
  exact .onStore (congrArg (·, ()) hw.1) hw.2

theorem phrases (call' call : Invoke) :
    Phrases .silent (fun x => x.isCall = false ∧ x.isFunction = false) call' call Layers where
  pure := pure
  bind := bind
  passed := pure ()
  onHeap := onHeap
  newObject _ := newObject _
  receiver := current_bind fun s => pure s.current.receiver s
  resolve := resolve
  typeofName := typeofName
  readMember := readMember
  assignName := assignName
  skip _ := skip _
  function _ _ h := absurd h.2 (by simp [Expr.isFunction])
  called h := absurd h.1 (by simp [Expr.isCall])
  assignMember _ := assignMember

end Layers
end Eval

/-! ### Direct `eval` -/

theorem Stmt.declareAll_expression (e : Expr) (s : Session) :
    declareAll [.expression e] s = (.done (), s) := by
  unfold declareAll Eval.current
  rw [run_read_bind]
  cases s.current.varChain <;> rfl

theorem Program.run_expression {call : Invoke} {e : Expr} {s t : Session} {v : Value}
    (h : e.eval call s = (.done v, t)) (strict : Bool) (span : Span) :
    Program.run call ⟨[.expression e], strict, span⟩ s = (.done (.normal (some v)), t) := by
  have hexec : Stmt.execBody call [.expression e] s = (.done (.normal (some v)), t) := by
    unfold Stmt.execBody
    rw [run_bind (Stmt.declareAll_expression e s)]
    have hstmt : Stmt.exec call (.expression e) s = (.done (.normal (some v)), t) := run_bind h
    exact run_bind hstmt
  exact run_observe_done hexec

theorem run_inEval_expression {call' call : Invoke} {e : Expr} {s t : Session} {v : Value}
    (he : ∀ x ∈ e.parts, x.isCall = false ∧ x.isFunction = false) (h : e.eval call s = (.done v, t))
    (span : Span) :
    inEval false true s.current.filename (Program.run call' ⟨[.expression e], false, span⟩) s =
      (.done (.normal (some v)), { t with store := t.store.roomier }) := by
  obtain ⟨hcontexts, hlayer⟩ := (Eval.Layers.phrases call' call).plain e he s
  rw [h] at hcontexts hlayer
  have hrun := run_inContext (s := { s with store := s.store.roomier })
    (Program.run_expression hlayer false span)
  refine hrun.trans ?_
  rw [← t.leave_layer, hcontexts]

theorem run_directCall {call : Invoke} {source : String} {s : Session} {callee : Value}
    (hname : s.store.lookup s.current.lexical "eval" = some callee)
    (hobject : callee.isObject = true)
    (hglobal : callee.strictEquals (s.heap.get s.globalObject "eval") = true) (a b : Span) :
    (Expr.call (.identifier ⟨"eval", a⟩) [.literal (.string source)] b).eval call s =
      call callee .undefined [.string source] { direct := true } s := by
  have hdirect : isDirectEval "eval" callee s = (.done true, s) := by
    change (Outcome.done (callee.isObject && callee.strictEquals (s.heap.get s.globalObject "eval")), s) = _
    rw [hobject, hglobal]
    rfl
  refine (run_bind (run_resolve hname)).trans ?_
  exact run_bind hdirect

/-- Where the evaluation of an expression without calls and functions is done, a direct `eval` of its text
does the same instead, whether it is called by the host or by code that names it: the result is the same
value, and afterwards the heap, the bindings of every scope and the rest of the session, with its global
object and its diagnostics, are the same. -/
theorem direct_eval_is_transparent [Platform] (host : Host) (contexts : Nat) (call : Invoke) {e : Expr}
    {span : Span} {source : String} {s t : Session} {v callee : Value}
    (he : ∀ x ∈ e.parts, x.isCall = false ∧ x.isFunction = false)
    (hdepth : s.depthExceeded = false)
    (hread : host.read source s.current.filename = .ok (Program.fragment ⟨[.expression e], false, span⟩))
    (hcallee : s.heap.callable? callee = some (.builtin .eval))
    (hrun : e.eval call s = (.done v, t)) :
    ∃ u, (∀ receiver args, receiver.isUnknown = false → args.any Value.isUnknown = false →
        invoke host (contexts + 1) callee receiver (.string source :: args) { direct := true } s =
          (.done v, u)) ∧
      (s.store.lookup s.current.lexical "eval" = some callee →
        callee.strictEquals (s.heap.get s.globalObject "eval") = true →
        ∀ a b, (Expr.call (.identifier ⟨"eval", a⟩) [.literal (.string source)] b).eval
          (invoke host (contexts + 1)) s = (.done v, u)) ∧
      u.heap = t.heap ∧ (∀ id, u.store.scope id = t.store.scope id) ∧
      { u with store := t.store } = t := by
  have hcall (receiver : Value) (args : List Value) (hr : receiver.isUnknown = false)
      (ha : args.any Value.isUnknown = false) :
      invoke host (contexts + 1) callee receiver (.string source :: args) { direct := true } s =
        (.done v, { t with store := t.store.roomier }) := by
    rw [invoke_eval contexts hcallee hread]
    refine run_guarded hr ha ?_
    rw [Builtin.run_evalFragment hdepth]
    exact run_bind (run_inEval_expression he hrun span)
  have hobject : callee.isObject = true := by
    cases callee with
    | object id => rfl
    | _ => cases hcallee
  refine ⟨_, hcall, fun hname hglobal a b => ?_, rfl, t.store.scope_roomier, rfl⟩
  rw [run_directCall hname hobject hglobal]
  exact hcall .undefined [] rfl rfl

def Program.expression? : Program → Option Expr
  | ⟨[.expression e], false, _⟩ => some e
  | _ => none

/-- The expression that a text is read as. -/
def Expr.ofText (source : String) : Expr := (Program.ofText source).expression?.getD (.this default)

theorem Program.ofText_expression {source : String}
    (h : (ofText source).expression?.isSome = true) :
    ∃ span, ofText source = ⟨[.expression (.ofText source)], false, span⟩ := by
  unfold Expr.ofText expression? at *
  split at h
  next e span hp =>
    rw [hp]
    exact ⟨span, rfl⟩
  next => cases h

def Outcome.isUnknown : Outcome Value → Bool
  | .done v => v.isUnknown
  | _ => false

theorem Outcome.eq_done_unknown {r : Outcome Value} (h : r.isUnknown = true) : r = .done .unknown := by
  cases r with
  | done v =>
    cases v with
    | unknown => rfl
    | _ => cases h
  | failed _ | exhausted => cases h

def Expr.guessing : String := "w = 'a', e.name && (e = null), e"

/-- The code makes a global variable, and widening it makes another one unknown. -/
theorem direct_eval_is_transparent_guessing :
    ∃ e span t u, Program.parse Expr.guessing = .ok ⟨[.expression e], false, span⟩ ∧
      e.eval (fun _ _ _ _ => return .null) (.accusing .unknown .null) = (.done .unknown, t) ∧
      (t.heap.get ⟨0⟩ "w").asString? = some "a" ∧
      (Expr.call (.identifier ⟨"eval", default⟩) [.literal (.string Expr.guessing)] default).eval
        (invoke .standard 1) (.accusing .unknown .null) = (.done .unknown, u) ∧
      u.heap = t.heap := by
  obtain ⟨hok, hexpression, hparts⟩ : (Program.parse Expr.guessing).isOk = true ∧
      (Program.ofText Expr.guessing).expression?.isSome = true ∧
      ∀ x ∈ (Expr.ofText Expr.guessing).parts, x.isCall = false ∧ x.isFunction = false := by
    decide +kernel
  obtain ⟨span, hp⟩ := Program.ofText_expression hexpression
  have htest : ((Expr.ofText Expr.guessing).eval (fun _ _ _ _ => return .null)
        (.accusing .unknown .null)).1.isUnknown = true ∧
      (((Expr.ofText Expr.guessing).eval (fun _ _ _ _ => return .null)
        (.accusing .unknown .null)).2.heap.get ⟨0⟩ "w").asString? = some "a" := by decide +kernel
  cases hrun : (Expr.ofText Expr.guessing).eval (fun _ _ _ _ => return .null) (.accusing .unknown .null) with
  | mk r t =>
    rw [hrun] at htest
    obtain ⟨hdone, hname⟩ := htest
    cases Outcome.eq_done_unknown hdone
    have hread := Host.read_ofText hok "a.js"
    have hparse := Program.parse_ofText hok
    rw [hp] at hread hparse
    obtain ⟨u, _, hcall, hheap, _⟩ :=
      @direct_eval_is_transparent _ .standard 0 (fun _ _ _ _ => return .null) (.ofText Expr.guessing) span
        Expr.guessing (.accusing .unknown .null) t .unknown (.object ⟨1⟩) hparts rfl hread rfl hrun
    exact ⟨_, span, t, u, hparse, hrun, hname, hcall rfl rfl default default, hheap⟩

end Surmise
