import Surmise.Proofs.Law.Call

/-! Laws that hold in all contexts alike: those that compare observed evaluation with evaluation, and
those of evaluation alone. -/
namespace Surmise

/-! ### Pairs of evaluations -/

namespace Eval

/-- All operations on sessions are related to themselves by `R`, as long as they only assign to properties
of the objects that are kept; all ways of putting evaluations together keep it, and it does not notice
the observer. The functions that are called are in the heap, where all are admitted by `A`. -/
structure Uniform [Platform] (o : Observer) (A : Callable → Prop) (F : Fault → Prop) (keep : ObjectId → Prop)
    (R : ∀ {α : Type}, Eval α → Eval α → Prop) : Prop extends Paired F @R where
  edit {α : Type} {f : Store → Store × α} : (∀ st : Store, st.Edits keep (f st).1) →
    R (Eval.onStore f) (Eval.onStore f)
  /-- A new object is not among those that are kept. -/
  hold {α : Type} {r : Record} {k' k : ObjectId → Eval α} : r.Data →
    (∀ id, ¬ keep id → R (k' id) (k id)) → R (allocate r >>= k') (allocate r >>= k)
  newFunction (f : Function) (chain : Chain) : R (Eval.newFunction f chain) (Eval.newFunction f chain)
  reportUnread {p : Json.Problem} {text : List Char} : Platform.readJson text = .error p →
    R (Json.reportUnread p text) (Json.reportUnread p text)
  draw (randoms : Randoms) :
    R (Eval.modify fun s => { s with randoms }) (Eval.modify fun s => { s with randoms })
  inContext {α : Type} {m' m : Eval α} (c : Context) : R m' m →
    R (Eval.inContext c m') (Eval.inContext c m)
  inScopes {α : Type} {m' m : Eval α} (chain : Chain) : R m' m →
    R (Eval.inScopes chain m') (Eval.inScopes chain m)
  dispatch (callee : Value) {run' run : Callable → Eval Value} {refuse : Heap → Eval Value} :
    (∀ c, A c → R (run' c) (run c)) → (∀ h, R (refuse h) (refuse h)) →
    R (Eval.dispatch callee run' refuse) (Eval.dispatch callee run refuse)
  passed : R o.passed (Pure.pure ())
  made (i : Site) (f : Function) : R (o.made i f) (Pure.pure ())
  declared (scope : ScopeId) (name : String) : R (o.declared scope name) (Pure.pure ())
  assigned (a : Assignment) : R (o.assigned a) (Pure.pure ())
  unrouted {e : HostError} : F (.host e) → R (o.unrouted e) (Pure.pure ())

namespace Uniform

variable [Platform] {o : Observer} {A : Callable → Prop} {F : Fault → Prop} {keep : ObjectId → Prop}
  {R : ∀ {α : Type}, Eval α → Eval α → Prop} (L : Uniform o A F keep @R)
include L

theorem leaf : Leaf F keep fun m => R m m where
  toCore := L.core
  edit := L.edit
  reportUnread := L.reportUnread
  draw := L.draw

theorem functionExpression (i : Site) (f : Function) :
    R (o.functionExpression i f) (Eval.functionExpression f) := by
  refine L.hear (L.made i f) (L.bind L.leaf.current fun c => ?_)
  cases f.name with
  | none => exact L.newFunction f c.lexical
  | some id =>
    exact L.bind L.leaf.newScope fun scope => L.bind (L.newFunction f (scope :: c.lexical)) fun v =>
      L.bind (L.leaf.declare scope id.name v false) fun _ => L.leaf.pure v

theorem declareFunctions (strict : Bool) {bind' bind : String → Value → Eval Unit}
    (hb : ∀ name v, R (bind' name v) (bind name v)) (fs : List (String × Function)) :
    R (o.declareFunctions strict bind' fs) (Eval.declareFunctions bind fs) :=
  L.toPaired.declareFunctions strict hb fs (fun f _ => L.made _ f.2) fun f _ => L.newFunction f.2

theorem declareBody (strict : Bool) (scope : ScopeId) (body : List Stmt) :
    R (o.declareBody strict scope body) (Eval.declareBody scope body) :=
  L.bind (L.leaf.declareNames scope _) fun _ => L.declareFunctions strict (fun name v =>
    L.hear (L.declared scope name) (L.leaf.declareVariable scope name (some v))) _

theorem inBlock (strict : Bool) (body : List Stmt) (b : Option (String × Value)) {run' run : Eval Flow}
    (hr : R run' run) : R (o.inBlock strict body b run') (Eval.inBlock body b run) :=
  L.bind L.leaf.current fun c => L.bind L.leaf.newScope fun scope =>
    L.bind (L.leaf.bindFirst scope b) fun _ => L.inScopes (scope :: c.lexical) <|
      L.bind (L.declareFunctions strict (fun name v => L.leaf.declare scope name v true) _) fun _ => hr

theorem inFunction (f : Function) (chain : Chain) (receiver : Value) (args : List Value)
    {run' run : Eval Flow} (hr : R run' run) :
    R (o.enter f chain receiver args run') (f.enter chain receiver args run) := by
  refine L.bind (L.leaf.read _) fun exceeded => ?_
  split
  · exact L.leaf.route _ _
  · refine L.bind L.leaf.newScope fun scope => L.bind (L.leaf.bindParams scope f.params args) fun _ =>
      L.bind (L.leaf.read _) fun receiver => L.bind L.leaf.current fun c => ?_
    exact L.bind (L.inContext _ (L.bind (L.declareBody f.strict scope f.body) fun _ => hr))
      fun _ => L.leaf.pure _

theorem declareAll (strict : Bool) (body : List Stmt) :
    R (o.declareAll strict body) (Stmt.declareAll body) := by
  refine L.bind L.leaf.current fun c => ?_
  cases c.varChain with
  | nil => exact L.leaf.pure ()
  | cons scope _ => exact L.declareBody strict scope body

/-- Such a law is in accord with any code. -/
theorem accord : Accord o A F keep fun _ => @R where
  paired _ := L.toPaired
  stem _ := L.leaf.stem
  weaken h := h
  passed _ := L.passed
  declareName kind _ v? _ := L.toPaired.declareName L.leaf L.assigned L.declared kind _ v?
  unrouted _ := L.unrouted
  hold := L.hold
  functionExpression _ := L.functionExpression
  dispatch := L.dispatch
  inBlock := L.inBlock
  inFunction receiver args _ _ _ hr := L.inFunction _ _ receiver args hr
  inBody strict body _ _ hr := L.bind (L.declareAll strict body) fun _ => hr
  inEval _ _ _ _ _ hm := L.bind L.leaf.newScope fun _ => L.bind (L.leaf.read _) fun context =>
    L.inContext context hm

theorem runFragment {call' call : Invoke} (hc : Invoke.Paired R call' call) {f' f : Fragment}
    (hf : Fragment.Paired @R f' f) (filename : String) :
    R (Session.runFragment call' f' filename) (Session.runFragment call f filename) := by
  unfold Session.runFragment
  rw [hf.strict]
  exact L.bind (L.leaf.read _) fun context => L.inContext context (hf.run hc)

theorem runFile {host' host : Host} (hh : Host.Paired A @R host' host) {source filename : String}
    {m : Eval Completion} (h : host.runFile source filename = .ok m) : ∃ m', R m' m := by
  obtain ⟨e, he⟩ | ⟨f', f, hf, hrun⟩ := hh.read.runFile source filename
  · cases he.symm.trans h
  · cases hrun.symm.trans h
    exact ⟨_, L.bind (L.leaf.read Session.contextBudget) fun contexts =>
      L.runFragment (L.accord.invoke hh contexts) hf filename⟩

end Uniform

/-! ### The silent observer -/

theorem core_eq : Core (fun _ => True) fun {α} (m : Eval α) => m = m where
  pure _ := rfl
  bind _ _ := rfl
  exhausted := rfl
  thrown _ := trivial
  fail _ := rfl
  observe _ _ := rfl
  read _ _ := rfl
  allocate _ := rfl
  inTry _ := rfl
  reportThrown _ _ := rfl
  recover _ _ _ _ _ _ := rfl

/-- To the silent observer evaluation is what it is without one. -/
theorem uniform_eq [Platform] :
    Uniform .silent (fun _ => True) (fun _ => True) (fun _ => False) fun {α} (m' m : Eval α) => m' = m where
  core := core_eq
  bind hm hf := by rw [hm, funext hf]
  observe hm hk := by rw [hm, funext fun r => hk r fun _ _ => trivial]
  inTry hm := by rw [hm]
  edit _ := rfl
  hold _ hk := by rw [funext fun id => hk id not_false]
  newFunction _ _ := rfl
  reportUnread _ := rfl
  draw _ := rfl
  inContext _ hm := by rw [hm]
  inScopes _ hm := by rw [hm]
  dispatch _ _ _ _ hrun _ := by rw [funext fun c => hrun c trivial]
  passed := rfl
  made _ _ := rfl
  declared _ _ := rfl
  assigned _ := rfl
  unrouted _ := rfl

end Eval

theorem Invoke.Paired.eq {call' call : Invoke}
    (h : Invoke.Paired (fun m' m => m' = m) call' call) : call' = call := by
  funext callee receiver args options
  exact h callee receiver args options

namespace Observer

theorem exec_silent (call : Invoke) (i : Site) (t : Stmt) : silent.exec call i t = t.exec call :=
  Eval.uniform_eq.accord.stmt (fun _ _ _ _ => rfl) i t (List.Subset.refl _)

theorem run_silent (call : Invoke) (p : Program) : silent.run call p = p.run call :=
  Eval.uniform_eq.accord.program (fun _ _ _ _ => rfl) p

theorem parsing_silent (parse : Parser) (foreign : Foreign) :
    silent.parsing parse foreign = .parsing parse foreign := by
  have hfragment : silent.fragment = Program.fragment :=
    funext fun p => congrArg (Fragment.mk p.strict) (funext fun call => run_silent call p)
  unfold parsing Host.parsing
  rw [hfragment]

theorem standard_silent [Platform] : silent.standard = .standard := parsing_silent _ _

theorem paired_eq [Platform] (host : Host) :
    Host.Paired (fun _ => True) (fun {α} (m' m : Eval α) => m' = m) host host where
  read source filename := by
    cases host.read source filename with
    | error e => exact .inl ⟨e, rfl, rfl⟩
    | ok f =>
      refine .inr ⟨f, f, rfl, rfl, rfl, fun hc => ?_⟩
      rw [hc.eq]
  foreign {_ _ guarded} _ _ _ _ _ hc _ _ _ := by
    rw [hc.eq]
    cases guarded <;> rfl

theorem invoke_silent [Platform] (host : Host) (contexts : Nat) :
    silent.invoke host contexts = Surmise.invoke host contexts :=
  (Eval.uniform_eq.accord.invoke (paired_eq host) contexts).eq

/-- The evaluator with the silent observer is the evaluator. -/
theorem runFile_silent [Platform] (host : Host) (source filename : String) (s : Session) :
    silent.runFile host source filename s = s.runFile host source filename :=
  runFile_eq (paired_eq host).read source filename fun _ _ hf => congrFun
    (Eval.uniform_eq.runFragment (Eval.uniform_eq.accord.invoke (paired_eq host) _) hf filename) s

end Observer

namespace Eval

/-! ### Single evaluations -/

/-- All operations on sessions have `P`, and all ways of putting evaluations together keep it. The
functions that are called are in the heap, where all are admitted by `A`. -/
structure Law [Platform] (A : Callable → Prop) (P : ∀ {α : Type}, Eval α → Prop) : Prop
    extends Core (fun _ => True) @P where
  onStore {α : Type} {f : Store → Store × α} : (∀ st : Store, st.Changes (f st).1) → P (Eval.onStore f)
  newFunction (f : Function) (chain : Chain) : P (Eval.newFunction f chain)
  inContext {α : Type} {m : Eval α} (c : Context) : P m → P (Eval.inContext c m)
  inScopes {α : Type} {m : Eval α} (chain : Chain) : P m → P (Eval.inScopes chain m)
  reportUnread {p : Json.Problem} {text : List Char} :
    Platform.readJson text = .error p → P (Json.reportUnread p text)
  draw (randoms : Randoms) : P (Eval.modify fun s => { s with randoms })
  dispatch (callee : Value) {run : Callable → Eval Value} {refuse : Heap → Eval Value} :
    (∀ c, A c → P (run c)) → (∀ h, P (refuse h)) →
    P (Eval.dispatch callee run refuse)

end Eval

theorem Invoke.Has.paired {call : Invoke} {P : ∀ {α : Type}, Eval α → Prop} (h : call.Has @P) :
    Invoke.Paired (fun _ m => P m) call call :=
  h

def Host.ReadsPrograms (host : Host) : Prop :=
  ∀ source filename fragment, host.read source filename = .ok fragment →
    ∃ p : Program, fragment = p.fragment

theorem Host.standard_readsPrograms [Platform] : Host.standard.ReadsPrograms := by
  intro source filename fragment h
  change (Program.parse source).map Program.fragment = .ok fragment at h
  cases hp : Program.parse source with
  | error e =>
    rw [hp] at h
    cases h
  | ok p =>
    rw [hp] at h
    cases h
    exact ⟨p, rfl⟩

def Host.Respects (host : Host) (A : Callable → Prop) (P : ∀ {α : Type}, Eval α → Prop) : Prop :=
  ∀ name arity guarded, A (.foreign name arity guarded) → ∀ call : Invoke,
    call.Has @P →
      ∀ receiver args options, P (host.foreign name call receiver args options)

namespace Eval.Accord

variable [Platform] {A : Callable → Prop} {F : Fault → Prop} {keep : ObjectId → Prop}
  {P : ∀ {α : Type}, Eval α → Prop} (L : Accord .silent A F keep fun _ => fun _ m => P m)
  {host : Host} (hr : host.ReadsPrograms)
include L hr

theorem readsAlike_self : Host.ReadsAlike (fun _ m => P m) host host := by
  intro source filename
  cases h : host.read source filename with
  | error e => exact .inl ⟨e, rfl, rfl⟩
  | ok fragment =>
    obtain ⟨p, rfl⟩ := hr _ _ _ h
    exact .inr ⟨_, _, rfl, rfl, rfl, fun hc => L.program hc p⟩

theorem paired_self (hf : host.Respects A @P) : Host.Paired A (fun _ m => P m) host host where
  read := L.readsAlike_self hr
  foreign {name arity guarded} ha _ _ call' call hc receiver args options := by
    have hn := hf name arity guarded ha call hc receiver args options
    cases guarded with
    | true => exact @Paired.guarded _ _ (L.paired []) receiver args Eval.exhausted _ hn
    | false => exact hn

end Eval.Accord

namespace Eval.Law

variable [Platform] {A : Callable → Prop} {P : ∀ {α : Type}, Eval α → Prop} (L : Law A @P)
include L

theorem uniform : Uniform .silent A (fun _ => True) (fun _ => False) fun _ m => P m where
  toPaired := L.paired
  edit h := L.onStore fun st => (h st).changes
  hold hr hk := L.bind (L.allocate hr) fun id => hk id not_false
  newFunction := L.newFunction
  reportUnread := L.reportUnread
  draw := L.draw
  inContext := L.inContext
  inScopes := L.inScopes
  dispatch callee _ _ _ hrun hrefuse := L.dispatch callee hrun hrefuse
  passed := L.pure ()
  made _ _ := L.pure ()
  declared _ _ := L.pure ()
  assigned _ := L.pure ()
  unrouted _ := L.pure ()

theorem accord : Accord .silent A (fun _ => True) (fun _ => False) fun _ => fun _ m => P m :=
  L.uniform.accord

theorem standard_respects : Host.standard.Respects A @P :=
  fun _ _ _ _ _ _ _ _ _ => L.pure Value.unknown

section Code

variable {call : Invoke} (hc : call.Has @P)
include hc

theorem expr (e : Expr) : P (e.eval call) :=
  @Accord.expr _ _ _ _ _ _ L.accord [] _ _ hc.paired (.declared false) e

theorem stmt (t : Stmt) : P (t.exec call) :=
  L.accord.stmt hc.paired (.declared false) t (List.Subset.refl _)

theorem stmtAll (last : Option Value) (ts : List Stmt) : P (Stmt.execAll call last ts) :=
  L.accord.stmtAll hc.paired (.declared false) last ts (List.Subset.refl _)

end Code

section Hosted

variable {host : Host} (hr : host.ReadsPrograms) (hf : host.Respects A @P)
include hr

theorem evalSource {call : Invoke} (hc : call.Has @P) (options : CallOptions) (v : Value) :
    P (Builtin.evalSource host call options v) :=
  L.accord.evalSource (L.accord.readsAlike_self hr) hc.paired options v

include hf

theorem paired_host : Host.Paired A (fun _ m => P m) host host := L.accord.paired_self hr hf

theorem invoke (contexts : Nat) : (Surmise.invoke host contexts).Has @P :=
  L.accord.invoke (L.paired_host hr hf) contexts

theorem call (callee receiver : Value) (args : List Value) (options : CallOptions) :
    P (host.call callee receiver args options) :=
  L.accord.call (L.paired_host hr hf) callee receiver args options

theorem complete (callee receiver : Value) (args : List Value) (options : CallOptions) :
    P (host.complete callee receiver args options) :=
  L.accord.complete (L.paired_host hr hf) callee receiver args options

theorem runFile {source filename : String} {m : Eval Completion}
    (h : host.runFile source filename = .ok m) : P m := by
  obtain ⟨_, hm⟩ := L.uniform.runFile (L.paired_host hr hf) h
  exact hm

end Hosted
end Eval.Law

theorem Session.runFile_snd [Platform] {host : Host} {source filename : String} {m : Eval Completion}
    (h : host.runFile source filename = .ok m) (s : Session) :
    (s.runFile host source filename).2 = (m s).2 := by
  unfold Session.runFile
  rw [h]
  dsimp only
  split
  next heq => rw [heq]
  next heq => rw [heq]

theorem Session.runFile_refused [Platform] {host : Host} {source filename : String} {e : HostError}
    (h : host.runFile source filename = .error e) (s : Session) :
    s.runFile host source filename = (.refused e, s) := by
  unfold Session.runFile
  rw [h]

end Surmise
