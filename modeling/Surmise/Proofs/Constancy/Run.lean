import Surmise.Proofs.Law.Uniform

/-! Constants stay constant, as long as nothing is declared over them. Assignments ask whether a binding is
mutable, and so does forgetting, which assigns; declared variables without a value leave a binding as it
is. Blocks, calls and named functions declare names in scopes of their own. -/
namespace Surmise

/-! ### Stores -/

namespace Store

def Constant (st : Store) (scope : ScopeId) (name : String) (v : Value) : Prop :=
  st.binding? scope name = some ⟨v, false⟩

namespace Constant

variable {st : Store} {scope : ScopeId} {name : String} {v : Value} (h : st.Constant scope name v)
include h

variable {scope' : ScopeId} {name' : String}

theorem index_lt : scope.index < st.scopes.size := lt_size_of_binding? h

theorem of_scopes {st' : Store} (hst : st'.scopes = st.scopes) : st'.Constant scope name v := by
  rw [Constant, binding?, Store.scope, hst]
  exact h

theorem put (id : ObjectId) (key : String) (u : Value) : (st.put id key u).1.Constant scope name v :=
  h.of_scopes rfl

theorem bind (hne : ¬ (scope' = scope ∧ name' = name)) (b : Binding) :
    (st.bind scope' name' b).Constant scope name v := by
  rw [Constant, binding?_bind, if_neg fun he => hne ⟨he.1.1, he.2⟩]
  exact h

theorem newScope : (st.newScope {}).1.Constant scope name v := by
  rw [Constant, binding?, scope_newScope_empty]
  exact h

theorem assign (chain : Chain) (name' : String) (u : Value) :
    (st.assign chain name' u).1.Constant scope name v := by
  refine assign_ind (P := fun st => st.Constant scope name v) h (fun id b hb hmutable => h.bind ?_ _)
    fun _ object _ _ _ => h.put object name' u
  rintro ⟨rfl, rfl⟩
  cases hb.symm.trans h
  cases hmutable

theorem forgets {st' : Store} (hf : st.Forgets st') : st'.Constant scope name v := by
  induction hf with
  | refl => exact h
  | tail _ hstep ih =>
    cases hstep with
    | name chain name' => exact ih.assign chain name' .unknown
    | property id key => exact ih.put id key .unknown

theorem declareVariable {v? : Option Value} (hne : scope' = scope → name' = name → v? = none) :
    (st.declareVariable scope' name' v?).Constant scope name v := by
  unfold Store.declareVariable
  split
  next object _ =>
    cases v? with
    | some u => exact h.put object name' u
    | none =>
      dsimp only
      split
      · exact h
      · exact h.put object name' .undefined
  next hholder =>
    split
    next b u _ => exact h.bind (fun he => by cases hne he.1 he.2) _
    next => exact h
    next hb =>
      refine h.bind (fun he => ?_) _
      obtain ⟨rfl, rfl⟩ := he
      cases hb.symm.trans h

theorem declareNames (scope' : ScopeId) (names : List String) :
    (names.foldl (fun st name' => st.declareVariable scope' name' none) st).Constant scope name v := by
  induction names generalizing st with
  | nil => exact h
  | cons name' names ih => exact ih (h.declareVariable fun _ _ => rfl)

end Constant
end Store

/-! ### Evaluations -/

/-- The observer who stops evaluation before the name is declared in the scope. -/
def Observer.stopping (scope : ScopeId) (name : String) : Observer :=
  { Observer.silent with
    declared := fun scope' name' => if scope' = scope ∧ name' = name then Eval.exhausted else return () }

namespace Eval

/-- From wherever the scope binds the name to the value as a constant, the first evaluation comes to the
same end as the second one, or is cut off, and the constant is still there. -/
def Spares (scope : ScopeId) (name : String) (v : Value) {α : Type} (m' m : Eval α) : Prop :=
  ∀ s : Session, s.store.Constant scope name v →
    (m' s).2.store.Constant scope name v ∧ (m' s = m s ∨ (m' s).1 = .exhausted)

namespace Spares

variable {scope : ScopeId} {name : String} {v : Value} {α β : Type} {m m' : Eval α}

theorem of_keeps (h : ∀ s : Session, s.store.Constant scope name v → (m s).2.store.Constant scope name v) :
    Spares scope name v m m :=
  fun s hs => ⟨h s hs, .inl rfl⟩

theorem of_still (h : ∀ s, (m s).2.store = s.store) : Spares scope name v m m :=
  of_keeps fun s hs => by rw [h s]; exact hs

theorem onStore {f : Store → Store × α}
    (h : ∀ st : Store, st.Constant scope name v → (f st).1.Constant scope name v) :
    Spares scope name v (Eval.onStore f) (Eval.onStore f) :=
  of_keeps fun s hs => h s.store hs

theorem bind {f' f : α → Eval β} (hm : Spares scope name v m' m) (hf : ∀ a, Spares scope name v (f' a) (f a)) :
    Spares scope name v (m' >>= f') (m >>= f) := by
  intro s hs
  obtain ⟨hkeep, hend⟩ := hm s hs
  change (Eval.bind m' f' s).2.store.Constant scope name v ∧
    (Eval.bind m' f' s = Eval.bind m f s ∨ (Eval.bind m' f' s).1 = .exhausted)
  unfold Eval.bind
  cases hr : m' s with
  | mk r t =>
    rw [hr] at hkeep hend
    cases r with
    | done a =>
      obtain hend | hend := hend
      · rw [← hend]
        exact hf a t hkeep
      · cases hend
    | failed e =>
      obtain hend | hend := hend
      · rw [← hend]
        exact ⟨hkeep, .inl rfl⟩
      · cases hend
    | exhausted => exact ⟨hkeep, .inr rfl⟩

theorem observe (hm : Spares scope name v m' m) : Spares scope name v (Eval.observe m') (Eval.observe m) := by
  intro s hs
  obtain ⟨hkeep, hend⟩ := hm s hs
  unfold Eval.observe
  cases hr : m' s with
  | mk r t =>
    rw [hr] at hkeep hend
    obtain hend | hend := hend
    · rw [← hend]
      cases r <;> exact ⟨hkeep, .inl rfl⟩
    · cases hend
      exact ⟨hkeep, .inr rfl⟩

theorem around (hm : Spares scope name v m' m) (before : Session → Session)
    (after : Session → Session → Session) (hbefore : ∀ s, (before s).store = s.store)
    (hafter : ∀ s t, (after s t).store = t.store) :
    Spares scope name v (fun s => ((m' (before s)).1, after s (m' (before s)).2))
      (fun s => ((m (before s)).1, after s (m (before s)).2)) := by
  intro s hs
  obtain ⟨hkeep, hend⟩ := hm (before s) (by rw [hbefore]; exact hs)
  refine ⟨?_, ?_⟩
  · rw [hafter]
    exact hkeep
  · obtain hend | hend := hend
    · exact .inl (congrArg (fun x => (x.1, after s x.2)) hend)
    · exact .inr hend

theorem inTry (hm : Spares scope name v m' m) : Spares scope name v (Eval.inTry m') (Eval.inTry m) :=
  hm.around (fun s => { s with tryDepth := s.tryDepth + 1 })
    (fun _ t => { t with tryDepth := t.tryDepth - 1 }) (fun _ => rfl) fun _ _ => rfl

theorem inContext (c : Context) (hm : Spares scope name v m' m) :
    Spares scope name v (Eval.inContext c m') (Eval.inContext c m) :=
  hm.around (fun s => { s with contexts := c :: s.contexts }) (fun s t => t.leave s.contexts.length)
    (fun _ => rfl) fun _ _ => rfl

theorem inScopes (chain : Chain) (hm : Spares scope name v m' m) :
    Spares scope name v (Eval.inScopes chain m') (Eval.inScopes chain m) :=
  hm.around (fun s => s.setLexical chain) (fun s t => t.setLexical s.current.lexical)
    (fun s => s.store_setLexical chain) fun _ t => t.store_setLexical _

theorem steady : Steady (fun _ => True) (@Spares scope name v) where
  thrown _ := trivial
  still _ hstore _ := .of_still hstore
  bind := .bind
  observe hm hk := .bind hm.observe fun r => hk r fun _ _ => trivial
  inTry := .inTry
  allocate _ := .onStore fun _ hs => hs.of_scopes rfl

theorem core : Core (fun _ => True) fun m => Spares scope name v m m := steady.core

theorem paired : Paired (fun _ => True) (@Spares scope name v) := steady.paired

theorem stem [Platform] : Stem (fun _ => True) (fun _ => False) fun m => Spares scope name v m m where
  toCore := core
  put id key u := .onStore fun _ hs => hs.put id key u
  define _ _ _ _ := .onStore fun _ hs => hs.of_scopes rfl
  delete _ _ := .onStore fun _ hs => hs.of_scopes rfl
  assign chain name' u := .onStore fun _ hs => hs.assign chain name' u
  forget hf := .onStore fun st hs => hs.forgets (hf st)
  reportUnread _ := .of_still fun _ => rfl
  draw _ := .of_still fun _ => rfl

/-! ### Declarations -/

variable {scope' : ScopeId} {name' : String}

theorem fresh {k' k : ScopeId → Eval α} (hk : ∀ id, id ≠ scope → Spares scope name v (k' id) (k id)) :
    Spares scope name v (Eval.newScope {} >>= k') (Eval.newScope {} >>= k) := by
  intro s hs
  have hne : (⟨s.store.scopes.size⟩ : ScopeId) ≠ scope := fun he =>
    absurd hs.index_lt (by rw [← he]; exact Nat.lt_irrefl _)
  exact hk _ hne { s with store := (s.store.newScope {}).1 } hs.newScope

theorem newFunction (f : Function) (chain : Chain) :
    Spares scope name v (Eval.newFunction f chain) (Eval.newFunction f chain) :=
  .bind (.onStore fun _ hs => hs.of_scopes rfl) fun id => core.pure (Value.object id)

theorem declare (hne : ¬ (scope' = scope ∧ name' = name)) (u : Value) (mutable : Bool) :
    Spares scope name v (Eval.declare scope' name' u mutable) (Eval.declare scope' name' u mutable) :=
  .onStore fun _ hs => hs.bind hne _

theorem declareVariable (hne : ¬ (scope' = scope ∧ name' = name)) (u : Value) :
    Spares scope name v (Eval.declareVariable scope' name' (some u))
      (Eval.declareVariable scope' name' (some u)) :=
  .onStore fun _ hs => hs.declareVariable fun he hn => absurd ⟨he, hn⟩ hne

theorem functionExpression (f : Function) :
    Spares scope name v (Eval.functionExpression f) (Eval.functionExpression f) := by
  refine .bind core.current fun c => ?_
  cases f.name with
  | none => exact newFunction f c.lexical
  | some id =>
    exact fresh fun scope' hne => .bind (newFunction f _) fun u =>
      .bind (declare (fun he => hne he.1) u false) fun _ => core.pure u

theorem declareFunctions (strict : Bool) {bind' bind : String → Value → Eval Unit}
    (hb : ∀ name' u, Spares scope name v (bind' name' u) (bind name' u)) (fs : List (String × Function)) :
    Spares scope name v ((Observer.stopping scope name).declareFunctions strict bind' fs)
      (Eval.declareFunctions bind fs) :=
  paired.declareFunctions strict hb fs (fun _ _ => core.pure ()) fun f _ => newFunction f.2

/-- The observer has a declaration over the constant cut off. -/
theorem heralded (hm : ¬ (scope' = scope ∧ name' = name) → Spares scope name v m m) :
    Spares scope name v (do (Observer.stopping scope name).declared scope' name'; m) m := by
  by_cases he : scope' = scope ∧ name' = name
  · intro s hs
    have hstop : (Observer.stopping scope name).declared scope' name' = Eval.exhausted := if_pos he
    rw [hstop]
    exact ⟨hs, .inr rfl⟩
  · have hgo : (Observer.stopping scope name).declared scope' name' = Pure.pure () := if_neg he
    rw [hgo]
    exact hm he

theorem declareBody (strict : Bool) (scope' : ScopeId) (body : List Stmt) :
    Spares scope name v ((Observer.stopping scope name).declareBody strict scope' body)
      (Eval.declareBody scope' body) :=
  .bind (.onStore fun _ hs => hs.declareNames scope' _) fun _ =>
    declareFunctions strict (fun _ u => heralded fun hne => declareVariable hne u) _

theorem inBlock (strict : Bool) (body : List Stmt) (b : Option (String × Value)) {run' run : Eval Flow}
    (hr : Spares scope name v run' run) :
    Spares scope name v ((Observer.stopping scope name).inBlock strict body b run')
      (Eval.inBlock body b run) := by
  refine .bind core.current fun c => fresh fun scope' hne => .bind ?_ fun _ =>
    .inScopes _ (.bind (declareFunctions strict (fun _ u => declare (fun he => hne he.1) u true) _)
      fun _ => hr)
  cases b with
  | none => exact core.pure ()
  | some p => exact declare (fun he => hne he.1) p.2 true

theorem bindParams (hne : scope' ≠ scope) (ps : List Identifier) (args : List Value) :
    Spares scope name v (Eval.bindParams scope' ps args) (Eval.bindParams scope' ps args) := by
  induction ps generalizing args with
  | nil => exact core.pure ()
  | cons p ps ih => exact .bind (declare (fun he => hne he.1) _ true) fun _ => ih args.tail

theorem enter (f : Function) (chain : Chain) (receiver : Value) (args : List Value)
    {run' run : Eval Flow} (hr : Spares scope name v run' run) :
    Spares scope name v ((Observer.stopping scope name).enter f chain receiver args run')
      (f.enter chain receiver args run) := by
  refine .bind (core.read _) fun exceeded => ?_
  split
  · exact core.route _ _
  · refine fresh fun scope' hne => .bind (bindParams hne f.params args) fun _ =>
      .bind (core.read _) fun receiver => .bind core.current fun c => ?_
    exact .bind (.inContext _ (.bind (declareBody f.strict scope' f.body) fun _ => hr))
      fun _ => core.pure _

theorem declareName (kind : DeclKind) (name' : String) (u? : Option Value) :
    Spares scope name v ((Observer.stopping scope name).declareName kind name' u?)
      (Eval.declareName kind name' u?) := by
  cases kind with
  | «variable» =>
    cases u? with
    | none => exact core.pure ()
    | some u =>
      exact @Paired.assignName _ _ _ paired (.stopping scope name) _ stem (fun _ => core.pure ()) name' u
  | lexical | constant =>
    refine .bind core.current fun c => ?_
    cases c.lexical with
    | nil => exact core.pure ()
    | cons scope' _ => exact heralded fun hne => declare hne _ _

theorem declareAll (strict : Bool) (body : List Stmt) :
    Spares scope name v ((Observer.stopping scope name).declareAll strict body)
      (Stmt.declareAll body) := by
  refine .bind core.current fun c => ?_
  cases c.varChain with
  | nil => exact core.pure ()
  | cons scope' _ => exact declareBody strict scope' body

variable [Platform]

theorem accord : Accord (.stopping scope name) (fun _ => True) (fun _ => True) (fun _ => False)
    fun _ => @Spares scope name v where
  paired _ := paired
  stem _ := stem
  weaken h := h
  passed _ := core.pure ()
  declareName kind _ u? _ := declareName kind _ u?
  unrouted _ _ _ := core.pure ()
  hold hr hk := .bind (core.allocate hr) fun id => hk id not_false
  functionExpression _ _ f := functionExpression f
  dispatch callee _ _ _ hrun hrefuse := .bind (core.read _) fun heap => by
    split
    · exact hrun _ trivial
    · exact hrefuse heap
  inBlock := inBlock
  inFunction receiver args _ _ _ hr := enter _ _ receiver args hr
  inBody strict body _ _ hr := .bind (declareAll strict body) fun _ => hr
  inEval _ _ _ _ _ hm := .bind (.onStore fun _ hs => hs.newScope) fun _ => .bind (core.read _)
    fun context => .inContext context hm

theorem readsAlike :
    Host.ReadsAlike (@Spares scope name v) (Observer.stopping scope name).standard .standard := by
  rw [Host.standard_eq_parsing]
  exact accord.readsAlike_parsing _ _

theorem paired_host : Host.Paired (fun _ => True) (@Spares scope name v)
    (Observer.stopping scope name).standard .standard where
  read := readsAlike
  foreign {_ _ guarded} _ _ _ _ _ _ receiver args _ := by
    cases guarded with
    | true => exact paired.guarded receiver args (core.pure _)
    | false => exact core.pure _

theorem invoke (contexts : Nat) : Invoke.Paired (Spares scope name v)
    ((Observer.stopping scope name).invoke (Observer.stopping scope name).standard contexts)
    (Surmise.invoke .standard contexts) :=
  accord.invoke paired_host contexts

end Spares
end Eval

/-! ### Runs -/

theorem Session.runAll_cons (run : (source filename : String) → Session → RunResult × Session)
    (file : String × String) (files : List (String × String)) (s : Session) :
    runAll run (file :: files) s =
      ((run file.1 file.2 s).1 :: (runAll run files (run file.1 file.2 s).2).1,
        (runAll run files (run file.1 file.2 s).2).2) := rfl

def Session.runFiles [Platform] : List (String × String) → Session → List RunResult × Session :=
  runAll fun source filename s => s.runFile .standard source filename

namespace Observer

variable [Platform]

theorem runAll_silent (files : List (String × String)) :
    Session.runAll (silent.runFile silent.standard) files = Session.runFiles files := by
  refine congrArg (Session.runAll · files) (funext fun source => funext fun filename => funext fun s => ?_)
  rw [standard_silent, runFile_silent]

variable {scope : ScopeId} {name : String} {v : Value} {s : Session}
  (hs : s.store.Constant scope name v)
include hs

/-- The constant stays, and a run that is not cut off is the run without the observer. -/
theorem runFile_stopping (source filename : String) :
    let o := stopping scope name
    (o.runFile o.standard source filename s).2.store.Constant scope name v ∧
      (o.runFile o.standard source filename s = s.runFile .standard source filename ∨
        (o.runFile o.standard source filename s).1 = .unfinished) := by
  intro o
  rw [Host.standard_eq_parsing]
  cases hp : Program.parse source with
  | error e =>
    obtain ⟨heq, hend⟩ := @runFile_refused _ (fun source _ => Program.parse source)
      (fun _ _ _ _ _ => return .unknown) source filename e hp o s
    refine ⟨?_, .inl heq⟩
    rw [standard, heq, hend]
    exact hs
  | ok p =>
    have hrun : Eval.Spares scope name v
        (Session.runFragment (o.invoke o.standard s.contextBudget) (o.fragment p) filename)
        (Session.runFragment (Surmise.invoke .standard s.contextBudget) p.fragment filename) :=
      .bind (Eval.Spares.core.read _) fun context =>
        .inContext context (Eval.Spares.accord.program (Eval.Spares.invoke _) p)
    obtain ⟨hkeep, hend⟩ := hrun s hs
    rw [standard, runFile_parsing hp, Session.runFile_parsing hp, RunResult.ofOutcome_snd]
    refine ⟨hkeep, hend.imp (congrArg _) fun hcut => ?_⟩
    rw [standard] at hcut
    generalize Session.runFragment _ _ _ _ = x at hcut
    obtain ⟨r, t⟩ := x
    cases hcut
    rfl

theorem runAll_stopping (files : List (String × String)) :
    let o := stopping scope name
    (Session.runAll (o.runFile o.standard) files s).2.store.Constant scope name v ∧
      (Session.runAll (o.runFile o.standard) files s = s.runFiles files ∨
        .unfinished ∈ (Session.runAll (o.runFile o.standard) files s).1) := by
  intro o
  induction files generalizing s with
  | nil => exact ⟨hs, .inl rfl⟩
  | cons file files ih =>
    obtain ⟨hfirst, hend⟩ := runFile_stopping hs file.1 file.2
    obtain ⟨hrest, hall⟩ := ih hfirst
    refine ⟨hrest, ?_⟩
    unfold Session.runFiles at hall ⊢
    rw [Session.runAll_cons, Session.runAll_cons]
    obtain hend | hend := hend
    · exact hall.imp (fun hall => by rw [hall, hend]) (.tail _)
    · exact .inr (by rw [hend]; exact .head _)

end Observer

/-- Constants change only by being declared again. Where a scope binds a name as a constant, let an observer
stop evaluation before code declares the name in that scope, by `let`, by `const` or as a function of its
body. Expressions, statements, calls and runs of programs then leave the constant as it is, and come to
the end they have without the observer unless they are stopped. An observer who does nothing makes no
difference. -/
theorem constants_stay [Platform] (scope : ScopeId) (name : String) (v : Value) :
    let o := Observer.stopping scope name
    (∀ contexts i (e : Expr), Eval.Spares scope name v (o.eval (o.invoke o.standard contexts) i e)
        (e.eval (invoke .standard contexts))) ∧
      (∀ contexts i last (ts : List Stmt), Eval.Spares scope name v
        (o.execAll (o.invoke o.standard contexts) i last ts)
        (Stmt.execAll (invoke .standard contexts) last ts)) ∧
      (∀ contexts callee receiver args options, Eval.Spares scope name v
        (o.invoke o.standard contexts callee receiver args options)
        (invoke .standard contexts callee receiver args options)) ∧
      (∀ files (s : Session), s.store.Constant scope name v →
        (Session.runAll (o.runFile o.standard) files s).2.store.Constant scope name v ∧
          (Session.runAll (o.runFile o.standard) files s = s.runFiles files ∨
            .unfinished ∈ (Session.runAll (o.runFile o.standard) files s).1)) ∧
      ∀ files, Session.runAll (Observer.silent.runFile Observer.silent.standard) files =
        Session.runFiles files :=
  have L := @Eval.Spares.accord scope name v _
  have hc := @Eval.Spares.invoke scope name v _
  ⟨fun contexts i e => @Eval.Accord.expr _ _ _ _ _ _ L [] _ _ (hc contexts) i e,
    fun contexts i last ts => L.stmtAll (hc contexts) i last ts (List.Subset.refl _),
    hc,
    fun files _ hs => Observer.runAll_stopping hs files,
    Observer.runAll_silent⟩

def Session.holding : Session :=
  { Session.evaluating with store := Session.evaluating.store.declare ⟨0⟩ "f" (.string "kept") false }

def Session.assigningFiles : List (String × String) :=
  [("f = 1; var f = 2; f += 3; eval('var f; f = 4')", "a.js"),
    ("\x7b let f = 5; f = 6 \x7d (function f(f) \x7b function f() \x7b\x7d \x7d)(7)", "b.js")]

/-- The constant is assigned to, declared as a variable, also by `eval`, and declared in other scopes. -/
theorem constants_stay_holding :
    Session.holding.store.Constant ⟨0⟩ "f" (.string "kept") ∧
      (Session.holding.runFiles Session.assigningFiles).2.store.Constant ⟨0⟩ "f" (.string "kept") := by
  have hs : Session.holding.store.Constant ⟨0⟩ "f" (.string "kept") := by
    unfold Session.holding Store.Constant Store.declare
    rw [Store.binding?_bind, if_pos ⟨⟨rfl, by decide⟩, rfl⟩]
  have hall : (Session.runAll ((Observer.stopping ⟨0⟩ "f").runFile (Observer.stopping ⟨0⟩ "f").standard)
      Session.assigningFiles Session.holding).1.all RunResult.isCompleted = true := by decide +kernel
  refine ⟨hs, ?_⟩
  obtain ⟨hkeep, heq | hcut⟩ := (constants_stay ⟨0⟩ "f" (.string "kept")).2.2.2.1
    Session.assigningFiles _ hs
  · rw [← heq]
    exact hkeep
  · exact absurd (List.all_eq_true.mp hall _ hcut) Bool.false_ne_true

/-- A function that a later program or code given to `eval` declares takes the place of the constant. -/
theorem constants_replaced_by_functions :
    [[("const f = 1", "a.js")], [("const f = 1", "a.js"), ("function f() \x7b\x7d", "b.js")],
        [("const f = 1; eval('function f() \x7b\x7d')", "a.js")]].map
      (fun files => ((Session.evaluating.runFiles files).2.store.binding? ⟨0⟩ "f").map
        fun b => (b.value.isObject, b.mutable)) =
      [some (false, false), some (true, false), some (true, false)] := by
  decide +kernel

end Surmise
