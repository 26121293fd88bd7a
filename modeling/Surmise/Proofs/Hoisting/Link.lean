import Surmise.Proofs.Hoisting.Anchor

/-! Contexts in anchored sessions. The scope where the code of a context declares its variables is among
those where it looks names up, and those end in the global scope. Whatever is evaluated keeps this, in
contexts that are entered on the way too, and keeps the declared variables. -/
namespace Surmise

/-! ### Contexts and sessions -/

/-- The context has a scope for variables, which is among those where names are looked up; these end in
the scope `g`. -/
structure Context.Linked (g : ScopeId) (st : Store) (c : Context) : Prop where
  varScope : ∃ v outer, c.varChain = v :: outer ∧ v.index < st.scopes.size
  suffix : c.varChain <:+ c.lexical
  rooted : [g] <:+ c.lexical

def Context.Declares (names : List String) (st : Store) (c : Context) : Prop :=
  ∀ v outer, c.varChain = v :: outer → ∀ name ∈ names, st.hasOwn v name = true

namespace Session

structure Based (g : ScopeId) (global : ObjectId) (s : Session) : Prop where
  store : s.store.Anchored g global
  object : s.globalObject = global
  chain : s.globalChain = [g]

structure Anchored (g : ScopeId) (global : ObjectId) (names : List String) (s : Session) : Prop
    extends Based g global s where
  inside : s.contexts ≠ []
  context : s.current.Linked g s.store
  declared : s.current.Declares names s.store

variable {g : ScopeId} {global : ObjectId} {names : List String} {s t : Session}

theorem Based.retained (h : s.Based g global) (hf : t.frame = s.frame)
    (hs : s.store.Retains g global t.store) : t.Based g global where
  store := hs.anchored
  object := (congrArg Frame.globalObject hf).trans h.object
  chain := (globalChain_of_frame hf).trans h.chain

theorem Anchored.forget (h : s.Anchored g global names) : s.Anchored g global [] :=
  { h with declared := fun _ _ _ _ hn => by cases hn }

theorem Based.enter (h : s.Based g global) {c : Context} (hc : c.Linked g s.store) :
    Anchored g global [] { s with contexts := c :: s.contexts } :=
  ⟨⟨h.store, h.object, h.chain⟩, List.cons_ne_nil _ _, hc, fun _ _ _ _ hn => by cases hn⟩

theorem Anchored.retained (h : s.Anchored g global names) (hf : t.frame = s.frame)
    (hs : s.store.Retains g global t.store) : t.Anchored g global names where
  toBased := h.toBased.retained hf hs
  inside := by
    rw [show t.contexts = s.contexts from congrArg Frame.contexts hf]
    exact h.inside
  context := by
    obtain ⟨v, outer, hv, hlt⟩ := h.context.varScope
    rw [current_of_frame hf]
    exact ⟨⟨v, outer, hv, Nat.lt_of_lt_of_le hlt hs.grown.scopes⟩, h.context.suffix, h.context.rooted⟩
  declared := by
    rw [current_of_frame hf]
    exact fun v outer hv name hn => hs.names v name (h.declared v outer hv name hn)

theorem Anchored.setLexical (h : s.Anchored g global names) {chain : Chain}
    (hc : s.current.lexical <:+ chain) : (s.setLexical chain).Anchored g global names := by
  obtain ⟨options, store, object, globalContext, contexts, diagnostics, depth, randoms⟩ := s
  cases contexts with
  | nil => exact (h.inside rfl).elim
  | cons c outer =>
    exact ⟨⟨h.store, h.object, h.chain⟩, List.cons_ne_nil _ _,
      ⟨h.context.varScope, h.context.suffix.trans hc, h.context.rooted.trans hc⟩, h.declared⟩

theorem Based.linked_topContext (h : s.Based g global) (strict : Bool) (filename : String) :
    (s.topContext strict filename).Linked g s.store where
  varScope := ⟨g, [], h.chain, h.store.bound⟩
  suffix := List.suffix_refl _
  rooted := by
    have hroot : [g] <:+ s.globalChain := h.chain ▸ List.suffix_refl _
    exact hroot

theorem Anchored.linked_evalContext (h : s.Anchored g global names) {scope : ScopeId}
    (hlt : scope.index < s.store.scopes.size) (strict direct : Bool) (filename : String) :
    (s.evalContext strict direct filename scope).Linked g s.store := by
  have hglobal : [g] <:+ scope :: s.globalChain := by
    rw [h.chain]
    exact List.suffix_cons _ _
  have hcaller := List.suffix_cons scope s.current.lexical
  unfold evalContext
  dsimp only
  generalize (strict || direct && s.current.strict) = own
  cases own with
  | true =>
    cases direct with
    | true => exact ⟨⟨scope, _, rfl, hlt⟩, List.suffix_refl _, h.context.rooted.trans hcaller⟩
    | false => exact ⟨⟨scope, _, rfl, hlt⟩, List.suffix_refl _, hglobal⟩
  | false =>
    cases direct with
    | true =>
      exact ⟨h.context.varScope, h.context.suffix.trans hcaller, h.context.rooted.trans hcaller⟩
    | false => exact ⟨⟨g, [], h.chain, h.store.bound⟩, List.suffix_cons _ _, hglobal⟩

end Session

/-! ### Evaluations that agree -/

namespace Eval

variable {g : ScopeId} {global : ObjectId} {names : List String} {α β : Type}

def AgreeAt (g : ScopeId) (global : ObjectId) (s : Session) (m' m : Eval α) : Prop :=
  m' s = m s ∧ (m s).2.frame = s.frame ∧ s.store.Retains g global (m s).2.store

def Agree (g : ScopeId) (global : ObjectId) (names : List String) (m' m : Eval α) : Prop :=
  ∀ s : Session, s.Anchored g global names → AgreeAt g global s m' m

namespace AgreeAt
variable {s : Session} {m' m : Eval α}

theorem bind {f' f : α → Eval β} (hm : AgreeAt g global s m' m)
    (hf : ∀ a t, m s = (.done a, t) → t.frame = s.frame → s.store.Retains g global t.store →
      AgreeAt g global t (f' a) (f a)) : AgreeAt g global s (m' >>= f') (m >>= f) := by
  obtain ⟨heq, hframe, hstore⟩ := hm
  obtain ⟨a, ha, hrun, hrun'⟩ | ⟨hstop, hstop'⟩ := bind_cases m' m f' f s
  · obtain ⟨heq', hframe', hstore'⟩ := hf a _ ha hframe hstore
    rw [AgreeAt, hrun, hrun' heq]
    exact ⟨heq', hframe'.trans hframe, hstore.trans hstore'⟩
  · rw [AgreeAt, hstop, hstop' heq]
    exact ⟨rfl, hframe, hstore⟩

theorem read_bind {f : Session → α} {k' k : α → Eval β} (hk : AgreeAt g global s (k' (f s)) (k (f s))) :
    AgreeAt g global s (Eval.read f >>= k') (Eval.read f >>= k) := hk

theorem onStore_bind {f : Store → Store × α} {k' k : α → Eval β}
    (hf : s.store.Retains g global (f s.store).1)
    (hk : AgreeAt g global { s with store := (f s.store).1 } (k' (f s.store).2) (k (f s.store).2)) :
    AgreeAt g global s (Eval.onStore f >>= k') (Eval.onStore f >>= k) :=
  bind ⟨rfl, rfl, hf⟩ fun a t ht _ _ => by
    cases ht
    exact hk

theorem pure (h : s.store.Anchored g global) (a : α) :
    AgreeAt g global s (Pure.pure a) (Pure.pure a) := ⟨rfl, rfl, h.retains_self⟩

theorem inContext {c : Context} (hm : AgreeAt g global { s with contexts := c :: s.contexts } m' m) :
    AgreeAt g global s (Eval.inContext c m') (Eval.inContext c m) := by
  obtain ⟨heq, hframe, hstore⟩ := hm
  unfold AgreeAt Eval.inContext
  dsimp only
  rw [heq]
  exact ⟨rfl, Session.frame_leave _ _ c hframe, hstore⟩

theorem inScopes (hm : Agree g global names m' m) (hs : s.Anchored g global names) {chain : Chain}
    (hc : s.current.lexical <:+ chain) :
    AgreeAt g global s (Eval.inScopes chain m') (Eval.inScopes chain m) := by
  obtain ⟨heq, hframe, hstore⟩ := hm (s.setLexical chain) (hs.setLexical hc)
  unfold AgreeAt Eval.inScopes
  dsimp only
  rw [heq]
  refine ⟨rfl, Session.frame_setLexical _ _ chain hframe, ?_⟩
  rw [Session.store_setLexical] at hstore ⊢
  exact hstore

theorem observe (hm : AgreeAt g global s m' m) : AgreeAt g global s (Eval.observe m') (Eval.observe m) := by
  obtain ⟨heq, hframe, hstore⟩ := hm
  rw [AgreeAt, snd_observe]
  exact ⟨observe_congr heq, hframe, hstore⟩

end AgreeAt

namespace Agree

variable {m' m : Eval α} {s : Session}

theorem of_still (hframe : ∀ s, (m s).2.frame = s.frame) (hstore : ∀ s, (m s).2.store = s.store) :
    Agree g global names m m := by
  intro s hs
  refine ⟨rfl, hframe s, ?_⟩
  rw [hstore]
  exact hs.store.retains_self

theorem bind {f' f : α → Eval β} (hm : Agree g global names m' m)
    (hf : ∀ a, Agree g global names (f' a) (f a)) : Agree g global names (m' >>= f') (m >>= f) :=
  fun s hs => (hm s hs).bind fun a t _ hframe hstore => hf a t (hs.retained hframe hstore)

theorem observe (hm : Agree g global names m' m) : Agree g global names (Eval.observe m') (Eval.observe m) :=
  fun s hs => (hm s hs).observe

theorem inTry (hm : Agree g global names m' m) : Agree g global names (Eval.inTry m') (Eval.inTry m) := by
  intro s hs
  obtain ⟨heq, hframe, hstore⟩ := hm { s with tryDepth := s.tryDepth + 1 }
    ⟨⟨hs.store, hs.object, hs.chain⟩, hs.inside, hs.context, hs.declared⟩
  unfold AgreeAt Eval.inTry
  rw [heq]
  exact ⟨rfl, Session.frame_endTry _ _ hframe, hstore⟩

theorem allocate {r : Record} (hr : ∀ c, r.callable = some c → c.EndsIn g) :
    Agree g global names (Eval.allocate r) (Eval.allocate r) :=
  fun _ hs => ⟨rfl, rfl, hs.store.retains_allocate hr⟩

theorem steady : Steady (fun _ => True) (Agree g global names) where
  thrown _ := trivial
  still hframe hstore _ := .of_still hframe hstore
  bind := .bind
  observe hm hk := .bind (.observe hm) fun r => hk r fun _ _ => trivial
  inTry := .inTry
  allocate hr := .allocate hr.admitted

theorem leaf [Platform] : Leaf (fun _ => True) (· = global) fun m => Agree g global names m m :=
  steady.leaf fun hf s hs => ⟨rfl, rfl, hs.store.retains_edits (hf s.store)⟩

theorem paired : Paired (fun _ => True) (Agree g global names) := steady.paired

theorem hold {r : Record} {k' k : ObjectId → Eval α} (hr : r.Data)
    (hk : ∀ id, ¬ id = global → Agree g global names (k' id) (k id)) :
    Agree g global names (Eval.allocate r >>= k') (Eval.allocate r >>= k) := by
  intro s hs
  refine AgreeAt.bind ⟨rfl, rfl, hs.store.retains_allocate hr.admitted⟩
    fun id t ht hframe hstore => ?_
  refine hk id (fun hid => ?_) t (hs.retained hframe hstore)
  cases ht
  have hlt := hs.store.present
  rw [← hid] at hlt
  exact Nat.lt_irrefl _ hlt

theorem dispatch (callee : Value) {run' run : Callable → Eval Value} {refuse : Heap → Eval Value}
    (hrun : ∀ c, c.EndsIn g → Agree g global names (run' c) (run c))
    (hrefuse : ∀ h, Agree g global names (refuse h) (refuse h)) :
    Agree g global names (Eval.dispatch callee run' refuse) (Eval.dispatch callee run refuse) := by
  intro s hs
  obtain ⟨c, hc, hcase⟩ | hcase := dispatch_cases hs.store.functions callee
  · rw [AgreeAt, hcase, hcase]
    exact hrun c hc s hs
  · rw [AgreeAt, hcase, hcase]
    exact hrefuse _ s hs

theorem newScope_bind (hs : s.Anchored g global names) {k' k : ScopeId → Eval α}
    (hk : ∀ scope t, t.Anchored g global names → t.frame = s.frame →
      scope.index < t.store.scopes.size → AgreeAt g global t (k' scope) (k scope)) :
    AgreeAt g global s (Eval.newScope {} >>= k') (Eval.newScope {} >>= k) := by
  have hscope := hs.store.retains_newScope
  have hlt : (s.store.newScope {}).2.index < (s.store.newScope {}).1.scopes.size := by
    rw [Store.size_newScope]
    exact Nat.lt_succ_self _
  exact AgreeAt.onStore_bind hscope (hk _ _ (hs.retained rfl hscope) rfl hlt)

/-! ### Functions -/

theorem newFunction_at (hs : s.Anchored g global names) (f : Function) {chain : Chain} (hc : [g] <:+ chain) :
    AgreeAt g global s (Eval.newFunction f chain) (Eval.newFunction f chain) :=
  AgreeAt.bind ⟨rfl, rfl, hs.store.retains_allocate fun c h => by cases h; exact hc⟩
    fun _ _ _ _ hstore => .pure hstore.anchored _

theorem closure (f : Function) : Agree g global names (Eval.closure f) (Eval.closure f) :=
  fun _ hs => AgreeAt.read_bind (newFunction_at hs f hs.context.rooted)

theorem functionExpression (f : Function) :
    Agree g global names (Eval.functionExpression f) (Eval.functionExpression f) := by
  intro s hs
  refine AgreeAt.read_bind ?_
  cases f.name with
  | none => exact newFunction_at hs f hs.context.rooted
  | some id =>
    refine newScope_bind hs fun scope t ht _ _ => ?_
    have hroot : [g] <:+ scope :: s.current.lexical :=
      hs.context.rooted.trans (List.suffix_cons _ _)
    refine AgreeAt.bind (newFunction_at ht f hroot) fun v u _ hframe hstore => ?_
    exact (bind (leaf.declare _ id.name v false) fun _ => leaf.pure v) u (ht.retained hframe hstore)

/-! ### Contexts -/

variable {run' run : Eval Flow}

/-- After a body has been hoisted, its variable names count as declared. -/
theorem hoist (hs : s.Anchored g global []) {scope : ScopeId} {outer : Chain}
    (hv : s.current.varChain = scope :: outer) {body : List Stmt}
    (hr : Agree g global (Stmt.allVariableNames body) run' run) :
    AgreeAt g global s (do declareBody scope body; run') (do declareBody scope body; run) := by
  have hscope : scope.index < s.store.scopes.size := by
    obtain ⟨v, _, hv', hlt⟩ := hs.context.varScope
    rw [hv] at hv'
    cases hv'
    exact hlt
  have hnames := hs.store.retains_edits
    (Store.edits_declareNames scope (Stmt.allVariableNames body) s.store)
  unfold Eval.declareBody
  rw [bind_assoc, bind_assoc]
  refine AgreeAt.onStore_bind hnames ?_
  -- from here on it only matters that the names are there, not how they came in
  generalize hst : (Stmt.allVariableNames body).foldl _ s.store = st at hnames ⊢
  have hd : s.current.Declares (Stmt.allVariableNames body) st := by
    intro v _ hv' name hn
    rw [hv] at hv'
    cases hv'
    rw [← hst]
    exact hs.store.hasOwn_declareNames hscope hn
  have hretained : Session.Anchored g global [] { s with store := st } := hs.retained rfl hnames
  have hs' : Session.Anchored g global (Stmt.allVariableNames body) { s with store := st } :=
    { hretained with declared := hd }
  exact bind (leaf.declareFunctions closure
    (fun name v => leaf.declareVariable scope name (some v)) _) (fun _ => hr) _ hs'

theorem inBody {body : List Stmt} (hr : Agree g global (Stmt.allVariableNames body) run' run) :
    Agree g global [] (do Stmt.declareAll body; run') (do Stmt.declareAll body; run) := by
  intro s hs
  obtain ⟨scope, outer, hv, _⟩ := hs.context.varScope
  have h := hoist hs hv hr
  unfold Stmt.declareAll
  rw [bind_assoc, bind_assoc]
  refine AgreeAt.read_bind ?_
  rw [hv]
  exact h

theorem inBlock (body : List Stmt) (b : Option (String × Value)) (hr : Agree g global names run' run) :
    Agree g global names (Eval.inBlock body b run') (Eval.inBlock body b run) := by
  intro s hs
  refine AgreeAt.read_bind (newScope_bind hs fun scope t ht hframe _ => ?_)
  refine AgreeAt.bind (leaf.bindFirst _ b t ht) fun _ u _ hframe' hstore => ?_
  refine AgreeAt.inScopes (bind (leaf.declareBlock closure _ body) fun _ => hr)
    (ht.retained hframe' hstore) ?_
  rw [Session.current_of_frame (hframe'.trans hframe)]
  exact List.suffix_cons _ _

theorem inFunction {f : Function} {chain : Chain} (receiver : Value) (args : List Value) (hc : [g] <:+ chain)
    (hr : Agree g global (Stmt.allVariableNames f.body) run' run) :
    Agree g global [] (f.enter chain receiver args run') (f.enter chain receiver args run) := by
  intro s hs
  refine AgreeAt.read_bind ?_
  split
  · exact leaf.route _ _ s hs
  refine newScope_bind hs fun scope t ht _ hlt => ?_
  refine AgreeAt.bind (leaf.bindParams _ f.params args t ht) fun _ u _ hframe hstore => ?_
  have hu := ht.retained hframe hstore
  have hlt' : scope.index < u.store.scopes.size := Nat.lt_of_lt_of_le hlt hstore.grown.scopes
  refine AgreeAt.read_bind (AgreeAt.read_bind (AgreeAt.bind (AgreeAt.inContext ?_)
    fun _ _ _ _ hstore' => .pure hstore'.anchored _))
  -- the scope of the parameters is that of the variables, and of the names too
  exact hoist (hu.enter ⟨⟨scope, chain, rfl, hlt'⟩, List.suffix_refl _,
    hc.trans (List.suffix_cons _ _)⟩) rfl hr

theorem inEval (strict direct : Bool) (filename : String) {m' m : Eval Completion}
    (hm : Agree g global [] m' m) :
    Agree g global [] (Eval.inEval strict direct filename m')
      (Eval.inEval strict direct filename m) := by
  intro s hs
  refine newScope_bind hs fun scope t ht _ hlt => AgreeAt.read_bind (AgreeAt.inContext ?_)
  exact hm _ (ht.enter (ht.linked_evalContext hlt strict direct filename))

end Agree
end Eval
end Surmise
