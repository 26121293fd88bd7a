import Surmise.Proofs.Observation.Survey
import Surmise.Proofs.Termination.Reach

/-! Evaluation of code without catch clauses ends and reaches no object that it should not, as long as the
calls that it makes do so. -/
namespace Surmise

/-- A session in which code may run: it is sealed, the objects of `w` can be reached, `d` contexts have been
entered, and the depth of calls is limited to `limit`. -/
structure Session.Ready (limit d : Nat) (w : Set ObjectId) (s : Session) : Prop where
  depth : s.options.maxCallDepth = limit
  contexts : s.contexts.length = d
  sealed : s.store.Sealed
  known : w ≤ s.heap.reach
  global : s.globalObject ∈ s.heap.reach
  receiver : s.current.receiver.Reached s.heap.reach

structure Session.Closes {α : Type} (s : Session) (P : Set ObjectId → α → Prop)
    (x : Outcome α × Session) : Prop where
  frame : x.2.frame = s.frame
  leads : s.store.Leads x.2.store
  ended : x.1 ≠ .exhausted
  result : ∀ a, x.1 = .done a → P x.2.heap.reach a

theorem Session.Ready.next {limit d : Nat} {w : Set ObjectId} {s : Session} (hs : s.Ready limit d w)
    {α : Type} {P : Set ObjectId → α → Prop} {x : Outcome α × Session} (hx : s.Closes P x) :
    x.2.Ready limit d x.2.heap.reach where
  depth := (congrArg (fun f : Frame => f.options.maxCallDepth) hx.frame).trans hs.depth
  contexts := (congrArg (fun f : Frame => f.contexts.length) hx.frame).trans hs.contexts
  sealed := hx.leads.sealed
  known := le_rfl
  global := by
    rw [show x.2.globalObject = s.globalObject from congrArg Frame.globalObject hx.frame]
    exact hx.leads.grows hs.global
  receiver := by
    rw [current_of_frame hx.frame]
    exact hs.receiver.mono hx.leads.grows

theorem Session.Ready.setLexical {limit d : Nat} {w : Set ObjectId} {s : Session}
    (hs : s.Ready limit d w) (chain : Chain) : (s.setLexical chain).Ready limit d w := by
  obtain ⟨options, store, object, global, contexts, diagnostics, depth, randoms⟩ := s
  cases contexts with
  | nil | cons c outer => exact ⟨hs.depth, hs.contexts, hs.sealed, hs.known, hs.global, hs.receiver⟩

namespace Eval

/-- From every session in which code may run, the two evaluations do the same, and they end with a result
that has `P`. -/
def Ends (limit d : Nat) {α : Type} (w : Set ObjectId) (P : Set ObjectId → α → Prop)
    (m' m : Eval α) : Prop :=
  ∀ s : Session, s.Ready limit d w → m' s = m s ∧ s.Closes P (m s)

abbrev Halts (limit d : Nat) {α : Type} (w : Set ObjectId) (P : Set ObjectId → α → Prop) (m : Eval α) :
    Prop :=
  Ends limit d w P m m

abbrev Any {α : Type} (_ : Set ObjectId) (_ : α) : Prop := True

namespace Ends

variable {limit d : Nat} {w : Set ObjectId} {α β : Type} {P : Set ObjectId → α → Prop}
  {Q : Set ObjectId → β → Prop}

variable {m' m : Eval α}

theorem bind {f' f : α → Eval β} (hm : Ends limit d w P m' m)
    (hf : ∀ w', w ≤ w' → ∀ a, P w' a → Ends limit d w' Q (f' a) (f a)) :
    Ends limit d w Q (m' >>= f') (m >>= f) := by
  intro s hs
  obtain ⟨heq, hm⟩ := hm s hs
  cases hr : m s with
  | mk r t =>
    rw [hr] at heq hm
    cases r with
    | done a =>
      have hknown : w ≤ t.heap.reach := hs.known.trans hm.leads.grows
      obtain ⟨heq', hf⟩ := hf _ hknown a (hm.result a rfl) t (hs.next hm)
      rw [run_bind heq, run_bind hr]
      exact ⟨heq', hf.frame.trans hm.frame, hm.leads.trans hf.leads, hf.ended, hf.result⟩
    | failed e =>
      rw [run_bind_failed heq, run_bind_failed hr]
      exact ⟨rfl, hm.frame, hm.leads, nofun, nofun⟩
    | exhausted => exact absurd rfl hm.ended

theorem imp {P' : Set ObjectId → α → Prop} (hm : Ends limit d w P m' m) (h : ∀ w a, P w a → P' w a) :
    Ends limit d w P' m' m := by
  intro s hs
  obtain ⟨heq, hframe, hleads, hended, hresult⟩ := hm s hs
  exact ⟨heq, hframe, hleads, hended, fun a ha => h _ a (hresult a ha)⟩

theorem of_still (hframe : ∀ s, (m s).2.frame = s.frame) (hstore : ∀ s, (m s).2.store = s.store)
    (hended : ∀ s, (m s).1 ≠ .exhausted)
    (hresult : ∀ s : Session, s.Ready limit d w → ∀ a, (m s).1 = .done a → P s.heap.reach a) :
    Ends limit d w P m m := by
  intro s hs
  refine ⟨rfl, hframe s, ?_, hended s, ?_⟩
  · rw [hstore]
    exact .refl hs.sealed
  · rw [Session.heap, hstore]
    exact hresult s hs

theorem read {f : Session → α} (h : ∀ s : Session, s.Ready limit d w → P s.heap.reach (f s)) :
    Halts limit d w P (Eval.read f) :=
  .of_still (fun _ => rfl) (fun _ => rfl) (fun _ => nofun) fun s hs a ha => by
    cases ha
    exact h s hs

theorem pure {a : α} (h : ∀ w', w ≤ w' → P w' a) : Halts limit d w P (Pure.pure a) :=
  read (f := fun _ => a) fun _ hs => h _ hs.known

theorem pure_any {a : α} : Halts limit d w Any (Pure.pure a) := pure fun _ _ => trivial

theorem fail (f : Fault) : Halts limit d w P (Eval.fail f) :=
  .of_still (fun _ => rfl) (fun _ => rfl) (fun _ => nofun) fun _ _ _ => nofun

theorem resume {r : Except Fault α} (hr : ∀ w', w ≤ w' → ∀ a, r = .ok a → P w' a) :
    Halts limit d w P (Eval.resume r) := by
  cases r with
  | error f => exact .fail f
  | ok a => exact .pure fun w' hw => hr w' hw a rfl

theorem onStore {f : Store → Store × α} (h : ∀ s : Session, s.Ready limit d w →
    s.store.Leads (f s.store).1 ∧ P (f s.store).1.heap.reach (f s.store).2) :
    Halts limit d w P (Eval.onStore f) := by
  intro s hs
  obtain ⟨hleads, hP⟩ := h s hs
  exact ⟨rfl, rfl, hleads, nofun, fun a ha => by
    cases ha
    exact hP⟩

theorem observe (hm : Ends limit d w P m' m) :
    Ends limit d w (fun w r => ∀ a, r = .ok a → P w a) (Eval.observe m') (Eval.observe m) := by
  intro s hs
  obtain ⟨heq, hm⟩ := hm s hs
  unfold Eval.observe
  cases hr : m s with
  | mk r t =>
    rw [hr] at heq hm
    rw [heq]
    cases r with
    | done a =>
      refine ⟨rfl, hm.frame, hm.leads, nofun, fun r hr b hb => ?_⟩
      cases hr
      cases hb
      exact hm.result a rfl
    | failed e =>
      refine ⟨rfl, hm.frame, hm.leads, nofun, fun r hr b hb => ?_⟩
      cases hr
      cases hb
    | exhausted => exact absurd rfl hm.ended

theorem inTry (hm : Ends limit d w P m' m) : Ends limit d w P (Eval.inTry m') (Eval.inTry m) := by
  intro s hs
  obtain ⟨heq, hm⟩ := hm { s with tryDepth := s.tryDepth + 1 }
    ⟨hs.depth, hs.contexts, hs.sealed, hs.known, hs.global, hs.receiver⟩
  unfold Eval.inTry
  rw [heq]
  exact ⟨rfl, Session.frame_endTry _ _ hm.frame, hm.leads, hm.ended, hm.result⟩

theorem inScopes (chain : Chain) (hm : Ends limit d w P m' m) :
    Ends limit d w P (Eval.inScopes chain m') (Eval.inScopes chain m) := by
  intro s hs
  obtain ⟨heq, hm⟩ := hm (s.setLexical chain) (hs.setLexical chain)
  unfold Eval.inScopes
  dsimp only
  rw [heq]
  refine ⟨rfl, Session.frame_setLexical _ _ chain hm.frame, ?_, hm.ended, ?_⟩
  · have hleads := hm.leads
    rw [Session.store_setLexical] at hleads ⊢
    exact hleads
  · rw [Session.heap_setLexical]
    exact hm.result

theorem inContext {c : Context} (hc : c.receiver.Reached w) (hm : Ends limit (d + 1) w P m' m) :
    Ends limit d w P (Eval.inContext c m') (Eval.inContext c m) := by
  intro s hs
  obtain ⟨heq, hm⟩ := hm { s with contexts := c :: s.contexts }
    ⟨hs.depth, congrArg (· + 1) hs.contexts, hs.sealed, hs.known, hs.global, hc.mono hs.known⟩
  unfold Eval.inContext
  dsimp only
  rw [heq]
  exact ⟨rfl, Session.frame_leave _ _ c hm.frame, hm.leads, hm.ended, hm.result⟩

/-! ### Faults -/

variable {v : Value}

theorem modify {f : Session → Session} (hframe : ∀ s, (f s).frame = s.frame)
    (hstore : ∀ s, (f s).store = s.store) : Halts limit d w Any (Eval.modify f) :=
  .of_still hframe hstore (fun _ => nofun) fun _ _ _ _ => trivial

theorem ask (f : Session → α) : Halts limit d w Any (Eval.read f) :=
  .read fun _ _ => trivial

theorem raise (name message : String) : Halts limit d w Any (Eval.raise name message) := by
  have hnew : Halts limit d w Any (Eval.allocate (.errorNamed name message)) :=
    .onStore fun s hs => ⟨hs.sealed.allocate rfl (fun _ _ => Record.each_errorNamed name message)
      fun ho => absurd rfl (ho.noError _), trivial⟩
  exact .bind (.bind hnew fun _ _ id _ => .pure_any)
    fun _ _ e _ => .bind (.modify (fun _ => rfl) fun _ => rfl) fun _ _ _ _ => .pure_any

theorem throwNew (name message : String) : Halts limit d w P (Eval.throwNew name message) :=
  .bind (raise name message) fun _ _ e _ => .fail (.thrown e)

theorem pure_plain (hv : v.isObject = false) : Halts limit d w Value.Reached (Pure.pure v) :=
  .pure fun w' _ => Value.reached_of_not_object hv w'

theorem route (kind : ErrorKind) (message : String) :
    Halts limit d w Value.Reached (Eval.route kind message) := by
  refine .bind (.ask _) fun _ _ recovers _ => ?_
  split
  · exact .bind (.modify (fun _ => rfl) fun _ => rfl) fun _ _ _ _ => .pure_plain rfl
  · exact .throwNew _ _

theorem routeOnly (kind : ErrorKind) (message : String) :
    Halts limit d w Any (Eval.routeOnly kind message) :=
  .bind (.route kind message) fun _ _ _ _ => .pure_any

theorem settle (r : Except Fault Value) : Halts limit d w Any (Eval.settle r) := by
  unfold Eval.settle
  split
  · exact .pure_any
  · exact .pure_any
  refine .bind (.ask _) fun _ _ recovers _ => ?_
  split
  · exact .bind (.modify (fun _ => rfl) fun _ => rfl) fun _ _ _ _ => .pure_any
  · exact .bind (.raise _ _) fun _ _ _ _ => .pure_any

/-! ### Names and properties -/

theorem resolve (name : String) : Halts limit d w Value.Reached (Eval.resolve name) := by
  refine .bind (P := fun w v? => ∀ v ∈ v?, v.Reached w)
    (.read fun s hs v hv => hs.sealed.lookup hv) fun w' _ v? hv => ?_
  cases v? with
  | none => exact .route _ _
  | some v => exact .pure fun _ hw => (hv v rfl).mono hw

theorem readMember {object : Value} (ho : object.Reached w) (key? : Option String) :
    Halts limit d w Value.Reached (Eval.readMember object key?) := by
  cases key? with
  | none => exact .pure_plain rfl
  | some key =>
    refine .bind (P := fun w h => (h.member object key).Reached w)
      (.read fun s hs => hs.sealed.member (ho.mono hs.known) key) fun _ _ h hv => ?_
    split
    · exact .route _ _
    · exact .pure fun _ hw => hv.mono hw

theorem put (hv : v.Reached w) {id : ObjectId} (hid : id ∈ w) (key : String) :
    Halts limit d w Any (Eval.put id key v) :=
  .onStore fun _ hs =>
    ⟨hs.sealed.put (hv.mono hs.known) (.inl (hs.known hid)) key, trivial⟩

theorem assign (chain : Chain) (name : String) (hv : v.Reached w) :
    Halts limit d w Any (Eval.onStore fun st => st.assign chain name v) :=
  .onStore fun _ hs => ⟨hs.sealed.assign (hv.mono hs.known) _ _, trivial⟩

theorem afterAssignment (context : Context) (name : String) (hv : v.Reached w) (a : Assignment) :
    Halts limit d w Any (Eval.afterAssignment context name v a) := by
  cases a with
  | done => exact .pure_any
  | immutable =>
    refine .bind (.ask _) fun _ _ isGlobal _ => ?_
    split
    · exact .routeOnly _ _
    · exact .pure_any
  | unresolved =>
    rw [Eval.afterAssignment]
    split
    · exact .routeOnly _ _
    · have hglobal : Halts limit d w (fun w id => id ∈ w) (Eval.read Session.globalObject) :=
        .read fun _ hs => hs.global
      exact .bind hglobal fun _ hw id hid => .bind (.put (hv.mono hw) hid name) fun _ _ _ _ => .pure_any

theorem assignName (name : String) (hv : v.Reached w) :
    Halts limit d w Any (Eval.assignName name v) := by
  rw [assignName_eq]
  exact .bind (.ask _) fun _ hw c _ => .bind (.assign c.lexical name (hv.mono hw)) fun _ hw' a _ =>
    .afterAssignment c name (hv.mono (hw.trans hw')) a

theorem forgets {f : Store → Store} (h : ∀ st : Store, st.Forgets (f st)) :
    Halts limit d w Any (Eval.onStore fun st => (f st, ())) :=
  .onStore fun s hs => ⟨hs.sealed.forgets (h s.store), trivial⟩

theorem assignMember {object : Value} (key? : Option String) (ho : object.Reached w) (hv : v.Reached w) :
    Halts limit d w Any (Eval.assignMember object key? v) := by
  unfold Eval.assignMember Eval.writeMember
  cases key? with
  | none =>
    cases object with
    | object id => exact .forgets fun st => st.forgets_forgetAll id
    | _ => exact .pure_any
  | some key =>
    cases object with
    | object id =>
      refine .bind (.put hv (ho id rfl) key) fun _ _ ok _ => .bind (.ask _) fun _ _ c _ => ?_
      split
      · exact .routeOnly _ _
      · exact .pure_any
    | undefined | null => exact .bind (.ask _) fun _ _ h _ => .routeOnly _ _
    | _ => exact .pure_any

/-! ### Declarations -/

theorem newScope : Halts limit d w Any (Eval.newScope {}) :=
  .onStore fun _ hs => ⟨hs.sealed.newScope, trivial⟩

theorem declare (scope : ScopeId) (name : String) (hv : v.Reached w) (mutable : Bool) :
    Halts limit d w Any (Eval.declare scope name v mutable) :=
  .onStore fun _ hs => ⟨hs.sealed.bind (hv.mono hs.known) scope name mutable, trivial⟩

theorem declareVariable (scope : ScopeId) (name : String) (hv : v.Reached w) :
    Halts limit d w Any (Eval.declareVariable scope name (some v)) := by
  refine .onStore fun s hs => ⟨?_, trivial⟩
  have hvalue : ∀ u ∈ some v, u.Reached s.heap.reach := fun u hu => by
    cases hu
    exact hv.mono hs.known
  exact hs.sealed.declareVariable hvalue scope name

theorem newObject {r : Record} (hw : r.objectClass.isWrapper = false) (ho : r.Open)
    (hr : r.Each fun _ p => p.value.Reached w) : Halts limit d w Value.Reached (Eval.newObject r) := by
  have hnew : Halts limit d w (fun w id => id ∈ w) (Eval.allocate r) :=
    .onStore fun s hs => ⟨hs.sealed.allocate hw (fun kind hk => absurd hk (ho.noError kind))
      fun _ key p hp => (hr key p hp).mono hs.known, Heap.mem_reach_allocate ho⟩
  refine .bind hnew fun w' _ id hid => .pure fun w'' hw j hj => ?_
  cases hj
  exact hw hid

theorem newFunction {f : Function} {chain : Chain} (hf : Callable.Confined (.closure f chain)) :
    Halts limit d w Value.Reached (Eval.newFunction f chain) :=
  newObject rfl (Record.open_ofCallable hf) (Record.each_ofCallable _ w)

theorem elements {vs : List (Option Value)} (hvs : ∀ v, some v ∈ vs → v.Reached w) :
    Halts limit d w Value.Reached (Eval.newObject (.ofElements vs)) := by
  have hshape := Record.shape_ofElements vs
  refine newObject ?_ (Record.open_of_shape hshape nofun nofun) (Record.each_ofElements hvs)
  rw [Record.objectClass_of_shape hshape]
  rfl

theorem entries {es : List (String × Value)} (hes : ∀ e ∈ es, e.2.Reached w) :
    Halts limit d w Value.Reached (Eval.newObject (.ofEntries es)) := by
  have hshape := Record.shape_ofEntries es
  refine newObject ?_ (Record.open_of_shape hshape nofun nofun) (Record.each_ofEntries hes)
  rw [Record.objectClass_of_shape hshape]
  rfl

/-! ### Functions and blocks -/

/-- Where an observer waits for a heap that does not settle, nothing is done. -/
theorem hear {seen : Eval Unit} (hs : ∀ s : Session, ¬ ¬ s.heap.Settles → seen s = (.done (), s))
    {m' m : Eval α} (hm : Ends limit d w P m' m) : Ends limit d w P (do seen; m') m := by
  intro s hready
  rw [run_bind (hs s fun h => h hready.sealed.heap.toTerminal.settles)]
  exact hm s hready

section Observed

variable {o : Observer} (ho : o.Awaits fun s => ¬ s.heap.Settles)
include ho

variable {i : Site} {body : List Stmt}

theorem passed : Ends limit d w Any o.passed (Pure.pure ()) :=
  fun s hs => ⟨ho.passed s fun h => h hs.sealed.heap.toTerminal.settles,
    rfl, .refl hs.sealed, nofun, fun _ _ => trivial⟩

theorem declareName (kind : DeclKind) (name : String) {v? : Option Value} (hv : ∀ v ∈ v?, v.Reached w) :
    Ends limit d w Any (o.declareName kind name v?) (Eval.declareName kind name v?) := by
  have hvalue : (v?.getD .undefined).Reached w := by
    cases v? with
    | none => exact Value.reached_of_not_object rfl w
    | some v => exact hv v rfl
  cases kind with
  | «variable» =>
    cases v? with
    | none => exact .pure_any
    | some v =>
      rw [Eval.declareName, assignName_eq]
      exact .bind (.ask _) fun _ hw c _ => .bind (.assign c.lexical name (hvalue.mono hw)) fun _ hw' a _ =>
        .hear (ho.assigned a) (.afterAssignment c name (hvalue.mono (hw.trans hw')) a)
  | lexical | constant =>
    refine .bind (.ask _) fun _ hw c _ => ?_
    cases c.lexical with
    | nil => exact .pure_any
    | cons scope _ => exact .hear (ho.declared scope name) (.declare scope name (hvalue.mono hw) _)

theorem functionExpression {f : Function} (hf : f.All False (fun _ _ => True) i) :
    Ends limit d w Value.Reached (o.functionExpression i f) (Eval.functionExpression f) := by
  have hbody := (Function.all_iff.mp hf).2
  refine .hear (ho.made i f) (.bind (.ask _) fun _ _ c _ => ?_)
  cases f.name with
  | none => exact newFunction hbody
  | some id =>
    exact .bind newScope fun _ _ scope _ => .bind (newFunction hbody) fun _ _ v hv =>
      .bind (declare scope id.name hv false) fun _ hw _ _ => .pure fun _ hw' => hv.mono (hw.trans hw')

theorem declareFunctions (b : Bool) {bind' bind : String → Value → Eval Unit}
    (hb : ∀ {w : Set ObjectId} (name : String) {v : Value}, v.Reached w →
      Ends limit d w Any (bind' name v) (bind name v))
    {fs : List (String × Function)}
    (hfs : ∀ f ∈ fs, f.2.All False (fun _ _ => True) (.declared b)) :
    Ends limit d w Any (o.declareFunctions b bind' fs) (Eval.declareFunctions bind fs) := by
  induction fs generalizing w with
  | nil => exact .pure_any
  | cons x fs ih =>
    obtain ⟨hx, hfs⟩ := List.forall_mem_cons.mp hfs
    have hbody := (Function.all_iff.mp hx).2
    exact .hear (ho.made _ x.2) <| .bind (.ask _) fun _ _ c _ => .bind (newFunction hbody) fun _ _ v hv =>
      .bind (hb x.1 hv) fun _ _ _ _ => ih hfs

theorem declareBody (scope : ScopeId) (h : Stmt.AllIn False (fun _ _ => True) i body) :
    Ends limit d w Any (o.declareBody i.strict scope body) (Eval.declareBody scope body) :=
  .bind (P := fun _ _ => True) (.onStore fun _ hs => ⟨hs.sealed.declareNames scope _, trivial⟩)
    fun _ _ _ _ => declareFunctions ho i.strict (fun name _ hv =>
      .hear (ho.declared scope name) (declareVariable scope name hv)) h.functions

theorem declareAll (h : Stmt.AllIn False (fun _ _ => True) i body) :
    Ends limit d w Any (o.declareAll i.strict body) (Stmt.declareAll body) := by
  refine .bind (.ask _) fun _ _ c _ => ?_
  cases c.varChain with
  | nil => exact .pure_any
  | cons scope _ => exact declareBody ho scope h

theorem inBlock {b : Bool} {binding : Option (String × Value)} {run' run : Eval Flow}
    {P : Set ObjectId → Flow → Prop}
    (hf : ∀ f ∈ Stmt.functions body, f.2.All False (fun _ _ => True) (.declared b))
    (hbinding : ∀ x ∈ binding, x.2.Reached w) (hr : ∀ w', w ≤ w' → Ends limit d w' P run' run) :
    Ends limit d w P (o.inBlock b body binding run') (Eval.inBlock body binding run) := by
  refine .bind (.ask _) fun _ hw₁ c _ => .bind newScope fun w₂ hw₂ scope _ =>
    .bind (P := fun _ _ => True) ?_ fun _ hw₃ _ _ => inScopes (scope :: c.lexical) <|
      .bind (declareFunctions ho b (fun name _ hv => declare scope name hv true) hf)
        fun _ hw₄ _ _ => hr _ (((hw₁.trans hw₂).trans hw₃).trans hw₄)
  cases binding with
  | none => exact .pure_any
  | some x => exact declare scope x.1 ((hbinding x rfl).mono (hw₁.trans hw₂)) true

end Observed

/-! ### `try` statements -/

variable {r : Except Fault Flow}

/-- The values of a statement that ended without a fault are reached. -/
def Settled (w : Set ObjectId) (r : Except Fault Flow) : Prop :=
  ∀ flow, r = .ok flow → Bearing.All (Value.Reached w) flow

theorem Settled.mono {w' : Set ObjectId} (h : Settled w r) (hw : w ≤ w') : Settled w' r :=
  fun flow hr => (h flow hr).imp fun _ hv => hv.mono hw

theorem rethrow (hr : Settled w r) : Halts limit d w Settled (Eval.rethrow r) := by
  obtain (v | e) | flow := r
  · exact .pure fun _ hw => hr.mono hw
  · exact .bind (raise _ _) fun _ _ v _ => .pure fun _ _ => nofun
  · exact .pure fun _ hw => hr.mono hw

theorem handleWith_none (hr : Settled w r) : Halts limit d w Settled (Eval.handleWith none r) := by
  obtain (v | e) | flow := r <;> exact .pure fun _ hw => hr.mono hw

theorem stray {o : Observer} (ho : o.Awaits fun s => ¬ s.heap.Settles) {γ : Type}
    (r : Except Fault γ) {m' m : Eval α} (hm : Ends limit d w P m' m) :
    Ends limit d w P (do o.stray r; m') m := by
  obtain (v | e) | flow := r
  · exact hm
  · exact .hear (ho.unrouted e) hm
  · exact hm

theorem attempt {o : Observer} (ho : o.Awaits fun s => ¬ s.heap.Settles) {block' block : Eval Flow}
    {finalizer' finalizer : Option (Eval Flow)}
    (hb : Ends limit d w (fun w flow => Bearing.All (Value.Reached w) flow) block' block)
    (hf : Option.Rel (fun f' f => ∀ w', w ≤ w' →
      Ends limit d w' (fun w flow => Bearing.All (Value.Reached w) flow) f' f) finalizer' finalizer) :
    Ends limit d w (fun w flow => Bearing.All (Value.Reached w) flow)
      (attemptWith o.stray block' none finalizer') (Eval.attempt block none finalizer) := by
  refine .bind (observe (inTry hb)) fun w₁ hw₁ r hr => stray ho r <|
    .bind (rethrow hr) fun w₂ hw₂ r hr => .bind (handleWith_none hr) fun w₃ hw₃ r hr => ?_
  cases hf with
  | none => exact resume fun _ hw => hr.mono hw
  | some hf =>
    refine .bind (hf w₃ ((hw₁.trans hw₂).trans hw₃)) fun w₄ hw₄ flow hflow => ?_
    cases flow with
    | normal v => exact resume fun _ hw => hr.mono (hw₄.trans hw)
    | returned v => exact .pure fun _ hw => hflow.imp fun _ hv => hv.mono hw

/-! ### Expressions and statements -/

open Bearing (All all_value)

theorem value {m' m : Eval Value} (hm : Ends limit d w Value.Reached m' m) :
    Ends limit d w (fun w v => All (Value.Reached w) v) m' m :=
  hm.imp fun _ _ => all_value.mpr

/-- The objects that are reached are the worlds of a survey. -/
theorem survey {o : Observer} (ho : o.Awaits fun s => ¬ s.heap.Settles) :
    Survey o False (fun _ _ => True) (· ≤ ·) Value.Reached fun _ w _ _ =>
      Ends limit d w fun w a => All (Value.Reached w) a where
  grow hw hv := hv.mono hw
  plain w _ hv := Value.reached_of_not_object hv w
  pure ha := .pure fun _ hw => ha.imp fun _ hv => hv.mono hw
  bind hm hf := .bind hm hf
  passed _ _ := (passed ho).imp fun _ _ _ => nofun
  resolve _ _ name := (resolve name).value
  receiver _ _ := value <| .bind (P := fun w c => c.receiver.Reached w) (.read fun _ hs => hs.receiver)
    fun _ _ _ hc => .pure fun _ hw => hc.mono hw
  typeofName _ _ name := value <| .read fun s _ => by
    refine Value.reached_of_not_object ?_ _
    split
    next v _ => cases s.heap.typeof? v <;> rfl
    · rfl
  isDirectEval _ _ name callee := by
    unfold Eval.isDirectEval
    split
    · exact .read fun _ _ => nofun
    · exact .pure fun _ _ => nofun
  readMember key? ho := (readMember ho key?).value
  assignName name _ hv := (assignName name hv).imp fun _ _ _ => nofun
  assignMember key? ho hv := (assignMember key? ho hv).imp fun _ _ _ => nofun
  declareName kind name _ hv := (declareName ho kind name hv).imp fun _ _ _ => nofun
  skip _ _ _ h := .bind (.ask _) fun _ _ c _ => (forgets (h c.lexical)).imp fun _ _ _ => nofun
  onHeap _ _ _ _ _ h := .read fun s _ => (h s.heap).imp fun _ hv => Value.reached_of_not_object hv _
  elements hvs := value <| elements fun v hv => hvs v (List.mem_filterMap.mpr ⟨_, hv, rfl⟩)
  entries hvs := value <| entries fun e he => hvs e.2 (List.mem_map.mpr ⟨e, he, rfl⟩)
  function hf := (functionExpression ho hf).value
  throw _ := .fail _
  inBlock hf hbinding hr := inBlock ho hf hbinding hr
  attempt hb hh hf := by
    cases hh with
    | none => exact attempt ho hb hf
    | some h => exact h.1.elim

end Ends
end Eval
end Surmise
