import Surmise.Proofs.Law.Ground
import Surmise.Proofs.Observation.Survey

/-! Properties of stores that every run keeps, and what follows for observers: one who only acts where such a
property holds makes no difference to a run at whose end it does not hold. -/
namespace Surmise

def Callable.Sound (p : Site → Function → Prop) : Callable → Prop
  | closure f _ => Stmt.AllIn True p (.head f.strict f.body) f.body
  | builtin _ => True
  | foreign .. => False

/-- Strict code is run as strict code, unless it was given to a direct `eval`. -/
def Context.Suits (c : Context) (strict : Bool) : Prop :=
  c.strict = true → strict = true ∨ c.direct = true

theorem Session.suits_evalContext (s : Session) (strict direct : Bool) (filename : String)
    (scope : ScopeId) : (s.evalContext strict direct filename scope).Suits strict := by
  intro h
  change (strict || (direct && s.current.strict)) = true at h
  rw [Bool.or_eq_true, Bool.and_eq_true] at h
  exact h.imp_right And.left

/-- In stores with `I` all functions are sound. Whatever is done to them keeps `I`, and `D` once it
holds. -/
structure Store.Regime (p : Site → Function → Prop) (I D : Store → Prop) : Prop where
  functions {s : Store} : I s → s.heap.Admits (Callable.Sound p)
  edit {s t : Store} : I s → s.Edit (fun _ => False) t → I t ∧ (D s → D t)
  data {s : Store} {r : Record} : I s → r.Data → I (s.allocate r).1 ∧ (D s → D (s.allocate r).1)
  closure {s : Store} {f : Function} (chain : Chain) : I s → Callable.Sound p (.closure f chain) →
    I (s.allocate (.ofCallable (.closure f chain))).1 ∧
      (D s → D (s.allocate (.ofCallable (.closure f chain))).1)

/-- The observer does nothing where `D` does not hold, as far as functions have `p`. -/
structure Observer.Heeds (o : Observer) (p : Site → Function → Prop) (I D : Store → Prop) : Prop where
  passed {s : Session} : I s.store → ¬ D s.store → o.passed s = (.done (), s)
  made {i : Site} {f : Function} {s : Session} : I s.store → ¬ D s.store → p i f →
    s.current.Suits i.strict → o.made i f s = (.done (), s)
  declared (scope : ScopeId) (name : String) {s : Session} : I s.store → ¬ D s.store →
    o.declared scope name s = (.done (), s)
  assigned (a : Assignment) {s : Session} : I s.store → ¬ D s.store → o.assigned a s = (.done (), s)
  unrouted (e : HostError) {s : Session} : I s.store → ¬ D s.store → o.unrouted e s = (.done (), s)

theorem Observer.Awaits.heeds {o : Observer} {D : Store → Prop} (ho : o.Awaits fun s => D s.store)
    (p : Site → Function → Prop) (I : Store → Prop) : o.Heeds p I D where
  passed _ := ho.passed _
  made _ h _ _ := ho.made _ _ _ h
  declared scope name _ _ := ho.declared scope name _
  assigned a _ _ := ho.assigned a _
  unrouted e _ _ := ho.unrouted e _

structure Session.Keeps (I D : Store → Prop) (s t : Session) : Prop where
  order : I t.store
  lasts : D s.store → D t.store
  frame : t.frame = s.frame

namespace Session.Keeps
variable {I D : Store → Prop} {s t u : Session}

theorem refl (h : I s.store) : Keeps I D s s := ⟨h, id, rfl⟩

theorem trans (h₁ : Keeps I D s t) (h₂ : Keeps I D t u) : Keeps I D s u :=
  ⟨h₂.order, fun h => h₂.lasts (h₁.lasts h), h₂.frame.trans h₁.frame⟩

theorem suits {b : Bool} (h : Keeps I D s t) (hs : s.current.Suits b) : t.current.Suits b :=
  current_of_frame h.frame ▸ hs

end Session.Keeps

namespace Eval

variable {p : Site → Function → Prop} {I D : Store → Prop} {b : Bool} {α β : Type}

def AgreesAt (I D : Store → Prop) (s : Session) (m' m : Eval α) : Prop :=
  s.Keeps I D (m s).2 ∧ (¬ D (m s).2.store → m' s = m s)

def Agrees (I D : Store → Prop) (b : Bool) (m' m : Eval α) : Prop :=
  ∀ s : Session, I s.store → s.current.Suits b → AgreesAt I D s m' m

namespace AgreesAt
variable {s : Session} {m' m : Eval α}

theorem bind {f' f : α → Eval β} (hm : AgreesAt I D s m' m)
    (hf : ∀ a t, s.Keeps I D t → AgreesAt I D t (f' a) (f a)) : AgreesAt I D s (m' >>= f') (m >>= f) := by
  obtain ⟨hkeeps, heq⟩ := hm
  obtain ⟨a, -, hrun, hrun'⟩ | ⟨hstop, hstop'⟩ := bind_cases m' m f' f s
  · obtain ⟨hkeeps', heq'⟩ := hf a _ hkeeps
    rw [AgreesAt, hrun]
    refine ⟨hkeeps.trans hkeeps', fun hend => ?_⟩
    rw [hrun' (heq fun hd => hend (hkeeps'.lasts hd))]
    exact heq' hend
  · rw [AgreesAt, hstop]
    exact ⟨hkeeps, fun hend => hstop' (heq hend)⟩

theorem observe (hm : AgreesAt I D s m' m) : AgreesAt I D s (Eval.observe m') (Eval.observe m) := by
  obtain ⟨hkeeps, heq⟩ := hm
  rw [AgreesAt, snd_observe]
  exact ⟨hkeeps, fun hend => observe_congr (heq hend)⟩

theorem inContext {c : Context} (hm : AgreesAt I D { s with contexts := c :: s.contexts } m' m) :
    AgreesAt I D s (Eval.inContext c m') (Eval.inContext c m) := by
  obtain ⟨⟨horder, hlasts, hframe⟩, heq⟩ := hm
  refine ⟨⟨horder, hlasts, Session.frame_leave _ _ c hframe⟩, fun hend => ?_⟩
  unfold Eval.inContext
  dsimp only
  rw [heq hend]

end AgreesAt

namespace Agrees

variable {m' m : Eval α}

theorem of_still (hframe : ∀ s, (m s).2.frame = s.frame) (hstore : ∀ s, (m s).2.store = s.store) :
    Agrees I D b m m := by
  intro s hs _
  refine ⟨⟨?_, ?_, hframe s⟩, fun _ => rfl⟩
  · rw [hstore]
    exact hs
  · rw [hstore]
    exact id

theorem idle {seen : Eval Unit}
    (h : ∀ s : Session, I s.store → s.current.Suits b → ¬ D s.store → seen s = (.done (), s)) :
    Agrees I D b seen (Pure.pure ()) :=
  fun s hs hb => ⟨.refl hs, h s hs hb⟩

theorem bind {f' f : α → Eval β} (hm : Agrees I D b m' m) (hf : ∀ a, Agrees I D b (f' a) (f a)) :
    Agrees I D b (m' >>= f') (m >>= f) :=
  fun s hs hb => (hm s hs hb).bind fun a t ht => hf a t ht.order (ht.suits hb)

theorem observe (hm : Agrees I D b m' m) : Agrees I D b (Eval.observe m') (Eval.observe m) :=
  fun s hs hb => (hm s hs hb).observe

theorem inTry (hm : Agrees I D b m' m) : Agrees I D b (Eval.inTry m') (Eval.inTry m) := by
  intro s hs hb
  obtain ⟨⟨horder, hlasts, hframe⟩, heq⟩ := hm { s with tryDepth := s.tryDepth + 1 } hs hb
  refine ⟨⟨horder, hlasts, Session.frame_endTry _ _ hframe⟩, fun hend => ?_⟩
  unfold Eval.inTry
  rw [heq hend]

theorem inScopes (chain : Chain) (hm : Agrees I D b m' m) :
    Agrees I D b (Eval.inScopes chain m') (Eval.inScopes chain m) := by
  intro s hs hb
  have hstore := s.store_setLexical chain
  have hcurrent : (s.setLexical chain).current.Suits b := by
    rw [Session.current_setLexical]
    exact hb
  obtain ⟨⟨horder, hlasts, hframe⟩, heq⟩ := hm (s.setLexical chain) (hstore ▸ hs) hcurrent
  unfold AgreesAt Eval.inScopes
  dsimp only
  rw [Session.store_setLexical]
  refine ⟨⟨?_, fun hd => ?_, Session.frame_setLexical _ _ chain hframe⟩, fun hend => by rw [heq hend]⟩
  · rw [Session.store_setLexical]
    exact horder
  · rw [Session.store_setLexical]
    exact hlasts (hstore ▸ hd)

theorem inContext {c : Bool} (context : Context) (hc : context.Suits c) (hm : Agrees I D c m' m) :
    Agrees I D b (Eval.inContext context m') (Eval.inContext context m) :=
  fun s hs _ => AgreesAt.inContext (hm { s with contexts := context :: s.contexts } hs hc)

theorem onStore {f : Store → Store × α}
    (hf : ∀ st, I st → I (f st).1 ∧ (D st → D (f st).1)) :
    Agrees I D b (Eval.onStore f) (Eval.onStore f) :=
  fun s hs _ => ⟨⟨(hf s.store hs).1, (hf s.store hs).2, rfl⟩, fun _ => rfl⟩

theorem dispatch {A : Callable → Prop} (hA : ∀ {st : Store}, I st → st.heap.Admits A) (callee : Value)
    {run' run : Callable → Eval Value} {refuse : Heap → Eval Value}
    (hrun : ∀ c, A c → Agrees I D b (run' c) (run c))
    (hrefuse : ∀ h, Agrees I D b (refuse h) (refuse h)) :
    Agrees I D b (Eval.dispatch callee run' refuse) (Eval.dispatch callee run refuse) := by
  intro s hs hb
  obtain ⟨c, hc, hcase⟩ | hcase := dispatch_cases (hA hs) callee
  · rw [AgreesAt, hcase, hcase]
    exact hrun c hc s hs hb
  · rw [AgreesAt, hcase, hcase]
    exact hrefuse _ s hs hb

end Agrees
end Eval

/-! ### The evaluator keeps to the regime -/

namespace Store.Regime

open Eval

variable {p : Site → Function → Prop} {I D : Store → Prop} (H : Store.Regime p I D)
include H

theorem edits {s t : Store} (hs : I s) (h : s.Edits (fun _ => False) t) : I t ∧ (D s → D t) := by
  induction h with
  | refl => exact ⟨hs, id⟩
  | tail _ he ih =>
    obtain ⟨ht, hd⟩ := H.edit ih.1 he
    exact ⟨ht, fun h => hd (ih.2 h)⟩

theorem steady (b : Bool) : Steady (fun _ => True) (Agrees I D b) where
  thrown _ := trivial
  still hframe hstore _ := .of_still hframe hstore
  bind := .bind
  observe hm hk := .bind (.observe hm) fun r => hk r fun _ _ => trivial
  inTry := .inTry
  allocate hr := .onStore fun _ hs => H.data hs hr

theorem leaf [Platform] (b : Bool) : Leaf (fun _ => True) (fun _ => False) fun m => Agrees I D b m m :=
  (H.steady b).leaf fun hf => .onStore fun st hs => H.edits hs (hf st)

theorem ground [Platform] (b : Bool) : Ground (fun _ => True) (fun _ => False) (Agrees I D b) where
  toPaired := (H.steady b).paired
  stem := (H.leaf b).stem
  hold hr hk := .bind ((H.leaf b).allocate hr) fun id => hk id not_false

theorem newFunction {b : Bool} {f : Function} {chain : Chain} (hf : Callable.Sound p (.closure f chain)) :
    Agrees I D b (Eval.newFunction f chain) (Eval.newFunction f chain) :=
  .bind (.onStore fun _ hs => H.closure chain hs hf) fun id => (H.leaf b).pure (Value.object id)

section Observed

variable {o : Observer} (ho : o.Heeds p I D)
include ho

variable {i : Site} {f : Function} {body : List Stmt}

omit H in
theorem passed (b : Bool) : Agrees I D b o.passed (Pure.pure ()) :=
  .idle fun _ hs _ => ho.passed hs

omit H in
theorem made (hf : p i f) : Agrees I D i.strict (o.made i f) (Pure.pure ()) :=
  .idle fun _ hs hb hd => ho.made hs hd hf hb

omit H in
theorem declared (b : Bool) (scope : ScopeId) (name : String) :
    Agrees I D b (o.declared scope name) (Pure.pure ()) :=
  .idle fun _ hs _ => ho.declared scope name hs

theorem stray {α : Type} (b : Bool) (r : Except Fault α) : Agrees I D b (o.stray r) (Pure.pure ()) := by
  obtain (v | e) | a := r
  · exact (H.leaf b).pure ()
  · exact .idle fun _ hs _ => ho.unrouted e hs
  · exact (H.leaf b).pure ()

theorem functionExpression (hf : f.All True p i) :
    Agrees I D i.strict (o.functionExpression i f) (Eval.functionExpression f) := by
  obtain ⟨hp, hbody⟩ := Function.all_iff.mp hf
  refine (H.ground _).hear (made ho hp) (.bind (H.leaf _).current fun c => ?_)
  cases f.name with
  | none => exact H.newFunction hbody
  | some id =>
    exact .bind (H.leaf _).newScope fun scope => .bind (H.newFunction hbody) fun v =>
      .bind ((H.leaf _).declare scope id.name v false) fun _ => (H.leaf _).pure v

theorem declareFunctions {b : Bool} {bind' bind : String → Value → Eval Unit}
    (hb : ∀ name v, Agrees I D b (bind' name v) (bind name v)) (fs : List (String × Function))
    (hfs : ∀ f ∈ fs, f.2.All True p (.declared b)) :
    Agrees I D b (o.declareFunctions b bind' fs) (Eval.declareFunctions bind fs) :=
  (H.ground b).toPaired.declareFunctions b hb fs
    (fun f hf => made (i := .declared b) ho (Function.all_iff.mp (hfs f hf)).1)
    fun f hf _ => H.newFunction (Function.all_iff.mp (hfs f hf)).2

theorem declareBody (scope : ScopeId) (h : Stmt.AllIn True p i body) :
    Agrees I D i.strict (o.declareBody i.strict scope body) (Eval.declareBody scope body) :=
  .bind ((H.leaf _).declareNames scope _) fun _ => H.declareFunctions ho (fun name v =>
    (H.ground _).hear (declared ho _ scope name) ((H.leaf _).declareVariable scope name (some v)))
      _ h.functions

theorem declareAll (h : Stmt.AllIn True p i body) :
    Agrees I D i.strict (o.declareAll i.strict body) (Stmt.declareAll body) := by
  refine .bind (H.leaf _).current fun c => ?_
  cases c.varChain with
  | nil => exact (H.leaf _).pure ()
  | cons scope _ => exact H.declareBody ho scope h

theorem inBlock {b : Bool} (binding : Option (String × Value)) {run' run : Eval Flow}
    (hf : ∀ f ∈ Stmt.functions body, f.2.All True p (.declared b)) (hr : Agrees I D b run' run) :
    Agrees I D b (o.inBlock b body binding run') (Eval.inBlock body binding run) :=
  .bind (H.leaf b).current fun c => .bind (H.leaf b).newScope fun scope =>
    .bind ((H.leaf b).bindFirst scope binding) fun _ => .inScopes (scope :: c.lexical) <|
      .bind (H.declareFunctions ho (fun name v => (H.leaf b).declare scope name v true) _ hf)
        fun _ => hr

/-- Under a regime all values are admitted, and there is one world. -/
theorem survey :
    Survey o True p (fun (_ _ : Unit) => True) (fun _ _ => True) fun b _ _ _ => Agrees I D b where
  grow _ _ := trivial
  plain _ _ _ := trivial
  pure _ := (H.leaf _).pure _
  bind hm hf := .bind hm fun a => hf () trivial a fun _ _ => trivial
  passed b _ := passed ho b
  resolve _ _ name := (H.leaf _).resolve name
  receiver _ _ := .bind (H.leaf _).current fun c => (H.leaf _).pure c.receiver
  typeofName _ _ name := (H.leaf _).typeofName name
  isDirectEval _ _ name callee := (H.leaf _).isDirectEval name callee
  readMember key? _ := (H.leaf _).readMember _ key?
  assignName name _ _ := (H.leaf _).stem.assignName name _
  assignMember key? _ _ := (H.leaf _).stem.assignMember _ key? _
  declareName {b _} kind name _ _ := (H.ground b).toPaired.declareName (H.leaf b)
    (fun a => .idle fun _ hs _ => ho.assigned a hs) (declared ho b) kind name _
  skip _ _ _ h := (H.leaf _).stem.skip h
  onHeap _ _ _ _ _ _ := (H.leaf _).onHeap _
  elements _ := (H.leaf _).newObject (Record.data_elements _)
  entries _ := (H.leaf _).newObject (Record.data_entries _)
  function hf := H.functionExpression ho hf
  throw _ := (H.leaf _).throw _
  inBlock hf _ hr := H.inBlock ho _ hf (hr () trivial)
  attempt {b _ _ _ _ _ _ _} hb hh hf := by
    refine (H.ground b).toPaired.attempt (fun r _ => H.stray ho b r) hb ?_ ?_
    · cases hh with
      | none => exact .none
      | some h => exact .some fun v => h.2 () trivial v trivial
    · cases hf with
      | none => exact .none
      | some h => exact .some (h () trivial)

/-! ### Bodies of code -/

section Code

variable {call' call : Invoke} (hc : ∀ b, Invoke.Paired (Agrees I D b) call' call)
include hc

theorem stmtAll {i : Site} {ts : List Stmt} (h : Stmt.AllIn True p i ts) :
    Agrees I D i.strict (o.execAll call' i none ts) (Stmt.execAll call none ts) :=
  (H.survey ho).stmtAll (w := ()) (fun b _ callee receiver args options _ _ _ =>
    hc b callee receiver args options) none ts (fun _ _ => trivial) h

theorem apply {f : Function} {chain : Chain} (hf : Callable.Sound p (.closure f chain)) {b : Bool}
    (receiver : Value) (args : List Value) :
    Agrees I D b (o.apply call' f chain receiver args) (f.apply call chain receiver args) := by
  refine .bind ((H.leaf b).read _) fun exceeded => ?_
  split
  · exact (H.leaf b).route _ _
  · refine .bind (H.leaf b).newScope fun scope => .bind ((H.leaf b).bindParams scope f.params args) fun _ =>
      .bind ((H.leaf b).read _) fun receiver => .bind (H.leaf b).current fun c => ?_
    refine .bind (.inContext _ .inl ?_) fun _ => (H.leaf b).pure _
    exact .bind (H.declareBody ho (i := .head f.strict f.body) scope hf) fun _ => H.stmtAll ho hc hf

theorem program {prog : Program} (h : Stmt.AllIn True p (.head prog.strict prog.body) prog.body) :
    Agrees I D prog.strict (o.run call' prog) (prog.run call) := by
  refine .bind (.observe (.bind (H.declareAll ho h) fun _ => H.stmtAll ho hc h)) fun r => ?_
  obtain f | v | v := r
  · exact (H.ground _).hear (H.stray ho _ _) ((H.leaf _).settle _)
  · exact (H.leaf _).pure _
  · exact (H.leaf _).pure _

end Code

/-! ### Calls -/

section Hosted

variable {parse : Parser} {foreign : Foreign} (hread : ∀ {source filename prog},
  parse source filename = .ok prog → Stmt.AllIn True p (.head prog.strict prog.body) prog.body)
include hread

theorem evalsAlike {call' call : Invoke} (hc : ∀ b, Invoke.Paired (Agrees I D b) call' call) (b : Bool) :
    Host.EvalsAlike (Agrees I D b) (o.parsing parse foreign) (.parsing parse foreign) call' call := by
  intro source filename
  change (∃ e, (parse source filename).map o.fragment = .error e ∧
      (parse source filename).map Program.fragment = .error e) ∨
    ∃ f' f, (parse source filename).map o.fragment = .ok f' ∧
      (parse source filename).map Program.fragment = .ok f ∧ _
  cases h : parse source filename with
  | error e => exact .inl ⟨e, rfl, rfl⟩
  | ok prog =>
    refine .inr ⟨o.fragment prog, prog.fragment, rfl, rfl, rfl, fun direct name => ?_⟩
    exact .bind (H.leaf b).newScope fun scope s hs _ => AgreesAt.inContext
      (H.program ho hc (hread h) _ hs (s.suits_evalContext prog.strict direct name scope))

variable [Platform]

theorem callable {inner' inner call' call : Invoke} (hi : ∀ b, Invoke.Paired (Agrees I D b) inner' inner)
    (hc : ∀ b, Invoke.Paired (Agrees I D b) call' call) {b : Bool} (receiver : Value) (args : List Value)
    (options : CallOptions) {c : Callable} (h : c.Sound p) :
    Agrees I D b (o.runCallable (o.parsing parse foreign) inner' call' receiver args options c)
      (c.run (.parsing parse foreign) inner call receiver args options) := by
  cases c with
  | closure f chain => exact H.apply ho hi h receiver args
  | builtin x =>
    exact (H.ground b).builtin (H.evalsAlike ho hread hi b) (hc b) receiver args options x
  | foreign name arity guarded => exact h.elim

theorem relay {inner' inner : Invoke} (hi : ∀ b, Invoke.Paired (Agrees I D b) inner' inner)
    (relays : Nat) (b : Bool) :
    Invoke.Paired (Agrees I D b) (o.relay (o.parsing parse foreign) inner' relays)
      (Surmise.relay (.parsing parse foreign) inner relays) := by
  induction relays generalizing b with
  | zero => exact fun _ _ _ _ => (H.leaf b).exhausted
  | succ relays ih =>
    intro callee receiver args options
    unfold Observer.relay Surmise.relay callWith
    split
    · exact (H.leaf b).pure _
    · exact .dispatch H.functions callee
        (fun _ h => H.callable ho hread hi ih receiver args options h)
        fun h => (H.leaf b).throwNew _ _

theorem invoke (contexts : Nat) (b : Bool) :
    Invoke.Paired (Agrees I D b) (o.invoke (o.parsing parse foreign) contexts)
      (Surmise.invoke (.parsing parse foreign) contexts) := by
  induction contexts generalizing b with
  | zero => exact fun _ _ _ _ => (H.leaf b).exhausted
  | succ contexts ih =>
    exact fun callee receiver args options =>
      H.relay ho hread ih (relayBudget args) b callee receiver args options

/-! ### Runs -/

theorem runFile {s : Session} (hs : I s.store) (source filename : String) :
    s.Keeps I D (s.runFile (.parsing parse foreign) source filename).2 ∧
      (¬ D (s.runFile (.parsing parse foreign) source filename).2.store →
        o.runFile (o.parsing parse foreign) source filename s =
          s.runFile (.parsing parse foreign) source filename) := by
  cases h : parse source filename with
  | error e =>
    obtain ⟨heq, hend⟩ := @Observer.runFile_refused _ parse foreign source filename e h o s
    rw [heq, hend]
    exact ⟨.refl hs, fun _ => rfl⟩
  | ok prog =>
    obtain ⟨hkeeps, heq⟩ : AgreesAt I D s
        (Session.runFragment (o.invoke (o.parsing parse foreign) s.contextBudget) (o.fragment prog) filename)
        (Session.runFragment (Surmise.invoke (.parsing parse foreign) s.contextBudget) prog.fragment
          filename) :=
      AgreesAt.inContext (H.program ho (H.invoke ho hread s.contextBudget) (hread h) _ hs .inl)
    rw [Session.runFile_parsing h, Observer.runFile_parsing h, RunResult.ofOutcome_snd]
    exact ⟨hkeeps, fun hend => by rw [heq hend]⟩

theorem runAll {s : Session} (hs : I s.store) (files : List (String × String)) :
    s.Keeps I D (Session.runAll (fun source filename s =>
        s.runFile (.parsing parse foreign) source filename) files s).2 ∧
      (¬ D (Session.runAll (fun source filename s =>
          s.runFile (.parsing parse foreign) source filename) files s).2.store →
        Session.runAll (o.runFile (o.parsing parse foreign)) files s =
          Session.runAll (fun source filename s =>
            s.runFile (.parsing parse foreign) source filename) files s) := by
  induction files generalizing s with
  | nil => exact ⟨.refl hs, fun _ => rfl⟩
  | cons file files ih =>
    obtain ⟨source, filename⟩ := file
    obtain ⟨hkeeps, heq⟩ := @runFile p I D H o ho parse foreign hread _ s hs source filename
    obtain ⟨hkeeps', heq'⟩ := ih hkeeps.order
    refine ⟨hkeeps.trans hkeeps', fun hend => ?_⟩
    rw [Session.runAll, Session.runAll, heq fun hd => hend (hkeeps'.lasts hd)]
    dsimp only
    rw [heq' hend]

end Hosted

theorem runAll_standard [Platform] (hread : ∀ {source prog}, Program.parse source = .ok prog →
      Stmt.AllIn True p (.head prog.strict prog.body) prog.body)
    {s : Session} (hs : I s.store) (files : List (String × String)) :
    s.Keeps I D (Session.runAll (fun source filename s => s.runFile .standard source filename)
        files s).2 ∧
      (¬ D (Session.runAll (fun source filename s => s.runFile .standard source filename)
          files s).2.store →
        Session.runAll (o.runFile o.standard) files s =
          Session.runAll (fun source filename s => s.runFile .standard source filename) files s) :=
  @runAll p I D H o ho (fun source _ => Program.parse source) (fun _ _ _ _ _ => return .unknown) hread
    _ s hs files

end Observed
end Store.Regime
end Surmise
