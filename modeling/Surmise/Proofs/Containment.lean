import Surmise.Proofs.Law.Uniform

/-! Faults of the host stay behind the guards of the functions that raise them. Where all functions are
closures or guarded, no evaluation ends with one, and what would be done about one elsewhere is never
done. -/
namespace Surmise

def Callable.Guarded : Callable → Prop
  | closure .. | builtin _ => True
  | foreign _ _ guarded => guarded = true

def Fault.IsThrown : Fault → Prop
  | thrown _ => True
  | host _ => False

def Outcome.Inside {α : Type} : Outcome α → Prop
  | failed f => f.IsThrown
  | done _ | exhausted => True

def Observer.ofFaults (seen : HostError → Eval Unit) : Observer :=
  { Observer.silent with unrouted := seen }

namespace Eval
variable {α β : Type}

def Contained (m : Eval α) : Prop :=
  ∀ s : Session, s.heap.Admits Callable.Guarded →
    (m s).1.Inside ∧ (m s).2.heap.Admits Callable.Guarded

/-- The second evaluation is contained, and in a session whose functions are guarded the first one does
the same. -/
def Matches (m' m : Eval α) : Prop :=
  ∀ s : Session, s.heap.Admits Callable.Guarded →
    m' s = m s ∧ (m s).1.Inside ∧ (m s).2.heap.Admits Callable.Guarded

theorem Matches.contained {m' m : Eval α} (h : Matches m' m) : Contained m := fun s hs => (h s hs).2

theorem Matches.eq {m' m : Eval α} (h : Matches m' m) {s : Session}
    (hs : s.heap.Admits Callable.Guarded) : m' s = m s := (h s hs).1

namespace Matches

variable {m m' : Eval α}

theorem of_still (h : ∀ s, (m s).1.Inside) (hh : ∀ s, (m s).2.heap = s.heap) : Matches m m :=
  fun s hs => ⟨rfl, h s, (hh s).symm ▸ hs⟩

theorem onStore {f : Store → Store × α} (hf : ∀ st : Store, st.Changes (f st).1) :
    Matches (Eval.onStore f) (Eval.onStore f) :=
  fun s hs => ⟨rfl, trivial, (Session.Evolves.changes (hf s.store)).admits (fun _ _ => trivial) hs⟩

theorem allocate {r : Record} (hr : ∀ c, r.callable = some c → c.Guarded) :
    Matches (Eval.allocate r) (Eval.allocate r) :=
  fun _ hs => ⟨rfl, trivial, Heap.Admits.allocate hs hr⟩

theorem bind {f' f : α → Eval β} (hm : Matches m' m) (hf : ∀ a, Matches (f' a) (f a)) :
    Matches (m' >>= f') (m >>= f) := by
  intro s hs
  obtain ⟨heq, hend⟩ := hm s hs
  cases hr : m s with
  | mk r t =>
    rw [hr] at heq hend
    cases r with
    | done a =>
      rw [run_bind heq, run_bind hr]
      exact hf a t hend.2
    | failed e =>
      rw [run_bind_failed heq, run_bind_failed hr]
      exact ⟨rfl, hend⟩
    | exhausted =>
      rw [run_bind_exhausted heq, run_bind_exhausted hr]
      exact ⟨rfl, hend⟩

theorem observe {k' k : Except Fault α → Eval β} (hm : Matches m' m)
    (hk : ∀ r, Within Fault.IsThrown r → Matches (k' r) (k r)) :
    Matches (Eval.observe m' >>= k') (Eval.observe m >>= k) := by
  intro s hs
  obtain ⟨heq, hend⟩ := hm s hs
  cases hr : m s with
  | mk r t =>
    rw [hr] at heq hend
    cases r with
    | done a =>
      rw [run_observe_done heq, run_observe_done hr]
      exact hk _ (within_ok a) t hend.2
    | failed e =>
      rw [run_observe_failed heq, run_observe_failed hr]
      exact hk _ (within_error hend.1) t hend.2
    | exhausted =>
      rw [run_observe_exhausted heq, run_observe_exhausted hr]
      exact ⟨rfl, hend⟩

theorem inTry (hm : Matches m' m) : Matches (Eval.inTry m') (Eval.inTry m) := by
  intro s hs
  obtain ⟨heq, hrest⟩ := hm { s with tryDepth := s.tryDepth + 1 } hs
  unfold Eval.inTry
  rw [heq]
  exact ⟨rfl, hrest⟩

theorem inContext (c : Context) (hm : Matches m' m) : Matches (Eval.inContext c m') (Eval.inContext c m) := by
  intro s hs
  obtain ⟨heq, hrest⟩ := hm { s with contexts := c :: s.contexts } hs
  unfold Eval.inContext
  dsimp only
  rw [heq]
  exact ⟨rfl, hrest⟩

theorem inScopes (chain : Chain) (hm : Matches m' m) :
    Matches (Eval.inScopes chain m') (Eval.inScopes chain m) := by
  intro s hs
  obtain ⟨heq, hin, hheap⟩ := hm (s.setLexical chain) (by
    rw [Session.heap, Session.store_setLexical]
    exact hs)
  unfold Eval.inScopes
  dsimp only
  rw [heq]
  refine ⟨rfl, hin, ?_⟩
  rw [Session.heap, Session.store_setLexical]
  exact hheap

end Matches

theorem Matches.steady : Steady Fault.IsThrown Matches where
  thrown _ := trivial
  still {α m} _ hstore hf := .of_still (fun s => by
    cases hr : (m s).1 with
    | failed f => exact hf s f hr
    | done a => trivial
    | exhausted => trivial) fun s => congrArg Store.heap (hstore s)
  bind := .bind
  observe := .observe
  inTry := .inTry
  allocate hr := .allocate hr.admitted

theorem Matches.core : Core Fault.IsThrown fun m => Matches m m := Matches.steady.core

theorem Matches.guarded (receiver : Value) (args : List Value) {body' body : Eval Value}
    (hb : ∀ s : Session, s.heap.Admits Callable.Guarded →
      body' s = body s ∧ (body s).2.heap.Admits Callable.Guarded) :
    Matches (Eval.guarded receiver args body') (Eval.guarded receiver args body) := by
  unfold Eval.guarded
  split
  · exact Matches.core.pure _
  · intro s hs
    obtain ⟨heq, hheap⟩ := hb s hs
    cases hr : body s with
    | mk r t =>
      rw [hr] at heq hheap
      obtain a | (v | e) | _ := r
      · rw [run_observe_done heq, run_observe_done hr]
        exact ⟨rfl, trivial, hheap⟩
      · rw [run_observe_failed heq, run_observe_failed hr]
        exact ⟨rfl, trivial, hheap⟩
      -- the fault of the host ends here: as a report, or as a fault of the script
      · rw [run_observe_failed heq, run_observe_failed hr]
        exact Matches.core.route e.kind e.message t hheap
      · rw [run_observe_exhausted heq, run_observe_exhausted hr]
        exact ⟨rfl, trivial, hheap⟩

/-- Containment is a law, whatever is done about faults of the host that come out: none does. -/
theorem Matches.uniform [Platform] (seen : HostError → Eval Unit) :
    Uniform (.ofFaults seen) Callable.Guarded Fault.IsThrown (fun _ => False) Matches where
  core := Matches.core
  bind := .bind
  observe := .observe
  inTry := .inTry
  edit h := .onStore fun st => (h st).changes
  hold hr hk := .bind (.allocate hr.admitted) fun id => hk id not_false
  newFunction f chain := .bind (.allocate fun c hc => by cases hc; trivial) fun _ =>
    .of_still (fun _ => trivial) fun _ => rfl
  reportUnread _ := .of_still (fun _ => trivial) fun _ => rfl
  draw _ := .of_still (fun _ => trivial) fun _ => rfl
  inContext := .inContext
  inScopes := .inScopes
  dispatch callee run' run refuse hrun hrefuse := by
    intro s hs
    obtain ⟨c, hc, hcase⟩ | hcase := dispatch_cases hs callee
    · rw [hcase, hcase]
      exact hrun c hc s hs
    · rw [hcase, hcase]
      exact hrefuse _ s hs
  passed := .of_still (fun _ => trivial) fun _ => rfl
  made _ _ := .of_still (fun _ => trivial) fun _ => rfl
  declared _ _ := .of_still (fun _ => trivial) fun _ => rfl
  assigned _ := .of_still (fun _ => trivial) fun _ => rfl
  unrouted h := h.elim

end Eval

/-! ### Hosts with guarded functions -/

/-- Where all functions are guarded, the functions of the host keep it so; and how they make calls in
other sessions does not matter to them. -/
def Foreign.KeepsGuarded (foreign : Foreign) : Prop :=
  ∀ name {call' call : Invoke}, Invoke.Paired Eval.Matches call' call →
    ∀ receiver args options (s : Session), s.heap.Admits Callable.Guarded →
      foreign name call' receiver args options s = foreign name call receiver args options s ∧
        (foreign name call receiver args options s).2.heap.Admits Callable.Guarded

theorem Foreign.KeepsGuarded.paired [Platform] {foreign : Foreign} (hf : foreign.KeepsGuarded)
    (seen : HostError → Eval Unit) (parse : Parser) :
    Host.Paired Callable.Guarded Eval.Matches ((Observer.ofFaults seen).parsing parse foreign)
      (.parsing parse foreign) where
  read := (Eval.Matches.uniform seen).accord.readsAlike_parsing parse foreign
  foreign {name arity guarded} hg _ _ _ _ hc receiver args options := by
    cases (hg : guarded = true)
    exact Eval.Matches.guarded receiver args fun s hs => hf name hc receiver args options s hs

/-- Where all functions are closures, built in, or functions of the host behind the guard, no expression,
statement, body, call or program ends with a fault of the host. So whatever is done about such a fault
that comes out of the block of a `try` statement, of a program or of a call from outside makes no
difference. -/
theorem host_faults_stay_inside [Platform] (parse : Parser) (foreign : Foreign) (hf : foreign.KeepsGuarded) :
    let host := Host.parsing parse foreign
    (∀ contexts,
      (∀ e : Expr, (e.eval (invoke host contexts)).Contained) ∧
      (∀ t : Stmt, (t.exec (invoke host contexts)).Contained) ∧
      (∀ last body, (Stmt.execAll (invoke host contexts) last body).Contained) ∧
      (∀ body, (Stmt.execBody (invoke host contexts) body).Contained) ∧
      ∀ options v, (Builtin.evalSource host (invoke host contexts) options v).Contained) ∧
    (∀ callee receiver args options,
      (host.call callee receiver args options).Contained ∧
      (host.complete callee receiver args options).Contained) ∧
    (∀ source filename m, host.runFile source filename = .ok m → m.Contained) ∧
    ∀ (seen : HostError → Eval Unit) (s : Session), s.heap.Admits Callable.Guarded →
      let o := Observer.ofFaults seen
      let host' := o.parsing parse foreign
      (∀ contexts i last body, o.execAll (o.invoke host' contexts) i last body s =
        Stmt.execAll (invoke host contexts) last body s) ∧
      (∀ callee receiver args options, o.complete host' callee receiver args options s =
        host.complete callee receiver args options s) ∧
      ∀ source filename, o.runFile host' source filename s = s.runFile host source filename := by
  intro host
  have U := Eval.Matches.uniform fun _ => Eval.exhausted
  have hh := hf.paired (fun _ => Eval.exhausted) parse
  refine ⟨fun contexts => ?_, fun callee receiver args options => ⟨?_, ?_⟩,
    fun source filename m hm => ?_, fun seen s hs => ?_⟩
  · have hc := U.accord.invoke hh contexts
    exact ⟨fun e => (@Eval.Accord.expr _ _ _ _ _ _ U.accord [] _ _ hc (.declared false) e).contained,
      fun t => (U.accord.stmt hc (.declared false) t (List.Subset.refl _)).contained,
      fun last body => (U.accord.stmtAll hc (.declared false) last body (List.Subset.refl _)).contained,
      fun body => (U.accord.body hc false body).contained,
      fun options v => (U.accord.evalSource hh.read hc options v).contained⟩
  · exact (U.accord.call hh callee receiver args options).contained
  · exact (U.accord.complete hh callee receiver args options).contained
  · obtain ⟨m', hm⟩ := U.runFile hh hm
    exact hm.contained
  · have U := Eval.Matches.uniform seen
    have hh := hf.paired seen parse
    refine ⟨fun contexts i last body => ?_, fun callee receiver args options => ?_,
      fun source filename => ?_⟩
    · exact (U.accord.stmtAll (U.accord.invoke hh contexts) i last body (List.Subset.refl _)).eq hs
    · exact (U.accord.complete hh callee receiver args options).eq hs
    · exact Observer.runFile_eq hh.read source filename fun f' f hfragment =>
        (U.runFragment (U.accord.invoke hh s.contextBudget) hfragment filename).eq hs

/-! A host with one function, which does nothing but fail. -/

def Foreign.failing : Foreign := fun _ _ _ _ _ => Eval.fail (.host (.internal "out of order"))

def Session.failing : Session where
  options := {}
  store :=
    { heap := ⟨#[.empty .object, .ofCallable (.foreign "f" 0 true)]⟩
      scopes := #[{ bindings := Dict.empty.insert "f" ⟨.object ⟨1⟩, true⟩ }] }
  globalObject := ⟨0⟩
  globalContext := ⟨[⟨0⟩], [⟨0⟩], .undefined, false, false, "a.js"⟩

/-- The statement `try { f() }`, without handler or finalizer. -/
def Stmt.trying : Stmt :=
  .attempt [.expression (.call (.identifier ⟨"f", default⟩) [] default)] none none

theorem Foreign.keepsGuarded_failing : Foreign.failing.KeepsGuarded :=
  fun _ _ _ _ _ _ _ _ hs => ⟨rfl, hs⟩

theorem Session.admits_failing : Session.failing.heap.Admits Callable.Guarded := by
  rintro ⟨i⟩ c hc
  obtain _ | _ | i := i
  · cases hc
  · cases hc
    rfl
  · cases hc

theorem host_faults_stay_inside_failing :
    (Foreign.failing "f" (invoke .standard 3) .undefined [] {} .failing).1 =
        .failed (.host (.internal "out of order")) ∧
      (Stmt.trying.exec (invoke (.parsing (fun source _ => Program.parse source) .failing) 3)
        .failing).1.Inside ∧
      (Observer.ofFaults fun _ => Eval.exhausted).execAll
        ((Observer.ofFaults fun _ => Eval.exhausted).invoke
          ((Observer.ofFaults fun _ => Eval.exhausted).parsing (fun source _ => Program.parse source)
            .failing) 3) (.declared false) none [.trying] .failing =
        Stmt.execAll (invoke (.parsing (fun source _ => Program.parse source) .failing) 3) none
          [.trying] .failing := by
  have h := host_faults_stay_inside (fun source _ => Program.parse source) .failing
    Foreign.keepsGuarded_failing
  exact ⟨rfl, ((h.1 3).2.1 .trying _ Session.admits_failing).1,
    (h.2.2.2 (fun _ => Eval.exhausted) _ Session.admits_failing).1 3 _ none [.trying]⟩

end Surmise
