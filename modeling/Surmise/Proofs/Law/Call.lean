import Surmise.Proofs.Law.Accord
import Surmise.Proofs.Law.Ground

/-! A law that compares observed evaluation with evaluation holds of calls: a call may pass through
functions that stay in the context of their caller, and may enter contexts inside one another. -/
namespace Surmise

structure Fragment.Paired (R : ∀ {α : Type}, Eval α → Eval α → Prop) (f' f : Fragment) : Prop where
  strict : f'.strict = f.strict
  run : ∀ {call' call : Invoke}, Invoke.Paired R call' call → R (f'.run call') (f.run call)

def Host.ReadsAlike (R : ∀ {α : Type}, Eval α → Eval α → Prop) (host' host : Host) : Prop :=
  ∀ source filename,
    (∃ e, host'.read source filename = .error e ∧ host.read source filename = .error e) ∨
      ∃ f' f, host'.read source filename = .ok f' ∧ host.read source filename = .ok f ∧
        Fragment.Paired @R f' f

structure Host.Paired [Platform] (A : Callable → Prop) (R : ∀ {α : Type}, Eval α → Eval α → Prop)
    (host' host : Host) : Prop where
  read : Host.ReadsAlike @R host' host
  foreign : ∀ {name arity guarded}, A (.foreign name arity guarded) →
    ∀ {inner' inner call' call : Invoke}, Invoke.Paired R call' call → ∀ receiver args options,
      R (Callable.run host' inner' call' receiver args options (.foreign name arity guarded))
        (Callable.run host inner call receiver args options (.foreign name arity guarded))

namespace Eval.Accord

variable [Platform] {o : Observer} {A : Callable → Prop} {F : Fault → Prop} {keep : ObjectId → Prop}
  {R : List String → ∀ {α : Type}, Eval α → Eval α → Prop} (L : Accord o A F keep @R)
include L

theorem readsAlike_parsing (parse : Parser) (foreign : Foreign) :
    Host.ReadsAlike (@R []) (o.parsing parse foreign) (.parsing parse foreign) := by
  intro source filename
  cases h : parse source filename with
  | error e =>
    refine .inl ⟨e, ?_, ?_⟩
    · simp [Observer.parsing, h, Except.map]
    · simp [Host.parsing, h, Except.map]
  | ok p =>
    refine .inr ⟨o.fragment p, p.fragment, ?_, ?_, rfl, fun hc => L.program hc p⟩
    · simp [Observer.parsing, h, Except.map]
    · simp [Host.parsing, h, Except.map]

/-! ### Built-in functions -/

/-- What accord says of evaluation in contexts that have declared nothing. -/
theorem ground : Ground F keep (@R []) where
  toPaired := L.paired []
  stem := L.stem []
  hold := L.hold

section Hosted

variable {host' host : Host}

theorem evalsAlike (hh : Host.ReadsAlike (@R []) host' host) {call' call : Invoke}
    (hc : Invoke.Paired (R []) call' call) : Host.EvalsAlike (@R []) host' host call' call := by
  intro source filename
  obtain h | ⟨f', f, hf', hf, hp⟩ := hh source filename
  · exact .inl h
  · exact .inr ⟨f', f, hf', hf, hp.strict, fun direct filename =>
      L.inEval f.strict direct filename (hp.run hc)⟩

theorem evalSource (hh : Host.ReadsAlike (@R []) host' host) {call' call : Invoke}
    (hc : Invoke.Paired (R []) call' call) (options : CallOptions) (v : Value) :
    R [] (Builtin.evalSource host' call' options v) (Builtin.evalSource host call options v) :=
  L.ground.evalSource (L.evalsAlike hh hc) options v

/-! ### Calls -/

variable (hh : Host.Paired A (@R []) host' host)
include hh

theorem callable {inner' inner call' call : Invoke} (hi : Invoke.Paired (R []) inner' inner)
    (hc : Invoke.Paired (R []) call' call) (receiver : Value) (args : List Value)
    (options : CallOptions) {c : Callable} (h : A c) :
    R [] (o.runCallable host' inner' call' receiver args options c)
      (c.run host inner call receiver args options) := by
  cases c with
  | closure f chain => exact L.function hi h receiver args
  | builtin b => exact L.ground.builtin (L.evalsAlike hh.read hi) hc receiver args options b
  | foreign name arity guarded => exact hh.foreign h hc receiver args options

omit hh in
theorem callWith {run' run : Callable → Eval Value} (hrun : ∀ c, A c → R [] (run' c) (run c))
    (callee : Value) : R [] (Surmise.callWith run' callee) (Surmise.callWith run callee) := by
  unfold Surmise.callWith
  split
  · exact L.pure _
  · exact L.dispatch callee hrun fun h => (L.stem []).throwNew _ _

theorem relay {inner' inner : Invoke} (hi : Invoke.Paired (R []) inner' inner) (relays : Nat) :
    Invoke.Paired (R []) (o.relay host' inner' relays) (Surmise.relay host inner relays) := by
  induction relays with
  | zero => exact fun _ _ _ _ => (L.stem []).exhausted
  | succ relays ih =>
    exact fun callee receiver args options =>
      L.callWith (fun _ h => L.callable hh hi ih receiver args options h) callee

theorem invoke (contexts : Nat) :
    Invoke.Paired (R []) (o.invoke host' contexts) (Surmise.invoke host contexts) := by
  induction contexts with
  | zero => exact fun _ _ _ _ => (L.stem []).exhausted
  | succ contexts ih =>
    exact fun callee receiver args options =>
      L.relay hh ih (relayBudget args) callee receiver args options

theorem call : Invoke.Paired (R []) (o.call host') host.call :=
  fun callee receiver args options =>
    L.bind ((L.stem []).read Session.contextBudget) fun contexts =>
      L.invoke hh contexts callee receiver args options

theorem complete (callee receiver : Value) (args : List Value) (options : CallOptions) :
    R [] (o.complete host' callee receiver args options)
      (host.complete callee receiver args options) :=
  (L.paired []).observe (L.call hh callee receiver args options) fun _ hr => L.settle hr

end Hosted
end Eval.Accord

theorem Host.ReadsAlike.runFile [Platform] {R : ∀ {α : Type}, Eval α → Eval α → Prop} {host' host : Host}
    (hh : Host.ReadsAlike @R host' host) (source filename : String) :
    (∃ e, host.runFile source filename = .error e) ∨
      ∃ f' f, Fragment.Paired @R f' f ∧ host.runFile source filename =
        .ok fun s => Session.runFragment (invoke host s.contextBudget) f filename s := by
  unfold Host.runFile
  obtain ⟨e, -, he⟩ | ⟨f', f, -, hf, hp⟩ := hh source filename
  · rw [he]
    exact .inl ⟨_, rfl⟩
  · rw [hf]
    exact .inr ⟨f', f, hp, rfl⟩

theorem Observer.runFile_eq [Platform] {R : ∀ {α : Type}, Eval α → Eval α → Prop} {o : Observer}
    {host' host : Host} (hh : Host.ReadsAlike @R host' host) {s : Session} (source filename : String)
    (hrun : ∀ f' f, Fragment.Paired @R f' f →
      Session.runFragment (o.invoke host' s.contextBudget) f' filename s =
        Session.runFragment (Surmise.invoke host s.contextBudget) f filename s) :
    o.runFile host' source filename s = s.runFile host source filename := by
  unfold Observer.runFile Session.runFile Host.runFile
  obtain ⟨e, he', he⟩ | ⟨f', f, hf', hf, hp⟩ := hh source filename
  · rw [he', he]
  · rw [hf', hf]
    dsimp only
    cases hr : Session.runFragment (Surmise.invoke host s.contextBudget) f filename s with
    | mk r t =>
      have hr' := (hrun f' f hp).trans hr
      cases r <;> simp only [hr']

end Surmise
