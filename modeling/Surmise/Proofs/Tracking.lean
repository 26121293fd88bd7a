import Surmise.Proofs.Law.Uniform

/-! Every evaluation is an evolution of its session. -/
namespace Surmise

variable [Platform]

namespace Eval
variable {A : Callable → Prop} {α β : Type}

/-- However the evaluation ends, a session whose functions are admitted has evolved to where it left
it. -/
def Tracked (A : Callable → Prop) (m : Eval α) : Prop :=
  ∀ s : Session, s.heap.Admits A → s.Evolves (m s).2

namespace Tracked

theorem bind (hA : ∀ f chain, A (.closure f chain)) {m : Eval α} {f : α → Eval β}
    (hm : Tracked A m) (hf : ∀ a, Tracked A (f a)) : Tracked A (m >>= f) := by
  intro s hs
  have h := hm s hs
  obtain ⟨a, -, hrun, -⟩ | ⟨hstop, -⟩ := bind_cases m m f f s
  · rw [hrun]
    exact h.trans (hf a _ (h.admits hA hs))
  · rw [hstop]
    exact h

theorem observe {m : Eval α} (hm : Tracked A m) : Tracked A (Eval.observe m) := by
  intro s hs
  rw [snd_observe]
  exact hm s hs

theorem inScopes {m : Eval α} (chain : Chain) (hm : Tracked A m) :
    Tracked A (Eval.inScopes chain m) := by
  intro s hs
  have h := hm (s.setLexical chain) (by rw [Session.heap, Session.store_setLexical]; exact hs)
  exact .scopes chain h

theorem recover (kind : ErrorKind) (message : String) {m m' : Eval α} (hm : Tracked A m)
    (hm' : Tracked A m') :
    Tracked A (do if ← Eval.read Session.recovers then reportRecovered kind message; m else m') := by
  intro s hs
  rw [run_read_bind]
  cases hr : s.recovers with
  | true =>
    rw [if_pos rfl]
    exact .trans (.recovered kind message hr) (hm (s.report (.fault kind message) .recovered) hs)
  | false =>
    rw [if_neg (by simp)]
    exact hm' s hs

theorem dispatch (callee : Value) {run : Callable → Eval Value} {refuse : Heap → Eval Value}
    (hrun : ∀ c, A c → Tracked A (run c)) (hrefuse : ∀ h, Tracked A (refuse h)) :
    Tracked A (Eval.dispatch callee run refuse) := by
  intro s hs
  obtain ⟨c, hc, hcase⟩ | hcase := dispatch_cases hs callee
  · rw [hcase]
    exact hrun c hc s hs
  · rw [hcase]
    exact hrefuse _ s hs

end Tracked

/-- Evolution is a law wherever the functions of scripts are admitted. -/
theorem tracked_law (hA : ∀ f chain, A (.closure f chain)) : Law A (Tracked A) where
  pure _ s _ := .refl s
  bind := .bind hA
  exhausted s _ := .refl s
  thrown _ := trivial
  fail _ s _ := .refl s
  observe hm hk := .bind hA (.observe hm) fun r => hk r fun _ _ => trivial
  read _ _ s _ := .refl s
  onStore hf s _ := .changes (hf s.store)
  allocate hr _ _ := .change (.allocate _ hr.1)
  newFunction f chain := .bind hA (fun _ _ => .change (.allocate _ (.closure f chain))) fun _ s _ =>
    .refl s
  inContext c hm s hs := .context c (hm { s with contexts := c :: s.contexts } hs)
  inScopes := .inScopes
  inTry hm s hs := .tried (hm { s with tryDepth := s.tryDepth + 1 } hs)
  reportThrown kind message s _ := .thrown s kind message
  reportUnread h s _ := .unread s h
  recover := .recover
  draw randoms s _ := .draw s randoms
  dispatch := .dispatch

end Eval

/-! ### Internal functions

Any host will do for sessions in which the functions of the host do not occur. -/

def Invoke.Tracked (call : Invoke) : Prop :=
  call.Has (Eval.Tracked Callable.Internal)

theorem internal_law : Eval.Law Callable.Internal (Eval.Tracked Callable.Internal) :=
  Eval.tracked_law fun _ _ => trivial

theorem Host.respects_internal (host : Host) :
    host.Respects Callable.Internal (Eval.Tracked Callable.Internal) :=
  fun _ _ _ h => h.elim

section Internal
variable {host : Host} {call : Invoke} (hr : host.ReadsPrograms) (hc : Invoke.Tracked call)

include hc in
theorem Expr.tracked (e : Expr) : (e.eval call).Tracked Callable.Internal := internal_law.expr hc e

include hc in
theorem Stmt.trackedAll (last : Option Value) (ts : List Stmt) :
    (Stmt.execAll call last ts).Tracked Callable.Internal :=
  internal_law.stmtAll hc last ts

include hr

include hc in
theorem Builtin.tracked_evalSource (options : CallOptions) (v : Value) :
    (evalSource host call options v).Tracked Callable.Internal :=
  internal_law.evalSource hr hc options v

theorem tracked_invoke (contexts : Nat) : Invoke.Tracked (invoke host contexts) :=
  internal_law.invoke hr host.respects_internal contexts

theorem tracked_call : Invoke.Tracked host.call := internal_law.call hr host.respects_internal

theorem tracked_complete (callee receiver : Value) (args : List Value) (options : CallOptions) :
    (host.complete callee receiver args options).Tracked Callable.Internal :=
  internal_law.complete hr host.respects_internal callee receiver args options

theorem evolves_runFile (source filename : String) {s : Session} (hs : s.heap.Internal) :
    s.Evolves (s.runFile host source filename).2 := by
  cases hm : host.runFile source filename with
  | error e =>
    rw [Session.runFile_refused hm]
    exact .refl s
  | ok m =>
    rw [Session.runFile_snd hm]
    exact internal_law.runFile hr host.respects_internal hm s hs

end Internal
end Surmise
