import Surmise.Proofs.Running

/-! What can be known of the results of evaluations, whatever session they start from. -/
namespace Surmise

def Flow.IsNormal : Flow → Prop
  | .normal _ => True
  | .returned _ => False

def Eval.Yields {α : Type} (m : Eval α) (Q : α → Prop) : Prop :=
  ∀ s a t, m s = (.done a, t) → Q a

namespace Eval.Yields
variable {α β : Type} {Q : β → Prop}

theorem pure {b : β} (h : Q b) : Yields (Pure.pure b : Eval β) Q := by
  intro s a t ha
  cases ha
  exact h

theorem bind {m : Eval α} {f : α → Eval β} {P : α → Prop} (hm : Yields m P)
    (hf : ∀ a, P a → Yields (f a) Q) : Yields (m >>= f) Q := by
  intro s b u h
  change Eval.bind m f s = (.done b, u) at h
  unfold Eval.bind at h
  split at h
  next a t ha => exact hf a (hm s a t ha) t b u h
  next => cases h
  next => cases h

theorem after {m : Eval α} {f : α → Eval β} (hf : ∀ a, Yields (f a) Q) : Yields (m >>= f) Q :=
  bind (P := fun _ => True) (fun _ _ _ _ => trivial) fun a _ => hf a

theorem exhausted : Yields (Eval.exhausted : Eval β) Q := fun _ _ _ => nofun

theorem throw (v : Value) : Yields (Eval.throw v : Eval β) Q := fun _ _ _ => nofun

theorem route {Q : Value → Prop} (h : Q .unknown) (kind : ErrorKind) (message : String) :
    Yields (Eval.route kind message) Q := by
  refine after fun recovers => ?_
  split
  · exact after fun _ => pure h
  · exact after fun _ => throw _

theorem observe {m : Eval β} (hm : Yields m Q) :
    Yields (Eval.observe m) fun r => ∀ b, r = .ok b → Q b := by
  intro s r t hr b hb
  subst hb
  unfold Eval.observe at hr
  split at hr
  next a u ha =>
    cases hr
    exact hm s b t ha
  next => cases hr
  next => cases hr

theorem resume {r : Except Fault β} (hr : ∀ b, r = .ok b → Q b) : Yields (Eval.resume r) Q := by
  cases r with
  | ok b => exact pure (hr b rfl)
  | error f => exact fun _ _ _ => nofun

theorem guarded {Q : Value → Prop} (h : Q .unknown) {receiver : Value} {args : List Value}
    {body : Eval Value} (hbody : Yields body Q) : Yields (Eval.guarded receiver args body) Q := by
  unfold Eval.guarded
  split
  · exact pure h
  · refine bind hbody.observe fun r hr => ?_
    rcases r with (v | e) | v
    · exact fun _ _ _ => nofun
    · exact route h _ _
    · exact pure (hr v rfl)

/-! ### Blocks -/

theorem inScopes {m : Eval β} (hm : Yields m Q) (chain : Chain) : Yields (Eval.inScopes chain m) Q := by
  intro s b t h
  unfold Eval.inScopes at h
  cases hrun : m (s.setLexical chain) with
  | mk r u =>
    rw [hrun] at h
    cases h
    exact hm _ b u hrun

theorem inTry {m : Eval β} (hm : Yields m Q) : Yields (Eval.inTry m) Q := by
  intro s b t h
  unfold Eval.inTry at h
  cases hrun : m { s with tryDepth := s.tryDepth + 1 } with
  | mk r u =>
    rw [hrun] at h
    cases h
    exact hm _ b u hrun

variable {Q : Flow → Prop} {run : Eval Flow}

theorem inBlock (hrun : Yields run Q) (body : List Stmt) (binding : Option (String × Value)) :
    Yields (Eval.inBlock body binding run) Q :=
  after fun _ => after fun _ => after fun _ => inScopes (after fun _ => hrun) _

theorem attempt {handler : Option (Value → Eval Flow)} {finalizer : Option (Eval Flow)}
    (hblock : Yields run Q) (hhandler : ∀ handle, handler = some handle → ∀ v, Yields (handle v) Q)
    (hfinalizer : ∀ finish, finalizer = some finish → Yields finish Q) :
    Yields (Eval.attempt run handler finalizer) Q := by
  have hrethrow {r : Except Fault Flow} (hr : ∀ flow, r = .ok flow → Q flow) :
      Yields (rethrow r) fun r => ∀ flow, r = .ok flow → Q flow := by
    unfold rethrow
    split
    · exact after fun _ => pure nofun
    · exact pure hr
  have hhandle {r : Except Fault Flow} (hr : ∀ flow, r = .ok flow → Q flow) :
      Yields (handleWith handler r) fun r => ∀ flow, r = .ok flow → Q flow := by
    unfold handleWith
    split
    · exact (hhandler _ rfl _).observe
    · exact pure hr
  refine bind hblock.inTry.observe fun r hr => bind (hrethrow hr) fun r hr => bind (hhandle hr)
    fun r hr => ?_
  cases finalizer with
  | none => exact resume hr
  | some finish =>
    refine bind (hfinalizer finish rfl) fun flow hflow => ?_
    cases flow with
    | normal _ => exact resume hr
    | returned _ => exact pure hflow

end Eval.Yields
end Surmise
