import Surmise.Invocation

/-! What evaluations do when they are run: one equation for each way of building them. -/
namespace Surmise.Eval
variable {α β : Type} {m : Eval α} {f : α → Eval β} {s t : Session} {a : α} {k : Except Fault α → Eval β}

theorem run_bind (h : m s = (.done a, t)) : (m >>= f) s = f a t := by
  change Eval.bind m f s = f a t
  rw [Eval.bind, h]

theorem run_bind_failed {e : Fault} (h : m s = (.failed e, t)) : (m >>= f) s = (.failed e, t) := by
  change Eval.bind m f s = _
  rw [Eval.bind, h]

theorem run_bind_exhausted (h : m s = (.exhausted, t)) : (m >>= f) s = (.exhausted, t) := by
  change Eval.bind m f s = _
  rw [Eval.bind, h]

theorem run_bind_eq_done {b : β} {u : Session} (h : (m >>= f) s = (.done b, u)) :
    ∃ a t, m s = (.done a, t) ∧ f a t = (.done b, u) := by
  cases hr : m s with
  | mk r t =>
    cases r with
    | done a =>
      rw [run_bind hr] at h
      exact ⟨a, t, rfl, h⟩
    | failed e =>
      rw [run_bind_failed hr] at h
      cases h
    | exhausted =>
      rw [run_bind_exhausted hr] at h
      cases h

theorem run_bind_congr {m' : Eval α} (h : m s = m' s) (f : α → Eval β) : (m >>= f) s = (m' >>= f) s := by
  change Eval.bind m f s = Eval.bind m' f s
  rw [Eval.bind, Eval.bind, h]

theorem bind_assoc {γ : Type} (m : Eval α) (f : α → Eval β) (g : β → Eval γ) :
    (m >>= f) >>= g = m >>= fun a => f a >>= g := by
  funext s
  change Eval.bind (Eval.bind m f) g s = Eval.bind m (fun a => Eval.bind (f a) g) s
  unfold Eval.bind
  cases m s with
  | mk r t => cases r <;> rfl

theorem bind_pure (m : Eval α) : m >>= Pure.pure = m := by
  funext s
  change Eval.bind m Eval.pure s = m s
  unfold Eval.bind
  cases m s with
  | mk r t => cases r <;> rfl

/-- An evaluation goes on where its first part is done, or ends where that ends; and so does another one
whose first part does the same. -/
theorem bind_cases (m' m : Eval α) (f' f : α → Eval β) (s : Session) :
    (∃ a, m s = (.done a, (m s).2) ∧ (m >>= f) s = f a (m s).2 ∧
      (m' s = m s → (m' >>= f') s = f' a (m s).2)) ∨
    ((m >>= f) s).2 = (m s).2 ∧ (m' s = m s → (m' >>= f') s = (m >>= f) s) := by
  cases hr : m s with
  | mk r t =>
    cases r with
    | done a => exact .inl ⟨a, rfl, run_bind hr, fun h => run_bind h⟩
    | failed e =>
      rw [run_bind_failed hr]
      exact .inr ⟨rfl, fun h => run_bind_failed h⟩
    | exhausted =>
      rw [run_bind_exhausted hr]
      exact .inr ⟨rfl, fun h => run_bind_exhausted h⟩

theorem snd_observe (m : Eval α) (s : Session) : (observe m s).2 = (m s).2 := by
  unfold observe
  cases m s with
  | mk r t => cases r <;> rfl

theorem observe_congr {m' : Eval α} (h : m' s = m s) : observe m' s = observe m s := by
  unfold observe
  rw [h]

theorem run_observe_done (h : m s = (.done a, t)) : (observe m >>= k) s = k (.ok a) t :=
  run_bind (by rw [observe, h])

theorem run_observe_failed {e : Fault} (h : m s = (.failed e, t)) : (observe m >>= k) s = k (.error e) t :=
  run_bind (by rw [observe, h])

theorem run_observe_exhausted (h : m s = (.exhausted, t)) : (observe m >>= k) s = (.exhausted, t) :=
  run_bind_exhausted (by rw [observe, h])

theorem run_read_bind (f : Session → α) (g : α → Eval β) (s : Session) :
    (read f >>= g) s = g (f s) s := rfl

theorem run_onStore (f : Store → Store × α) (s : Session) :
    onStore f s = (.done (f s.store).2, { s with store := (f s.store).1 }) := rfl

theorem run_onHeap (f : Heap → α) (s : Session) : onHeap f s = (.done (f s.heap), s) := rfl

theorem run_inContext {c : Context} (h : m { s with contexts := c :: s.contexts } = (.done a, t)) :
    inContext c m s = (.done a, t.leave s.contexts.length) := by
  unfold inContext
  rw [h]

theorem run_resolve {name : String} {v : Value} (h : s.store.lookup s.current.lexical name = some v) :
    resolve name s = (.done v, s) := by
  unfold resolve
  rw [run_read_bind, h]
  rfl

theorem run_route (h : s.recovers = true) (kind : ErrorKind) (message : String) :
    route kind message s = (.done .unknown, s.report (.fault kind message) .recovered) := by
  unfold route
  rw [run_read_bind, if_pos h]
  rfl

theorem run_route_thrown (h : s.recovers = false) (kind : ErrorKind) (message : String) :
    route kind message s = (.failed (.thrown (.object ⟨s.heap.size⟩)),
      Session.report { s with store := (s.store.allocate (.errorNamed kind.name message)).1 }
        (.fault kind message) .thrown) := by
  have hname : ErrorKind.ofName kind.name = kind := by cases kind <;> rfl
  unfold route
  rw [run_read_bind, if_neg (by simp [h]), throwNew, raise, hname]
  rfl

theorem eq_unknown_of_route {kind : ErrorKind} {message : String} {v : Value}
    (h : route kind message s = (.done v, t)) : v = .unknown := by
  cases hr : s.recovers with
  | true =>
    rw [run_route hr] at h
    cases h
    rfl
  | false =>
    rw [run_route_thrown hr] at h
    cases h

theorem run_routeOnly (h : s.recovers = true) (kind : ErrorKind) (message : String) :
    routeOnly kind message s = (.done (), s.report (.fault kind message) .recovered) :=
  run_bind (run_route h kind message)

theorem run_routeOnly_thrown (h : s.recovers = false) (kind : ErrorKind) (message : String) :
    routeOnly kind message s = (.failed (.thrown (.object ⟨s.heap.size⟩)),
      Session.report { s with store := (s.store.allocate (.errorNamed kind.name message)).1 }
        (.fault kind message) .thrown) :=
  run_bind_failed (run_route_thrown h kind message)

end Surmise.Eval

namespace Surmise

open Eval

variable {s t : Session} {receiver v : Value} {args : List Value} {body : Eval Value}

theorem run_guarded (hr : receiver.isUnknown = false) (ha : args.any Value.isUnknown = false)
    (hb : body s = (.done v, t)) : guarded receiver args body s = (.done v, t) := by
  have ho : observe body s = (.done (.ok v), t) := by
    unfold observe
    rw [hb]
  unfold guarded
  rw [hr, ha]
  exact run_bind ho

theorem run_guarded_thrown (hr : receiver.isUnknown = false) (ha : args.any Value.isUnknown = false)
    (hb : body s = (.failed (.thrown v), t)) : guarded receiver args body s = (.failed (.thrown v), t) := by
  unfold guarded
  rw [hr, ha]
  exact run_observe_failed hb

theorem guarded_congr {body' : Eval Value} (h : body s = body' s) (receiver : Value) (args : List Value) :
    guarded receiver args body s = guarded receiver args body' s := by
  unfold guarded
  split
  · rfl
  · exact run_bind_congr (observe_congr h) _

theorem done_of_guarded (hv : v.isUnknown = false) (h : guarded receiver args body s = (.done v, t)) :
    receiver.isUnknown = false ∧ args.any Value.isUnknown = false ∧ body s = (.done v, t) := by
  unfold guarded at h
  split at h
  · cases h
    cases hv
  next hknown =>
    rw [Bool.not_eq_true, Bool.or_eq_false_iff] at hknown
    refine ⟨hknown.1, hknown.2, ?_⟩
    cases hb : body s with
    | mk r u =>
      cases r with
      | done w =>
        rw [run_observe_done hb] at h
        exact h
      | exhausted =>
        rw [run_observe_exhausted hb] at h
        cases h
      | failed f =>
        rw [run_observe_failed hb] at h
        cases f with
        | thrown w => cases h
        | host e =>
          rw [eq_unknown_of_route h] at hv
          cases hv

theorem argument_known (h : args.any Value.isUnknown = false) (i : Nat) :
    (argument args i).isUnknown = false := by
  rw [List.any_eq_false] at h
  unfold argument
  rw [List.getD_eq_getElem?_getD]
  cases hi : args[i]? with
  | some v => exact (Bool.not_eq_true _).mp (h v (List.mem_of_getElem? hi))
  | none => rfl

theorem invoke_builtin [Platform] (host : Host) (contexts : Nat) {callee : Value} (receiver : Value)
    (args : List Value)
    (options : CallOptions) {b : Builtin} (hc : s.heap.callable? callee = some (.builtin b)) :
    invoke host (contexts + 1) callee receiver args options s =
      guarded receiver args (b.run host (invoke host contexts)
        (relay host (invoke host contexts) (args.length + 15)) args options) s := by
  have hknown : callee.isUnknown = false := by
    cases callee with
    | unknown => cases hc
    | _ => rfl
  rw [invoke, relayBudget, relay, callWith, hknown, if_neg (by simp), run_read_bind, hc]
  rfl

def Outcome.text? : Outcome Value → Option String
  | .done (.string text) => some text
  | _ => none

theorem Outcome.run_of_text? {r : Outcome Value × Session} {text : String}
    (h : r.1.text? = some text) : r = (.done (.string text), r.2) := by
  obtain ⟨r, t⟩ := r
  unfold text? at h
  split at h
  next hr =>
    cases h
    exact Prod.ext hr rfl
  next => cases h

def Session.ofHeap (h : Heap) : Session where
  options := {}
  store := { heap := h }
  globalObject := ⟨0⟩
  globalContext := ⟨[], [], .undefined, false, false, ""⟩

end Surmise
