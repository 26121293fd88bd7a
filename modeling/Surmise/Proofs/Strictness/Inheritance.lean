import Surmise.Proofs.Frame
import Surmise.Proofs.Observation.Regime
import Surmise.Proofs.Strictness.Parsing

/-! Strict code makes strict functions: what the parser knows of a function and what the session knows of
the code that makes it agree, wherever the parser can know it. It cannot for code that is given to a direct
`eval` and strict only by its caller, and it does not in the leading statements of code that directs itself
to be strict. -/
namespace Surmise

/-! ### The code of all functions -/

namespace Store
variable {p : Site → Function → Prop} {s t : Store}

theorem sound_edit (h : s.heap.Admits (Callable.Sound p)) (he : s.Edit (fun _ => False) t) :
    t.heap.Admits (Callable.Sound p) := by
  obtain ht | ⟨j, k, v, ht⟩ | ⟨j, k, q, _, _, ht⟩ | ⟨j, k, _, ht⟩ := he.heap_cases <;> rw [ht]
  · exact h
  · exact h.update j _ fun r => r.shape_put k v
  · exact h.update j _ fun r => r.shape_define k q
  · exact h.update j _ fun r => r.shape_delete k

/-- What the code of all functions has is kept by whatever code that has it does. -/
theorem regime_sound (p : Site → Function → Prop) :
    Regime p (fun st => st.heap.Admits (Callable.Sound p)) fun _ => False where
  functions hs := hs
  edit hs he := ⟨sound_edit hs he, False.elim⟩
  data hs hr := ⟨hs.allocate hr.admitted, False.elim⟩
  closure chain hs hf := ⟨hs.allocate fun c hc => by
    cases hc
    exact hf, False.elim⟩

end Store

theorem Session.sound_new (p : Site → Function → Prop) (options : Options) (randoms : Randoms) :
    (new options randoms).store.heap.Admits (Callable.Sound p) := by
  have hallocate (s : Store) (r : Record) (hr : r.Native) (h : s.heap.Admits (Callable.Sound p)) :
      (s.allocate r).1.heap.Admits (Callable.Sound p) :=
    h.allocate fun c hc => by
      obtain ⟨b, rfl⟩ := hr.builtin c hc
      trivial
  obtain ⟨st, h, he⟩ := Store.addGlobal_keeps
    (P := fun st => st.heap.Admits (Callable.Sound p)) hallocate
    (fun _ id key q h => h.define id key q) {} (hallocate {} _ .plain nofun)
  unfold new fromStore
  rw [he]
  exact h

/-! ### Functions made by strict code -/

def Observer.ofFunctions (made : Site → Function → Eval Unit) : Observer :=
  { Observer.silent with made }

/-- However programs are run one after the other in a new session, every function that is made while the
current code is strict is strict itself, and so are all functions inside of it, those in leading statements
included. Excepted is what is made in the leading statements of code that directs itself to be strict, and
in code that is strict only because its caller gave it to a direct `eval`: no observer of the functions who
does nothing as long as this is so makes a difference. -/
theorem strict_code_makes_strict_functions [Platform] (options : Options) (randoms : Randoms)
    (made : Site → Function → Eval Unit)
    (hmade : ∀ i f s, (s.current.strict = true → f.WhollyStrict ∨ i.leading = true ∨
        (s.current.direct = true ∧ i.strict = false)) → made i f s = (.done (), s))
    (files : List (String × String)) :
    let o := Observer.ofFunctions made
    Session.runAll (o.runFile o.standard) files (.new options randoms) =
      Session.runAll (fun source filename s => s.runFile .standard source filename) files
        (.new options randoms) := by
  intro o
  have ho : o.Heeds Function.Inherits (fun st => st.heap.Admits (Callable.Sound Function.Inherits))
      fun _ => False := by
    refine ⟨fun _ _ => rfl, fun {i f s} _ _ hf hs => hmade i f s fun hstrict => ?_,
      fun _ _ _ _ _ => rfl, fun _ _ _ _ => rfl, fun _ _ _ _ => rfl⟩
    cases hi : i.strict with
    | true =>
      cases hl : i.leading with
      | true => exact .inr (.inl rfl)
      | false => exact .inl (hf hi hl)
    | false =>
      obtain h | h := hs hstrict
      · cases hi.symm.trans h
      · exact .inr (.inr ⟨h, rfl⟩)
  exact ((Store.regime_sound _).runAll_standard ho Program.inherits_parse
    (Session.sound_new _ options randoms) files).2 not_false

/-! ### Where strictness is lost -/

def Session.agrees (s : Session) (_ : Site) (f : Function) : Bool := !s.current.strict || f.strict

/-- The function is strict, and so is one that is made behind a leading text. -/
def Function.strictAhead : Function → Bool
  | .mk _ _ [.expression (.sequence [_, .function g])] strict _ => strict && g.strict
  | f => f.strict

theorem Function.WhollyStrict.ahead {f : Function} (h : f.WhollyStrict) : f.strictAhead = true := by
  unfold strictAhead
  split
  next e g strict span =>
    have hg : g.All True IsStrict _ := h.2.1.2.1
    exact Bool.and_eq_true_iff.mpr ⟨h.strict, (Function.all_iff.mp hg).1⟩
  next => exact h.strict

def Session.excuses (s : Session) (i : Site) (f : Function) : Bool :=
  !s.current.strict || f.strictAhead || i.leading || (s.current.direct && !i.strict)

/-- Evaluation ends where a function is made against the rule. -/
def Function.ruled (rule : Session → Site → Function → Bool) (i : Site) (f : Function) : Eval Unit := do
  if !rule (← Eval.read id) i f then Eval.exhausted

theorem Function.run_ruled {rule : Session → Site → Function → Bool} {s : Session} {i : Site}
    {f : Function} (h : rule s i f = true) : ruled rule i f s = (.done (), s) := by
  unfold ruled
  rw [Eval.run_read_bind, id, h]
  rfl

/-- An observer who would end the run for any other loss of strictness does not end it where a function is
made in a leading statement of another one, nor in code for `eval` that directs itself to be strict. -/
theorem strict_code_makes_strict_functions_nested :
    let o := Observer.ofFunctions (Function.ruled Session.excuses)
    (∀ i f s, (s.current.strict = true → f.WhollyStrict ∨ i.leading = true ∨
        (s.current.direct = true ∧ i.strict = false)) →
      Function.ruled Session.excuses i f s = (.done (), s)) ∧
      Session.runAll (o.runFile o.standard)
          [("'use strict'; function f() \x7b 'use strict', function () \x7b\x7d \x7d f()", "a.js"),
            ("eval('\"use strict\"; (function () \x7b\x7d)')", "b.js")] (.new {}) =
        Session.runAll (fun source filename s => s.runFile .standard source filename)
          [("'use strict'; function f() \x7b 'use strict', function () \x7b\x7d \x7d f()", "a.js"),
            ("eval('\"use strict\"; (function () \x7b\x7d)')", "b.js")] (.new {}) := by
  have hmade (i : Site) (f : Function) (s : Session)
      (h : s.current.strict = true → f.WhollyStrict ∨ i.leading = true ∨
        (s.current.direct = true ∧ i.strict = false)) :
      Function.ruled Session.excuses i f s = (.done (), s) := by
    refine Function.run_ruled ?_
    unfold Session.excuses
    cases hs : s.current.strict with
    | false => rfl
    | true =>
      obtain h | h | ⟨h, h'⟩ := h hs
      · simp [h.ahead]
      · simp [h]
      · simp [h, h']
  exact ⟨hmade, strict_code_makes_strict_functions {} .standard _ hmade _⟩

/-- Strict code does make functions that are not strict: as code that a direct `eval` runs in a strict
context, and in a statement that goes on behind the directive. -/
theorem strict_code_makes_loose_functions :
    let o := Observer.ofFunctions (Function.ruled Session.agrees)
    ["'use strict'; eval('(function () \x7b\x7d)')", "'use strict'\n, function () \x7b\x7d"].all
      (fun source => (Session.evaluating.runFile .standard source "a.js").1.isCompleted &&
        !(o.runFile o.standard source "a.js" .evaluating).1.isCompleted) = true := by
  decide +kernel

end Surmise
