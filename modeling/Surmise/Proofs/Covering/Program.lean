import Surmise.Proofs.Covering.Straight
import Surmise.Proofs.Growth

/-! Straight programs, run in two sessions of which the first may know less than the second. -/
namespace Surmise

open Eval

/-- Sessions that agree, but for values that the first does not know. -/
structure Session.Covers (s t : Session) : Prop where
  frame : s.frame = t.frame
  store : s.store.Covers t.store

namespace Store

theorem Linked.declareNames {links : List (ScopeId × ScopeId)} {l : ScopeId × ScopeId} (hl : l ∈ links)
    (names : List String) {s t : Store} (h : Linked links s t) :
    Linked links (names.foldl (fun st name => st.declareVariable l.1 name none) s)
      (names.foldl (fun st name => st.declareVariable l.2 name none) t) := by
  induction names generalizing s t with
  | nil => exact h
  | cons name names ih => exact ih (h.declareVariable hl name)

end Store

namespace Eval

variable {α : Type} {s : Session}

theorem RunsTo.observe {m : Eval α} {a : α} {st : Store} (h : m.RunsTo s a st) :
    (observe m).RunsTo s (.ok a) st := by
  obtain ⟨s', hm, hst, hfr⟩ := h
  refine ⟨s', ?_, hst, hfr⟩
  unfold Eval.observe
  rw [hm]

theorem RunsTo.inContext {m : Eval α} {a : α} {st : Store} (c : Context)
    (h : m.RunsTo { s with contexts := c :: s.contexts } a st) : (inContext c m).RunsTo s a st := by
  obtain ⟨s', hm, hst, hfr⟩ := h
  refine ⟨s'.leave s.contexts.length, ?_, hst, Session.frame_leave s s' c hfr⟩
  unfold Eval.inContext
  rw [hm]

theorem RunsTo.declareAll (s : Session) {body : List Stmt} (hb : Stmt.functions body = []) :
    (Stmt.declareAll body).RunsTo s ()
      (match s.current.varChain with
        | scope :: _ =>
          (Stmt.allVariableNames body).foldl (fun st name => st.declareVariable scope name none) s.store
        | [] => s.store) := by
  unfold Stmt.declareAll
  refine .read_bind ?_
  cases s.current.varChain with
  | nil => exact .pure () s
  | cons scope outer =>
    unfold declareBody
    rw [hb]
    refine .bind (.onStore _ s) fun s' hst _ => ?_
    exact ⟨s', rfl, hst, rfl⟩

theorem RunsTo.program {call : Invoke} {p : Program} {s' : Session} {v : Option Value} {st : Store}
    (hd : Stmt.declareAll p.body s = (.done (), s')) (hf : s'.frame = s.frame)
    (hb : (Stmt.execAll call none p.body).RunsTo s' (.normal v) st) :
    (p.run call).RunsTo s (.normal v) st := by
  obtain ⟨s₁, he, hst, hfr⟩ := hb
  have hx : (Stmt.execBody call p.body).RunsTo s (.normal v) st :=
    ⟨s₁, (run_bind hd).trans he, hst, hfr.trans hf⟩
  refine .bind (.observe hx) fun s₂ hst₂ _ => ?_
  exact ⟨s₂, rfl, hst₂, rfl⟩

end Eval

namespace Session

theorem runFile_eq [Platform] {host : Host} {source filename : String} {fragment : Fragment}
    (hread : host.read source filename = .ok fragment) {s : Session} {c : Completion} {st : Store}
    (h : (runFragment (invoke host s.contextBudget) fragment filename).RunsTo s c st) :
    (s.runFile host source filename).1 = .completed c ∧
      (s.runFile host source filename).2.store = st ∧
      (s.runFile host source filename).2.frame = s.frame := by
  obtain ⟨s', hrun, hst, hfr⟩ := h
  unfold runFile Host.runFile
  rw [hread]
  dsimp only
  rw [hrun]
  exact ⟨rfl, hst, hfr⟩

theorem Covers.linked {s t : Session} (h : s.Covers t) (hg : s.Grounded) :
    Store.Linked (Store.diagonal s.globalChain) s.store t.store := by
  refine h.store.linked hg.nodup hg.bound fun id hid object ho => ?_
  have hc : (s.store.heap.record object).objectClass = .object := (hg.plain id hid object ho).2
  rw [hc]
  exact nofun

end Session

/-- The program `var y; if (x) y = 1`. -/
def Program.choice (span : Span) : Program where
  body :=
    [.declare .variable [.mk ⟨"y", span⟩ none],
      .branch (.identifier ⟨"x", span⟩)
        (.expression (.assign .assign (.name ⟨"y", span⟩) (.literal (.number 1)))) none]
  strict := true
  span

def Host.reading (p : Program) : Host := { Host.standard with read := fun _ _ => .ok p.fragment }

end Surmise
