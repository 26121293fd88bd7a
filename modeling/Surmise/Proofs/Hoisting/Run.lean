import Surmise.Proofs.Hoisting.Link

/-! Hoisting is complete. In whatever order programs are run in a session, every context in which code is
executed is linked to the global scope, and a variable that is given its initial value has been declared
before. -/
namespace Surmise

structure Session.Linked (s : Session) : Prop where
  varScope : s.current.varChain ≠ []
  suffix : s.current.varChain <:+ s.current.lexical
  rooted : s.globalChain <:+ s.current.lexical
  global : s.globalChain.map (fun g => (s.store.scope g).object) = [some s.globalObject]

instance (s : Session) : Decidable s.Linked :=
  decidable_of_iff (s.current.varChain ≠ [] ∧ s.current.varChain <:+ s.current.lexical ∧
    s.globalChain <:+ s.current.lexical ∧
      s.globalChain.map (fun g => (s.store.scope g).object) = [some s.globalObject])
    ⟨fun ⟨h₁, h₂, h₃, h₄⟩ => ⟨h₁, h₂, h₃, h₄⟩, fun ⟨h₁, h₂, h₃, h₄⟩ => ⟨h₁, h₂, h₃, h₄⟩⟩

theorem Session.Anchored.linked {g : ScopeId} {global : ObjectId} {names : List String} {s : Session}
    (h : s.Anchored g global names) : s.Linked where
  varScope := by
    obtain ⟨v, outer, hv, _⟩ := h.context.varScope
    rw [hv]
    exact List.cons_ne_nil _ _
  suffix := h.context.suffix
  rooted := h.chain ▸ h.context.rooted
  global := by rw [h.chain, List.map_singleton, h.store.object, h.object]

/-- The observer does nothing where a context is linked and the name of an assignment was found. -/
structure Observer.Trusts (o : Observer) : Prop where
  passed : ∀ s : Session, s.Linked → o.passed s = (.done (), s)
  made : o.made = silent.made
  declared : o.declared = silent.declared
  assigned : ∀ a s, a ≠ .unresolved → o.assigned a s = (.done (), s)
  unrouted : ∀ e s, o.unrouted e s = (.done (), s)

/-! ### Declarations of which nothing is told -/

namespace Observer.Trusts

variable {o : Observer} (ho : o.Trusts)
include ho

theorem functionExpression (i : Site) (f : Function) :
    o.functionExpression i f = Eval.functionExpression f := by
  unfold Observer.functionExpression
  rw [ho.made]
  rfl

theorem declareFunctions (strict : Bool) (bind : String → Value → Eval Unit)
    (fs : List (String × Function)) :
    o.declareFunctions strict bind fs = Eval.declareFunctions bind fs := by
  induction fs with
  | nil => rfl
  | cons f fs ih =>
    unfold Observer.declareFunctions Eval.declareFunctions
    rw [ho.made, ih]
    rfl

theorem declareBody (strict : Bool) (scope : ScopeId) (body : List Stmt) :
    o.declareBody strict scope body = Eval.declareBody scope body := by
  unfold Observer.declareBody
  rw [ho.declared, ho.declareFunctions]
  rfl

theorem declareAll (strict : Bool) (body : List Stmt) :
    o.declareAll strict body = Stmt.declareAll body := by
  unfold Observer.declareAll
  simp only [ho.declareBody]
  rfl

theorem inBlock (strict : Bool) (body : List Stmt) (b : Option (String × Value)) (run : Eval Flow) :
    o.inBlock strict body b run = Eval.inBlock body b run := by
  unfold Observer.inBlock Observer.declareBlock
  simp only [ho.declareFunctions]
  rfl

theorem enter (f : Function) (chain : Chain) (receiver : Value) (args : List Value) (run : Eval Flow) :
    o.enter f chain receiver args run = f.enter chain receiver args run := by
  unfold Observer.enter
  simp only [ho.declareBody]
  rfl

end Observer.Trusts

namespace Eval.Agree

variable {g : ScopeId} {global : ObjectId} {names : List String} {o : Observer}

theorem assigned (ho : o.Trusts) {name : String} (hn : name ∈ names) (v : Value) :
    Agree g global names (o.assignName name v) (Eval.assignName name v) := by
  intro s hs
  obtain ⟨scope, outer, hv, _⟩ := hs.context.varScope
  have hscope : scope ∈ s.current.lexical := by
    apply hs.context.suffix.subset
    rw [hv]
    exact .head _
  have hfound := Store.assign_resolved hscope (hs.declared scope outer hv name hn) v
  rw [assignName_eq]
  -- up to the assignment both do the same; behind it the observer sees that the name was found
  refine AgreeAt.read_bind (AgreeAt.onStore_bind (hs.store.retains_assign _ name v) ?_)
  have hs' := hs.store.retains_assign s.current.lexical name v
  generalize s.store.assign s.current.lexical name v = result at hfound hs' ⊢
  obtain ⟨st, a⟩ := result
  have h := leaf.stem.afterAssignment s.current name v a { s with store := st } (hs.retained rfl hs')
  rw [AgreeAt, run_bind (ho.assigned a _ hfound)]
  exact h

theorem declareName (ho : o.Trusts) (kind : DeclKind) {name : String} (v? : Option Value)
    (hn : kind = .variable → name ∈ names) :
    Agree g global names (o.declareName kind name v?) (Eval.declareName kind name v?) := by
  cases kind with
  | «variable» =>
    cases v? with
    | none => exact leaf.pure ()
    | some v => exact assigned ho (hn rfl) v
  | lexical | constant =>
    refine paired.bind leaf.current fun c => ?_
    cases c.lexical with
    | nil => exact leaf.pure ()
    | cons scope _ =>
      rw [ho.declared]
      exact leaf.declare scope name _ _

/-- Agreement is in accord with all code. -/
theorem accord [Platform] (ho : o.Trusts) :
    Accord o (Callable.EndsIn g) (fun _ => True) (· = global) fun names => Agree g global names where
  paired _ := paired
  stem _ := leaf.stem
  weaken h s hs := h s hs.forget
  passed _ s hs := ⟨ho.passed s hs.linked, rfl, hs.store.retains_self⟩
  declareName := declareName ho
  unrouted _ e _ s hs := ⟨ho.unrouted e s, rfl, hs.store.retains_self⟩
  hold := hold
  functionExpression _ i f := by
    rw [ho.functionExpression]
    exact functionExpression f
  dispatch := dispatch
  inBlock strict body b _ _ hr := by
    rw [ho.inBlock]
    exact inBlock body b hr
  inFunction receiver args _ _ hc hr := by
    rw [ho.enter]
    exact inFunction receiver args hc hr
  inBody strict _ _ _ hr := by
    rw [ho.declareAll]
    exact inBody hr
  inEval := inEval

end Eval.Agree

/-! ### Runs -/

theorem Store.anchored_newScope {st : Store}
    (hst : (Store.allocate {} (.empty .object)).1.Extends st) (hscopes : st.scopes = #[])
    (hfunctions : st.heap.Admits (Callable.EndsIn ⟨0⟩)) :
    (st.newScope { object := some ⟨0⟩ }).1.Anchored ⟨0⟩ ⟨0⟩ := by
  have hshape := hst.shape ⟨0⟩ Nat.zero_lt_one
  have hscope : ∀ id, (st.newScope { object := some ⟨0⟩ }).1.scope id =
      if id.index = 0 then { object := some ⟨0⟩ } else {} := by
    intro id
    rw [scope_newScope, scope, hscopes]
    rfl
  refine ⟨?_, ?_, fun id object ho => ?_, hst.heap, ?_, Record.extensible_of_shape hshape, hfunctions⟩
  · rw [size_newScope]
    exact Nat.succ_pos _
  · rw [hscope, if_pos rfl]
  · rw [hscope] at ho
    split at ho
    · cases ho
      rfl
    · cases ho
  · have hclass : (st.heap.record ⟨0⟩).objectClass = .object := Record.objectClass_of_shape hshape
    intro harray
    cases hclass.symm.trans harray

namespace Session

theorem based_new (options : Options) (randoms : Randoms) : (new options randoms).Based ⟨0⟩ ⟨0⟩ := by
  have hstart : ({} : Store).heap.Admits (Callable.EndsIn ⟨0⟩) := fun id c hc => by cases hc
  obtain ⟨st, ⟨hst, hscopes, hfunctions⟩, he⟩ := Store.addGlobal_keeps
    (P := fun st => (Store.allocate {} (.empty .object)).1.Extends st ∧ st.scopes = #[] ∧
      st.heap.Admits (Callable.EndsIn ⟨0⟩))
    (fun s r hr ⟨h₁, h₂, h₃⟩ => ⟨h₁.trans (s.extends_allocate r), h₂, h₃.allocate fun c hc => by
      obtain ⟨b, rfl⟩ := hr.builtin c hc
      trivial⟩)
    (fun s id key p ⟨h₁, h₂, h₃⟩ => ⟨h₁.trans (s.extends_define id key p), h₂, h₃.define id key p⟩) {}
    ⟨.refl _, rfl, hstart.allocate fun c hc => by cases hc⟩
  unfold new fromStore
  rw [he]
  refine ⟨Store.anchored_newScope hst hscopes hfunctions, rfl, ?_⟩
  change [(⟨st.scopes.size⟩ : ScopeId)] = [⟨0⟩]
  rw [hscopes]
  rfl

end Session

section Runs

variable [Platform] {g : ScopeId} {global : ObjectId} {o : Observer} (ho : o.Trusts)
include ho

theorem Observer.Trusts.paired :
    Host.Paired (Callable.EndsIn g) (Eval.Agree g global []) o.standard .standard where
  read := by
    rw [Host.standard_eq_parsing]
    exact (Eval.Agree.accord ho).readsAlike_parsing _ _
  foreign h := h.elim

theorem Observer.Trusts.runFragment {s : Session} (hs : s.Based g global) (contexts : Nat)
    {f' f : Fragment} (hf : Fragment.Paired (Eval.Agree g global []) f' f) (filename : String) :
    Eval.AgreeAt g global s (Session.runFragment (o.invoke o.standard contexts) f' filename)
      (Session.runFragment (Surmise.invoke .standard contexts) f filename) := by
  unfold Session.runFragment
  rw [hf.strict]
  refine .read_bind (.inContext ?_)
  exact hf.run ((Eval.Agree.accord ho).invoke ho.paired contexts) _
    (hs.enter (hs.linked_topContext f.strict filename))

theorem Observer.Trusts.runFile {s : Session} (hs : s.Based g global) (source filename : String) :
    o.runFile o.standard source filename s = s.runFile .standard source filename ∧
      (s.runFile .standard source filename).2.Based g global := by
  have hread : Host.ReadsAlike (Eval.Agree g global []) o.standard .standard := ho.paired.read
  refine ⟨Observer.runFile_eq hread source filename fun f' f hf =>
    (ho.runFragment hs _ hf filename).1, ?_⟩
  obtain ⟨e, he⟩ | ⟨f', f, hf, hrun⟩ := hread.runFile source filename
  · rw [Session.runFile_refused he]
    exact hs
  · rw [Session.runFile_snd hrun]
    obtain ⟨-, hframe, hstore⟩ := ho.runFragment hs s.contextBudget hf filename
    exact hs.retained hframe hstore

theorem Observer.Trusts.runAll {s : Session} (hs : s.Based g global) (files : List (String × String)) :
    Session.runAll (o.runFile o.standard) files s =
      Session.runAll (fun source filename s => s.runFile .standard source filename) files s := by
  induction files generalizing s with
  | nil => rfl
  | cons file files ih =>
    obtain ⟨source, filename⟩ := file
    obtain ⟨heq, hs'⟩ := ho.runFile hs source filename
    rw [Session.runAll, Session.runAll, heq]
    dsimp only
    rw [ih hs']

end Runs

/-- However programs are run one after the other in a new session, no observer notices a context that is
not linked to the global scope, or a variable that its initial value is assigned to and that is not
found. -/
theorem hoisting_is_complete [Platform] (options : Options) (randoms : Randoms)
    (files : List (String × String)) (o : Observer) (ho : o.Trusts) :
    Session.runAll (o.runFile o.standard) files (.new options randoms) =
      Session.runAll (fun source filename s => s.runFile .standard source filename) files
        (.new options randoms) :=
  ho.runAll (Session.based_new options randoms) files

def Observer.alarm : Observer :=
  { Observer.silent with
    passed := fun s => if s.Linked then (.done (), s) else (.exhausted, s)
    assigned := fun a => if a = .unresolved then Eval.exhausted else return () }

theorem Observer.trusts_alarm : Observer.alarm.Trusts where
  passed s h := if_pos h
  made := rfl
  declared := rfl
  assigned a s h := by
    change (if a = .unresolved then Eval.exhausted else return () : Eval Unit) s = _
    rw [if_neg h]
    rfl
  unrouted _ _ := rfl

/-- Direct code declares in the global scope and calls `eval` in another way; strict code after it
declares in a scope of its own. -/
theorem hoisting_is_complete_alarm :
    Observer.alarm.Trusts ∧
      Session.runAll (Observer.alarm.runFile Observer.alarm.standard)
          [("var x = eval('var y = eval; y(\"var z = 1\"); y')", "x.js"),
            ("'use strict'; var v = x('if (z) var w = z; w'); eval('var z = 2; z')", "v.js")] (.new {}) =
        Session.runAll (fun source filename s => s.runFile .standard source filename)
          [("var x = eval('var y = eval; y(\"var z = 1\"); y')", "x.js"),
            ("'use strict'; var v = x('if (z) var w = z; w'); eval('var z = 2; z')", "v.js")] (.new {}) :=
  ⟨Observer.trusts_alarm, hoisting_is_complete {} .standard _ _ Observer.trusts_alarm⟩

end Surmise
