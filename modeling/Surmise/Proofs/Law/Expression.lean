import Surmise.Proofs.Law.Operations

/-! A law that compares evaluations holds of expressions wherever it holds of the operations they are made
of, the calls among them. -/
namespace Surmise

namespace Eval

/-- A relation that is kept by putting evaluations together and holds of the operations that expressions are
made of. What makes functions, calls them or writes to properties has to have it only where expressions do
so that have `ok`. -/
structure Phrases (o : Observer) (ok : Expr → Prop) (call' call : Invoke)
    (R : ∀ {α : Type}, Eval α → Eval α → Prop) : Prop where
  pure {α : Type} (a : α) : R (Pure.pure a) (Pure.pure a)
  bind {α β : Type} {m' m : Eval α} {f' f : α → Eval β} : R m' m → (∀ a, R (f' a) (f a)) →
    R (m' >>= f') (m >>= f)
  passed : R o.passed (Pure.pure ())
  onHeap {α : Type} (f : Heap → α) : R (Eval.onHeap f) (Eval.onHeap f)
  newObject {r : Record} : r.Data → R (Eval.newObject r) (Eval.newObject r)
  receiver : R (do return (← Eval.current).receiver) (do return (← Eval.current).receiver)
  resolve (name : String) : R (Eval.resolve name) (Eval.resolve name)
  typeofName (name : String) : R (Eval.typeofName name) (Eval.typeofName name)
  readMember (object : Value) (key? : Option String) :
    R (Eval.readMember object key?) (Eval.readMember object key?)
  assignName (name : String) (v : Value) : R (Eval.assignName name v) (Eval.assignName name v)
  skip {es : List Expr} : (∀ x ∈ Expr.allParts es, ok x) →
    R (Eval.skip (Expr.widenAll · es)) (Eval.skip (Expr.widenAll · es))
  function (i : Site) {f : Function} : ok (.function f) →
    R (o.functionExpression i f) (Eval.functionExpression f)
  called {callee : Expr} {args : List Expr} {span : Span} : ok (.call callee args span) →
    Invoke.Paired R call' call ∧
      ∀ name v, R (Eval.isDirectEval name v) (Eval.isDirectEval name v)
  assignMember {op : AssignOp} {m : Member} {value : Expr} : ok (.assign op (.member m) value) →
    ∀ object key? v, R (Eval.assignMember object key? v) (Eval.assignMember object key? v)

namespace Phrases

variable {o : Observer} {ok : Expr → Prop} {call' call : Invoke}
  {R : ∀ {α : Type}, Eval α → Eval α → Prop}

theorem after (L : Phrases o ok call' call @R) {α : Type} {m' m : Eval α} (h : R m' m) :
    R (o.after m') m := by
  -- evaluation is read as doing nothing behind the expression
  have hb : R (o.after m') (m >>= fun a => do (Pure.pure () : Eval Unit); Pure.pure a) :=
    L.bind h fun a => L.bind L.passed fun _ => L.pure a
  have he : (m >>= fun a => do (Pure.pure () : Eval Unit); Pure.pure a) = m := Eval.bind_pure m
  rwa [he] at hb

mutual

/-- The one traversal of expressions, with a case for each constructor. -/
theorem expr (L : Phrases o ok call' call @R) (i : Site) : ∀ e : Expr, (∀ x ∈ e.parts, ok x) →
    R (o.eval call' i e) (e.eval call)
  | .identifier id, _ => L.after (L.resolve id.name)
  | .literal l, _ => L.after (L.pure l.value)
  | .array elements, h => L.after <|
    L.bind (L.elementAll i elements (List.forall_mem_cons.mp h).2) fun vs =>
      L.newObject (Record.data_elements vs)
  | .object entries, h => L.after <|
    L.bind (L.entryAll i entries (List.forall_mem_cons.mp h).2) fun vs =>
      L.newObject (Record.data_entries vs)
  | .function f, h => L.after (L.function i (List.forall_mem_cons.mp h).1)
  | .this _, _ => L.after L.receiver
  | .member m, h => L.after <|
    L.bind (L.member i m (List.forall_mem_cons.mp h).2) fun p => L.readMember p.1 p.2
  | .call callee args _, h => by
    obtain ⟨hself, h⟩ := List.forall_mem_cons.mp h
    obtain ⟨hcallee, hargs⟩ := List.forall_mem_append.mp h
    obtain ⟨hc, hd⟩ := L.called hself
    have hall := L.exprAll i args hargs
    cases callee with
    | member m =>
      exact L.after <| L.bind (L.member i m (List.forall_mem_cons.mp hcallee).2) fun p =>
        L.bind (L.readMember p.1 p.2) fun f => L.bind hall fun vs => hc f p.1 vs {}
    | identifier id =>
      exact L.after <| L.bind (L.resolve id.name) fun f => L.bind (hd id.name f) fun direct =>
        L.bind hall fun vs => hc f .undefined vs { direct }
    | _ =>
      exact L.after <| L.bind (L.expr i _ hcallee) fun f => L.bind hall fun vs =>
        hc f .undefined vs {}
  | .unary op e, h => by
    have hvalue := L.bind (L.expr i e (List.forall_mem_cons.mp h).2) fun v =>
      L.onHeap fun h => h.unary op v
    cases op with
    | typeof =>
      cases e with
      | identifier id => exact L.after (L.typeofName id.name)
      | _ => exact L.after hvalue
    | _ => exact L.after hvalue
  | .binary op l r, h =>
    have h := List.forall_mem_append.mp (List.forall_mem_cons.mp h).2
    L.after <| L.bind (L.expr i l h.1) fun _ => L.bind (L.expr i r h.2) fun _ => L.onHeap _
  | .logical op l r, h => by
    obtain ⟨hl, hr⟩ := List.forall_mem_append.mp (List.forall_mem_cons.mp h).2
    have hskip : ∀ x ∈ Expr.allParts [r], ok x := by
      simpa only [Expr.allParts, List.append_nil] using hr
    refine L.after (L.bind (L.expr i l hl) fun a => ?_)
    obtain _ | _ | _ := a.truth? <;> cases op
    · exact L.bind (L.skip hskip) fun _ => L.pure _
    · exact L.bind (L.skip hskip) fun _ => L.pure _
    · exact L.pure a
    · exact L.expr i r hr
    · exact L.expr i r hr
    · exact L.pure a
  | .conditional test c a, h => by
    obtain ⟨ht, h⟩ := List.forall_mem_append.mp (List.forall_mem_cons.mp h).2
    obtain ⟨hc, ha⟩ := List.forall_mem_append.mp h
    have hskip : ∀ x ∈ Expr.allParts [c, a], ok x := by
      simpa only [Expr.allParts, List.append_nil] using h
    refine L.after (L.bind (L.expr i test ht) fun v => ?_)
    obtain _ | _ | _ := v.truth?
    · exact L.bind (L.skip hskip) fun _ => L.pure _
    · exact L.expr i a ha
    · exact L.expr i c hc
  | .assign .assign (.name id) value, h => L.after <|
    L.bind (L.expr i value (List.forall_mem_cons.mp h).2) fun v =>
      L.bind (L.assignName id.name v) fun _ => L.pure v
  | .assign (.compound op) (.name id) value, h => L.after <|
    L.bind (L.resolve id.name) fun old =>
      L.bind (L.expr i value (List.forall_mem_cons.mp h).2) fun new =>
        L.bind (L.onHeap _) fun v => L.bind (L.assignName id.name v) fun _ => L.pure v
  | .assign .assign (.member m) value, h => by
    obtain ⟨hself, h⟩ := List.forall_mem_cons.mp h
    obtain ⟨hm, hv⟩ := List.forall_mem_append.mp h
    exact L.after <| L.bind (L.member i m hm) fun p => L.bind (L.expr i value hv) fun v =>
      L.bind (L.assignMember hself p.1 p.2 v) fun _ => L.pure v
  | .assign (.compound op) (.member m) value, h => by
    obtain ⟨hself, h⟩ := List.forall_mem_cons.mp h
    obtain ⟨hm, hv⟩ := List.forall_mem_append.mp h
    exact L.after <| L.bind (L.member i m hm) fun p => L.bind (L.readMember p.1 p.2) fun old =>
      L.bind (L.expr i value hv) fun new => L.bind (L.onHeap _) fun v =>
        L.bind (L.assignMember hself p.1 p.2 v) fun _ => L.pure v
  | .sequence es, h => L.after <|
    L.bind (L.exprAll i es (List.forall_mem_cons.mp h).2) fun _ => L.pure _

theorem exprAll (L : Phrases o ok call' call @R) (i : Site) : ∀ es : List Expr,
    (∀ x ∈ Expr.allParts es, ok x) → R (o.evalAll call' i es) (Expr.evalAll call es)
  | [], _ => L.pure []
  | e :: es, h =>
    have h := List.forall_mem_append.mp h
    L.bind (L.expr i e h.1) fun _ => L.bind (L.exprAll i es h.2) fun _ => L.pure _

theorem elementAll (L : Phrases o ok call' call @R) (i : Site) : ∀ es : List Element,
    (∀ x ∈ Element.allParts es, ok x) → R (o.evalElements call' i es) (Element.evalAll call es)
  | [], _ => L.pure []
  | .hole :: es, h => L.bind (L.elementAll i es h) fun _ => L.pure _
  | .item e :: es, h =>
    have h := List.forall_mem_append.mp h
    L.bind (L.expr i e h.1) fun _ => L.bind (L.elementAll i es h.2) fun _ => L.pure _

theorem entryAll (L : Phrases o ok call' call @R) (i : Site) : ∀ es : List Entry,
    (∀ x ∈ Entry.allParts es, ok x) → R (o.evalEntries call' i es) (Entry.evalAll call es)
  | [], _ => L.pure []
  | .mk _ e :: es, h =>
    have h := List.forall_mem_append.mp h
    L.bind (L.expr i e h.1) fun _ => L.bind (L.entryAll i es h.2) fun _ => L.pure _

theorem member (L : Phrases o ok call' call @R) (i : Site) : ∀ m : Member,
    (∀ x ∈ m.parts, ok x) → R (o.evalMember call' i m) (m.eval call)
  | .dot object _ _, h => L.bind (L.expr i object h) fun _ => L.pure _
  | .index object key _, h =>
    have h := List.forall_mem_append.mp h
    L.bind (L.expr i object h.1) fun _ => L.bind (L.expr i key h.2) fun _ =>
      L.bind (L.onHeap _) fun _ => L.pure _

end

end Phrases

/-! ### Expressions without an observer -/

/-- An observer to whom nothing is told about expressions has them evaluated as they are. -/
theorem phrases_eq {o : Observer} (hpassed : o.passed = Observer.silent.passed)
    (hmade : o.made = Observer.silent.made) (call : Invoke) :
    Phrases o (fun _ => True) call call fun {α} (m' m : Eval α) => m' = m where
  pure _ := rfl
  bind hm hf := by rw [hm, funext hf]
  passed := hpassed
  onHeap _ := rfl
  newObject _ := rfl
  receiver := rfl
  resolve _ := rfl
  typeofName _ := rfl
  readMember _ _ := rfl
  assignName _ _ := rfl
  skip _ := rfl
  function i f _ := by
    unfold Observer.functionExpression
    rw [hmade]
    rfl
  called _ := ⟨fun _ _ _ _ => rfl, fun _ _ => rfl⟩
  assignMember _ _ _ _ := rfl

theorem Phrases.plain {ok : Expr → Prop} {call' call : Invoke}
    {R : ∀ {α : Type}, Eval α → Eval α → Prop} (L : Phrases .silent ok call' call @R) (e : Expr)
    (h : ∀ x ∈ e.parts, ok x) : R (e.eval call') (e.eval call) := by
  have he := L.expr (.declared false) e h
  rwa [(phrases_eq rfl rfl call').expr _ e fun _ _ => trivial] at he

structure Terms [Platform] (o : Observer) (F : Fault → Prop) (keep : ObjectId → Prop)
    (R : ∀ {α : Type}, Eval α → Eval α → Prop) : Prop extends Paired F @R where
  stem : Stem F keep fun m => R m m
  passed : R o.passed (Pure.pure ())
  functionExpression (i : Site) (f : Function) : R (o.functionExpression i f) (Eval.functionExpression f)

namespace Terms

variable [Platform] {o : Observer} {F : Fault → Prop} {keep : ObjectId → Prop}
  {R : ∀ {α : Type}, Eval α → Eval α → Prop} (L : Terms o F keep @R) {call' call : Invoke}
include L

theorem pure {α : Type} (a : α) : R (Pure.pure a) (Pure.pure a) := L.stem.pure a

theorem phrases (hc : Invoke.Paired R call' call) : Phrases o (fun _ => True) call' call @R where
  pure := L.pure
  bind := L.bind
  passed := L.passed
  onHeap := L.stem.onHeap
  newObject := L.stem.newObject
  receiver := L.bind L.stem.current fun c => L.pure c.receiver
  resolve := L.stem.resolve
  typeofName := L.stem.typeofName
  readMember := L.stem.readMember
  assignName := L.stem.assignName
  skip _ := L.stem.skip fun chain st => Expr.forgets_widenAll chain _ st
  function i f _ := L.functionExpression i f
  called _ := ⟨hc, L.stem.isDirectEval⟩
  assignMember _ := L.stem.assignMember

theorem expr (hc : Invoke.Paired R call' call) (i : Site) (e : Expr) :
    R (o.eval call' i e) (e.eval call) :=
  (L.phrases hc).expr i e fun _ _ => trivial

end Terms
end Eval
end Surmise
