import Surmise.Proofs.Law.Basic
import Surmise.Proofs.Observation.Evaluation

/-! Laws that compare observed evaluation with evaluation and know of every value that is handled. Values
are admitted in worlds, which only grow while code is evaluated. Such a law holds of expressions and
statements wherever it holds of the calls they make. -/
namespace Surmise

/-! ### The values in a result -/

class Bearing (α : Type) where
  values : α → List Value

namespace Bearing

instance : Bearing Value := ⟨fun v => [v]⟩
instance : Bearing Unit := ⟨fun _ => []⟩
instance : Bearing Bool := ⟨fun _ => []⟩
instance : Bearing (Option String) := ⟨fun _ => []⟩
instance : Bearing (List Value) := ⟨id⟩
instance : Bearing (List (Option Value)) := ⟨List.filterMap id⟩
instance : Bearing (List (String × Value)) := ⟨List.map Prod.snd⟩
instance : Bearing (Value × Option String) := ⟨fun p => [p.1]⟩

instance : Bearing Flow where
  values
    | .normal v => v.toList
    | .returned v => [v]

def All {α : Type} [Bearing α] (P : Value → Prop) (a : α) : Prop := ∀ v ∈ values a, P v

variable {α : Type} [Bearing α] {P Q : Value → Prop} {v : Value}

theorem All.imp {a : α} (h : All P a) (hPQ : ∀ v, P v → Q v) : All Q a :=
  fun v hv => hPQ v (h v hv)

theorem all_value : All P v ↔ P v := List.forall_mem_singleton

theorem all_text (s? : Option String) : All P s? := fun _ h => by cases h

theorem all_cons {vs : List Value} (hv : P v) (h : All P vs) : All P (v :: vs) :=
  List.forall_mem_cons.mpr ⟨hv, h⟩

theorem all_item {vs : List (Option Value)} (hv : P v) (h : All P vs) : All P (some v :: vs) :=
  List.forall_mem_cons.mpr ⟨hv, h⟩

theorem all_entry {key : String} {vs : List (String × Value)} (hv : P v) (h : All P vs) :
    All P ((key, v) :: vs) :=
  List.forall_mem_cons.mpr ⟨hv, h⟩

theorem all_member {key? : Option String} (hv : P v) : All P (v, key?) :=
  List.forall_mem_singleton.mpr hv

theorem all_normal {v? : Option Value} : All P (Flow.normal v?) ↔ ∀ v ∈ v?, P v :=
  forall_congr' fun _ => imp_congr Option.mem_toList Iff.rfl

theorem all_returned : All P (Flow.returned v) ↔ P v := List.forall_mem_singleton

theorem getLastD {vs : List Value} (hv : P v) (h : All P vs) : P (vs.getLastD v) := by
  cases vs with
  | nil => exact hv
  | cons x xs => exact h _ (List.getLast_mem _)

end Bearing

/-! ### Results that are no objects -/

theorem Literal.isObject_value (l : Literal) : l.value.isObject = false := by
  cases l <;> rfl

namespace Heap

theorem isObject_unary (h : Heap) (op : UnaryOp) (v : Value) : (h.unary op v).isObject = false := by
  cases op with
  | minus | plus =>
    unfold unary
    cases h.toNumber? v <;> rfl
  | not =>
    unfold unary
    cases v.truth? <;> rfl
  | typeof =>
    unfold unary
    cases h.typeof? v <;> rfl
  | void => rfl

theorem isObject_arithmetic (h : Heap) (f : Float → Float → Float) (a b : Value) :
    (h.arithmetic f a b).isObject = false := by
  unfold arithmetic
  split <;> rfl

theorem isObject_add (h : Heap) (a b : Value) : (h.add a b).isObject = false := by
  unfold add
  dsimp only
  split
  · rfl
  split
  · unfold concat
    split <;> rfl
  · exact h.isObject_arithmetic _ _ _

theorem isObject_relational (h : Heap) (accept : Ordering → Bool) (a b : Value) :
    (h.relational accept a b).isObject = false := by
  unfold relational
  split
  · rfl
  · split <;> rfl

theorem isObject_binary (h : Heap) (op : BinaryOp) (a b : Value) :
    (h.binary op a b).isObject = false := by
  unfold binary
  split
  · rfl
  · cases op with
    | add => exact h.isObject_add a b
    | sub | mul | div | mod => exact h.isObject_arithmetic _ a b
    | less | greater | lessEq | greaterEq => exact h.isObject_relational _ a b
    | equal | notEqual =>
      dsimp only
      cases h.looseEquals a b <;> rfl
    | strictEqual | strictNotEqual => rfl

end Heap

theorem Bearing.all_binding {P : Value → Prop} {v : Value} (param : Option Identifier) (hv : P v) :
    ∀ x ∈ param.map fun id => (id.name, v), P x.2 := by
  intro x hx
  obtain ⟨id, -, rfl⟩ := Option.map_eq_some_iff.mp hx
  exact hv

open Bearing (All all_value all_text all_cons all_item all_entry all_member all_normal all_returned
  all_binding)

/-! ### Surveys -/

def Invoke.Surveyed {W : Type} (V : W → Value → Prop)
    (R : Bool → W → ∀ {α : Type} [Bearing α], Eval α → Eval α → Prop) (call' call : Invoke) : Prop :=
  ∀ b w callee receiver args options, V w callee → V w receiver → All (V w) args →
    R b w (call' callee receiver args options) (call callee receiver args options)

namespace Eval

/-- The relation `R b w` holds between observed evaluation and evaluation in code that is strict as `b`
says, from the world `w` on, and evaluation leads from a world to those that `le` allows. In a world `w`
the values of `V w` are admitted. The functions of the code have `p`, and there are catch clauses only if
`catches` holds. -/
structure Survey (o : Observer) (catches : Prop) (p : Site → Function → Prop) {W : Type}
    (le : W → W → Prop) (V : W → Value → Prop)
    (R : Bool → W → ∀ {α : Type} [Bearing α], Eval α → Eval α → Prop) : Prop where
  grow {w w' : W} {v : Value} : le w w' → V w v → V w' v
  plain (w : W) {v : Value} : v.isObject = false → V w v
  pure {b : Bool} {w : W} {α : Type} [Bearing α] {a : α} : All (V w) a →
    R b w (Pure.pure a) (Pure.pure a)
  bind {b : Bool} {w : W} {α β : Type} [Bearing α] [Bearing β] {m' m : Eval α} {f' f : α → Eval β} :
    R b w m' m → (∀ w', le w w' → ∀ a, All (V w') a → R b w' (f' a) (f a)) →
    R b w (m' >>= f') (m >>= f)
  passed (b : Bool) (w : W) : R b w o.passed (Pure.pure ())
  resolve (b : Bool) (w : W) (name : String) : R b w (Eval.resolve name) (Eval.resolve name)
  receiver (b : Bool) (w : W) :
    R b w (do return (← current).receiver) (do return (← current).receiver)
  typeofName (b : Bool) (w : W) (name : String) : R b w (Eval.typeofName name) (Eval.typeofName name)
  isDirectEval (b : Bool) (w : W) (name : String) (callee : Value) :
    R b w (Eval.isDirectEval name callee) (Eval.isDirectEval name callee)
  readMember {b : Bool} {w : W} {object : Value} (key? : Option String) : V w object →
    R b w (Eval.readMember object key?) (Eval.readMember object key?)
  assignName {b : Bool} {w : W} (name : String) {v : Value} : V w v →
    R b w (Eval.assignName name v) (Eval.assignName name v)
  assignMember {b : Bool} {w : W} {object v : Value} (key? : Option String) : V w object → V w v →
    R b w (Eval.assignMember object key? v) (Eval.assignMember object key? v)
  declareName {b : Bool} {w : W} (kind : DeclKind) (name : String) {v? : Option Value} :
    (∀ v ∈ v?, V w v) → R b w (o.declareName kind name v?) (Eval.declareName kind name v?)
  skip (b : Bool) (w : W) {widen : Chain → Store → Store} :
    (∀ chain (st : Store), st.Forgets (widen chain st)) → R b w (Eval.skip widen) (Eval.skip widen)
  onHeap (b : Bool) (w : W) {α : Type} [Bearing α] {f : Heap → α} :
    (∀ h, All (fun v => v.isObject = false) (f h)) → R b w (Eval.onHeap f) (Eval.onHeap f)
  elements {b : Bool} {w : W} {vs : List (Option Value)} : All (V w) vs →
    R b w (newObject (.ofElements vs)) (newObject (.ofElements vs))
  entries {b : Bool} {w : W} {vs : List (String × Value)} : All (V w) vs →
    R b w (newObject (.ofEntries vs)) (newObject (.ofEntries vs))
  function {i : Site} {w : W} {f : Function} : f.All catches p i →
    R i.strict w (o.functionExpression i f) (Eval.functionExpression f)
  throw {b : Bool} {w : W} {v : Value} : V w v → R b w (Eval.throw v : Eval Flow) (Eval.throw v)
  inBlock {b : Bool} {w : W} {body : List Stmt} {binding : Option (String × Value)}
    {run' run : Eval Flow} : (∀ f ∈ Stmt.functions body, f.2.All catches p (.declared b)) →
    (∀ x ∈ binding, V w x.2) → (∀ w', le w w' → R b w' run' run) →
    R b w (o.inBlock b body binding run') (Eval.inBlock body binding run)
  attempt {b : Bool} {w : W} {block' block : Eval Flow} {handler' handler : Option (Value → Eval Flow)}
    {finalizer' finalizer : Option (Eval Flow)} : R b w block' block →
    Option.Rel (fun h' h => catches ∧ ∀ w', le w w' → ∀ v, V w' v → R b w' (h' v) (h v))
      handler' handler →
    Option.Rel (fun f' f => ∀ w', le w w' → R b w' f' f) finalizer' finalizer →
    R b w (attemptWith o.stray block' handler' finalizer') (Eval.attempt block handler finalizer)

namespace Survey

variable {o : Observer} {catches : Prop} {p : Site → Function → Prop} {W : Type}
  {le : W → W → Prop} {V : W → Value → Prop}
  {R : Bool → W → ∀ {α : Type} [Bearing α], Eval α → Eval α → Prop} (L : Survey o catches p le V @R)
include L

variable {w : W}

theorem grow_all {α : Type} [Bearing α] {w' : W} {a : α} (hw : le w w') (h : All (V w) a) :
    All (V w') a :=
  h.imp fun _ => L.grow hw

theorem pure_value {b : Bool} {v : Value} (hv : V w v) : R b w (Pure.pure v) (Pure.pure v) :=
  L.pure (all_value.mpr hv)

theorem pure_normal {b : Bool} {v? : Option Value} (h : ∀ v ∈ v?, V w v) :
    R b w (Pure.pure (Flow.normal v?)) (Pure.pure (Flow.normal v?)) :=
  L.pure (all_normal.mpr h)

theorem pure_unknown {b : Bool} : R b w (Pure.pure Value.unknown) (Pure.pure Value.unknown) :=
  L.pure_value (L.plain w rfl)

theorem some_plain {v : Value} (h : v.isObject = false) : ∀ x ∈ some v, V w x := fun x hx => by
  cases hx
  exact L.plain w h

theorem operate {b : Bool} {f : Heap → Value} (h : ∀ heap, (f heap).isObject = false) :
    R b w (Eval.onHeap f) (Eval.onHeap f) :=
  L.onHeap b w fun heap => all_value.mpr (h heap)

theorem after {b : Bool} {α : Type} [Bearing α] {m' m : Eval α} (h : R b w m' m) :
    R b w (o.after m') m := by
  -- evaluation is read as doing nothing behind the expression
  have hb : R b w (o.after m') (m >>= fun a => do (Pure.pure () : Eval Unit); Pure.pure a) :=
    L.bind h fun w₁ _ a ha => L.bind (L.passed _ w₁) fun w₂ hw₂ _ _ => L.pure (L.grow_all hw₂ ha)
  have he : (m >>= fun a => do (Pure.pure () : Eval Unit); Pure.pure a) = m := Eval.bind_pure m
  rwa [he] at hb

/-! ### Expressions -/

variable {call' call : Invoke}

mutual

/-- A survey holds of every expression whose functions have `p`. -/
theorem expr {i : Site} {w : W} (hc : Invoke.Surveyed V @R call' call) :
    ∀ e : Expr, e.All catches p i → R i.strict w (o.eval call' i e) (e.eval call)
  | .identifier id, _ => L.after (L.resolve _ _ id.name)
  | .literal l, _ => L.after (L.pure_value (L.plain _ l.isObject_value))
  | .array es, h => L.after <| L.bind (elementAll hc es h) fun _ _ _ hvs => L.elements hvs
  | .object es, h => L.after <| L.bind (entryAll hc es h) fun _ _ _ hvs => L.entries hvs
  | .function f, h => L.after (L.function h)
  | .this _, _ => L.after (L.receiver _ _)
  | .member m, h => L.after <| L.bind (member hc m h) fun _ _ x hx => L.readMember x.2 (hx _ (.head _))
  | .call callee args _, ⟨hcallee, hargs⟩ => by
    cases callee with
    | member m =>
      refine L.after (L.bind (member hc m hcallee) fun w₁ hw₁ x hx => ?_)
      have hobject := hx _ (.head _)
      refine L.bind (L.readMember x.2 hobject) fun w₂ hw₂ f hf => ?_
      refine L.bind (exprAll hc args hargs) fun w₃ hw₃ vs hvs => ?_
      exact hc _ w₃ f x.1 vs {} (L.grow hw₃ (all_value.mp hf)) (L.grow hw₃ (L.grow hw₂ hobject)) hvs
    | identifier id =>
      refine L.after (L.bind (L.resolve _ _ id.name) fun w₁ hw₁ f hf => ?_)
      refine L.bind (L.isDirectEval _ w₁ id.name f) fun w₂ hw₂ direct _ => ?_
      refine L.bind (exprAll hc args hargs) fun w₃ hw₃ vs hvs => ?_
      exact hc _ w₃ f .undefined vs { direct } (L.grow hw₃ (L.grow hw₂ (all_value.mp hf)))
        (L.plain w₃ rfl) hvs
    | _ =>
      refine L.after (L.bind (expr hc _ hcallee) fun w₁ hw₁ f hf => ?_)
      refine L.bind (exprAll hc args hargs) fun w₂ hw₂ vs hvs => ?_
      exact hc _ w₂ f .undefined vs {} (L.grow hw₂ (all_value.mp hf)) (L.plain w₂ rfl) hvs
  | .unary op e, h => by
    have hvalue := L.bind (w := w) (expr hc e h) fun _ _ v _ =>
      L.operate fun heap => heap.isObject_unary op v
    cases op with
    | typeof =>
      cases e with
      | identifier id => exact L.after (L.typeofName _ _ id.name)
      | _ => exact L.after hvalue
    | _ => exact L.after hvalue
  | .binary op l r, ⟨hl, hr⟩ => L.after <|
    L.bind (expr hc l hl) fun _ _ a _ => L.bind (expr hc r hr) fun _ _ c _ =>
      L.operate fun heap => heap.isObject_binary op a c
  | .logical op l r, ⟨hl, hr⟩ => by
    refine L.after (L.bind (expr hc l hl) fun w₁ _ a ha => ?_)
    have hskip := L.bind (L.skip i.strict w₁ fun chain st => r.forgets_widen chain st) fun _ _ _ _ =>
      L.pure_unknown
    obtain _ | _ | _ := a.truth? <;> cases op
    · exact hskip
    · exact hskip
    · exact L.pure ha
    · exact expr hc r hr
    · exact expr hc r hr
    · exact L.pure ha
  | .conditional test c a, ⟨htest, hthen, helse⟩ => by
    refine L.after (L.bind (expr hc test htest) fun w₁ _ v _ => ?_)
    obtain _ | _ | _ := v.truth?
    · exact L.bind (L.skip _ w₁ fun chain st =>
        (c.forgets_widen chain st).trans (a.forgets_widen chain _)) fun _ _ _ _ => L.pure_unknown
    · exact expr hc a helse
    · exact expr hc c hthen
  | .assign .assign (.name id) value, ⟨_, h⟩ => L.after <|
    L.bind (expr hc value h) fun _ _ v hv => L.bind (L.assignName id.name (all_value.mp hv))
      fun _ hw _ _ => L.pure (L.grow_all hw hv)
  | .assign (.compound op) (.name id) value, ⟨_, h⟩ => L.after <|
    L.bind (L.resolve _ _ id.name) fun _ _ old _ => L.bind (expr hc value h) fun _ _ new _ =>
      L.bind (L.operate fun heap => heap.isObject_binary op old new) fun _ _ v hv =>
        L.bind (L.assignName id.name (all_value.mp hv)) fun _ hw _ _ => L.pure (L.grow_all hw hv)
  | .assign .assign (.member m) value, ⟨hm, h⟩ => L.after <|
    L.bind (member hc m hm) fun _ _ x hx => L.bind (expr hc value h) fun _ hw₂ v hv =>
      L.bind (L.assignMember x.2 (L.grow hw₂ (hx _ (.head _))) (all_value.mp hv)) fun _ hw _ _ =>
        L.pure (L.grow_all hw hv)
  | .assign (.compound op) (.member m) value, ⟨hm, h⟩ => L.after <|
    L.bind (member hc m hm) fun _ _ x hx => L.bind (L.readMember x.2 (hx _ (.head _))) fun _ hw₂ old _ =>
      L.bind (expr hc value h) fun _ hw₃ new _ =>
        L.bind (L.operate fun heap => heap.isObject_binary op old new) fun _ hw₄ v hv =>
          L.bind (L.assignMember x.2 (L.grow hw₄ (L.grow hw₃ (L.grow hw₂ (hx _ (.head _)))))
            (all_value.mp hv)) fun _ hw _ _ => L.pure (L.grow_all hw hv)
  | .sequence es, h => L.after <| L.bind (exprAll hc es h) fun w₁ _ vs hvs =>
    L.pure_value (Bearing.getLastD (L.plain w₁ rfl) hvs)

theorem exprAll {i : Site} {w : W} (hc : Invoke.Surveyed V @R call' call) :
    ∀ es : List Expr, Expr.AllIn catches p i es →
      R i.strict w (o.evalAll call' i es) (Expr.evalAll call es)
  | [], _ => L.pure nofun
  | e :: es, ⟨he, hes⟩ => L.bind (expr hc e he) fun _ _ _ hv => L.bind (exprAll hc es hes)
    fun _ hw _ hvs => L.pure (all_cons (L.grow hw (all_value.mp hv)) hvs)

theorem elementAll {i : Site} {w : W} (hc : Invoke.Surveyed V @R call' call) :
    ∀ es : List Element, Element.AllIn catches p i es →
      R i.strict w (o.evalElements call' i es) (Element.evalAll call es)
  | [], _ => L.pure nofun
  | .hole :: es, h => L.bind (elementAll hc es h) fun _ _ _ hvs => L.pure hvs
  | .item e :: es, ⟨he, hes⟩ => L.bind (expr hc e he) fun _ _ _ hv => L.bind (elementAll hc es hes)
    fun _ hw _ hvs => L.pure (all_item (L.grow hw (all_value.mp hv)) hvs)

theorem entryAll {i : Site} {w : W} (hc : Invoke.Surveyed V @R call' call) :
    ∀ es : List Entry, Entry.AllIn catches p i es →
      R i.strict w (o.evalEntries call' i es) (Entry.evalAll call es)
  | [], _ => L.pure nofun
  | .mk _ e :: es, ⟨he, hes⟩ => L.bind (expr hc e he) fun _ _ _ hv => L.bind (entryAll hc es hes)
    fun _ hw _ hvs => L.pure (all_entry (L.grow hw (all_value.mp hv)) hvs)

theorem member {i : Site} {w : W} (hc : Invoke.Surveyed V @R call' call) :
    ∀ m : Member, m.All catches p i → R i.strict w (o.evalMember call' i m) (m.eval call)
  | .dot object _ _, h => L.bind (expr hc object h) fun _ _ _ hv => L.pure (all_member (all_value.mp hv))
  | .index object key _, ⟨ho, hk⟩ => L.bind (expr hc object ho) fun _ _ _ hv =>
    L.bind (expr hc key hk) fun _ hw₂ _ _ => L.bind (L.onHeap _ _ fun _ => all_text _) fun _ hw₃ _ _ =>
      L.pure (all_member (L.grow hw₃ (L.grow hw₂ (all_value.mp hv))))

end

/-! ### Statements -/

mutual

/-- A survey holds of every statement whose functions have `p`. -/
theorem stmt {i : Site} {w : W} (hc : Invoke.Surveyed V @R call' call) :
    ∀ t : Stmt, t.All catches p i → R i.strict w (o.exec call' i t) (t.exec call)
  | .block body, h => L.inBlock h.functions nofun fun _ _ => stmtAll hc none body nofun h
  | .empty, _ | .function _, _ => L.pure_normal nofun
  | .expression e, h => L.bind (L.expr hc e h) fun _ _ v hv => L.pure_normal fun _ hx => by
    cases hx
    exact all_value.mp hv
  | .declare kind ds, h => L.bind (declaratorAll hc kind ds h) fun _ _ _ _ => L.pure_normal nofun
  | .branch test c a?, h => by
    obtain ⟨htest, hthen⟩ : test.All catches p i ∧ c.All catches p i := by
      cases a? with
      | none => exact h
      | some a => exact ⟨h.1, h.2.1⟩
    rw [Stmt.exec.eq_def, Observer.exec.eq_def]
    refine L.bind (L.expr hc test htest) fun w₁ _ v _ => ?_
    obtain _ | _ | _ := v.truth?
    · exact L.bind (L.skip _ w₁ fun chain st => Stmt.forgets_widenBranches chain c a? st)
        fun _ _ _ _ => L.pure_normal (L.some_plain rfl)
    · cases a? with
      | none => exact L.pure_normal nofun
      | some a => exact stmt hc a h.2.2
    · exact stmt hc c hthen
  | .ret none, _ => L.pure (all_returned.mpr (L.plain _ rfl))
  | .ret (some e), h => L.bind (L.expr hc e h) fun _ _ _ hv => L.pure (all_returned.mpr (all_value.mp hv))
  | .throw e, h => L.bind (L.expr hc e h) fun _ _ _ hv => L.throw (all_value.mp hv)
  | .attempt body handler finalizer, h => by
    rw [Stmt.All.eq_def] at h
    obtain ⟨hbody, hcatch, hfinal⟩ := h
    rw [Stmt.exec.eq_def, Observer.exec.eq_def]
    refine L.attempt (L.inBlock hbody.functions nofun fun _ _ => stmtAll hc none body nofun hbody) ?_ ?_
    · rcases handler with _ | ⟨param, handler⟩
      · exact .none
      · exact .some ⟨hcatch.1, fun _ _ _ hv => L.inBlock hcatch.2.functions (all_binding param hv)
          fun _ _ => stmtAll hc none handler nofun hcatch.2⟩
    · rcases finalizer with _ | finalizer
      · exact .none
      · exact .some fun _ _ => L.inBlock hfinal.functions nofun fun _ _ =>
          stmtAll hc none finalizer nofun hfinal

theorem stmtAll {i : Site} {w : W} (hc : Invoke.Surveyed V @R call' call) :
    ∀ (last : Option Value) (ts : List Stmt), (∀ v ∈ last, V w v) → Stmt.AllIn catches p i ts →
      R i.strict w (o.execAll call' i last ts) (Stmt.execAll call last ts)
  | last, [], hlast, _ => L.bind (f := fun _ => Pure.pure (Flow.normal last)) (L.passed _ _)
    fun _ hw _ _ => L.pure_normal fun v hv => L.grow hw (hlast v hv)
  | last, t :: ts, hlast, ⟨ht, hts⟩ => by
    -- where the observer is called, evaluation is read as doing nothing first
    refine L.bind (m := Pure.pure ()) (f := fun _ => Stmt.execAll call last (t :: ts))
      (L.passed _ _) fun w₁ hw₁ _ _ => L.bind (stmt hc t ht) fun w₂ hw₂ flow hflow => ?_
    cases flow with
    | normal v =>
      refine stmtAll hc (v <|> last) ts (fun x hx => ?_) hts
      cases v with
      | none => exact L.grow hw₂ (L.grow hw₁ (hlast x hx))
      | some y => exact all_normal.mp hflow x hx
    | returned v => exact L.pure hflow

theorem declaratorAll {i : Site} {w : W} (hc : Invoke.Surveyed V @R call' call) (kind : DeclKind) :
    ∀ ds : List Declarator, Declarator.AllIn catches p i ds →
      R i.strict w (o.execDeclarators call' i kind ds) (Declarator.execAll call kind ds)
  | [], _ => L.pure nofun
  | .mk id none :: ds, h => L.bind (L.declareName kind id.name nofun) fun _ _ _ _ =>
    declaratorAll hc kind ds h
  | .mk id (some e) :: ds, ⟨he, hds⟩ => L.bind (L.expr hc e he) fun _ _ v hv =>
    L.bind (L.declareName kind id.name fun x hx => by cases hx; exact all_value.mp hv) fun _ _ _ _ =>
      declaratorAll hc kind ds hds

end

end Survey
end Eval
end Surmise
