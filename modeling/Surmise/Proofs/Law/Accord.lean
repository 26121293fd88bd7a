import Surmise.Proofs.Law.Expression

/-! Laws that compare observed evaluation with evaluation, and may depend on what the code has declared.
Such a law holds of expressions, statements and bodies of code wherever it holds of the calls they
make. -/
namespace Surmise

namespace Eval

/-- The relation `R names` holds between observed evaluation and evaluation in contexts that have
declared the variables `names`. Functions that are called are in the heap, where all are admitted by
`A`. Code is entered by functions, programs and calls of `eval`, each of which declares the variables of
the code first. -/
structure Accord [Platform] (o : Observer) (A : Callable → Prop) (F : Fault → Prop) (keep : ObjectId → Prop)
    (R : List String → ∀ {α : Type}, Eval α → Eval α → Prop) : Prop where
  paired (names : List String) : Paired F (@R names)
  stem (names : List String) : Stem F keep fun m => R names m m
  weaken {names : List String} {α : Type} {m' m : Eval α} : R [] m' m → R names m' m
  passed (names : List String) : R names o.passed (Pure.pure ())
  declareName {names : List String} (kind : DeclKind) {name : String} (v? : Option Value) :
    (kind = .variable → name ∈ names) →
    R names (o.declareName kind name v?) (Eval.declareName kind name v?)
  unrouted (names : List String) {e : HostError} : F (.host e) → R names (o.unrouted e) (Pure.pure ())
  /-- A new object is not among those that are kept. -/
  hold {names : List String} {α : Type} {r : Record} {k' k : ObjectId → Eval α} : r.Data →
    (∀ id, ¬ keep id → R names (k' id) (k id)) → R names (allocate r >>= k') (allocate r >>= k)
  functionExpression (names : List String) (i : Site) (f : Function) :
    R names (o.functionExpression i f) (Eval.functionExpression f)
  dispatch {names : List String} (callee : Value) {run' run : Callable → Eval Value}
    {refuse : Heap → Eval Value} : (∀ c, A c → R names (run' c) (run c)) →
    (∀ h, R names (refuse h) (refuse h)) →
    R names (Eval.dispatch callee run' refuse) (Eval.dispatch callee run refuse)
  inBlock {names : List String} (strict : Bool) (body : List Stmt) (b : Option (String × Value))
    {run' run : Eval Flow} : R names run' run →
    R names (o.inBlock strict body b run') (Eval.inBlock body b run)
  inFunction {f : Function} {chain : Chain} (receiver : Value) (args : List Value)
    {run' run : Eval Flow} : A (.closure f chain) → R (Stmt.allVariableNames f.body) run' run →
    R [] (o.enter f chain receiver args run') (f.enter chain receiver args run)
  inBody (strict : Bool) {body : List Stmt} {run' run : Eval Flow} :
    R (Stmt.allVariableNames body) run' run →
    R [] (do o.declareAll strict body; run') (do Stmt.declareAll body; run)
  inEval (strict direct : Bool) (filename : String) {m' m : Eval Completion} : R [] m' m →
    R [] (Eval.inEval strict direct filename m') (Eval.inEval strict direct filename m)

namespace Accord

variable [Platform] {o : Observer} {A : Callable → Prop} {F : Fault → Prop} {keep : ObjectId → Prop}
  {R : List String → ∀ {α : Type}, Eval α → Eval α → Prop} (L : Accord o A F keep @R)
  {names : List String} {α β : Type}
include L

theorem pure (a : α) : R names (Pure.pure a) (Pure.pure a) := (L.stem names).pure a

theorem bind {m' m : Eval α} {f' f : α → Eval β} (hm : R names m' m)
    (hf : ∀ a, R names (f' a) (f a)) : R names (m' >>= f') (m >>= f) :=
  (L.paired names).bind hm hf

theorem stray {r : Except Fault α} (hr : Within F r) : R names (o.stray r) (Pure.pure ()) := by
  obtain (v | e) | a := r
  · exact L.pure ()
  · exact L.unrouted names (hr _ rfl)
  · exact L.pure ()

theorem settle {r : Except Fault Value} (hr : Within F r) : R names (o.settle r) (Eval.settle r) :=
  (L.paired names).hear (L.stray hr) ((L.stem names).settle r)

/-! ### Expressions -/

variable {call' call : Invoke}

theorem called (hc : Invoke.Paired (R []) call' call) (callee receiver : Value) (args : List Value)
    (options : CallOptions) :
    R names (call' callee receiver args options) (call callee receiver args options) :=
  L.weaken (hc callee receiver args options)

/-- What accord says of expressions. -/
theorem terms (names : List String) : Terms o F keep (@R names) where
  toPaired := L.paired names
  stem := L.stem names
  passed := L.passed names
  functionExpression := L.functionExpression names

theorem expr (hc : Invoke.Paired (R []) call' call) (i : Site) (e : Expr) :
    R names (o.eval call' i e) (e.eval call) :=
  (L.terms names).expr (L.called hc) i e

/-! ### Statements -/

mutual

/-- The law holds of every statement whose variable names were declared. -/
theorem stmt (hc : Invoke.Paired (R []) call' call) (i : Site) :
    ∀ t : Stmt, t.variableNames ⊆ names → R names (o.exec call' i t) (t.exec call)
  | .block body, h => L.inBlock i.strict body none (stmtAll hc i none body h)
  | .empty, _ | .function _, _ => L.pure _
  | .expression e, _ | .ret (some e), _ => L.bind (L.expr hc i e) fun _ => L.pure _
  | .declare kind ds, h =>
    L.bind (declaratorAll hc i kind ds fun hk => by subst hk; exact h) fun _ => L.pure _
  | .branch test c a?, h => by
    have hthen : c.variableNames ⊆ names := by
      cases a? with
      | none => exact h
      | some a => exact (List.append_subset.mp h).1
    rw [Stmt.exec.eq_def, Observer.exec.eq_def]
    refine L.bind (L.expr hc i test) fun v => ?_
    obtain _ | _ | _ := v.truth?
    · exact L.bind ((L.stem names).skip fun chain st => Stmt.forgets_widenBranches chain c a? st)
        fun _ => L.pure _
    · cases a? with
      | none => exact L.pure _
      | some a => exact stmt hc i a (List.append_subset.mp h).2
    · exact stmt hc i c hthen
  | .ret none, _ => L.pure _
  | .throw e, _ => L.bind (L.expr hc i e) fun v => (L.stem names).throw v
  | .attempt body handler finalizer, h => by
    rw [Stmt.variableNames.eq_def] at h
    obtain ⟨h, hfinal⟩ := List.append_subset.mp h
    obtain ⟨hbody, hcatch⟩ := List.append_subset.mp h
    rw [Stmt.exec.eq_def, Observer.exec.eq_def]
    refine (L.paired names).attempt (fun _ => L.stray)
      (L.inBlock i.strict body none (stmtAll hc i none body hbody)) ?_ ?_
    · rcases handler with _ | ⟨param, handler⟩
      · exact .none
      · exact .some fun v => L.inBlock i.strict handler _ (stmtAll hc i none handler hcatch)
    · rcases finalizer with _ | finalizer
      · exact .none
      · exact .some (L.inBlock i.strict finalizer none (stmtAll hc i none finalizer hfinal))

theorem stmtAll (hc : Invoke.Paired (R []) call' call) :
    ∀ (i : Site) (last : Option Value) (ts : List Stmt), Stmt.allVariableNames ts ⊆ names →
      R names (o.execAll call' i last ts) (Stmt.execAll call last ts)
  | _, _, [], _ => (L.paired names).hear (L.passed names) (L.pure _)
  | i, last, t :: ts, h => by
    obtain ⟨hfirst, hrest⟩ := List.append_subset.mp h
    refine (L.paired names).hear (L.passed names) (L.bind (stmt hc (i.on t) t hfirst) fun flow => ?_)
    cases flow with
    | normal v => exact stmtAll hc _ _ ts hrest
    | returned v => exact L.pure _

theorem declaratorAll (hc : Invoke.Paired (R []) call' call) (i : Site) (kind : DeclKind) :
    ∀ ds : List Declarator, (kind = .variable → ds.map Declarator.name ⊆ names) →
      R names (o.execDeclarators call' i kind ds) (Declarator.execAll call kind ds)
  | [], _ => L.pure ()
  | .mk _ none :: ds, h =>
    L.bind (L.declareName kind none fun hk => h hk (.head _)) fun _ =>
      declaratorAll hc i kind ds fun hk => List.Subset.trans (List.subset_cons_self _ _) (h hk)
  | .mk _ (some e) :: ds, h =>
    L.bind (L.expr hc i e) fun v =>
      L.bind (L.declareName kind (some v) fun hk => h hk (.head _)) fun _ =>
        declaratorAll hc i kind ds fun hk => List.Subset.trans (List.subset_cons_self _ _) (h hk)

end

/-! ### Bodies of code -/

theorem function (hc : Invoke.Paired (R []) call' call) {f : Function} {chain : Chain}
    (hf : A (.closure f chain)) (receiver : Value) (args : List Value) :
    R [] (o.apply call' f chain receiver args) (f.apply call chain receiver args) := by
  rw [Function.apply_eq]
  exact L.inFunction receiver args hf (L.stmtAll hc _ none f.body (List.Subset.refl _))

theorem body (hc : Invoke.Paired (R []) call' call) (strict : Bool) (body : List Stmt) :
    R [] (o.execBody call' strict body) (Stmt.execBody call body) :=
  L.inBody strict (L.stmtAll hc _ none body (List.Subset.refl _))

theorem program (hc : Invoke.Paired (R []) call' call) (p : Program) :
    R [] (o.run call' p) (p.run call) := by
  refine (L.paired []).observe (L.body hc p.strict p.body) fun r hr => ?_
  obtain f | v | v := r
  · exact L.settle (within_error (hr f rfl))
  · exact L.pure _
  · exact L.pure _

end Accord
end Eval
end Surmise
