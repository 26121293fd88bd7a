import Surmise.Widening

/-! The expressions that a piece of code is made of. What code does when it is skipped or evaluated depends
on these alone: the bodies of functions in it are left aside. -/
namespace Surmise

mutual

def Expr.parts : Expr → List Expr
  | .identifier id => [.identifier id]
  | .literal l => [.literal l]
  | .function f => [.function f]
  | .this span => [.this span]
  | .array elements => .array elements :: Element.allParts elements
  | .object entries => .object entries :: Entry.allParts entries
  | .member m => .member m :: Member.parts m
  | .call callee args span => .call callee args span :: (Expr.parts callee ++ Expr.allParts args)
  | .unary op e => .unary op e :: Expr.parts e
  | .binary op l r => .binary op l r :: (Expr.parts l ++ Expr.parts r)
  | .logical op l r => .logical op l r :: (Expr.parts l ++ Expr.parts r)
  | .conditional t c a => .conditional t c a :: (Expr.parts t ++ (Expr.parts c ++ Expr.parts a))
  | .assign op target value => .assign op target value :: (Target.parts target ++ Expr.parts value)
  | .sequence es => .sequence es :: Expr.allParts es

def Expr.allParts : List Expr → List Expr
  | [] => []
  | e :: es => Expr.parts e ++ Expr.allParts es

def Element.allParts : List Element → List Expr
  | [] => []
  | .hole :: es => Element.allParts es
  | .item e :: es => Expr.parts e ++ Element.allParts es

def Entry.allParts : List Entry → List Expr
  | [] => []
  | .mk _ e :: es => Expr.parts e ++ Entry.allParts es

def Member.parts : Member → List Expr
  | .dot object _ _ => Expr.parts object
  | .index object key _ => Expr.parts object ++ Expr.parts key

def Target.parts : Target → List Expr
  | .name _ => []
  | .member m => Member.parts m

end

mutual

def Stmt.parts : Stmt → List Expr
  | .block body => Stmt.allParts body
  | .expression e => e.parts
  | .declare _ ds => Declarator.allParts ds
  | .branch test c none => test.parts ++ Stmt.parts c
  | .branch test c (some a) => test.parts ++ (Stmt.parts c ++ Stmt.parts a)
  | .ret none => []
  | .ret (some e) => e.parts
  | .throw e => e.parts
  | .attempt body handler finalizer =>
    Stmt.allParts body ++
      ((match handler with
        | some (.mk _ body) => Stmt.allParts body
        | none => []) ++
      (match finalizer with
        | some body => Stmt.allParts body
        | none => []))
  | .empty | .function _ => []

def Stmt.allParts : List Stmt → List Expr
  | [] => []
  | t :: ts => Stmt.parts t ++ Stmt.allParts ts

def Declarator.allParts : List Declarator → List Expr
  | [] => []
  | .mk _ none :: ds => Declarator.allParts ds
  | .mk _ (some e) :: ds => e.parts ++ Declarator.allParts ds

end

namespace Expr

def isCall : Expr → Bool
  | call .. => true
  | _ => false

def isFunction : Expr → Bool
  | function _ => true
  | _ => false

def isMemberAssignment : Expr → Bool
  | assign _ (.member _) _ => true
  | _ => false

end Expr

/-! ### Widening -/

abbrev Store.Takes {α : Type} (step : Store → α → Store) (as : List α) (f : Store → Store) : Prop :=
  ∀ st, f st = as.foldl step st

theorem Store.Takes.nil {α : Type} {step : Store → α → Store} : Takes step [] fun st => st :=
  fun _ => rfl

theorem Store.Takes.comp {α : Type} {step : Store → α → Store} {as bs : List α} {f g : Store → Store}
    (hf : Takes step as f) (hg : Takes step bs g) : Takes step (as ++ bs) fun st => g (f st) :=
  fun st => by simp only [hf, hg, List.foldl_append]

def Store.Carry (Q : Store → Store → Prop) (f' f : Store → Store) : Prop :=
  ∀ ⦃s' s⦄, Q s' s → Q (f' s') (f s)

theorem Store.Carry.comp {Q : Store → Store → Prop} {f' f g' g : Store → Store} (hg : Carry Q g' g)
    (hf : Carry Q f' f) : Carry Q (fun s => g' (f' s)) fun s => g (f s) :=
  fun _ _ hq => hg (hf hq)

structure Store.Access (chain' chain : Chain) (Q : Store → Store → Prop) : Prop where
  object {s' s : Store} : Q s' s → ∀ name, s'.objectNamed? chain' name = s.objectNamed? chain name
  property (id : ObjectId) (key : String) :
    Carry Q (fun s => (s.put id key .unknown).1) fun s => (s.put id key .unknown).1
  all (id : ObjectId) : Carry Q (fun s => s.forgetAll id) fun s => s.forgetAll id

/-- The relation is kept where both stores forget what code might write whose expressions have `ok`. -/
structure Store.Widens (ok : Expr → Prop) (chain' chain : Chain) (Q : Store → Store → Prop) :
    Prop where
  name (name : String) : Carry Q (fun s => s.forgetName chain' name) fun s => s.forgetName chain name
  access {op : AssignOp} {m : Member} {value : Expr} : ok (.assign op (.member m) value) →
    Access chain' chain Q

namespace Store.Widens

variable {ok : Expr → Prop} {chain' chain : Chain} {Q : Store → Store → Prop}

mutual

theorem expr (W : Widens ok chain' chain Q) : ∀ e : Expr, (∀ x ∈ e.parts, ok x) →
    Carry Q (e.widen chain') (e.widen chain)
  | .identifier _, _ | .literal _, _ | .function _, _ | .this _, _ => fun _ _ hq => hq
  | .array es, h => W.elementAll es (List.forall_mem_cons.mp h).2
  | .object es, h => W.entryAll es (List.forall_mem_cons.mp h).2
  | .member m, h => W.member m (List.forall_mem_cons.mp h).2
  | .call callee args _, h =>
    have h := List.forall_mem_append.mp (List.forall_mem_cons.mp h).2
    (W.exprAll args h.2).comp (W.expr callee h.1)
  | .unary _ e, h => W.expr e (List.forall_mem_cons.mp h).2
  | .binary _ l r, h | .logical _ l r, h =>
    have h := List.forall_mem_append.mp (List.forall_mem_cons.mp h).2
    (W.expr r h.2).comp (W.expr l h.1)
  | .conditional t c a, h =>
    have h := List.forall_mem_append.mp (List.forall_mem_cons.mp h).2
    have h' := List.forall_mem_append.mp h.2
    (W.expr a h'.2).comp ((W.expr c h'.1).comp (W.expr t h.1))
  | .assign _ _ value, h =>
    have h := List.forall_mem_cons.mp h
    have h' := List.forall_mem_append.mp h.2
    (W.target h.1 h'.1).comp (W.expr value h'.2)
  | .sequence es, h => W.exprAll es (List.forall_mem_cons.mp h).2

theorem exprAll (W : Widens ok chain' chain Q) : ∀ es : List Expr, (∀ x ∈ Expr.allParts es, ok x) →
    Carry Q (Expr.widenAll chain' es) (Expr.widenAll chain es)
  | [], _ => fun _ _ hq => hq
  | e :: es, h =>
    have h := List.forall_mem_append.mp h
    (W.exprAll es h.2).comp (W.expr e h.1)

theorem elementAll (W : Widens ok chain' chain Q) : ∀ es : List Element,
    (∀ x ∈ Element.allParts es, ok x) →
      Carry Q (Element.widenAll chain' es) (Element.widenAll chain es)
  | [], _ => fun _ _ hq => hq
  | .hole :: es, h => W.elementAll es h
  | .item e :: es, h =>
    have h := List.forall_mem_append.mp h
    (W.elementAll es h.2).comp (W.expr e h.1)

theorem entryAll (W : Widens ok chain' chain Q) : ∀ es : List Entry,
    (∀ x ∈ Entry.allParts es, ok x) → Carry Q (Entry.widenAll chain' es) (Entry.widenAll chain es)
  | [], _ => fun _ _ hq => hq
  | .mk _ e :: es, h =>
    have h := List.forall_mem_append.mp h
    (W.entryAll es h.2).comp (W.expr e h.1)

theorem member (W : Widens ok chain' chain Q) : ∀ m : Member, (∀ x ∈ m.parts, ok x) →
    Carry Q (m.widen chain') (m.widen chain)
  | .dot object _ _, h => W.expr object h
  | .index object key _, h =>
    have h := List.forall_mem_append.mp h
    (W.expr key h.2).comp (W.expr object h.1)

/-- Widening carries `Q` through targets. -/
theorem target (W : Widens ok chain' chain Q) : ∀ {t : Target} {op : AssignOp} {value : Expr},
    ok (.assign op t value) → (∀ x ∈ t.parts, ok x) → Carry Q (t.widen chain') (t.widen chain)
  | .name id, _, _, _, _ => W.name id.name
  | .member (.dot object key _), _, _, hself, h => by
    have A := W.access hself
    cases object with
    | identifier base =>
      intro s' s hq
      change Q (s'.forgetMember chain' base.name key) (s.forgetMember chain base.name key)
      unfold Store.forgetMember
      rw [A.object hq]
      split
      · exact A.property _ _ hq
      · exact hq
    | _ => exact W.expr _ h
  | .member (.index object key _), _, _, hself, h => by
    have A := W.access hself
    have h := List.forall_mem_append.mp h
    cases object with
    | identifier base =>
      intro s' s hq
      unfold Target.widen
      dsimp only
      -- the object is found before the key is widened
      rw [A.object hq]
      split
      · exact hq
      next id _ =>
        cases key with
        | literal l =>
          dsimp only
          split
          · exact A.property _ _ hq
          · exact A.all id hq
        | _ => exact A.all id (W.expr _ h.2 hq)
    | _ => exact W.expr _ h.1

end

mutual

theorem stmt (W : Widens ok chain' chain Q) : ∀ t : Stmt, (∀ x ∈ t.parts, ok x) →
    Carry Q (t.widen chain') (t.widen chain)
  | .block body, h => W.stmtAll body h
  | .expression e, h | .throw e, h | .ret (some e), h => W.expr e h
  | .ret none, _ | .empty, _ | .function _, _ => fun _ _ hq => hq
  | .declare kind ds, h => W.declaratorAll kind ds h
  | .branch test c none, h =>
    have h := List.forall_mem_append.mp h
    (W.stmt c h.2).comp (W.expr test h.1)
  | .branch test c (some a), h =>
    have h := List.forall_mem_append.mp h
    have h' := List.forall_mem_append.mp h.2
    (W.stmt a h'.2).comp ((W.stmt c h'.1).comp (W.expr test h.1))
  | .attempt body none none, h => W.stmtAll body (List.forall_mem_append.mp h).1
  | .attempt body none (some finalizer), h =>
    have h := List.forall_mem_append.mp h
    (W.stmtAll finalizer h.2).comp (W.stmtAll body h.1)
  | .attempt body (some (.mk _ handler)) none, h =>
    have h := List.forall_mem_append.mp h
    (W.stmtAll handler (List.forall_mem_append.mp h.2).1).comp (W.stmtAll body h.1)
  | .attempt body (some (.mk _ handler)) (some finalizer), h =>
    have h := List.forall_mem_append.mp h
    have h' := List.forall_mem_append.mp h.2
    (W.stmtAll finalizer h'.2).comp ((W.stmtAll handler h'.1).comp (W.stmtAll body h.1))

theorem stmtAll (W : Widens ok chain' chain Q) : ∀ ts : List Stmt,
    (∀ x ∈ Stmt.allParts ts, ok x) → Carry Q (Stmt.widenAll chain' ts) (Stmt.widenAll chain ts)
  | [], _ => fun _ _ hq => hq
  | t :: ts, h =>
    have h := List.forall_mem_append.mp h
    (W.stmtAll ts h.2).comp (W.stmt t h.1)

theorem declaratorAll (W : Widens ok chain' chain Q) (kind : DeclKind) : ∀ ds : List Declarator,
    (∀ x ∈ Declarator.allParts ds, ok x) →
      Carry Q (Declarator.widenAll chain' kind ds) (Declarator.widenAll chain kind ds)
  | [], _ => fun _ _ hq => hq
  | .mk _ none :: ds, h => W.declaratorAll kind ds h
  | .mk id (some e) :: ds, h => by
    obtain ⟨he, hds⟩ := List.forall_mem_append.mp h
    have hname : Carry Q (fun s => if kind = .variable then s.forgetName chain' id.name else s)
        fun s => if kind = .variable then s.forgetName chain id.name else s := by
      intro s' s hq
      dsimp only
      split
      · exact W.name id.name hq
      · exact hq
    exact (W.declaratorAll kind ds hds).comp (hname.comp (W.expr e he))

end

theorem branches (W : Widens ok chain' chain Q) {c : Stmt} (hc : ∀ x ∈ c.parts, ok x) :
    ∀ {a? : Option Stmt}, (∀ a ∈ a?, ∀ x ∈ a.parts, ok x) →
      Carry Q (Stmt.widenBranches chain' c a?) (Stmt.widenBranches chain c a?)
  | none, _ => W.stmt c hc
  | some a, ha => (W.stmt a (ha a rfl)).comp (W.stmt c hc)

end Store.Widens
end Surmise
