import Surmise.Evaluation.Tree
import Surmise.Proofs.Parts

/-! What code writes, read off its text: names, and properties of objects that a name stands for. For
code that makes no calls and writes to no other properties this is all it writes, and widening it
forgets exactly these writes, in their order. -/
namespace Surmise

/-- A write that is named in code: to a variable, or to a property of the object that one stands for. -/
inductive Write where
  | name (name : String)
  | member (base key : String)
deriving DecidableEq, Repr

def Write.base? : Write → Option String
  | name _ => none
  | member base _ => some base

def Write.forget (chain : Chain) : Write → Store → Store
  | name n, s => s.forgetName chain n
  | member base key, s => s.forgetMember chain base key

def Store.forgetWrites (s : Store) (chain : Chain) (ws : List Write) : Store :=
  ws.foldl (fun s w => w.forget chain s) s

theorem Store.forgetWrites_append (s : Store) (chain : Chain) (us vs : List Write) :
    s.forgetWrites chain (us ++ vs) = (s.forgetWrites chain us).forgetWrites chain vs :=
  List.foldl_append

/-! ### The writes of expressions -/

def Target.write? : Target → Option Write
  | .name id => some (.name id.name)
  | .member (.dot (.identifier base) key _) => some (.member base.name key)
  | .member _ => none

mutual

/-- Whether the text of an expression names all its writes: it has no calls and no functions, and it
assigns only to names and to named properties of names. -/
def Expr.traced : Expr → Bool
  | .identifier _ | .literal _ | .this _ => true
  | .array elements => Element.allTraced elements
  | .object entries => Entry.allTraced entries
  | .member m => Member.traced m
  | .unary _ e => Expr.traced e
  | .binary _ l r | .logical _ l r => Expr.traced l && Expr.traced r
  | .conditional t c a => Expr.traced t && Expr.traced c && Expr.traced a
  | .assign _ target value => target.write?.isSome && Expr.traced value
  | .sequence es => Expr.allTraced es
  | .function _ | .call .. => false

def Expr.allTraced : List Expr → Bool
  | [] => true
  | e :: es => Expr.traced e && Expr.allTraced es

def Element.allTraced : List Element → Bool
  | [] => true
  | .hole :: es => Element.allTraced es
  | .item e :: es => Expr.traced e && Element.allTraced es

def Entry.allTraced : List Entry → Bool
  | [] => true
  | .mk _ e :: es => Expr.traced e && Entry.allTraced es

def Member.traced : Member → Bool
  | .dot object _ _ => Expr.traced object
  | .index object key _ => Expr.traced object && Expr.traced key

end

mutual

def Expr.writes : Expr → List Write
  | .array elements => Element.allWrites elements
  | .object entries => Entry.allWrites entries
  | .member m => Member.writes m
  | .unary _ e => Expr.writes e
  | .binary _ l r | .logical _ l r => Expr.writes l ++ Expr.writes r
  | .conditional t c a => Expr.writes t ++ Expr.writes c ++ Expr.writes a
  | .assign _ target value => Expr.writes value ++ target.write?.toList
  | .sequence es => Expr.allWrites es
  | .identifier _ | .literal _ | .this _ | .function _ | .call .. => []

def Expr.allWrites : List Expr → List Write
  | [] => []
  | e :: es => Expr.writes e ++ Expr.allWrites es

def Element.allWrites : List Element → List Write
  | [] => []
  | .hole :: es => Element.allWrites es
  | .item e :: es => Expr.writes e ++ Element.allWrites es

def Entry.allWrites : List Entry → List Write
  | [] => []
  | .mk _ e :: es => Expr.writes e ++ Entry.allWrites es

def Member.writes : Member → List Write
  | .dot object _ _ => Expr.writes object
  | .index object key _ => Expr.writes object ++ Expr.writes key

end

theorem Target.widen_write {t : Target} {w : Write} (h : t.write? = some w) (chain : Chain)
    (st : Store) : t.widen chain st = w.forget chain st := by
  cases t with
  | name id =>
    cases h
    rfl
  | member m =>
    cases m with
    | index object key span => cases h
    | dot object key span =>
      cases object with
      | identifier base =>
        cases h
        rfl
      | _ => cases h

abbrev Store.ForgetsWrites (chain : Chain) : List Write → (Store → Store) → Prop :=
  Store.Takes fun st w => w.forget chain st

mutual

theorem Expr.widen_traced (chain : Chain) :
    ∀ e : Expr, e.traced = true → Store.ForgetsWrites chain e.writes (e.widen chain)
  | .identifier _, _ | .literal _, _ | .this _, _ => .nil
  | .array elements, h => Element.widenAll_traced chain elements h
  | .object entries, h => Entry.widenAll_traced chain entries h
  | .member m, h => Member.widen_traced chain m h
  | .unary _ e, h => Expr.widen_traced chain e h
  | .binary _ l r, h | .logical _ l r, h =>
    have h := Bool.and_eq_true_iff.mp h
    (Expr.widen_traced chain l h.1).comp (Expr.widen_traced chain r h.2)
  | .conditional t c a, h =>
    have h := Bool.and_eq_true_iff.mp h
    have h' := Bool.and_eq_true_iff.mp h.1
    ((Expr.widen_traced chain t h'.1).comp (Expr.widen_traced chain c h'.2)).comp
      (Expr.widen_traced chain a h.2)
  | .assign _ target value, h => by
    simp only [Expr.traced, Bool.and_eq_true, Option.isSome_iff_exists] at h
    obtain ⟨⟨w, hw⟩, hv⟩ := h
    rw [Expr.writes, hw]
    exact (Expr.widen_traced chain value hv).comp fun st => Target.widen_write hw chain st
  | .sequence es, h => Expr.widenAll_traced chain es h

theorem Expr.widenAll_traced (chain : Chain) : ∀ es : List Expr, Expr.allTraced es = true →
    Store.ForgetsWrites chain (Expr.allWrites es) (Expr.widenAll chain es)
  | [], _ => .nil
  | e :: es, h =>
    have h := Bool.and_eq_true_iff.mp h
    (Expr.widen_traced chain e h.1).comp (Expr.widenAll_traced chain es h.2)

theorem Element.widenAll_traced (chain : Chain) : ∀ es : List Element, Element.allTraced es = true →
    Store.ForgetsWrites chain (Element.allWrites es) (Element.widenAll chain es)
  | [], _ => .nil
  | .hole :: es, h => Element.widenAll_traced chain es h
  | .item e :: es, h =>
    have h := Bool.and_eq_true_iff.mp h
    (Expr.widen_traced chain e h.1).comp (Element.widenAll_traced chain es h.2)

theorem Entry.widenAll_traced (chain : Chain) : ∀ es : List Entry, Entry.allTraced es = true →
    Store.ForgetsWrites chain (Entry.allWrites es) (Entry.widenAll chain es)
  | [], _ => .nil
  | .mk _ e :: es, h =>
    have h := Bool.and_eq_true_iff.mp h
    (Expr.widen_traced chain e h.1).comp (Entry.widenAll_traced chain es h.2)

theorem Member.widen_traced (chain : Chain) :
    ∀ m : Member, m.traced = true → Store.ForgetsWrites chain m.writes (m.widen chain)
  | .dot object _ _, h => Expr.widen_traced chain object h
  | .index object key _, h =>
    have h := Bool.and_eq_true_iff.mp h
    (Expr.widen_traced chain object h.1).comp (Expr.widen_traced chain key h.2)

end

/-! ### The writes of statements -/

mutual

def Stmt.traced : Stmt → Bool
  | .block body => Stmt.allTraced body
  | .expression e | .throw e | .ret (some e) => e.traced
  | .declare _ ds => Declarator.allTraced ds
  | .branch test c none => test.traced && Stmt.traced c
  | .branch test c (some a) => test.traced && Stmt.traced c && Stmt.traced a
  | .attempt body handler finalizer =>
    Stmt.allTraced body &&
      (match handler with
        | some (.mk _ body) => Stmt.allTraced body
        | none => true) &&
      (match finalizer with
        | some body => Stmt.allTraced body
        | none => true)
  | .empty | .function _ | .ret none => true

def Stmt.allTraced : List Stmt → Bool
  | [] => true
  | t :: ts => Stmt.traced t && Stmt.allTraced ts

def Declarator.allTraced : List Declarator → Bool
  | [] => true
  | .mk _ none :: ds => Declarator.allTraced ds
  | .mk _ (some e) :: ds => e.traced && Declarator.allTraced ds

end

mutual

def Stmt.writes : Stmt → List Write
  | .block body => Stmt.allWrites body
  | .expression e | .throw e | .ret (some e) => e.writes
  | .declare kind ds => Declarator.allWrites kind ds
  | .branch test c none => test.writes ++ Stmt.writes c
  | .branch test c (some a) => test.writes ++ Stmt.writes c ++ Stmt.writes a
  | .attempt body handler finalizer =>
    Stmt.allWrites body ++
      (match handler with
        | some (.mk _ body) => Stmt.allWrites body
        | none => []) ++
      (match finalizer with
        | some body => Stmt.allWrites body
        | none => [])
  | .empty | .function _ | .ret none => []

def Stmt.allWrites : List Stmt → List Write
  | [] => []
  | t :: ts => Stmt.writes t ++ Stmt.allWrites ts

/-- The initial value of a variable is assigned to it; other declarations write to nothing that is
there before them. -/
def Declarator.allWrites (kind : DeclKind) : List Declarator → List Write
  | [] => []
  | .mk _ none :: ds => Declarator.allWrites kind ds
  | .mk id (some e) :: ds =>
    e.writes ++ (if kind = .variable then [.name id.name] else []) ++ Declarator.allWrites kind ds

end

mutual

/-- The names that the execution of a statement binds: those of `let` and `const`, of functions and of
caught errors. -/
def Stmt.declared : Stmt → List String
  | .block body => Stmt.allDeclared body
  | .declare .variable _ => []
  | .declare .lexical ds | .declare .constant ds => ds.map Declarator.name
  | .function f => f.name.toList.map Identifier.name
  | .branch _ c none => Stmt.declared c
  | .branch _ c (some a) => Stmt.declared c ++ Stmt.declared a
  | .attempt body handler finalizer =>
    Stmt.allDeclared body ++
      (match handler with
        | some (.mk param body) => param.toList.map Identifier.name ++ Stmt.allDeclared body
        | none => []) ++
      (match finalizer with
        | some body => Stmt.allDeclared body
        | none => [])
  | .empty | .expression _ | .ret _ | .throw _ => []

def Stmt.allDeclared : List Stmt → List String
  | [] => []
  | t :: ts => Stmt.declared t ++ Stmt.allDeclared ts

end

theorem Stmt.declared_declare {kind : DeclKind} (hk : kind ≠ .variable) (ds : List Declarator) :
    (Stmt.declare kind ds).declared = ds.map Declarator.name := by
  rcases kind with _ | _ | _
  · exact absurd rfl hk
  · rfl
  · rfl

theorem Stmt.declared_function {body : List Stmt} {name : String} {f : Function}
    (h : (name, f) ∈ Stmt.functions body) : name ∈ Stmt.allDeclared body := by
  induction body with
  | nil => cases h
  | cons t ts ih =>
    rw [Stmt.allDeclared, List.mem_append]
    simp only [Stmt.functions, List.filterMap_cons] at h
    split at h
    next => exact .inr (ih h)
    next p hp =>
      obtain rfl | h := List.mem_cons.mp h
      · left
        split at hp
        next g =>
          obtain ⟨id, hid, heq⟩ := Option.map_eq_some_iff.mp hp
          cases heq
          simp [Stmt.declared, hid]
        next => cases hp
      · exact .inr (ih h)

mutual

/-- Widening a traced statement forgets what it writes. -/
theorem Stmt.widen_traced (chain : Chain) :
    ∀ t : Stmt, t.traced = true → Store.ForgetsWrites chain t.writes (t.widen chain)
  | .block body, h => Stmt.widenAll_traced chain body h
  | .expression e, h | .throw e, h | .ret (some e), h => e.widen_traced chain h
  | .declare kind ds, h => Declarator.widenAll_traced chain kind ds h
  | .branch test c none, h =>
    have h := Bool.and_eq_true_iff.mp h
    (test.widen_traced chain h.1).comp (Stmt.widen_traced chain c h.2)
  | .branch test c (some a), h =>
    have h := Bool.and_eq_true_iff.mp h
    have h' := Bool.and_eq_true_iff.mp h.1
    ((test.widen_traced chain h'.1).comp (Stmt.widen_traced chain c h'.2)).comp
      (Stmt.widen_traced chain a h.2)
  | .attempt body none none, h =>
    have h := Bool.and_eq_true_iff.mp (Bool.and_eq_true_iff.mp h).1
    ((Stmt.widenAll_traced chain body h.1).comp .nil).comp .nil
  | .attempt body none (some finalizer), h =>
    have h := Bool.and_eq_true_iff.mp h
    have h' := Bool.and_eq_true_iff.mp h.1
    ((Stmt.widenAll_traced chain body h'.1).comp .nil).comp (Stmt.widenAll_traced chain finalizer h.2)
  | .attempt body (some (.mk _ handler)) none, h =>
    have h := Bool.and_eq_true_iff.mp (Bool.and_eq_true_iff.mp h).1
    ((Stmt.widenAll_traced chain body h.1).comp (Stmt.widenAll_traced chain handler h.2)).comp .nil
  | .attempt body (some (.mk _ handler)) (some finalizer), h =>
    have h := Bool.and_eq_true_iff.mp h
    have h' := Bool.and_eq_true_iff.mp h.1
    ((Stmt.widenAll_traced chain body h'.1).comp (Stmt.widenAll_traced chain handler h'.2)).comp
      (Stmt.widenAll_traced chain finalizer h.2)
  | .empty, _ | .function _, _ | .ret none, _ => .nil

theorem Stmt.widenAll_traced (chain : Chain) : ∀ ts : List Stmt, Stmt.allTraced ts = true →
    Store.ForgetsWrites chain (Stmt.allWrites ts) (Stmt.widenAll chain ts)
  | [], _ => .nil
  | t :: ts, h =>
    have h := Bool.and_eq_true_iff.mp h
    (Stmt.widen_traced chain t h.1).comp (Stmt.widenAll_traced chain ts h.2)

theorem Declarator.widenAll_traced (chain : Chain) (kind : DeclKind) :
    ∀ ds : List Declarator, Declarator.allTraced ds = true →
      Store.ForgetsWrites chain (Declarator.allWrites kind ds) (Declarator.widenAll chain kind ds)
  | [], _ => .nil
  | .mk _ none :: ds, h => Declarator.widenAll_traced chain kind ds h
  | .mk id (some e) :: ds, h => by
    have h := Bool.and_eq_true_iff.mp h
    have hname : Store.ForgetsWrites chain (if kind = .variable then [.name id.name] else [])
        fun st => if kind = .variable then st.forgetName chain id.name else st := by
      intro st
      dsimp only
      split <;> rfl
    exact ((e.widen_traced chain h.1).comp hname).comp (Declarator.widenAll_traced chain kind ds h.2)

end

theorem Stmt.widenBranches_traced (chain : Chain) {c a : Stmt} (hc : c.traced = true)
    (ha : a.traced = true) :
    Store.ForgetsWrites chain (c.writes ++ a.writes) (Stmt.widenBranches chain c (some a)) :=
  (c.widen_traced chain hc).comp (a.widen_traced chain ha)

end Surmise
