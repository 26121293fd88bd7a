import Surmise.Evaluation.Declaration

/-! The places in code where functions are made, and what can be required of all functions in a piece of
code. Statements at the head of a body that begin with a text are set apart: the directive for strict code
is one of them. -/
namespace Surmise

/-! ### Statements that begin with a text -/

mutual

def Expr.opening? : Expr → Option String
  | .literal (.string s) => some s
  | .member m => Member.opening? m
  | .call callee _ _ => Expr.opening? callee
  | .binary _ l _ => Expr.opening? l
  | .logical _ l _ => Expr.opening? l
  | .conditional test _ _ => Expr.opening? test
  | .assign _ target _ => Target.opening? target
  | .sequence es => Expr.openingAll? es
  | _ => none

def Expr.openingAll? : List Expr → Option String
  | [] => none
  | e :: _ => Expr.opening? e

def Member.opening? : Member → Option String
  | .dot object _ _ => Expr.opening? object
  | .index object _ _ => Expr.opening? object

def Target.opening? : Target → Option String
  | .name _ => none
  | .member m => Member.opening? m

end

namespace Stmt

def opening? : Stmt → Option String
  | .expression e => e.opening?
  | _ => none

def directs (body : List Stmt) : Bool :=
  (body.takeWhile fun t => t.opening?.isSome).any fun t => t.opening? == some "use strict"

end Stmt

/-! ### Sites -/

/-- A place in the code of a program or of a function. -/
structure Site where
  /-- Whether the program or the function is strict. -/
  strict : Bool
  /-- Whether the place is in one of the statements at the head of a body that directs itself to be
  strict, before any statement that does not begin with a text. -/
  leading : Bool
deriving DecidableEq

namespace Site

def on (i : Site) (t : Stmt) : Site := ⟨i.strict, t.opening?.isSome && i.leading⟩

def head (strict : Bool) (body : List Stmt) : Site := ⟨strict, Stmt.directs body⟩

def declared (strict : Bool) : Site := ⟨strict, false⟩

end Site

/-! ### All functions of the code -/

section

variable (catches : Prop) (p : Site → Function → Prop)

mutual

/-- Every function in the expression has `p` at its site, those inside of other functions included, and
there are catch clauses only if `catches` holds. -/
def Expr.All (i : Site) : Expr → Prop
  | .identifier _ => True
  | .literal _ => True
  | .array elements => Element.AllIn i elements
  | .object entries => Entry.AllIn i entries
  | .function f => Function.All i f
  | .this _ => True
  | .member m => Member.All i m
  | .call callee args _ => Expr.All i callee ∧ Expr.AllIn i args
  | .unary _ e => Expr.All i e
  | .binary _ l r => Expr.All i l ∧ Expr.All i r
  | .logical _ l r => Expr.All i l ∧ Expr.All i r
  | .conditional test c a => Expr.All i test ∧ Expr.All i c ∧ Expr.All i a
  | .assign _ target value => Target.All i target ∧ Expr.All i value
  | .sequence es => Expr.AllIn i es

def Expr.AllIn (i : Site) : List Expr → Prop
  | [] => True
  | e :: es => Expr.All i e ∧ Expr.AllIn i es

def Element.AllIn (i : Site) : List Element → Prop
  | [] => True
  | .hole :: es => Element.AllIn i es
  | .item e :: es => Expr.All i e ∧ Element.AllIn i es

def Entry.AllIn (i : Site) : List Entry → Prop
  | [] => True
  | .mk _ e :: es => Expr.All i e ∧ Entry.AllIn i es

def Member.All (i : Site) : Member → Prop
  | .dot object _ _ => Expr.All i object
  | .index object key _ => Expr.All i object ∧ Expr.All i key

def Target.All (i : Site) : Target → Prop
  | .name _ => True
  | .member m => Member.All i m

def Function.All (i : Site) : Function → Prop
  | .mk name params body strict span =>
    p i (.mk name params body strict span) ∧ Stmt.AllIn (.head strict body) body

def Stmt.All (i : Site) : Stmt → Prop
  | .block body => Stmt.AllIn i body
  | .empty => True
  | .expression e => Expr.All i e
  | .declare _ ds => Declarator.AllIn i ds
  | .function f => Function.All i f
  | .branch test c none => Expr.All i test ∧ Stmt.All i c
  | .branch test c (some a) => Expr.All i test ∧ Stmt.All i c ∧ Stmt.All i a
  | .ret none => True
  | .ret (some e) => Expr.All i e
  | .throw e => Expr.All i e
  | .attempt body handler finalizer =>
    Stmt.AllIn i body ∧
      (match handler with
        | some (.mk _ body) => catches ∧ Stmt.AllIn i body
        | none => True) ∧
      (match finalizer with
        | some body => Stmt.AllIn i body
        | none => True)

def Stmt.AllIn (i : Site) : List Stmt → Prop
  | [] => True
  | t :: ts => Stmt.All (i.on t) t ∧ Stmt.AllIn (i.on t) ts

def Declarator.AllIn (i : Site) : List Declarator → Prop
  | [] => True
  | .mk _ none :: ds => Declarator.AllIn i ds
  | .mk _ (some e) :: ds => Expr.All i e ∧ Declarator.AllIn i ds

end

variable {catches p}

theorem Function.all_iff {i : Site} {f : Function} :
    f.All catches p i ↔ p i f ∧ Stmt.AllIn catches p (.head f.strict f.body) f.body := by
  cases f
  exact Iff.rfl

theorem Stmt.AllIn.functions {i : Site} {ts : List Stmt} (h : Stmt.AllIn catches p i ts) :
    ∀ f ∈ Stmt.functions ts, f.2.All catches p (.declared i.strict) := by
  induction ts generalizing i with
  | nil => exact nofun
  | cons t ts ih =>
    intro f hf
    obtain ⟨a, ha, hfa⟩ := List.mem_filterMap.mp hf
    obtain rfl | hts := List.mem_cons.mp ha
    · cases a with
      | function g =>
        obtain ⟨id, -, rfl⟩ := Option.map_eq_some_iff.mp hfa
        exact h.1
      | _ => cases hfa
    · exact ih h.2 f (List.mem_filterMap.mpr ⟨a, hts, hfa⟩)

/-- Where nothing is required of functions, all code will do. -/
theorem Stmt.allIn_true (i : Site) (ts : List Stmt) : Stmt.AllIn True (fun _ _ => True) i ts := by
  apply Stmt.AllIn.induct (Expr.All True fun _ _ => True) (Target.All True fun _ _ => True)
    (Member.All True fun _ _ => True) (Expr.AllIn True fun _ _ => True)
    (Function.All True fun _ _ => True) (Stmt.AllIn True fun _ _ => True)
    (Stmt.All True fun _ _ => True) (Declarator.AllIn True fun _ _ => True)
    (Entry.AllIn True fun _ _ => True) (Element.AllIn True fun _ _ => True)
  -- only of a `try` it matters which clauses there are
  case case30 => rintro i body (_ | ⟨_, _⟩) (_ | _) <;> simp +contextual [Stmt.All]
  all_goals simp +contextual [Expr.All, Expr.AllIn, Element.AllIn, Entry.AllIn, Member.All, Target.All,
    Function.All, Stmt.All, Stmt.AllIn, Declarator.AllIn]

end

end Surmise
