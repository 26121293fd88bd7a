import Surmise.Proofs.Parsing.Productions
import Surmise.Proofs.Yielding

/-! Programs that are read are well-formed: they return from functions only, constants are given values,
every `try` has a clause, function declarations have names, and there are no sequences of fewer than two
expressions. Therefore a program never ends by returning. -/
namespace Surmise

/-! ### Well-formed code -/

mutual

def Expr.WellFormed : Expr → Prop
  | .identifier _ => True
  | .literal _ => True
  | .array elements => Element.AllWellFormed elements
  | .object entries => Entry.AllWellFormed entries
  | .function f => Function.WellFormed f
  | .this _ => True
  | .member m => Member.WellFormed m
  | .call callee args _ => Expr.WellFormed callee ∧ Expr.AllWellFormed args
  | .unary _ e => Expr.WellFormed e
  | .binary _ l r => Expr.WellFormed l ∧ Expr.WellFormed r
  | .logical _ l r => Expr.WellFormed l ∧ Expr.WellFormed r
  | .conditional test c a => Expr.WellFormed test ∧ Expr.WellFormed c ∧ Expr.WellFormed a
  | .assign _ target value => Target.WellFormed target ∧ Expr.WellFormed value
  | .sequence es => 2 ≤ es.length ∧ Expr.AllWellFormed es

def Expr.AllWellFormed : List Expr → Prop
  | [] => True
  | e :: es => Expr.WellFormed e ∧ Expr.AllWellFormed es

def Element.AllWellFormed : List Element → Prop
  | [] => True
  | .hole :: es => Element.AllWellFormed es
  | .item e :: es => Expr.WellFormed e ∧ Element.AllWellFormed es

def Entry.AllWellFormed : List Entry → Prop
  | [] => True
  | .mk _ e :: es => Expr.WellFormed e ∧ Entry.AllWellFormed es

def Member.WellFormed : Member → Prop
  | .dot object _ _ => Expr.WellFormed object
  | .index object key _ => Expr.WellFormed object ∧ Expr.WellFormed key

def Target.WellFormed : Target → Prop
  | .name _ => True
  | .member m => Member.WellFormed m

def Function.WellFormed : Function → Prop
  | .mk _ _ body _ _ => Stmt.AllWellFormed true body

/-- The statement returns only in a function, gives values to constants, names the functions that it
declares and has a clause for every `try`; and so do all statements and expressions in it. -/
def Stmt.WellFormed (inFunction : Bool) : Stmt → Prop
  | .block body => Stmt.AllWellFormed inFunction body
  | .empty => True
  | .expression e => Expr.WellFormed e
  | .declare kind ds => Declarator.AllWellFormed kind ds
  | .function f => f.name.isSome = true ∧ Function.WellFormed f
  | .branch test c none => Expr.WellFormed test ∧ Stmt.WellFormed inFunction c
  | .branch test c (some a) =>
    Expr.WellFormed test ∧ Stmt.WellFormed inFunction c ∧ Stmt.WellFormed inFunction a
  | .ret none => inFunction = true
  | .ret (some e) => inFunction = true ∧ Expr.WellFormed e
  | .throw e => Expr.WellFormed e
  | .attempt body handler finalizer =>
    (handler.isSome = true ∨ finalizer.isSome = true) ∧ Stmt.AllWellFormed inFunction body ∧
      (match handler with
        | some (.mk _ body) => Stmt.AllWellFormed inFunction body
        | none => True) ∧
      (match finalizer with
        | some body => Stmt.AllWellFormed inFunction body
        | none => True)

def Stmt.AllWellFormed (inFunction : Bool) : List Stmt → Prop
  | [] => True
  | t :: ts => Stmt.WellFormed inFunction t ∧ Stmt.AllWellFormed inFunction ts

def Declarator.AllWellFormed (kind : DeclKind) : List Declarator → Prop
  | [] => True
  | .mk _ none :: ds => kind ≠ .constant ∧ Declarator.AllWellFormed kind ds
  | .mk _ (some e) :: ds => Expr.WellFormed e ∧ Declarator.AllWellFormed kind ds

end

theorem Expr.allWellFormed {es : List Expr} (h : ∀ e ∈ es, e.WellFormed) : AllWellFormed es := by
  induction es with
  | nil => trivial
  | cons e es ih =>
    rw [List.forall_mem_cons] at h
    exact ⟨h.1, ih h.2⟩

theorem Element.allWellFormed {es : List Element} (h : ∀ e, .item e ∈ es → e.WellFormed) :
    AllWellFormed es := by
  induction es with
  | nil => trivial
  | cons e es ih =>
    have hes := ih fun e he => h e (.tail _ he)
    cases e with
    | hole => exact hes
    | item e => exact ⟨h e (.head _), hes⟩

theorem Entry.allWellFormed {ps : List Entry} (h : ∀ key e, .mk key e ∈ ps → e.WellFormed) :
    AllWellFormed ps := by
  induction ps with
  | nil => trivial
  | cons p ps ih =>
    cases p with
    | mk key e => exact ⟨h key e (.head _), ih fun key e he => h key e (.tail _ he)⟩

theorem Stmt.allWellFormed {inFunction : Bool} {ts : List Stmt}
    (h : ∀ t ∈ ts, t.WellFormed inFunction) : AllWellFormed inFunction ts := by
  induction ts with
  | nil => trivial
  | cons t ts ih =>
    rw [List.forall_mem_cons] at h
    exact ⟨h.1, ih h.2⟩

theorem Declarator.allWellFormed {kind : DeclKind} {ds : List Declarator}
    (hnone : ∀ id, .mk id none ∈ ds → kind ≠ .constant)
    (hsome : ∀ id e, .mk id (some e) ∈ ds → e.WellFormed) : AllWellFormed kind ds := by
  induction ds with
  | nil => trivial
  | cons d ds ih =>
    have hds := ih (fun id h => hnone id (.tail _ h)) fun id e h => hsome id e (.tail _ h)
    obtain ⟨id, _ | e⟩ := d
    · exact ⟨hnone id (.head _), hds⟩
    · exact ⟨hsome id e (.head _), hds⟩

/-! ### What is read -/

namespace Grammar

theorem wellFormed_body {mode : Mode} {c : Cursor} {strict : Bool} {ts : List Stmt}
    (h : Body (fun mode _ t => t.WellFormed mode.inFunction) mode c strict ts) :
    Stmt.AllWellFormed mode.inFunction ts := by
  refine Stmt.allWellFormed fun t ht => ?_
  obtain ⟨_, _, ht⟩ := h.forall_mem t ht
  exact ht

/-- Each production makes a well-formed phrase from well-formed parts. -/
theorem compositional_wellFormed (tokens : List Token) : Compositional tokens
    (fun _ _ e => e.WellFormed) fun mode _ t => t.WellFormed mode.inFunction where
  identifier _ := trivial
  literal _ := trivial
  text _ := trivial
  this _ := trivial
  functionExpr := fun {_ _ _ f} _ _ _ h => by
    cases f
    exact wellFormed_body h
  group _ h := h
  array _ h := Element.allWellFormed fun e he => (h e he).elim fun _ h => h
  object _ h := Entry.allWellFormed fun key e he => (h key e he).elim fun _ h => h
  dot h := h
  index h hkey := ⟨h, hkey⟩
  call h hargs := ⟨h, Expr.allWellFormed fun e he => (hargs e he).elim fun _ h => h⟩
  unary _ h := h
  binary hl hr := ⟨hl, hr⟩
  logical hl hr := ⟨hl, hr⟩
  conditional ht hc ha := ⟨ht, hc, ha⟩
  assign := fun {_ _ _ _ left _ _} h htarget hvalue => by
    unfold target? at htarget
    split at htarget <;> cases htarget
    · exact ⟨trivial, hvalue⟩
    · exact ⟨h, hvalue⟩
  sequence := fun {_ _ e es} h hne hes => by
    refine ⟨?_, h, Expr.allWellFormed fun e he => (hes e he).elim fun _ h => h⟩
    exact Nat.succ_le_succ (List.length_pos_iff.mpr hne)
  block _ h := Stmt.allWellFormed fun t ht => (h t ht).elim fun _ h => h
  empty _ := trivial
  declare _ hnone hsome :=
    Declarator.allWellFormed hnone fun id e he => (hsome id e he).elim fun _ h => h
  functionStmt := fun {_ _ _ f} _ hname _ _ h => by
    cases f
    exact ⟨hname, wellFormed_body h⟩
  branch := fun {_ _ _ _ _ _ alternate} _ htest ht halternate => by
    cases alternate with
    | none => exact ⟨htest, ht⟩
    | some u =>
      obtain ⟨_, hu⟩ := halternate u rfl
      exact ⟨htest, ht, hu⟩
  ret := fun {_ _ argument} _ hmode hargument => by
    cases argument with
    | none => exact hmode
    | some e =>
      obtain ⟨_, he⟩ := hargument e rfl
      exact ⟨hmode, he⟩
  throw _ h := h
  attempt := fun {mode _ ts handler finalizer} _ hclause hts hhandler hfinalizer => by
    have hall {us : List Stmt} (h : ∀ t ∈ us, ∃ _ : Cursor, t.WellFormed mode.inFunction) :
        Stmt.AllWellFormed mode.inFunction us :=
      Stmt.allWellFormed fun t ht => (h t ht).elim fun _ h => h
    obtain _ | ⟨param, us⟩ := handler <;> obtain _ | vs := finalizer
    · cases hclause
    · exact ⟨.inr rfl, hall hts, trivial, hall (hfinalizer vs rfl)⟩
    · exact ⟨.inl rfl, hall hts, hall (hhandler param us rfl), trivial⟩
    · exact ⟨.inl rfl, hall hts, hall (hhandler param us rfl), hall (hfinalizer vs rfl)⟩
  expression h := h

end Grammar

theorem Program.wellFormed_of_parse [Platform] {source : String} {p : Program} (h : parse source = .ok p) :
    Stmt.AllWellFormed false p.body := by
  obtain ⟨_, -, h⟩ := Grammar.of_onSource (Q := fun _ p => Stmt.AllWellFormed false p.body)
    (fun c n _ hc hn => (Grammar.settles_program (Grammar.compositional_wellFormed _) hc.within hn hn).imp
      fun _ _ h => Grammar.wellFormed_body h.2) h
  exact h

/-! ### Returning -/

section

open Eval

variable (call : Invoke)

mutual

/-- Outside of functions a well-formed statement does not return. -/
theorem Stmt.yields_normal :
    ∀ t : Stmt, t.WellFormed false → Yields (t.exec call) Flow.IsNormal
  | .block body, h => .inBlock (Stmt.yields_normal_all none body h) body none
  | .empty, _ | .function _, _ => .pure trivial
  | .expression _, _ | .declare _ _, _ => .after fun _ => .pure trivial
  | .branch test c a?, h => by
    rw [Stmt.exec.eq_def]
    refine .after fun v => ?_
    split
    · cases a? with
      | none => exact Stmt.yields_normal c h.2
      | some a => exact Stmt.yields_normal c h.2.1
    · cases a? with
      | none => exact .pure trivial
      | some a => exact Stmt.yields_normal a h.2.2
    · exact .after fun _ => .pure trivial
  | .ret none, h => absurd h Bool.false_ne_true
  | .ret (some _), h => absurd h.1 Bool.false_ne_true
  | .throw _, _ => .after fun v => .throw v
  | .attempt body handler finalizer, h => by
    rw [Stmt.WellFormed.eq_def] at h
    obtain ⟨-, hbody, hcaught, hlast⟩ := h
    rw [Stmt.exec.eq_def]
    refine .attempt (.inBlock (Stmt.yields_normal_all none body hbody) body none) ?_ ?_
    · rcases handler with _ | ⟨param, caught⟩ <;> rintro _ ⟨⟩ v
      exact .inBlock (Stmt.yields_normal_all none caught hcaught) caught _
    · rcases finalizer with _ | last <;> rintro _ ⟨⟩
      exact .inBlock (Stmt.yields_normal_all none last hlast) last none

theorem Stmt.yields_normal_all : ∀ (last : Option Value) (ts : List Stmt),
    Stmt.AllWellFormed false ts → Yields (Stmt.execAll call last ts) Flow.IsNormal
  | _, [], _ => .pure trivial
  | last, t :: ts, h => by
    rw [Stmt.execAll]
    refine .bind (Stmt.yields_normal t h.1) fun flow hflow => ?_
    cases flow with
    | normal v => exact Stmt.yields_normal_all _ ts h.2
    | returned v => exact hflow.elim

end

end

/-- Programs that are read are well-formed: no `return` stands outside of a function, every constant has an
initializer, every `try` a handler or a finalizer, every function declaration a name and every sequence at
least two members. So the body of a program never ends by returning. -/
theorem parsed_wellFormed [Platform] {source : String} {p : Program} (h : Program.parse source = .ok p) :
    Stmt.AllWellFormed false p.body ∧
      ∀ (call : Invoke) (s t : Session) (v : Value),
        Stmt.execBody call p.body s ≠ (.done (.returned v), t) := by
  -- The code of a program is outside of functions, so the flag starts as false.
  have hbody := Program.wellFormed_of_parse h
  refine ⟨hbody, fun call s t v hrun => ?_⟩
  have hyields : Eval.Yields (Stmt.execBody call p.body) Flow.IsNormal :=
    .after fun _ => Stmt.yields_normal_all call none p.body hbody
  exact hyields s _ t hrun

def Program.guardedReturn : String :=
  "function f(a) \x7b try \x7b return a, 1; \x7d finally \x7b const b = a; \x7d \x7d" ++
    " try \x7b f(0) \x7d catch (e) \x7b \x7d"

theorem parsed_wellFormed_guardedReturn : ∃ p, Program.parse Program.guardedReturn = .ok p ∧
    p.body.length = 2 ∧ Stmt.AllWellFormed false p.body ∧
      ∀ (call : Invoke) (s t : Session) (v : Value),
        Stmt.execBody call p.body s ≠ (.done (.returned v), t) := by
  have hlength : (Program.parse Program.guardedReturn).toOption.map (·.body.length) = some 2 := by
    decide +kernel
  cases hp : Program.parse Program.guardedReturn with
  | error e =>
    rw [hp] at hlength
    cases hlength
  | ok p =>
    rw [hp] at hlength
    exact ⟨p, rfl, Option.some.inj hlength, parsed_wellFormed hp⟩

end Surmise
