import Surmise.Proofs.Parsing.Productions

/-! Parsing stops within the tokens. However many levels there are, as long as there are as many as tokens,
the parsers do the same; they do not pass the end of input, and each statement and each expression takes a
token. -/
namespace Surmise

open Parse

namespace Grammar

theorem compositional_true (tokens : List Token) :
    Compositional tokens (fun _ _ _ => True) fun _ _ _ => True := by
  constructor <;> (intros; trivial)

def expressionParsers (r : Rules) (mode : Mode) (n : Nat) : List (Parse Expr) :=
  [sequence r mode n, assignment r mode n, conditional r mode n, logicalOr r mode n,
    logicalAnd r mode n, equality r mode n, relational r mode n, additive r mode n,
    multiplicative r mode n, unary r mode n, callMember r mode n, primary r mode n]

abbrev Progresses {α : Type} (p : Parse α) (c : Cursor) : Prop :=
  Settles p p c fun _ c' => c'.remaining < c.remaining

section

variable {c : Cursor} {n : Nat} (hc : c.Sealed) (hn : c.remaining ≤ n) (mode : Mode)
include hc hn

theorem progresses_statement : Progresses (statement (rules n) mode (n + 1)) c := by
  have hES := compositional_true c.tokens
  have hr := settling_rules hES n n.le_refl n.le_refl
  have hlevels := Nat.lt_succ_self n
  exact (settles_statement hES hr mode hlevels hlevels c hc.within hn).imp fun _ _ h => h.1

theorem progresses_expressionParsers :
    ∀ p ∈ expressionParsers (rules n) mode (n + 1), Progresses p c := by
  have htaken {p : Parse Expr} (hp : Settles p p c fun _ c' => c'.remaining < c.remaining ∧ True) :
      Progresses p c :=
    hp.imp fun _ _ h => h.1
  have hES := compositional_true c.tokens
  have hr := settling_rules hES n n.le_refl n.le_refl
  have hlevels := Nat.lt_succ_self n
  have hc := hc.within
  simp only [expressionParsers, List.forall_mem_cons]
  exact ⟨htaken (settles_sequence hES hr mode hlevels hlevels c hc hn),
    htaken (settles_assignment hES hr mode hlevels hlevels c hc hn),
    htaken (settles_conditional hES hr mode hlevels hlevels c hc hn),
    htaken (settles_logicalOr hES hr mode hlevels hlevels c hc hn),
    htaken (settles_logicalAnd hES hr mode hlevels hlevels c hc hn),
    htaken (settles_equality hES hr mode hlevels hlevels c hc hn),
    htaken (settles_relational hES hr mode hlevels hlevels c hc hn),
    htaken (settles_additive hES hr mode hlevels hlevels c hc hn),
    htaken (settles_multiplicative hES hr mode hlevels hlevels c hc hn),
    htaken (settles_unary hES hr mode hlevels hlevels hc hn),
    htaken (settles_callMember hES hr mode hlevels hlevels hc hn),
    htaken (settles_primary hES hr mode hlevels hlevels hc hn), List.forall_mem_nil _⟩

end

section

variable {c : Cursor} {n m : Nat} (hc : c.Sealed) (hn : c.remaining < n) (hm : c.remaining < m)
include hc hn hm

theorem stops_program : Settles (program n) (program m) c fun _ c' => c'.current.kind = .eof :=
  (settles_program (compositional_true _) hc.within hn hm).imp fun _ _ h => h.1

theorem stops_wholeExpression :
    Settles (wholeExpression n) (wholeExpression m) c fun _ c' => c'.current.kind = .eof :=
  (settles_wholeExpression (compositional_true _) hc.within hn hm).imp fun _ _ h => h.1

end

/-- There is a result, or a fault of the source that is not for want of steps. -/
def Decides {α : Type} (source : String) (x : Except HostError α) : Prop :=
  (∃ a, x = .ok a) ∨ ∃ e : Rejection, e.complaint ≠ .outOfSteps ∧ x = .error (e.toError source)

theorem decides_onSource [Platform] {α : Type} {p : Nat → Parse α} {Q : α → Cursor → Prop} {source : String}
    {tokens : List Token} (htokens : Token.tokenize source = .ok tokens)
    (hp : ∀ c n, c.Sealed → c.remaining < n → Settles (p n) (p n) c Q) :
    Decides source (onSource p source) := by
  have hsettles := onSource_settles (Q := fun _ _ => True)
    (fun c n _ hc hn => (hp c n hc hn).imp fun _ _ _ => trivial) htokens
  exact hsettles.imp_left fun ⟨a, ha, _⟩ => ⟨a, ha⟩

end Grammar

open Grammar

/-- Parsing stops within the tokens. Let a source have tokens. Then there is a program or a fault, and an
expression or a fault, and no want of steps. From the first token on, the parsers do the same with any
numbers of levels that are not below the number of tokens and with whatever might follow the end of input,
and if they accept, they do so at the end of input. Wherever a statement or an expression is read, of
whatever form, the parser settles among the tokens that are left, and takes one if it accepts. -/
theorem parsing_settles [Platform] {source : String} {tokens : List Token}
    (h : Token.tokenize source = .ok tokens) :
    Decides source (Program.parse source) ∧ Decides source (Expr.parse source) ∧
      ∃ c, Cursor.ofTokens? tokens = some c ∧
        (∀ n m, tokens.length ≤ n → tokens.length ≤ m →
          Settles (program n) (program m) c (fun _ c' => c'.current.kind = .eof) ∧
            Settles (wholeExpression n) (wholeExpression m) c fun _ c' => c'.current.kind = .eof) ∧
        ∀ (mode : Mode) (n : Nat) (c' : Cursor), c'.tokens <:+ tokens → c'.remaining ≤ n →
          Progresses (statement (rules n) mode (n + 1)) c' ∧
            ∀ p ∈ expressionParsers (rules n) mode (n + 1), Progresses p c' := by
  have hsealed := (Token.tokenize_laid h).sealed
  obtain _ | ⟨t, ts⟩ := tokens
  · cases hsealed
  have hc : Cursor.Sealed ⟨t, ts⟩ := hsealed
  refine ⟨decides_onSource h fun c n hc hn => stops_program hc hn hn,
    decides_onSource h fun c n hc hn => stops_wholeExpression hc hn hn, ⟨t, ts⟩, rfl,
    fun n m hn hm => ⟨stops_program hc hn hm, stops_wholeExpression hc hn hm⟩,
    fun mode n c' hsuffix hn => ?_⟩
  have hc' : c'.Sealed := hc.of_suffix hsuffix
  exact ⟨progresses_statement hc' hn mode, progresses_expressionParsers hc' hn mode⟩

def Token.unclosed : List Token :=
  [⟨.keyword .kwIf, "if", ⟨1, 1, 0⟩, false⟩, ⟨.punctuator .leftParen, "(", ⟨1, 4, 3⟩, false⟩,
    ⟨.identifier, "f", ⟨1, 5, 4⟩, false⟩, ⟨.punctuator .leftParen, "(", ⟨1, 6, 5⟩, false⟩,
    ⟨.identifier, "a", ⟨1, 7, 6⟩, false⟩, ⟨.eof, "", ⟨1, 8, 7⟩, false⟩]

/-- The end of input is not passed in search of what is missing. -/
theorem parsing_settles_unclosed :
    Token.tokenize "if (f(a" = .ok Token.unclosed ∧
      Decides "if (f(a" (Program.parse "if (f(a") ∧
      ∃ c, Cursor.ofTokens? Token.unclosed = some c ∧
        Settles (program 6) (program 9) c fun _ c' => c'.current.kind = .eof := by
  have h : Token.tokenize "if (f(a" = .ok Token.unclosed := by decide +kernel
  obtain ⟨hprogram, -, c, hc, hlevels, -⟩ := parsing_settles h
  exact ⟨h, hprogram, c, hc, (hlevels 6 9 (by decide) (by decide)).1⟩

end Surmise
