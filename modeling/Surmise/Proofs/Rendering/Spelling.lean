import Surmise.Proofs.Numerals.Grammar
import Surmise.Proofs.Rendering.Reading
import Surmise.Proofs.Rounding

/-! Every lexeme of a rendered expression has a token. A number is written with all its decimal
places, which are read back exactly, and in a string every backslash is written twice. -/
namespace Surmise

/-! ### Numbers -/

def Decimal.scaled (n places : Nat) : List Char :=
  Nat.toDigits 10 n ++ 'e' :: '-' :: Nat.toDigits 10 places

theorem writes_scaled (n places : Nat) :
    Numeral.Writes (Decimal.scaled n places) false (n * 10 ^ (-(places : ℤ))) := by
  have hwrites := Numeral.Writes.intro .none
    (.whole (Numeral.isDigits_toDigits n) Nat.toDigits_ne_nil)
    (.marked (.inl rfl) .minus (Numeral.isDigits_toDigits places) Nat.toDigits_ne_nil)
  rw [Numeral.natural_toDigits, Numeral.natural_toDigits] at hwrites
  exact hwrites

def Number.spelling (x : Float) : List Char :=
  match Parts.ofFloat? x with
  | some ⟨_, 0, _⟩ | none => ['0']
  | some ⟨_, m + 1, e⟩ => Decimal.scaled (exactDigits (m + 1) e) (exactPlaces e)

theorem Parts.negative_of_ofFloat? {x : Float} {p : Parts} (hx : ofFloat? x = some p) :
    p.negative = Number.isNegative x := (ofFloat?_eq_some_iff.mp hx).1

theorem ofText_spelling {x : Float} (hfinite : x.isFinite = true) (hsign : Number.isNegative x = false) :
    Number.ofText (Number.spelling x) = x := by
  obtain ⟨⟨negative, m, e⟩, hx⟩ := Parts.ofFloat?_of_isFinite hfinite
  obtain rfl : negative = false := (Parts.negative_of_ofFloat? hx).trans hsign
  unfold Number.spelling
  rw [hx]
  cases m with
  | zero =>
    have hzero : Number.ofText ['0'] = 0.0 := eq_of_toBits (by decide +kernel)
    exact hzero.trans (Parts.eq_zero_of_ofFloat? hx).symm
  | succ m =>
    have hvalue := Parts.magnitude_exact hx (Nat.succ_ne_zero m)
    dsimp only
    rw [Number.ofText_of_writes (writes_scaled _ _), hvalue, Number.signed, if_neg Bool.false_ne_true]

/-! ### Strings -/

def Token.inside : List Char → List Char
  | [] => []
  | c :: cs => if c = '\\' then '\\' :: '\\' :: inside cs else c :: inside cs

theorem decodeString?_inside (cs : List Char) {fuel : Nat} (h : (Token.inside cs).length ≤ fuel) :
    Token.decodeString? fuel (Token.inside cs) = some cs := by
  induction cs generalizing fuel with
  | nil => rw [Token.inside, Token.decodeString?]
  | cons c cs ih =>
    rw [Token.inside] at h ⊢
    split at h
    next hc =>
      subst hc
      obtain ⟨fuel, rfl⟩ : ∃ n, fuel = n + 1 := Nat.exists_eq_succ_of_ne_zero (by simp at h; omega)
      have hescape : Token.decodeEscape? ('\\' :: Token.inside cs) = some (['\\'], Token.inside cs) :=
        rfl
      rw [if_pos rfl, Token.decodeString?, hescape]
      dsimp only
      rw [ih (by simp at h; omega)]
      rfl
    next hc =>
      obtain ⟨fuel, rfl⟩ : ∃ n, fuel = n + 1 := Nat.exists_eq_succ_of_ne_zero (by simp at h; omega)
      rw [if_neg hc, Token.decodeString?, ih (by simp at h; omega)]
      · rfl
      · exact fun he => hc he

def Token.quoted (s : String) : String := .ofList ('"' :: Token.inside s.toList ++ ['"'])

theorem stringValue?_quoted (s : String) : Token.stringValue? (Token.quoted s) = some s := by
  have hinner : (Token.quoted s).toList.tail.dropLast = Token.inside s.toList := by
    rw [Token.quoted, String.toList_ofList]
    exact List.dropLast_concat
  rw [Token.stringValue?, hinner, decodeString?_inside _ (Nat.le_refl _), Option.map_some,
    String.ofList_toList]

/-! ### Tokens -/

def Lexeme.token : Lexeme → Token
  | mark p => ⟨.punctuator p, p.text, default, false⟩
  | word k => ⟨.keyword k, k.text, default, false⟩
  | name text | property text => ⟨.identifier, text, default, false⟩
  | key text | string text => ⟨.string, Token.quoted text, default, false⟩
  | number x => ⟨.number, .ofList (Number.spelling x), default, false⟩
  | eof => ⟨.eof, "", default, false⟩

def Lexeme.Proper : Lexeme → Prop
  | number x => (Literal.number x).Plain
  | mark _ | word _ | name _ | property _ | key _ | string _ | eof => True

theorem Lexeme.fits_token {l : Lexeme} (h : l.Proper) : l.Fits l.token := by
  cases l with
  | mark _ | word _ | eof => rfl
  | name text => exact ⟨rfl, rfl⟩
  | property text => exact ⟨.inl rfl, rfl⟩
  | key text => exact .inr (.inl ⟨rfl, stringValue?_quoted text⟩)
  | string s => exact ⟨rfl, stringValue?_quoted s⟩
  | number x =>
    refine ⟨rfl, ?_⟩
    rw [Lexeme.token, Token.numberValue, String.toList_ofList, ofText_spelling h.1 h.2]

def Lexeme.AllProper (ls : List Lexeme) : Prop := ∀ l ∈ ls, l.Proper

namespace Lexeme

@[simp] theorem allProper_nil : AllProper [] := fun _ => nofun

@[simp] theorem allProper_cons {l : Lexeme} {ls : List Lexeme} :
    AllProper (l :: ls) ↔ l.Proper ∧ AllProper ls := List.forall_mem_cons

@[simp] theorem allProper_append {ls ms : List Lexeme} :
    AllProper (ls ++ ms) ↔ AllProper ls ∧ AllProper ms := List.forall_mem_append

@[simp] theorem allProper_within {place level : Nat} {ls : List Lexeme} :
    AllProper (within place level ls) ↔ AllProper ls := by
  unfold within
  split <;> simp [Lexeme.Proper]

theorem AllProper.more {ls : List Lexeme} (h : AllProper ls) {α : Type} (following : List α) :
    AllProper (more following ls) := by
  unfold Lexeme.more
  split
  · exact allProper_nil
  · exact allProper_cons.mpr ⟨trivial, h⟩

theorem AllProper.spells {ls : List Lexeme} (h : AllProper ls) : Spells ls (ls.map token) := by
  induction ls with
  | nil => exact .nil
  | cons l ls ih => exact .cons (fits_token (h l (.head _))) (ih (allProper_cons.mp h).2)

end Lexeme

open Lexeme (AllProper)

theorem Literal.proper {l : Literal} (h : l.Plain) : l.lexeme.Proper := by
  cases l with
  | boolean b => cases b <;> trivial
  | null | string _ => trivial
  | number x => exact h

mutual

theorem Expr.proper (e : Expr) (h : e.Plain) : AllProper e.spell := by
  cases e with
  | identifier | this => simp [Expr.spell, Lexeme.Proper]
  | literal l => simp [Expr.spell, Literal.proper h]
  | function => exact h.elim
  | member m => exact Member.proper m h
  | array es => simp [Expr.spell, Lexeme.Proper, Element.proper es h]
  | object ps => simp [Expr.spell, Lexeme.Proper, Entry.proper ps h]
  | call f args _ =>
    simp [Expr.spell, Lexeme.Proper, Expr.proper f h.1, Expr.proper_all args h.2]
  | unary op e =>
    have hop : op.lexeme.Proper := by cases op <;> trivial
    simp [Expr.spell, hop, Expr.proper e h]
  | binary op l r | logical op l r => simp [Expr.spell, Lexeme.Proper, Expr.proper l h.1, Expr.proper r h.2]
  | conditional t a b =>
    simp [Expr.spell, Lexeme.Proper, Expr.proper t h.1, Expr.proper a h.2.1, Expr.proper b h.2.2]
  | assign op t v =>
    have hmark : AllProper (op.mark?.toList.map .mark) := by cases op.mark? <;> simp [Lexeme.Proper]
    simp [Expr.spell, hmark, Target.proper t h.2.1, Expr.proper v h.2.2]
  | sequence es => exact Expr.proper_all es h.2

theorem Expr.proper_all (es : List Expr) (h : Expr.AllPlain es) : AllProper (Expr.spellAll es) := by
  cases es with
  | nil => exact Lexeme.allProper_nil
  | cons e es => simp [Expr.spellAll, Expr.proper e h.1, (Expr.proper_all es h.2).more es]

theorem Element.proper (es : List Element) (h : Element.AllPlain es) :
    AllProper (Element.spellAll es) := by
  cases es with
  | nil => exact Lexeme.allProper_nil
  | cons element es =>
    cases element with
    | hole => simp [Element.spellAll, Lexeme.Proper, Element.proper es h]
    | item e => simp [Element.spellAll, Expr.proper e h.1, (Element.proper es h.2).more es]

theorem Entry.proper (ps : List Entry) (h : Entry.AllPlain ps) : AllProper (Entry.spellAll ps) := by
  cases ps with
  | nil => exact Lexeme.allProper_nil
  | cons entry ps =>
    cases entry with
    | mk key e =>
      simp [Entry.spellAll, Lexeme.Proper, Expr.proper e h.1, (Entry.proper ps h.2).more ps]

theorem Member.proper (m : Member) (h : m.Plain) : AllProper m.spell := by
  cases m with
  | dot e name _ => simp [Member.spell, Lexeme.Proper, Expr.proper e h]
  | index e key _ => simp [Member.spell, Lexeme.Proper, Expr.proper e h.1, Expr.proper key h.2]

theorem Target.proper (t : Target) (h : t.Plain) : AllProper t.spell := by
  cases t with
  | name id => simp [Target.spell, Lexeme.Proper]
  | member m => exact Member.proper m h

end

/-- The tokens of an expression, parentheses only where its grouping needs them. -/
def Expr.tokens (e : Expr) : List Token := (e.render 0 ++ [Lexeme.eof]).map Lexeme.token

theorem Expr.spells_tokens {e : Expr} (h : e.Plain) : Spells (e.render 0 ++ [.eof]) e.tokens := by
  have hall : AllProper (e.render 0 ++ [.eof]) := by
    simp [Expr.render, Lexeme.Proper, Expr.proper e h]
  exact hall.spells

/-- Expressions are parsed by their precedence. The tokens of an expression, with parentheses only where
an operand binds less tightly than its place asks for, spell its rendering; and whatever tokens spell
the rendering are parsed as the expression, its places in the text aside. -/
theorem Expr.parse_by_precedence {e : Expr} (h : e.Plain) :
    Spells (e.render 0 ++ [.eof]) e.tokens ∧
      ∀ tokens, Spells (e.render 0 ++ [.eof]) tokens →
        ∃ e', Grammar.onTokens Grammar.wholeExpression tokens = .ok e' ∧ e'.bare = e.bare :=
  ⟨spells_tokens h, fun _ ht => parse_spelled h ht⟩

/-- `a -= (b = c ? 1 : [, 2], d - (e - f) * g.h(i))`, from which no parentheses can be left out. -/
def Expr.grouped : Expr :=
  let name (s : String) : Expr := .identifier ⟨s, default⟩
  let number (x : Float) : Expr := .literal (.number x)
  let choice : Expr := .conditional (name "c") (number 1.0) (.array [.hole, .item (number 2.0)])
  let called : Expr := .call (.member (.dot (name "g") "h" default)) [name "i"] default
  let product : Expr := .binary .mul (.binary .sub (name "e") (name "f")) called
  .assign (.compound .sub) (.name ⟨"a", default⟩)
    (.sequence [.assign .assign (.name ⟨"b", default⟩) choice, .binary .sub (name "d") product])

theorem Expr.parse_by_precedence_grouped :
    Expr.grouped.Plain ∧
      (∃ e', Grammar.onTokens Grammar.wholeExpression Expr.grouped.tokens = .ok e' ∧
        e'.bare = Expr.grouped.bare) ∧
      (Expr.grouped.tokens.filter fun t => t.kind = .punctuator .leftParen).length = 3 := by
  have hplain : Expr.grouped.Plain := by
    refine ⟨rfl, trivial, Nat.le_refl 2, ⟨rfl, trivial, trivial, ?_, ?_, trivial⟩, ?_, trivial⟩
    · exact ⟨by decide +kernel, by decide +kernel⟩
    · exact ⟨by decide +kernel, by decide +kernel⟩
    · exact ⟨trivial, ⟨trivial, trivial⟩, trivial, trivial, trivial⟩
  obtain ⟨hspells, hread⟩ := parse_by_precedence hplain
  exact ⟨hplain, hread _ hspells, by decide +kernel⟩

end Surmise
