import Mathlib.Data.List.Forall2
import Surmise.Script.Grammar

/-! Expressions written out as lexemes. A subexpression stands in parentheses only where its level is
below that of its place, and lexemes say of tokens only what a parser may look at. -/
namespace Surmise

/-! ### Lexemes -/

inductive Lexeme where
  | mark (p : Punctuator)
  | word (k : Keyword)
  | name (text : String)
  /-- A name after a dot. -/
  | property (text : String)
  /-- The key of a property in an object literal. -/
  | key (text : String)
  | number (x : Float)
  | string (s : String)
  | eof

def Token.IsName (t : Token) : Prop := t.kind = .identifier ∨ ∃ k, t.kind = .keyword k

/-- A token that is a spelling of the lexeme, anywhere in a text. -/
def Lexeme.Fits : Lexeme → Token → Prop
  | mark p, t => t.kind = .punctuator p
  | word k, t => t.kind = .keyword k
  | name text, t => t.kind = .identifier ∧ t.text = text
  | property text, t => t.IsName ∧ t.text = text
  | key text, t =>
    t.IsName ∧ t.text = text ∨ t.kind = .string ∧ Token.stringValue? t.text = some text ∨
      t.kind = .number ∧ Number.text (Token.numberValue t.text) = text
  | number x, t => t.kind = .number ∧ Token.numberValue t.text = x
  | string s, t => t.kind = .string ∧ Token.stringValue? t.text = some s
  | eof, t => t.kind = .eof

abbrev Spells (ls : List Lexeme) (ts : List Token) : Prop := List.Forall₂ Lexeme.Fits ls ts

namespace Lexeme

def within (place level : Nat) (ls : List Lexeme) : List Lexeme :=
  if level < place then mark .leftParen :: ls ++ [mark .rightParen] else ls

def more {α : Type} (following : List α) (ls : List Lexeme) : List Lexeme :=
  if following.isEmpty then [] else mark .comma :: ls

end Lexeme

/-! ### Operators -/

def UnaryOp.lexeme : UnaryOp → Lexeme
  | minus => .mark .minus
  | plus => .mark .plus
  | not => .mark .bang
  | typeof => .word .kwTypeof
  | void => .word .kwVoid

def BinaryOp.mark : BinaryOp → Punctuator
  | add => .plus
  | sub => .minus
  | mul => .star
  | div => .slash
  | mod => .percent
  | less => .less
  | greater => .greater
  | lessEq => .lessEquals
  | greaterEq => .greaterEquals
  | equal => .equalsEquals
  | notEqual => .bangEquals
  | strictEqual => .equalsEqualsEquals
  | strictNotEqual => .bangEqualsEquals

def LogicalOp.mark : LogicalOp → Punctuator
  | and => .ampersandAmpersand
  | or => .pipePipe

def AssignOp.mark? : AssignOp → Option Punctuator
  | assign => some .equals
  | compound .add => some .plusEquals
  | compound .sub => some .minusEquals
  | compound .mul => some .starEquals
  | compound .div => some .slashEquals
  | compound .mod => some .percentEquals
  | compound _ => none

/-! ### Levels -/

def BinaryOp.level : BinaryOp → Nat
  | equal | notEqual | strictEqual | strictNotEqual => 5
  | less | greater | lessEq | greaterEq => 6
  | add | sub => 7
  | mul | div | mod => 8

def LogicalOp.level : LogicalOp → Nat
  | or => 3
  | and => 4

/-- How tightly an expression binds: a sequence least, calls and accesses and what has no operands
most. -/
def Expr.level : Expr → Nat
  | .sequence _ => 0
  | .assign .. => 1
  | .conditional .. => 2
  | .logical op .. => op.level
  | .binary op .. => op.level
  | .unary .. => 9
  | _ => 10

/-! ### Rendering -/

def Literal.lexeme : Literal → Lexeme
  | null => .word .kwNull
  | boolean true => .word .kwTrue
  | boolean false => .word .kwFalse
  | number x => .number x
  | string s => .string s

open Lexeme (within more)

mutual

/-- An expression at its own level. Operators group to the left, assignments and conditionals to the
right. -/
def Expr.spell : Expr → List Lexeme
  | .identifier id => [.name id.name]
  | .literal l => [l.lexeme]
  | .array es => .mark .leftBracket :: Element.spellAll es ++ [.mark .rightBracket]
  | .object ps => .mark .leftBrace :: Entry.spellAll ps ++ [.mark .rightBrace]
  | .function _ => []
  | .this _ => [.word .kwThis]
  | .member m => m.spell
  | .call f args _ =>
    within 10 f.level f.spell ++ .mark .leftParen :: Expr.spellAll args ++ [.mark .rightParen]
  | .unary op e => op.lexeme :: within 9 e.level e.spell
  | .binary op l r =>
    within op.level l.level l.spell ++ .mark op.mark :: within (op.level + 1) r.level r.spell
  | .logical op l r =>
    within op.level l.level l.spell ++ .mark op.mark :: within (op.level + 1) r.level r.spell
  | .conditional t a b =>
    within 3 t.level t.spell ++ .mark .question :: within 1 a.level a.spell ++
      .mark .colon :: within 1 b.level b.spell
  | .assign op t v => t.spell ++ op.mark?.toList.map .mark ++ within 1 v.level v.spell
  | .sequence es => Expr.spellAll es

def Expr.spellAll : List Expr → List Lexeme
  | [] => []
  | e :: es => within 1 e.level e.spell ++ more es (Expr.spellAll es)

def Element.spellAll : List Element → List Lexeme
  | [] => []
  | .hole :: es => .mark .comma :: Element.spellAll es
  | .item e :: es => within 1 e.level e.spell ++ more es (Element.spellAll es)

def Entry.spellAll : List Entry → List Lexeme
  | [] => []
  | .mk key e :: es =>
    .key key :: .mark .colon :: within 1 e.level e.spell ++ more es (Entry.spellAll es)

def Member.spell : Member → List Lexeme
  | .dot e name _ => within 10 e.level e.spell ++ [.mark .dot, .property name]
  | .index e key _ =>
    within 10 e.level e.spell ++ .mark .leftBracket :: within 0 key.level key.spell ++
      [.mark .rightBracket]

def Target.spell : Target → List Lexeme
  | .name id => [.name id.name]
  | .member m => m.spell

end

def Target.expr : Target → Expr
  | .name id => .identifier id
  | .member m => .member m

def Expr.render (place : Nat) (e : Expr) : List Lexeme := within place e.level e.spell

/-! ### What can be rendered -/

def Literal.Plain : Literal → Prop
  | number x => x.isFinite = true ∧ Number.isNegative x = false
  | null | boolean _ | string _ => True

mutual

/-- An expression without functions, of which every part has a spelling. A sequence has two parts or
more. -/
def Expr.Plain : Expr → Prop
  | .identifier _ | .this _ => True
  | .literal l => l.Plain
  | .array es => Element.AllPlain es
  | .object ps => Entry.AllPlain ps
  | .function _ => False
  | .member m => m.Plain
  | .call f args _ => f.Plain ∧ Expr.AllPlain args
  | .unary _ e => e.Plain
  | .binary _ l r => l.Plain ∧ r.Plain
  | .logical _ l r => l.Plain ∧ r.Plain
  | .conditional t a b => t.Plain ∧ a.Plain ∧ b.Plain
  | .assign op t v => op.mark?.isSome = true ∧ t.Plain ∧ v.Plain
  | .sequence es => 2 ≤ es.length ∧ Expr.AllPlain es

def Expr.AllPlain : List Expr → Prop
  | [] => True
  | e :: es => e.Plain ∧ Expr.AllPlain es

def Element.AllPlain : List Element → Prop
  | [] => True
  | .hole :: es => Element.AllPlain es
  | .item e :: es => e.Plain ∧ Element.AllPlain es

def Entry.AllPlain : List Entry → Prop
  | [] => True
  | .mk _ e :: es => e.Plain ∧ Entry.AllPlain es

def Member.Plain : Member → Prop
  | .dot e _ _ => e.Plain
  | .index e key _ => e.Plain ∧ key.Plain

def Target.Plain : Target → Prop
  | .name _ => True
  | .member m => m.Plain

end

/-! ### Expressions without their places in the text -/

mutual

@[simp] def Expr.bare : Expr → Expr
  | .identifier id => .identifier ⟨id.name, default⟩
  | .literal l => .literal l
  | .array es => .array (Element.bareAll es)
  | .object ps => .object (Entry.bareAll ps)
  | .function f => .function f
  | .this _ => .this default
  | .member m => .member m.bare
  | .call f args _ => .call f.bare (Expr.bareAll args) default
  | .unary op e => .unary op e.bare
  | .binary op l r => .binary op l.bare r.bare
  | .logical op l r => .logical op l.bare r.bare
  | .conditional t a b => .conditional t.bare a.bare b.bare
  | .assign op t v => .assign op t.bare v.bare
  | .sequence es => .sequence (Expr.bareAll es)

@[simp] def Expr.bareAll : List Expr → List Expr
  | [] => []
  | e :: es => e.bare :: Expr.bareAll es

@[simp] def Element.bareAll : List Element → List Element
  | [] => []
  | .hole :: es => .hole :: Element.bareAll es
  | .item e :: es => .item e.bare :: Element.bareAll es

@[simp] def Entry.bareAll : List Entry → List Entry
  | [] => []
  | .mk key e :: es => .mk key e.bare :: Entry.bareAll es

@[simp] def Member.bare : Member → Member
  | .dot e name _ => .dot e.bare name default
  | .index e key _ => .index e.bare key.bare default

@[simp] def Target.bare : Target → Target
  | .name id => .name ⟨id.name, default⟩
  | .member m => .member m.bare

end

end Surmise
