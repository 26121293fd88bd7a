import Surmise.Decimal.Notation
import Surmise.Script.Cursor
import Surmise.Script.Tree
import Surmise.Token.Literal
import Surmise.Token.Scan

/-!
The grammar of scripts. Each rule is a parser over the rules for what lies deeper, which it only uses
after it has taken a token; so as many levels as there are tokens are enough.
-/

namespace Surmise

variable [Platform]

structure Mode where
  strict : Bool
  inFunction : Bool
deriving DecidableEq, Repr

structure Rules where
  sequence : Mode → Parse Expr
  assignment : Mode → Parse Expr
  unary : Mode → Parse Expr
  statement : Mode → Parse Stmt

namespace Grammar

open Parse

def outOfSteps {α : Type} : Parse α := rejectHere .outOfSteps

def identifier : Parse Identifier := do
  let t ← expect .identifier
  return ⟨t.text, ⟨t.location, t.location⟩⟩

def stringHere (t : Token) : Parse String :=
  match Token.stringValue? t.text with
  | some s => pure s
  | none => reject .invalidEscape t.location

section Levels

variable (r : Rules) (mode : Mode)

/-! ### Primary expressions -/

def elements : Nat → Parse (List Element)
  | 0 => outOfSteps
  | n + 1 => do
    if ← atMark .rightBracket then return []
    if ← consumeMark .comma then return .hole :: (← elements n)
    let e ← r.assignment mode
    if ← consumeMark .comma then return .item e :: (← elements n)
    return [.item e]

def propertyKey : Parse String := do
  let t ← current
  match t.kind with
  | .identifier | .keyword _ =>
    let _ ← advance
    return t.text
  | .string =>
    let s ← stringHere t
    let _ ← advance
    return s
  | .number =>
    let _ ← advance
    return Number.text (Token.numberValue t.text)
  | _ => unexpected

def entries : Nat → Parse (List Entry)
  | 0 => outOfSteps
  | n + 1 => do
    if ← atMark .rightBrace then return []
    let key ← propertyKey
    let _ ← expectMark .colon
    let value ← r.assignment mode
    if ← consumeMark .comma then return .mk key value :: (← entries n)
    return [.mk key value]

def parameters : Nat → Parse (List Identifier)
  | 0 => outOfSteps
  | n + 1 => do
    if ← atMark .rightParen then return []
    let id ← identifier
    if ← consumeMark .comma then return id :: (← parameters n)
    return [id]

/-- Whether a string before this token is a whole statement, as far as that can be seen from here. -/
def endsDirective (t : Token) : Bool :=
  t.kind = .punctuator .semicolon || endsStatement t

def isStrictDirective (t : Token) : Bool :=
  t.text == "\"use strict\"" || t.text == "'use strict'"

/-- The leading statements that begin with a string, and whether one of the strings is the directive
for strict code. -/
def prologue : (n : Nat) → (strict : Bool) → Parse (Bool × List Stmt)
  | 0, _ => outOfSteps
  | n + 1, strict => do
    let t ← current
    if t.kind = .string && (← nextSatisfies endsDirective) then
      let s ← r.statement mode
      let (strict, body) ← prologue n (strict || isStrictDirective t)
      return (strict, s :: body)
    return (strict, [])

def statements : Nat → Parse (List Stmt)
  | 0 => outOfSteps
  | n + 1 => do
    if ← consumeMark .rightBrace then return []
    if ← atEnd then unexpected
    let s ← r.statement mode
    return s :: (← statements n)

def functionBody (n : Nat) : Parse (Bool × List Stmt) := do
  let mode := { mode with inFunction := true }
  let (strict, directives) ← prologue r mode n mode.strict
  let body ← statements r { mode with strict := strict } n
  return (strict, directives ++ body)

def functionName (isDeclaration : Bool) : Parse (Option Identifier) := do
  if (← kind) = .identifier then return some (← identifier)
  if isDeclaration then unexpected
  return none

def function (n : Nat) (isDeclaration : Bool) : Parse Function := do
  let start ← location
  let _ ← advance
  let name ← functionName isDeclaration
  let _ ← expectMark .leftParen
  let params ← parameters n
  let _ ← expectMark .rightParen
  let _ ← expectMark .leftBrace
  let (strict, body) ← functionBody r mode n
  return .mk name params body strict ⟨start, ← location⟩

def leaf (e : Expr) : Parse Expr := do
  let _ ← advance
  return e

def primary (n : Nat) : Parse Expr := do
  let t ← current
  match t.kind with
  | .identifier => return .identifier (← identifier)
  | .number => leaf (.literal (.number (Token.numberValue t.text)))
  | .string =>
    let s ← stringHere t
    leaf (.literal (.string s))
  | .keyword .kwTrue => leaf (.literal (.boolean true))
  | .keyword .kwFalse => leaf (.literal (.boolean false))
  | .keyword .kwNull => leaf (.literal .null)
  | .keyword .kwThis => leaf (.this ⟨t.location, t.location⟩)
  | .keyword .kwFunction => return .function (← function r mode n false)
  | .punctuator .leftParen =>
    let _ ← advance
    let e ← r.sequence mode
    let _ ← expectMark .rightParen
    return e
  | .punctuator .leftBracket =>
    let _ ← advance
    let es ← elements r mode n
    let _ ← expectMark .rightBracket
    return .array es
  | .punctuator .leftBrace =>
    let _ ← advance
    let ps ← entries r mode n
    let _ ← expectMark .rightBrace
    return .object ps
  | _ => unexpected

/-! ### Calls and members -/

def arguments : Nat → Parse (List Expr)
  | 0 => outOfSteps
  | n + 1 => do
    if ← atMark .rightParen then return []
    let e ← r.assignment mode
    if ← consumeMark .comma then return e :: (← arguments n)
    return [e]

def memberName : Parse String := do
  let t ← current
  match t.kind with
  | .identifier | .keyword _ =>
    let _ ← advance
    return t.text
  | _ => unexpected

def callTail : Nat → Expr → Parse Expr
  | 0, _ => outOfSteps
  | n + 1, e => do
    let start ← location
    match ← kind with
    | .punctuator .dot =>
      let _ ← advance
      let name ← memberName
      callTail n (.member (.dot e name ⟨start, ← location⟩))
    | .punctuator .leftBracket =>
      let _ ← advance
      let key ← r.sequence mode
      let _ ← expectMark .rightBracket
      callTail n (.member (.index e key ⟨start, ← location⟩))
    | .punctuator .leftParen =>
      let _ ← advance
      let args ← arguments r mode n
      let _ ← expectMark .rightParen
      callTail n (.call e args ⟨start, ← location⟩)
    | _ => return e

def callMember (n : Nat) : Parse Expr := do
  callTail r mode n (← primary r mode n)

/-! ### Operators -/

def unaryOp? : Token.Kind → Option UnaryOp
  | .punctuator .minus => some .minus
  | .punctuator .plus => some .plus
  | .punctuator .bang => some .not
  | .keyword .kwTypeof => some .typeof
  | .keyword .kwVoid => some .void
  | _ => none

def unary (n : Nat) : Parse Expr := do
  match unaryOp? (← kind) with
  | some op =>
    let _ ← advance
    return .unary op (← r.unary mode)
  | none => callMember r mode n

def leftAssoc {Op : Type} (op? : Token.Kind → Option Op) (join : Op → Expr → Expr → Expr)
    (operand : Parse Expr) : Nat → Expr → Parse Expr
  | 0, _ => outOfSteps
  | n + 1, left => do
    match op? (← kind) with
    | some op =>
      let _ ← advance
      let right ← operand
      leftAssoc op? join operand n (join op left right)
    | none => return left

def level {Op : Type} (op? : Token.Kind → Option Op) (join : Op → Expr → Expr → Expr)
    (operand : Parse Expr) (n : Nat) : Parse Expr := do
  leftAssoc op? join operand n (← operand)

def multiplicativeOp? : Token.Kind → Option BinaryOp
  | .punctuator .star => some .mul
  | .punctuator .slash => some .div
  | .punctuator .percent => some .mod
  | _ => none

def additiveOp? : Token.Kind → Option BinaryOp
  | .punctuator .plus => some .add
  | .punctuator .minus => some .sub
  | _ => none

def relationalOp? : Token.Kind → Option BinaryOp
  | .punctuator .less => some .less
  | .punctuator .greater => some .greater
  | .punctuator .lessEquals => some .lessEq
  | .punctuator .greaterEquals => some .greaterEq
  | _ => none

def equalityOp? : Token.Kind → Option BinaryOp
  | .punctuator .equalsEquals => some .equal
  | .punctuator .bangEquals => some .notEqual
  | .punctuator .equalsEqualsEquals => some .strictEqual
  | .punctuator .bangEqualsEquals => some .strictNotEqual
  | _ => none

def andOp? : Token.Kind → Option LogicalOp
  | .punctuator .ampersandAmpersand => some .and
  | _ => none

def orOp? : Token.Kind → Option LogicalOp
  | .punctuator .pipePipe => some .or
  | _ => none

def multiplicative (n : Nat) : Parse Expr := level multiplicativeOp? .binary (unary r mode n) n

def additive (n : Nat) : Parse Expr := level additiveOp? .binary (multiplicative r mode n) n

def relational (n : Nat) : Parse Expr := level relationalOp? .binary (additive r mode n) n

def equality (n : Nat) : Parse Expr := level equalityOp? .binary (relational r mode n) n

def logicalAnd (n : Nat) : Parse Expr := level andOp? .logical (equality r mode n) n

def logicalOr (n : Nat) : Parse Expr := level orOp? .logical (logicalAnd r mode n) n

def conditional (n : Nat) : Parse Expr := do
  let test ← logicalOr r mode n
  if ← consumeMark .question then
    let consequent ← r.assignment mode
    let _ ← expectMark .colon
    return .conditional test consequent (← r.assignment mode)
  return test

def assignOp? : Token.Kind → Option AssignOp
  | .punctuator .equals => some .assign
  | .punctuator .plusEquals => some (.compound .add)
  | .punctuator .minusEquals => some (.compound .sub)
  | .punctuator .starEquals => some (.compound .mul)
  | .punctuator .slashEquals => some (.compound .div)
  | .punctuator .percentEquals => some (.compound .mod)
  | _ => none

def target? : Expr → Option Target
  | .identifier id => some (.name id)
  | .member m => some (.member m)
  | _ => none

def assignment (n : Nat) : Parse Expr := do
  let start ← location
  let left ← conditional r mode n
  match assignOp? (← kind) with
  | none => return left
  | some op =>
    match target? left with
    | none => reject .invalidTarget start
    | some target =>
      let _ ← advance
      return .assign op target (← r.assignment mode)

def commaTail : Nat → Parse (List Expr)
  | 0 => outOfSteps
  | n + 1 => do
    if ← consumeMark .comma then
      let e ← r.assignment mode
      return e :: (← commaTail n)
    return []

def sequence (n : Nat) : Parse Expr := do
  let first ← assignment r mode n
  match ← commaTail r mode n with
  | [] => return first
  | more => return .sequence (first :: more)

/-! ### Statements -/

def block (n : Nat) : Parse (List Stmt) := do
  let _ ← expectMark .leftBrace
  statements r mode n

def initializer (declKind : DeclKind) : Parse (Option Expr) := do
  if ← consumeMark .equals then return some (← r.assignment mode)
  if declKind = .constant then rejectHere .missingInitializer
  return none

def declarators (declKind : DeclKind) : Nat → Parse (List Declarator)
  | 0 => outOfSteps
  | n + 1 => do
    let id ← identifier
    let init ← initializer r mode declKind
    if ← consumeMark .comma then return .mk id init :: (← declarators declKind n)
    return [.mk id init]

def declaration (n : Nat) (declKind : DeclKind) : Parse Stmt := do
  let _ ← advance
  let ds ← declarators r mode declKind n
  semicolon
  return .declare declKind ds

def branch : Parse Stmt := do
  let _ ← advance
  let _ ← expectMark .leftParen
  let test ← r.sequence mode
  let _ ← expectMark .rightParen
  let consequent ← r.statement mode
  if ← consume (.keyword .kwElse) then
    return .branch test consequent (some (← r.statement mode))
  return .branch test consequent none

def returnStatement : Parse Stmt := do
  if !mode.inFunction then rejectHere .illegalReturn
  let _ ← advance
  let t ← current
  if endsDirective t then
    semicolon
    return .ret none
  let argument ← r.sequence mode
  semicolon
  return .ret (some argument)

def throwStatement : Parse Stmt := do
  let _ ← advance
  if (← current).newlineBefore then rejectHere .newlineAfterThrow
  let argument ← r.sequence mode
  semicolon
  return .throw argument

def catchParameter : Parse (Option Identifier) := do
  if ← consumeMark .leftParen then
    let id ← identifier
    let _ ← expectMark .rightParen
    return some id
  return none

def handler (n : Nat) : Parse (Option Handler) := do
  if ← consume (.keyword .kwCatch) then
    let param ← catchParameter
    return some (.mk param (← block r mode n))
  return none

def finalizer (n : Nat) : Parse (Option (List Stmt)) := do
  if ← consume (.keyword .kwFinally) then return some (← block r mode n)
  return none

def attempt (n : Nat) : Parse Stmt := do
  let _ ← advance
  let body ← block r mode n
  let handler ← handler r mode n
  let finalizer ← finalizer r mode n
  if handler.isNone && finalizer.isNone then rejectHere .missingHandler
  return .attempt body handler finalizer

def expressionStatement (n : Nat) : Parse Stmt := do
  let e ← sequence r mode n
  semicolon
  return .expression e

def statement (n : Nat) : Parse Stmt := do
  match ← kind with
  | .punctuator .leftBrace => return .block (← block r mode n)
  | .punctuator .semicolon =>
    let _ ← advance
    return .empty
  | .keyword .kwVar => declaration r mode n .variable
  | .keyword .kwLet => declaration r mode n .lexical
  | .keyword .kwConst => declaration r mode n .constant
  | .keyword .kwFunction => return .function (← function r mode n true)
  | .keyword .kwIf => branch r mode
  | .keyword .kwReturn => returnStatement r mode
  | .keyword .kwThrow => throwStatement r mode
  | .keyword .kwTry => attempt r mode n
  | _ => expressionStatement r mode n

end Levels

def rules : Nat → Rules
  | 0 =>
    { sequence := fun _ => outOfSteps
      assignment := fun _ => outOfSteps
      unary := fun _ => outOfSteps
      statement := fun _ => outOfSteps }
  | n + 1 =>
    { sequence := fun mode => sequence (rules n) mode (n + 1)
      assignment := fun mode => assignment (rules n) mode (n + 1)
      unary := fun mode => unary (rules n) mode (n + 1)
      statement := fun mode => statement (rules n) mode (n + 1) }

def topLevel (r : Rules) (mode : Mode) : Nat → Parse (List Stmt)
  | 0 => outOfSteps
  | n + 1 => do
    if ← atEnd then return []
    let s ← r.statement mode
    return s :: (← topLevel r mode n)

def program (n : Nat) : Parse Program := do
  let r := rules n
  let mode : Mode := ⟨false, false⟩
  let start ← location
  let (strict, directives) ← prologue r mode n false
  let body ← topLevel r { mode with strict := strict } n
  return ⟨directives ++ body, strict, ⟨start, ← location⟩⟩

def wholeExpression (n : Nat) : Parse Expr := do
  let e ← (rules n).sequence ⟨false, false⟩
  if !(← atEnd) then unexpected
  return e

/-- Runs a parser on all tokens, with a level for each of them and one to spare. -/
def onTokens {α : Type} (p : Nat → Parse α) (tokens : List Token) : Except Rejection α :=
  match Cursor.ofTokens? tokens with
  | none => .error ⟨.unexpectedEnd, .start⟩
  | some c =>
    match p (tokens.length + 1) c with
    | .ok (a, _) => .ok a
    | .error e => .error e

def onSource {α : Type} (p : Nat → Parse α) (source : String) : Except HostError α :=
  match Token.tokenize source with
  | .error e => .error (e.toError source)
  | .ok tokens =>
    match onTokens p tokens with
    | .error e => .error (e.toError source)
    | .ok a => .ok a

end Grammar

def Program.parse (source : String) : Except HostError Program :=
  Grammar.onSource Grammar.program source

def Expr.parse (source : String) : Except HostError Expr :=
  Grammar.onSource Grammar.wholeExpression source

end Surmise
