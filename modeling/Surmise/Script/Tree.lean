import Surmise.Source.Location

/-!
Scripts as trees of statements and expressions.
-/

namespace Surmise

structure Identifier where
  name : String
  span : Span
deriving DecidableEq, Repr

inductive Literal where
  | null
  | boolean (b : Bool)
  | number (x : Float)
  | string (s : String)

inductive UnaryOp where
  | minus | plus | not | typeof | void
deriving DecidableEq, Repr

inductive BinaryOp where
  | add | sub | mul | div | mod
  | less | greater | lessEq | greaterEq
  | equal | notEqual | strictEqual | strictNotEqual
deriving DecidableEq, Repr

inductive LogicalOp where
  | and | or
deriving DecidableEq, Repr

inductive AssignOp where
  | assign
  | compound (op : BinaryOp)
deriving DecidableEq, Repr

inductive DeclKind where
  | variable
  | lexical
  | constant
deriving DecidableEq, Repr

mutual

inductive Expr where
  | identifier (id : Identifier)
  | literal (l : Literal)
  | array (elements : List Element)
  | object (properties : List Entry)
  | function (f : Function)
  | this (span : Span)
  | member (m : Member)
  | call (callee : Expr) (arguments : List Expr) (span : Span)
  | unary (op : UnaryOp) (argument : Expr)
  | binary (op : BinaryOp) (left right : Expr)
  | logical (op : LogicalOp) (left right : Expr)
  | conditional (test consequent alternate : Expr)
  | assign (op : AssignOp) (target : Target) (value : Expr)
  | sequence (expressions : List Expr)

inductive Element where
  | hole
  | item (e : Expr)

inductive Entry where
  | mk (key : String) (value : Expr)

inductive Member where
  | dot (object : Expr) (name : String) (span : Span)
  | index (object key : Expr) (span : Span)

inductive Target where
  | name (id : Identifier)
  | member (m : Member)

inductive Function where
  | mk (name : Option Identifier) (params : List Identifier) (body : List Stmt) (strict : Bool)
      (span : Span)

inductive Stmt where
  | block (body : List Stmt)
  | empty
  | expression (e : Expr)
  | declare (kind : DeclKind) (declarators : List Declarator)
  | function (f : Function)
  | branch (test : Expr) (consequent : Stmt) (alternate : Option Stmt)
  | ret (argument : Option Expr)
  | throw (argument : Expr)
  | attempt (block : List Stmt) (handler : Option Handler) (finalizer : Option (List Stmt))

inductive Declarator where
  | mk (id : Identifier) (init : Option Expr)

inductive Handler where
  | mk (param : Option Identifier) (body : List Stmt)

end

namespace Function

def name : Function → Option Identifier
  | mk name .. => name

def params : Function → List Identifier
  | mk _ params .. => params

def body : Function → List Stmt
  | mk _ _ body .. => body

def strict : Function → Bool
  | mk _ _ _ strict _ => strict

def span : Function → Span
  | mk _ _ _ _ span => span

def nameText (f : Function) : String := f.name.elim "" Identifier.name

end Function

structure Program where
  body : List Stmt
  strict : Bool
  span : Span

end Surmise
