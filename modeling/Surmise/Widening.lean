import Surmise.Decimal.Notation
import Surmise.Scope

/-!
Widening: what is forgotten when code is skipped because its condition is unknown. Every variable and
property that the code could have written becomes unknown. Calls in the code are not followed.
-/

namespace Surmise

def Record.forget (r : Record) : Record :=
  r.keys.foldl (fun r key => (r.put key .unknown).1) r

namespace Store

def forgetAll (s : Store) (id : ObjectId) : Store :=
  { s with heap := s.heap.modify id Record.forget }

/-- Makes a variable unknown. Constants keep their value, and a name without a binding stays so. -/
def forgetName (s : Store) (chain : Chain) (name : String) : Store :=
  (s.assign chain name .unknown).1

def objectNamed? (s : Store) (chain : Chain) (name : String) : Option ObjectId :=
  (s.lookup chain name).bind Value.asObject?

def forgetMember (s : Store) (chain : Chain) (base key : String) : Store :=
  match s.objectNamed? chain base with
  | some id => (s.put id key .unknown).1
  | none => s

end Store

def Literal.key? : Literal → Option String
  | string s => some s
  | number x => some (Number.text x)
  | _ => none

mutual

def Expr.widen (chain : Chain) : Expr → Store → Store
  | .assign _ target value, s => Target.widen chain target (Expr.widen chain value s)
  | .array elements, s => Element.widenAll chain elements s
  | .object entries, s => Entry.widenAll chain entries s
  | .member m, s => Member.widen chain m s
  | .call callee args _, s => Expr.widenAll chain args (Expr.widen chain callee s)
  | .unary _ e, s => Expr.widen chain e s
  | .binary _ l r, s => Expr.widen chain r (Expr.widen chain l s)
  | .logical _ l r, s => Expr.widen chain r (Expr.widen chain l s)
  | .conditional t c a, s => Expr.widen chain a (Expr.widen chain c (Expr.widen chain t s))
  | .sequence es, s => Expr.widenAll chain es s
  | .identifier _, s | .literal _, s | .function _, s | .this _, s => s

def Expr.widenAll (chain : Chain) : List Expr → Store → Store
  | [], s => s
  | e :: es, s => Expr.widenAll chain es (Expr.widen chain e s)

def Element.widenAll (chain : Chain) : List Element → Store → Store
  | [], s => s
  | .hole :: es, s => Element.widenAll chain es s
  | .item e :: es, s => Element.widenAll chain es (Expr.widen chain e s)

def Entry.widenAll (chain : Chain) : List Entry → Store → Store
  | [], s => s
  | .mk _ e :: es, s => Entry.widenAll chain es (Expr.widen chain e s)

def Member.widen (chain : Chain) : Member → Store → Store
  | .dot object _ _, s => Expr.widen chain object s
  | .index object key _, s => Expr.widen chain key (Expr.widen chain object s)

/-- The target of a skipped assignment. Only properties of objects that are variables are traced. -/
def Target.widen (chain : Chain) : Target → Store → Store
  | .name id, s => s.forgetName chain id.name
  | .member (.dot object key _), s =>
    match object with
    | .identifier base => s.forgetMember chain base.name key
    | _ => Expr.widen chain object s
  | .member (.index object key _), s =>
    match object with
    | .identifier base =>
      match s.objectNamed? chain base.name with
      | none => s
      | some id =>
        match key with
        | .literal l =>
          match l.key? with
          | some k => (s.put id k .unknown).1
          | none => s.forgetAll id
        | _ => (Expr.widen chain key s).forgetAll id
    | _ => Expr.widen chain object s

end

mutual

def Stmt.widen (chain : Chain) : Stmt → Store → Store
  | .block body, s => Stmt.widenAll chain body s
  | .expression e, s => e.widen chain s
  | .throw e, s => e.widen chain s
  | .ret none, s => s
  | .ret (some e), s => e.widen chain s
  | .declare kind ds, s => Declarator.widenAll chain kind ds s
  | .branch test c none, s => Stmt.widen chain c (test.widen chain s)
  | .branch test c (some a), s => Stmt.widen chain a (Stmt.widen chain c (test.widen chain s))
  | .attempt body handler finalizer, s =>
    let s := Stmt.widenAll chain body s
    let s := match handler with
      | some (.mk _ body) => Stmt.widenAll chain body s
      | none => s
    match finalizer with
    | some body => Stmt.widenAll chain body s
    | none => s
  | .empty, s | .function _, s => s

def Stmt.widenAll (chain : Chain) : List Stmt → Store → Store
  | [], s => s
  | t :: ts, s => Stmt.widenAll chain ts (Stmt.widen chain t s)

def Declarator.widenAll (chain : Chain) (kind : DeclKind) : List Declarator → Store → Store
  | [], s => s
  | .mk _ none :: ds, s => Declarator.widenAll chain kind ds s
  | .mk id (some e) :: ds, s =>
    let s := e.widen chain s
    let s := if kind = .variable then s.forgetName chain id.name else s
    Declarator.widenAll chain kind ds s

end

def Stmt.widenBranches (chain : Chain) (c : Stmt) : Option Stmt → Store → Store
  | none, s => c.widen chain s
  | some a, s => a.widen chain (c.widen chain s)

end Surmise
