import Surmise.Evaluation.Declaration
import Surmise.Evaluation.Reference
import Surmise.Widening

/-!
Evaluation of expressions and execution of statements, by recursion on the tree. What a call does is a
parameter: the tree says only what is called, and with what.
-/

namespace Surmise

structure CallOptions where
  filename : Option String := none
  direct : Bool := false

/-- How calls are made: the callee, the value of `this`, and the arguments. -/
abbrev Invoke := Value → Value → List Value → CallOptions → Eval Value

inductive Flow where
  | normal (v : Option Value)
  | returned (v : Value)

def Literal.value : Literal → Value
  | null => .null
  | boolean b => .boolean b
  | number x => .number x
  | string s => .string s

def Heap.unary (h : Heap) (op : UnaryOp) (v : Value) : Value :=
  match op with
  | .minus => .ofNumber? ((h.toNumber? v).map fun x => -x)
  | .plus => .ofNumber? (h.toNumber? v)
  | .not => .ofBool? (v.truth?.map not)
  | .typeof => .ofString? (h.typeof? v)
  | .void => .undefined

def Record.ofEntries (entries : List (String × Value)) : Record :=
  entries.foldl (fun r e => (r.put e.1 e.2).1) (.empty .object)

namespace Eval

def forgetAll (id : ObjectId) : Eval Unit := onStore fun st => (st.forgetAll id, ())

def assignMember (object : Value) (key? : Option String) (v : Value) : Eval Unit :=
  writeMember forgetAll object key? v

def isDirectEval (name : String) (callee : Value) : Eval Bool :=
  if name = "eval" then isGlobalEval callee else return false

def declareName (kind : DeclKind) (name : String) (v? : Option Value) : Eval Unit := do
  match kind, v? with
  | .variable, none => return ()
  | .variable, some v => assignName name v
  | kind, v? =>
    match (← current).lexical with
    | scope :: _ => declare scope name (v?.getD .undefined) (kind == .lexical)
    | [] => return ()

def skip (widen : Chain → Store → Store) : Eval Unit := do
  let chain := (← current).lexical
  onStore fun st => (widen chain st, ())

def bindFirst (scope : ScopeId) : Option (String × Value) → Eval Unit
  | some (name, v) => declare scope name v true
  | none => return ()

def inBlock (body : List Stmt) (binding : Option (String × Value)) (run : Eval Flow) :
    Eval Flow := do
  let outer := (← current).lexical
  let scope ← newScope {}
  bindFirst scope binding
  inScopes (scope :: outer) do
    declareBlock scope body
    run

def rethrow : Except Fault Flow → Eval (Except Fault Flow)
  | .error (.host e) => do return .error (.thrown (← raise e.kind.name e.message))
  | r => return r

def handleWith : Option (Value → Eval Flow) → Except Fault Flow → Eval (Except Fault Flow)
  | some handle, .error (.thrown v) => observe (handle v)
  | _, r => return r

/-- A `try` statement. The block alone counts as being tried; the finalizer replaces the outcome only
when it returns or fails. -/
def attempt (block : Eval Flow) (handler : Option (Value → Eval Flow))
    (finalizer : Option (Eval Flow)) : Eval Flow := do
  let result ← rethrow (← observe (inTry block))
  let result ← handleWith handler result
  match finalizer with
  | none => resume result
  | some finish =>
    match ← finish with
    | .normal _ => resume result
    | returned => return returned

end Eval

open Eval

mutual

def Expr.eval (call : Invoke) : Expr → Eval Value
  | .identifier id => resolve id.name
  | .literal l => return l.value
  | .array elements => do
    let vs ← Element.evalAll call elements
    newObject (.ofElements vs)
  | .object entries => do
    let vs ← Entry.evalAll call entries
    newObject (.ofEntries vs)
  | .function f => functionExpression f
  | .this _ => do return (← current).receiver
  | .member m => do
    let (object, key?) ← Member.eval call m
    readMember object key?
  | .call callee args _ =>
    match callee with
    | .member m => do
      let (object, key?) ← Member.eval call m
      let f ← readMember object key?
      let vs ← Expr.evalAll call args
      call f object vs {}
    | .identifier id => do
      let f ← resolve id.name
      let direct ← isDirectEval id.name f
      let vs ← Expr.evalAll call args
      call f .undefined vs { direct }
    | other => do
      let f ← Expr.eval call other
      let vs ← Expr.evalAll call args
      call f .undefined vs {}
  | .unary op e =>
    match op, e with
    | .typeof, .identifier id => typeofName id.name
    | _, _ => do
      let v ← Expr.eval call e
      onHeap fun h => h.unary op v
  | .binary op l r => do
    let a ← Expr.eval call l
    let b ← Expr.eval call r
    onHeap fun h => h.binary op a b
  | .logical op l r => do
    let a ← Expr.eval call l
    match op, a.truth? with
    | _, none => do
      skip fun chain st => r.widen chain st
      return .unknown
    | .and, some false => return a
    | .or, some true => return a
    | _, _ => Expr.eval call r
  | .conditional test c a => do
    let v ← Expr.eval call test
    match v.truth? with
    | some true => Expr.eval call c
    | some false => Expr.eval call a
    | none => do
      skip fun chain st => a.widen chain (c.widen chain st)
      return .unknown
  | .assign .assign (.name id) value => do
    let v ← Expr.eval call value
    assignName id.name v
    return v
  | .assign (.compound op) (.name id) value => do
    let old ← resolve id.name
    let new ← Expr.eval call value
    let v ← onHeap fun h => h.binary op old new
    assignName id.name v
    return v
  | .assign .assign (.member m) value => do
    let (object, key?) ← Member.eval call m
    let v ← Expr.eval call value
    assignMember object key? v
    return v
  | .assign (.compound op) (.member m) value => do
    let (object, key?) ← Member.eval call m
    let old ← readMember object key?
    let new ← Expr.eval call value
    let v ← onHeap fun h => h.binary op old new
    assignMember object key? v
    return v
  | .sequence es => do
    let vs ← Expr.evalAll call es
    return vs.getLastD .undefined

def Expr.evalAll (call : Invoke) : List Expr → Eval (List Value)
  | [] => return []
  | e :: es => do
    let v ← Expr.eval call e
    let vs ← Expr.evalAll call es
    return v :: vs

def Element.evalAll (call : Invoke) : List Element → Eval (List (Option Value))
  | [] => return []
  | .hole :: es => do
    let vs ← Element.evalAll call es
    return none :: vs
  | .item e :: es => do
    let v ← Expr.eval call e
    let vs ← Element.evalAll call es
    return some v :: vs

def Entry.evalAll (call : Invoke) : List Entry → Eval (List (String × Value))
  | [] => return []
  | .mk key e :: es => do
    let v ← Expr.eval call e
    let vs ← Entry.evalAll call es
    return (key, v) :: vs

def Member.eval (call : Invoke) : Member → Eval (Value × Option String)
  | .dot object name _ => do
    let v ← Expr.eval call object
    return (v, some name)
  | .index object key _ => do
    let v ← Expr.eval call object
    let k ← Expr.eval call key
    let key? ← onHeap fun h => h.toText? k
    return (v, key?)

end

mutual

def Stmt.exec (call : Invoke) : Stmt → Eval Flow
  | .block body => inBlock body none (Stmt.execAll call none body)
  | .empty => return .normal none
  | .function _ => return .normal none
  | .expression e => do return .normal (some (← e.eval call))
  | .declare kind ds => do
    Declarator.execAll call kind ds
    return .normal none
  | .branch test c a? => do
    let v ← test.eval call
    match v.truth? with
    | some true => Stmt.exec call c
    | some false =>
      match a? with
      | some a => Stmt.exec call a
      | none => return .normal none
    | none => do
      skip fun chain st => Stmt.widenBranches chain c a? st
      return .normal (some .unknown)
  | .ret none => return .returned .undefined
  | .ret (some e) => do return .returned (← e.eval call)
  | .throw e => do
    let v ← e.eval call
    Eval.throw v
  | .attempt body handler finalizer =>
    attempt (inBlock body none (Stmt.execAll call none body))
      (match handler with
        | some (.mk param body) =>
          some fun v =>
            inBlock body (param.map fun id => (id.name, v)) (Stmt.execAll call none body)
        | none => none)
      (match finalizer with
        | some body => some (inBlock body none (Stmt.execAll call none body))
        | none => none)

/-- Executes statements until one returns. The value of the list is the last value of a statement,
`last` if none has one. -/
def Stmt.execAll (call : Invoke) (last : Option Value) : List Stmt → Eval Flow
  | [] => return .normal last
  | t :: ts => do
    match ← Stmt.exec call t with
    | .normal v => Stmt.execAll call (v <|> last) ts
    | returned => return returned

def Declarator.execAll (call : Invoke) (kind : DeclKind) : List Declarator → Eval Unit
  | [] => return ()
  | .mk id none :: ds => do
    declareName kind id.name none
    Declarator.execAll call kind ds
  | .mk id (some e) :: ds => do
    let v ← e.eval call
    declareName kind id.name (some v)
    Declarator.execAll call kind ds

end

end Surmise
