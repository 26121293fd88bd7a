import Surmise.Proofs.Observation.Site
import Surmise.Session.Run

/-! Observed evaluation: the evaluator with an observer who is called at certain places and may do there
whatever an evaluation can do. That something never happens at such a place means that no observer who
waits for it makes a difference. -/
namespace Surmise

open Eval

/-- What is called while code is evaluated. -/
structure Observer where
  /-- Called behind each expression, before each statement of a list, and behind the last one. -/
  passed : Eval Unit
  /-- Called before the code at a site makes a function object. -/
  made : Site → Function → Eval Unit
  /-- Called before a declaration gives a value to a name in a scope that may have it already. That is
  done by declarations with `let` and `const`, and by the functions that programs and function bodies
  declare before they are run. -/
  declared : ScopeId → String → Eval Unit
  /-- Called with what became of assigning its initial value to a variable. -/
  assigned : Assignment → Eval Unit
  /-- Called with a fault of the host that comes out of the block of a `try` statement, of a program, or
  of a call from outside. -/
  unrouted : HostError → Eval Unit

/-! ### The places

Each operation that is observed is taken apart where the observer is called. -/

namespace Eval

def afterAssignment (context : Context) (name : String) (v : Value) : Assignment → Eval Unit
  | .done => return ()
  | .immutable => do
    if context.strict || !(← isGlobalProperty name) then
      routeOnly .typeError ("Assignment to constant variable '" ++ name ++ "'")
  | .unresolved =>
    if context.strict then routeOnly .referenceError (notDefined name) else putGlobal name v

theorem assignName_eq (name : String) (v : Value) :
    assignName name v = (do
      let context ← current
      let a ← onStore fun st => st.assign context.lexical name v
      afterAssignment context name v a) := by
  unfold assignName
  refine congrArg (current >>= ·) (funext fun context => ?_)
  refine congrArg (onStore _ >>= ·) (funext fun a => ?_)
  cases a <;> rfl

def attemptWith (seen : Except Fault Flow → Eval Unit) (block : Eval Flow)
    (handler : Option (Value → Eval Flow)) (finalizer : Option (Eval Flow)) : Eval Flow := do
  let result ← observe (inTry block)
  seen result
  let result ← rethrow result
  let result ← handleWith handler result
  match finalizer with
  | none => resume result
  | some finish =>
    match ← finish with
    | .normal _ => resume result
    | returned => return returned

def inEval (strict direct : Bool) (filename : String) (m : Eval Completion) : Eval Completion := do
  let scope ← newScope {}
  let context ← read fun s => s.evalContext strict direct filename scope
  inContext context m

end Eval

/-- A call of a function, up to the code that is run in the scope of its parameters. -/
def Function.within (f : Function) (chain : Chain) (receiver : Value) (args : List Value)
    (code : ScopeId → Eval Flow) : Eval Value := do
  if ← read Session.depthExceeded then
    route .rangeError stackExceeded
  else
    let scope ← newScope {}
    bindParams scope f.params args
    let receiver ← receiverFor f.strict receiver
    let filename := (← current).filename
    let context : Context :=
      { lexical := scope :: chain, varChain := scope :: chain, receiver, strict := f.strict,
        direct := false, filename }
    let flow ← inContext context (code scope)
    return flow.result

def Function.enter (f : Function) (chain : Chain) (receiver : Value) (args : List Value)
    (run : Eval Flow) : Eval Value :=
  f.within chain receiver args fun scope => do
    declareBody scope f.body
    run

theorem Function.apply_eq (call : Invoke) (f : Function) (chain : Chain) (receiver : Value)
    (args : List Value) :
    f.apply call chain receiver args = f.enter chain receiver args (Stmt.execAll call none f.body) :=
  rfl

/-! ### The observed evaluator -/

namespace Observer

def silent : Observer where
  passed := return ()
  made _ _ := return ()
  declared _ _ := return ()
  assigned _ := return ()
  unrouted _ := return ()

variable (o : Observer) {α : Type}

def after (m : Eval α) : Eval α := do
  let a ← m
  o.passed
  return a

def stray : Except Fault α → Eval Unit
  | .error (.host e) => o.unrouted e
  | _ => return ()

def settle (r : Except Fault Value) : Eval Completion := do
  o.stray r
  Eval.settle r

/-! ### Declarations and blocks -/

def assignName (name : String) (v : Value) : Eval Unit := do
  let context ← current
  let a ← onStore fun st => st.assign context.lexical name v
  o.assigned a
  afterAssignment context name v a

def declareName : DeclKind → String → Option Value → Eval Unit
  | .variable, _, none => return ()
  | .variable, name, some v => o.assignName name v
  | kind, name, v? => do
    match (← current).lexical with
    | scope :: _ =>
      o.declared scope name
      declare scope name (v?.getD .undefined) (kind == .lexical)
    | [] => return ()

def functionExpression (i : Site) (f : Function) : Eval Value := do
  o.made i f
  Eval.functionExpression f

def declareFunctions (strict : Bool) (bind : String → Value → Eval Unit) :
    List (String × Function) → Eval Unit
  | [] => return ()
  | (name, f) :: rest => do
    o.made (.declared strict) f
    let v ← newFunction f (← current).lexical
    bind name v
    declareFunctions strict bind rest

def declareBody (strict : Bool) (scope : ScopeId) (body : List Stmt) : Eval Unit := do
  declareNames scope (Stmt.allVariableNames body)
  o.declareFunctions strict
    (fun name v => do
      o.declared scope name
      declareVariable scope name (some v))
    (Stmt.functions body)

def declareBlock (strict : Bool) (scope : ScopeId) (body : List Stmt) : Eval Unit :=
  o.declareFunctions strict (fun name v => declare scope name v true) (Stmt.functions body)

def inBlock (strict : Bool) (body : List Stmt) (binding : Option (String × Value)) (run : Eval Flow) :
    Eval Flow := do
  let outer := (← current).lexical
  let scope ← newScope {}
  bindFirst scope binding
  inScopes (scope :: outer) do
    o.declareBlock strict scope body
    run

def declareAll (strict : Bool) (body : List Stmt) : Eval Unit := do
  match (← current).varChain with
  | scope :: _ => o.declareBody strict scope body
  | [] => return ()

/-! ### Expressions and statements -/

mutual

def eval (call : Invoke) (i : Site) : Expr → Eval Value
  | .identifier id => o.after (resolve id.name)
  | .literal l => o.after (return l.value)
  | .array elements => o.after do
    let vs ← evalElements call i elements
    newObject (.ofElements vs)
  | .object entries => o.after do
    let vs ← evalEntries call i entries
    newObject (.ofEntries vs)
  | .function f => o.after (o.functionExpression i f)
  | .this _ => o.after do return (← current).receiver
  | .member m => o.after do
    let (object, key?) ← evalMember call i m
    readMember object key?
  | .call callee args _ => o.after <|
    match callee with
    | .member m => do
      let (object, key?) ← evalMember call i m
      let f ← readMember object key?
      let vs ← evalAll call i args
      call f object vs {}
    | .identifier id => do
      let f ← resolve id.name
      let direct ← isDirectEval id.name f
      let vs ← evalAll call i args
      call f .undefined vs { direct }
    | other => do
      let f ← eval call i other
      let vs ← evalAll call i args
      call f .undefined vs {}
  | .unary op e => o.after <|
    match op, e with
    | .typeof, .identifier id => typeofName id.name
    | _, _ => do
      let v ← eval call i e
      onHeap fun h => h.unary op v
  | .binary op l r => o.after do
    let a ← eval call i l
    let b ← eval call i r
    onHeap fun h => h.binary op a b
  | .logical op l r => o.after do
    let a ← eval call i l
    match op, a.truth? with
    | _, none => do
      skip fun chain st => r.widen chain st
      return .unknown
    | .and, some false => return a
    | .or, some true => return a
    | _, _ => eval call i r
  | .conditional test c a => o.after do
    let v ← eval call i test
    match v.truth? with
    | some true => eval call i c
    | some false => eval call i a
    | none => do
      skip fun chain st => a.widen chain (c.widen chain st)
      return .unknown
  | .assign .assign (.name id) value => o.after do
    let v ← eval call i value
    Eval.assignName id.name v
    return v
  | .assign (.compound op) (.name id) value => o.after do
    let old ← resolve id.name
    let new ← eval call i value
    let v ← onHeap fun h => h.binary op old new
    Eval.assignName id.name v
    return v
  | .assign .assign (.member m) value => o.after do
    let (object, key?) ← evalMember call i m
    let v ← eval call i value
    assignMember object key? v
    return v
  | .assign (.compound op) (.member m) value => o.after do
    let (object, key?) ← evalMember call i m
    let old ← readMember object key?
    let new ← eval call i value
    let v ← onHeap fun h => h.binary op old new
    assignMember object key? v
    return v
  | .sequence es => o.after do
    let vs ← evalAll call i es
    return vs.getLastD .undefined

def evalAll (call : Invoke) (i : Site) : List Expr → Eval (List Value)
  | [] => return []
  | e :: es => do
    let v ← eval call i e
    let vs ← evalAll call i es
    return v :: vs

def evalElements (call : Invoke) (i : Site) : List Element → Eval (List (Option Value))
  | [] => return []
  | .hole :: es => do
    let vs ← evalElements call i es
    return none :: vs
  | .item e :: es => do
    let v ← eval call i e
    let vs ← evalElements call i es
    return some v :: vs

def evalEntries (call : Invoke) (i : Site) : List Entry → Eval (List (String × Value))
  | [] => return []
  | .mk key e :: es => do
    let v ← eval call i e
    let vs ← evalEntries call i es
    return (key, v) :: vs

def evalMember (call : Invoke) (i : Site) : Member → Eval (Value × Option String)
  | .dot object name _ => do
    let v ← eval call i object
    return (v, some name)
  | .index object key _ => do
    let v ← eval call i object
    let k ← eval call i key
    let key? ← onHeap fun h => h.toText? k
    return (v, key?)

end

mutual

def exec (call : Invoke) (i : Site) : Stmt → Eval Flow
  | .block body => o.inBlock i.strict body none (execAll call i none body)
  | .empty => return .normal none
  | .function _ => return .normal none
  | .expression e => do return .normal (some (← o.eval call i e))
  | .declare kind ds => do
    execDeclarators call i kind ds
    return .normal none
  | .branch test c a? => do
    let v ← o.eval call i test
    match v.truth? with
    | some true => exec call i c
    | some false =>
      match a? with
      | some a => exec call i a
      | none => return .normal none
    | none => do
      skip fun chain st => Stmt.widenBranches chain c a? st
      return .normal (some .unknown)
  | .ret none => return .returned .undefined
  | .ret (some e) => do return .returned (← o.eval call i e)
  | .throw e => do
    let v ← o.eval call i e
    Eval.throw v
  | .attempt body handler finalizer =>
    attemptWith o.stray (o.inBlock i.strict body none (execAll call i none body))
      (match handler with
        | some (.mk param body) =>
          some fun v =>
            o.inBlock i.strict body (param.map fun id => (id.name, v)) (execAll call i none body)
        | none => none)
      (match finalizer with
        | some body => some (o.inBlock i.strict body none (execAll call i none body))
        | none => none)

def execAll (call : Invoke) (i : Site) (last : Option Value) : List Stmt → Eval Flow
  | [] => do
    o.passed
    return .normal last
  | t :: ts => do
    o.passed
    match ← exec call (i.on t) t with
    | .normal v => execAll call (i.on t) (v <|> last) ts
    | returned => return returned

def execDeclarators (call : Invoke) (i : Site) (kind : DeclKind) : List Declarator → Eval Unit
  | [] => return ()
  | .mk id none :: ds => do
    o.declareName kind id.name none
    execDeclarators call i kind ds
  | .mk id (some e) :: ds => do
    let v ← o.eval call i e
    o.declareName kind id.name (some v)
    execDeclarators call i kind ds

end

/-! ### Bodies of code and calls -/

def enter (f : Function) (chain : Chain) (receiver : Value) (args : List Value) (run : Eval Flow) :
    Eval Value :=
  f.within chain receiver args fun scope => do
    o.declareBody f.strict scope f.body
    run

def apply (call : Invoke) (f : Function) (chain : Chain) (receiver : Value) (args : List Value) :
    Eval Value :=
  o.enter f chain receiver args (o.execAll call (.head f.strict f.body) none f.body)

def execBody (call : Invoke) (strict : Bool) (body : List Stmt) : Eval Flow := do
  o.declareAll strict body
  o.execAll call (.head strict body) none body

def run (call : Invoke) (p : Program) : Eval Completion := do
  match ← observe (o.execBody call p.strict p.body) with
  | .ok (.normal v) => return .normal v
  | .ok (.returned v) => return .normal (some v)
  | .error f => o.settle (.error f)

def fragment (p : Program) : Fragment := ⟨p.strict, fun call => o.run call p⟩

variable [Platform]

def runCallable (host : Host) (inner call : Invoke) (receiver : Value) (args : List Value)
    (options : CallOptions) : Callable → Eval Value
  | .closure f chain => o.apply inner f chain receiver args
  | c => c.run host inner call receiver args options

def relay (host : Host) (inner : Invoke) : (relays : Nat) → Invoke
  | 0, _, _, _, _ => exhausted
  | relays + 1, callee, receiver, args, options =>
    callWith (o.runCallable host inner (relay host inner relays) receiver args options) callee

def invoke (host : Host) : (contexts : Nat) → Invoke
  | 0, _, _, _, _ => exhausted
  | contexts + 1, callee, receiver, args, options =>
    o.relay host (invoke host contexts) (relayBudget args) callee receiver args options

def call (host : Host) : Invoke := fun callee receiver args options s =>
  o.invoke host s.contextBudget callee receiver args options s

def complete (host : Host) (callee receiver : Value) (args : List Value) (options : CallOptions) :
    Eval Completion := do
  o.settle (← observe (o.call host callee receiver args options))

def runFile (host : Host) (source filename : String) (s : Session) : RunResult × Session :=
  match host.read source filename with
  | .error e => (.refused (e.withExcerpt source), s)
  | .ok fragment =>
    match Session.runFragment (o.invoke host s.contextBudget) fragment filename s with
    | (.done c, s) => (.completed c, s)
    | (_, s) => (.unfinished, s)

end Observer

def Session.runAll (run : (source filename : String) → Session → RunResult × Session) :
    List (String × String) → Session → List RunResult × Session
  | [], s => ([], s)
  | (source, filename) :: files, s =>
    let (result, t) := run source filename s
    let (results, u) := runAll run files t
    (result :: results, u)

abbrev Parser := (source filename : String) → Except HostError Program

abbrev Foreign := (name : String) → Invoke → Value → List Value → CallOptions → Eval Value

/-- The host that reads programs by a parser. -/
def Host.parsing (parse : Parser) (foreign : Foreign) : Host where
  read source filename := (parse source filename).map Program.fragment
  foreign := foreign

theorem Host.standard_eq_parsing [Platform] :
    Host.standard = .parsing (fun source _ => Program.parse source) fun _ _ _ _ _ => return .unknown :=
  rfl

namespace Observer

variable (o : Observer)

def parsing (parse : Parser) (foreign : Foreign) : Host where
  read source filename := (parse source filename).map o.fragment
  foreign := foreign

def standard [Platform] : Host :=
  o.parsing (fun source _ => Program.parse source) fun _ _ _ _ _ => return .unknown

/-- The observer does nothing in sessions without `P`. -/
structure Awaits (P : Session → Prop) : Prop where
  passed : ∀ s, ¬ P s → o.passed s = (.done (), s)
  made : ∀ i f s, ¬ P s → o.made i f s = (.done (), s)
  declared : ∀ scope name s, ¬ P s → o.declared scope name s = (.done (), s)
  assigned : ∀ a s, ¬ P s → o.assigned a s = (.done (), s)
  unrouted : ∀ e s, ¬ P s → o.unrouted e s = (.done (), s)

theorem awaits_silent (P : Session → Prop) : silent.Awaits P :=
  ⟨fun _ _ => rfl, fun _ _ _ _ => rfl, fun _ _ _ _ => rfl, fun _ _ _ => rfl, fun _ _ _ => rfl⟩

end Observer

/-! ### Runs of programs that can be read -/

def RunResult.ofOutcome : Outcome Completion × Session → RunResult × Session
  | (.done c, s) => (.completed c, s)
  | (_, s) => (.unfinished, s)

theorem RunResult.ofOutcome_snd (x : Outcome Completion × Session) : (ofOutcome x).2 = x.2 := by
  obtain ⟨_ | _ | _, s⟩ := x <;> rfl

def RunResult.isCompleted : RunResult → Bool
  | completed _ => true
  | _ => false

section Parsed

variable [Platform] {parse : Parser} {foreign : Foreign} {source filename : String} {p : Program}
  (h : parse source filename = .ok p) (s : Session)
include h

theorem Session.runFile_parsing :
    s.runFile (.parsing parse foreign) source filename =
      RunResult.ofOutcome (Session.runFragment (Surmise.invoke (.parsing parse foreign) s.contextBudget)
        p.fragment filename s) := by
  have hread : (Host.parsing parse foreign).read source filename = .ok p.fragment := by
    change (parse source filename).map _ = _
    rw [h]
    rfl
  unfold Session.runFile Host.runFile
  rw [hread]
  dsimp only
  generalize Session.runFragment _ _ _ _ = x
  obtain ⟨_ | _ | _, s⟩ := x <;> rfl

theorem Observer.runFile_parsing (o : Observer) :
    o.runFile (o.parsing parse foreign) source filename s =
      RunResult.ofOutcome (Session.runFragment (o.invoke (o.parsing parse foreign) s.contextBudget)
        (o.fragment p) filename s) := by
  have hread : (o.parsing parse foreign).read source filename = .ok (o.fragment p) := by
    change (parse source filename).map _ = _
    rw [h]
    rfl
  unfold Observer.runFile
  rw [hread]
  dsimp only
  generalize Session.runFragment _ _ _ _ = x
  obtain ⟨_ | _ | _, s⟩ := x <;> rfl

end Parsed

theorem Observer.runFile_refused [Platform] {parse : Parser} {foreign : Foreign} {source filename : String}
    {e : HostError} (h : parse source filename = .error e) (o : Observer) (s : Session) :
    o.runFile (o.parsing parse foreign) source filename s =
        s.runFile (.parsing parse foreign) source filename ∧
      (s.runFile (.parsing parse foreign) source filename).2 = s := by
  unfold Observer.runFile Session.runFile Host.runFile Observer.parsing Host.parsing
  dsimp only
  rw [h]
  exact ⟨rfl, rfl⟩

/-- A session in which there is nothing but `eval`. -/
def Session.evaluating : Session where
  options := {}
  store :=
    { heap := ⟨#[.ofEntries [("eval", .object ⟨1⟩)], .ofCallable (.builtin .eval)]⟩
      scopes := #[{ object := some ⟨0⟩ }] }
  globalObject := ⟨0⟩
  globalContext := ⟨[⟨0⟩], [⟨0⟩], .object ⟨0⟩, false, false, "a.js"⟩

end Surmise
