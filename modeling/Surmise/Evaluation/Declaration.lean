import Surmise.Evaluation.Basic

/-!
What is declared before code runs: variables, wherever in the code their declarations stand, and the
functions of the code itself.
-/

namespace Surmise

def Declarator.name : Declarator → String
  | .mk id _ => id.name

mutual

def Stmt.variableNames : Stmt → List String
  | .declare .variable ds => ds.map Declarator.name
  | .block body => Stmt.allVariableNames body
  | .branch _ c none => Stmt.variableNames c
  | .branch _ c (some a) => Stmt.variableNames c ++ Stmt.variableNames a
  | .attempt body handler finalizer =>
    Stmt.allVariableNames body ++
      (match handler with
        | some (.mk _ body) => Stmt.allVariableNames body
        | none => []) ++
      (match finalizer with
        | some body => Stmt.allVariableNames body
        | none => [])
  | .declare .lexical _ | .declare .constant _ | .empty | .expression _ | .function _ | .ret _
  | .throw _ => []

def Stmt.allVariableNames : List Stmt → List String
  | [] => []
  | t :: ts => Stmt.variableNames t ++ Stmt.allVariableNames ts

end

def Stmt.functions (body : List Stmt) : List (String × Function) :=
  body.filterMap fun
    | .function f => f.name.map fun id => (id.name, f)
    | _ => none

namespace Eval

def newFunction (f : Function) (chain : Chain) : Eval Value :=
  newObject (.ofCallable (.closure f chain))

def functionExpression (f : Function) : Eval Value := do
  let chain := (← current).lexical
  match f.name with
  | none => newFunction f chain
  | some id =>
    let scope ← newScope {}
    let v ← newFunction f (scope :: chain)
    declare scope id.name v false
    return v

def declareVariable (scope : ScopeId) (name : String) (v? : Option Value) : Eval Unit :=
  onStore fun st => (st.declareVariable scope name v?, ())

def declareNames (scope : ScopeId) (names : List String) : Eval Unit :=
  onStore fun st => (names.foldl (fun st name => st.declareVariable scope name none) st, ())

def declareFunctions (bind : String → Value → Eval Unit) : List (String × Function) → Eval Unit
  | [] => return ()
  | (name, f) :: rest => do
    let v ← newFunction f (← current).lexical
    bind name v
    declareFunctions bind rest

def declareBody (scope : ScopeId) (body : List Stmt) : Eval Unit := do
  declareNames scope (Stmt.allVariableNames body)
  declareFunctions (fun name v => declareVariable scope name (some v)) (Stmt.functions body)

def declareBlock (scope : ScopeId) (body : List Stmt) : Eval Unit :=
  declareFunctions (fun name v => declare scope name v true) (Stmt.functions body)

end Eval
end Surmise
