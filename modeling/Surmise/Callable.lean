import Surmise.Builtin.Basic
import Surmise.Script.Tree

/-!
What a function object runs when it is called.
-/

namespace Surmise

structure ScopeId where
  index : Nat
deriving DecidableEq, Repr, Inhabited

/-- The scopes in which a name is looked up, from the innermost to the global one. -/
abbrev Chain := List ScopeId

inductive Callable where
  /-- A function of the script with the scopes it was made in. -/
  | closure (f : Function) (chain : Chain)
  | builtin (b : Builtin)
  /-- A function of the surroundings. A guarded one is skipped when an operand is unknown, and its
  faults are routed like those of built-in functions. -/
  | foreign (name : String) (arity : Nat) (guarded : Bool)

namespace Callable

def name : Callable → String
  | closure f _ => f.nameText
  | builtin b => b.name
  | foreign name .. => name

def arity : Callable → Nat
  | closure f _ => f.params.length
  | builtin b => b.arity
  | foreign _ arity _ => arity

end Callable
end Surmise
