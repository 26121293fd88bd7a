/-!
The catalogue of built-in functions: their names and how many parameters they declare.
-/

namespace Surmise

inductive MathFunction where
  | abs | acos | asin | atan | atan2 | ceil | cos | exp | floor | log | max | min | pow | random
  | round | sin | sqrt | tan
deriving DecidableEq, Repr

namespace MathFunction

def name : MathFunction → String
  | abs => "abs"
  | acos => "acos"
  | asin => "asin"
  | atan => "atan"
  | atan2 => "atan2"
  | ceil => "ceil"
  | cos => "cos"
  | exp => "exp"
  | floor => "floor"
  | log => "log"
  | max => "max"
  | min => "min"
  | pow => "pow"
  | random => "random"
  | round => "round"
  | sin => "sin"
  | sqrt => "sqrt"
  | tan => "tan"

def arity : MathFunction → Nat
  | atan2 | max | min | pow => 2
  | random => 0
  | _ => 1

def all : List MathFunction :=
  [abs, acos, asin, atan, atan2, ceil, cos, exp, floor, log, max, min, pow, random, round, sin, sqrt,
    tan]

end MathFunction

inductive Builtin where
  | eval
  | parseInt | parseFloat | isNaN | isFinite
  | decodeURI | decodeURIComponent | encodeURI | encodeURIComponent
  | math (f : MathFunction)
  | jsonParse | jsonStringify
deriving DecidableEq, Repr

namespace Builtin

def name : Builtin → String
  | eval => "eval"
  | parseInt => "parseInt"
  | parseFloat => "parseFloat"
  | isNaN => "isNaN"
  | isFinite => "isFinite"
  | decodeURI => "decodeURI"
  | decodeURIComponent => "decodeURIComponent"
  | encodeURI => "encodeURI"
  | encodeURIComponent => "encodeURIComponent"
  | math f => f.name
  | jsonParse => "parse"
  | jsonStringify => "stringify"

def arity : Builtin → Nat
  | parseInt | jsonParse => 2
  | jsonStringify => 3
  | math f => f.arity
  | _ => 1

end Builtin
end Surmise
