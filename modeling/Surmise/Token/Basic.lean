import Surmise.Source.Location

/-!
Tokens of script text.
-/

namespace Surmise

inductive Keyword where
  | kwCatch | kwConst | kwElse | kwFalse | kwFinally | kwFunction | kwIf | kwLet | kwNew | kwNull
  | kwReturn | kwThis | kwThrow | kwTrue | kwTry | kwTypeof | kwVar | kwVoid
deriving DecidableEq, Repr

namespace Keyword

def text : Keyword → String
  | kwCatch => "catch"
  | kwConst => "const"
  | kwElse => "else"
  | kwFalse => "false"
  | kwFinally => "finally"
  | kwFunction => "function"
  | kwIf => "if"
  | kwLet => "let"
  | kwNew => "new"
  | kwNull => "null"
  | kwReturn => "return"
  | kwThis => "this"
  | kwThrow => "throw"
  | kwTrue => "true"
  | kwTry => "try"
  | kwTypeof => "typeof"
  | kwVar => "var"
  | kwVoid => "void"

def all : List Keyword :=
  [kwCatch, kwConst, kwElse, kwFalse, kwFinally, kwFunction, kwIf, kwLet, kwNew, kwNull, kwReturn,
    kwThis, kwThrow, kwTrue, kwTry, kwTypeof, kwVar, kwVoid]

def ofText? (s : String) : Option Keyword := all.find? fun k => k.text == s

end Keyword

inductive Punctuator where
  | leftParen | rightParen | leftBrace | rightBrace | leftBracket | rightBracket
  | dot | semicolon | comma | colon | question
  | plus | minus | star | slash | percent
  | less | greater | lessEquals | greaterEquals
  | equalsEquals | equalsEqualsEquals | bangEquals | bangEqualsEquals
  | bang | ampersandAmpersand | pipePipe
  | equals | plusEquals | minusEquals | starEquals | slashEquals | percentEquals
deriving DecidableEq, Repr

namespace Punctuator

def text : Punctuator → String
  | leftParen => "("
  | rightParen => ")"
  | leftBrace => "\x7b"
  | rightBrace => "\x7d"
  | leftBracket => "["
  | rightBracket => "]"
  | dot => "."
  | semicolon => ";"
  | comma => ","
  | colon => ":"
  | question => "?"
  | plus => "+"
  | minus => "-"
  | star => "*"
  | slash => "/"
  | percent => "%"
  | less => "<"
  | greater => ">"
  | lessEquals => "<="
  | greaterEquals => ">="
  | equalsEquals => "=="
  | equalsEqualsEquals => "==="
  | bangEquals => "!="
  | bangEqualsEquals => "!=="
  | bang => "!"
  | ampersandAmpersand => "&&"
  | pipePipe => "||"
  | equals => "="
  | plusEquals => "+="
  | minusEquals => "-="
  | starEquals => "*="
  | slashEquals => "/="
  | percentEquals => "%="

def isAssignment : Punctuator → Bool
  | equals | plusEquals | minusEquals | starEquals | slashEquals | percentEquals => true
  | _ => false

end Punctuator

namespace Token

inductive Kind where
  | number
  | string
  | identifier
  | keyword (k : Keyword)
  | punctuator (p : Punctuator)
  | eof
deriving DecidableEq, Repr, Inhabited

end Token

structure Token where
  kind : Token.Kind
  text : String
  location : Location
  newlineBefore : Bool
deriving DecidableEq, Repr, Inhabited

end Surmise
