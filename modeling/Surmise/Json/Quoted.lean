import Surmise.Text.Radix

/-!
Text as a JSON string: quotes, backslashes and control characters are escaped, all else stands as it is.
-/

namespace Surmise.Json

def escapeControl (c : Char) : List Char :=
  ['\\', 'u', '0', '0', Radix.hexDigit (c.toNat / 16), Radix.hexDigit (c.toNat % 16)]

def quoteChar (c : Char) : List Char :=
  match c with
  | '"' => ['\\', '"']
  | '\\' => ['\\', '\\']
  | '\n' => ['\\', 'n']
  | '\r' => ['\\', 'r']
  | '\t' => ['\\', 't']
  | '\x08' => ['\\', 'b']
  | '\x0c' => ['\\', 'f']
  | c => if c.toNat < 0x20 then escapeControl c else [c]

def quote (s : String) : String :=
  String.ofList ('"' :: s.toList.flatMap quoteChar ++ ['"'])

end Surmise.Json
