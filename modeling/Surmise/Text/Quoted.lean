import Surmise.Text.Radix
import Surmise.Text.Unprintable

/-!
Quoted text for people: double quotes around it, a backslash before quotes and backslashes, short
escapes for the common controls and code points in hexadecimal for all else that cannot be printed.
-/

namespace Surmise.Text

def hexNumeral (n : Nat) : List Char := Nat.toDigits 16 n

def quoteChar (c : Char) : List Char :=
  match c with
  | '"' => ['\\', '"']
  | '\\' => ['\\', '\\']
  | '\n' => ['\\', 'n']
  | '\r' => ['\\', 'r']
  | '\t' => ['\\', 't']
  | '\x00' => ['\\', '0']
  | c => if isPrintable c then [c] else '\\' :: 'u' :: '\x7b' :: hexNumeral c.toNat ++ ['\x7d']

def quote (s : String) : String :=
  String.ofList ('"' :: s.toList.flatMap quoteChar ++ ['"'])

end Surmise.Text
