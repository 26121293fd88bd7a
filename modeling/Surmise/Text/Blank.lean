/-!
Blank characters and line ends. Values ignore the white space and line ends of the language around a
number; script text may be spaced by every Unicode white space.
-/

namespace Surmise.Text

def isLineEnd (c : Char) : Bool :=
  c == '\n' || c == '\r' || c.toNat == 0x2028 || c.toNat == 0x2029

def isSpaceSeparator (c : Char) : Bool :=
  c == ' ' || c.toNat == 0xA0 || c.toNat == 0x1680 || (0x2000 ≤ c.toNat && c.toNat ≤ 0x200A) ||
    c.toNat == 0x202F || c.toNat == 0x205F || c.toNat == 0x3000

/-- White space and line ends of the language: tab, vertical tab, form feed, the byte order mark,
space separators and line ends. -/
def isBlank (c : Char) : Bool :=
  c == '\t' || c == '\x0b' || c == '\x0c' || c.toNat == 0xFEFF || isSpaceSeparator c || isLineEnd c

/-- What may stand between tokens: Unicode white space and the byte order mark. -/
def isScriptBlank (c : Char) : Bool :=
  isBlank c || c.toNat == 0x85

def trimStart (cs : List Char) : List Char := cs.dropWhile isBlank

def trimEnd (cs : List Char) : List Char := (cs.reverse.dropWhile isBlank).reverse

def trim (cs : List Char) : List Char := trimEnd (trimStart cs)

end Surmise.Text
