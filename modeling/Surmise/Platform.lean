import Surmise.Json.Quoted
import Surmise.Json.Reader
import Surmise.Text.XidContinue

/-!
What is taken from libraries: the Unicode properties of the characters of names, the reader of JSON texts
and the writer of JSON strings.
-/

namespace Surmise

class Platform where
  isXidStart : Char → Bool
  isXidContinue : Char → Bool
  isXidContinue_of_start : ∀ c, isXidStart c = true → isXidContinue c = true
  isXidStart_ascii : ∀ c, c.toNat < 0x80 → isXidStart c = c.isAlpha
  isXidContinue_ascii : ∀ c, c.toNat < 0x80 → isXidContinue c = (c.isAlphanum || c == '_')
  readJson : List Char → Except Json.Problem Json
  quoteJson : String → String

instance Platform.standard : Platform where
  isXidStart := Text.isXidStart
  isXidContinue := Text.isXidContinue
  isXidContinue_of_start c h := by simp [Text.isXidContinue, h]
  isXidStart_ascii c h := by simp [Text.isXidStart, Nat.not_le.mpr h]
  isXidContinue_ascii c h := by
    simp [Text.isXidContinue, Text.isXidStart, Char.isAlphanum, Nat.not_le.mpr h]
  readJson := Json.parse
  quoteJson := Json.quote

end Surmise
