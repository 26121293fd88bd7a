import Surmise.Proofs.Layout
import Surmise.Proofs.Numerals.Doubles
import Surmise.Proofs.Numerals.Grammar
import Surmise.Token.Literal

/-! Number tokens have values. What the scanner takes for a number is read as one by the rules for numbers
in texts, which are others: with a radix mark all that follows is digits, and without one the whole token is
a decimal. -/
namespace Surmise

/-! ### Digits -/

theorem Radix.isDigit_ten (c : Char) : isDigit 10 c = c.isDigit := by
  rw [Bool.eq_iff_iff]
  refine ⟨fun h => ?_, Token.isDigit_of_decimal⟩
  unfold isDigit digit? digitValue at h
  split at h
  next hc =>
    change Numeral.isDigit c = true
    simpa [Numeral.isDigit] using hc
  split at h
  · simp at h
  split at h <;> simp at h

namespace Token

theorem spanDigits_isDigit (radix : Nat) (cs : List Char) :
    ∀ d ∈ (spanDigits radix cs).1, Radix.isDigit radix d = true := by
  unfold spanDigits
  rw [List.span_eq_takeWhile_dropWhile]
  exact List.all_eq_true.mp List.all_takeWhile

theorem spanDigits_ten (cs : List Char) : ∀ d ∈ (spanDigits 10 cs).1, d.isDigit = true := fun d hd => by
  rw [← Radix.isDigit_ten]
  exact spanDigits_isDigit 10 cs d hd

open Numeral

/-! ### Decimals -/

variable {cs : List Char} {s : Split}

theorem isSign_spanSign (cs : List Char) : ∃ negative, IsSign (spanSign cs).1 negative := by
  unfold spanSign
  split
  · exact ⟨_, .plus⟩
  · exact ⟨_, .minus⟩
  · exact ⟨_, .none⟩

theorem isPower_spanExponent? (h : spanExponent? cs = some s) : ∃ k, IsPower s.1 k := by
  unfold spanExponent? at h
  split at h
  · cases h
    exact ⟨_, .none⟩
  next c cs =>
    split at h
    next hc =>
      have hsign := isSign_spanSign cs
      split at h
      next sign rest hsplit =>
        rw [hsplit] at hsign
        have hds := spanDigits_ten rest
        split at h
        · cases h
        next digits rest' hne hdigits =>
          cases h
          rw [hdigits] at hds
          obtain ⟨negative, hsign⟩ := hsign
          exact ⟨_, .marked hc hsign hds hne⟩
    · cases h
      exact ⟨_, .none⟩

theorem isMantissa_spanFraction {ws : List Char} (hws : IsDigits ws)
    (hne : ¬ (ws = [] ∧ (spanFraction cs).1.tail = [])) : ∃ v, IsMantissa (ws ++ (spanFraction cs).1) v := by
  revert hne
  unfold spanFraction
  split
  next cs => exact fun hne => ⟨_, isMantissa_pointed hws (spanDigits_ten cs) hne⟩
  next =>
    intro hne
    rw [List.append_nil]
    exact ⟨_, .whole hws fun hnil => hne ⟨hnil, rfl⟩⟩

/-! ### What number tokens are made of -/

inductive IsNumber : List Char → Prop
  | marked {mark d : Char} {radix : Nat} {ds : List Char} (hmark : Number.radixOf? mark = some radix)
      (hds : ∀ d' ∈ d :: ds, Radix.isDigit radix d' = true) : IsNumber ('0' :: mark :: d :: ds)
  | decimal {ms xs : List Char} {v : ℚ} {k : ℤ} (hm : IsMantissa ms v) (hx : IsPower xs k) :
      IsNumber (ms ++ xs)

theorem isNumber_spanDecimal? (h : spanDecimal? cs = some s) (hstart : startsNumber cs = true) :
    IsNumber s.1 := by
  obtain ⟨t, ht, rfl⟩ := spanDecimal?_eq_some h
  obtain ⟨power, hpower⟩ := isPower_spanExponent? ht
  have hne : ¬ ((spanDigits 10 cs).1 = [] ∧ (spanFraction (spanDigits 10 cs).2).1.tail = []) := by
    unfold startsNumber at hstart
    split at hstart
    next d cs =>
      have hd := isDigit_of_decimal hstart
      have hpoint : Radix.isDigit 10 '.' = false := by decide
      simp [spanFraction, spanDigits, List.span_eq_takeWhile_dropWhile, hpoint, hd]
    next c cs _ =>
      have hd := isDigit_of_decimal hstart
      simp [spanDigits, List.span_eq_takeWhile_dropWhile, hd]
    · cases hstart
  obtain ⟨v, hmantissa⟩ := isMantissa_spanFraction (spanDigits_ten cs) hne
  exact .decimal hmantissa hpower

theorem isNumber_spanNumber? (h : spanNumber? cs = some s) (hstart : startsNumber cs = true) :
    IsNumber s.1 := by
  unfold spanNumber? at h
  split at h
  next mark cs =>
    split at h
    next radix hradix =>
      unfold spanRadix? at h
      have hds := spanDigits_isDigit radix cs
      split at h
      · cases h
      next digits rest hne hdigits =>
        cases h
        rw [hdigits] at hds
        cases digits with
        | nil => exact absurd rfl hne
        | cons d ds => exact .marked hradix hds
    next => exact isNumber_spanDecimal? h hstart
  next => exact isNumber_spanDecimal? h hstart

theorem isBlank_digit {radix : Nat} {c : Char} (h : Radix.isDigit radix c = true) :
    Text.isBlank c = false := by
  have hrange : 48 ≤ c.toNat ∧ c.toNat ≤ 122 := by
    have hle {a b : Char} (hab : a ≤ b) : a.toNat ≤ b.toNat := hab
    unfold Radix.isDigit Radix.digit? Radix.digitValue at h
    split at h
    next hc => exact ⟨hle hc.1, (hle hc.2).trans (by decide)⟩
    split at h
    next hc => exact ⟨Nat.le_trans (by decide) (hle hc.1), hle hc.2⟩
    split at h
    next hc => exact ⟨Nat.le_trans (by decide) (hle hc.1), (hle hc.2).trans (by decide)⟩
    next => cases h
  rw [Bool.eq_false_iff]
  intro hblank
  have hspace : Text.IsSpace c := by
    rw [← Text.isScriptBlank_iff]
    simp [Text.isScriptBlank, hblank]
  simp only [Text.IsSpace, List.mem_cons, List.not_mem_nil, or_false] at hspace
  omega

/-! ### Values -/

theorem radixOf?_cases {mark : Char} {radix : Nat} (h : Number.radixOf? mark = some radix) :
    Text.isBlank mark = false ∧ (radix = 16 ∨ radix = 8 ∨ radix = 2) := by
  unfold Number.radixOf? at h
  split at h
  next hc =>
    cases h
    obtain rfl | rfl := hc <;> decide
  split at h
  next hc =>
    cases h
    obtain rfl | rfl := hc <;> decide
  split at h
  next hc =>
    cases h
    obtain rfl | rfl := hc <;> decide
  next => cases h

theorem IsNumber.trim (h : IsNumber cs) : Text.trim cs = cs := by
  apply Text.trim_of_not_isBlank
  cases h with
  | @marked mark d radix ds hmark hds =>
    simp only [List.forall_mem_cons]
    refine ⟨by decide, (radixOf?_cases hmark).1, isBlank_digit (hds d (by simp)), fun c hc => ?_⟩
    exact isBlank_digit (hds c (by simp [hc]))
  | decimal hm hx => exact fun c hc => isBlank_decimalChar ((Writes.intro .none hm hx).chars c hc)

/-- How a text is read as a number: as all digits of a radix, or as a decimal of which nothing is left. -/
def ReadsWhole (cs : List Char) : Prop :=
  (∃ radix digits, Number.radixLiteral? cs = some (radix, digits) ∧
      ∀ d ∈ digits, Radix.isDigit radix d = true) ∨
    Number.radixLiteral? cs = none ∧ ∃ n, Numeral.scan cs = some (n, [])

/-- Every text of a number is read whole, and its value is a number. -/
theorem IsNumber.reads (h : IsNumber cs) : (Number.ofText cs).isNaN = false ∧ ReadsWhole cs := by
  have htrim := h.trim
  cases h with
  | @marked mark d radix ds hmark hds =>
    have hliteral : Number.radixLiteral? ('0' :: mark :: d :: ds) = some (radix, d :: ds) := by
      simp [Number.radixLiteral?, hmark]
    obtain ⟨x, hx, hnumber⟩ :=
      Number.isNaN_ofDigits? (radixOf?_cases hmark).2 (List.cons_ne_nil d ds) hds
    refine ⟨?_, .inl ⟨radix, d :: ds, hliteral, hds⟩⟩
    unfold Number.ofText
    rw [htrim, if_neg (List.cons_ne_nil _ _), if_neg (by simp), if_neg (by simp), hliteral]
    dsimp only
    rw [hx]
    exact hnumber
  | @decimal ms xs v k hm hx =>
    have hwrites : Writes (ms ++ xs) false (v * 10 ^ k) := .intro .none hm hx
    obtain ⟨n, rest, hscan, -, hstops⟩ := hwrites.scan_append []
    obtain ⟨rfl, -, hvalue⟩ := hstops nofun
    rw [List.append_nil] at hscan
    refine ⟨?_, .inr ⟨Number.radixLiteral?_of_writes hwrites, n, hscan⟩⟩
    rw [← hvalue] at hwrites
    rw [Number.ofText_of_writes hwrites, Number.signed, if_neg Bool.false_ne_true]
    exact Numeral.isNaN_magnitude _ _

/-! ### Number tokens -/

theorem scanOne_number [Platform] (h : scanOne cs = .ok (.number, s)) : IsNumber s.1 := by
  unfold scanOne at h
  split at h
  · cases h
  next c tail =>
    split at h
    next =>
      have hkind : kindOfName _ = .number := congrArg Prod.fst (Except.ok.inj h)
      unfold kindOfName at hkind
      split at hkind <;> cases hkind
    split at h
    next hstart =>
      obtain ⟨s', hs, heq⟩ := Option.map_eq_some_iff.mp (orComplain_eq_ok h)
      cases heq
      exact isNumber_spanNumber? (Option.filter_eq_some_iff.mp hs).1 hstart
    split at h
    all_goals
      obtain ⟨s', hs, heq⟩ := Option.map_eq_some_iff.mp (orComplain_eq_ok h)
      cases heq

theorem next_number [Platform] {p stop : Location} {rest : List Char} {t : Token}
    (h : next p cs = .ok (t, stop, rest)) (hkind : t.kind = .number) : IsNumber t.text.toList := by
  unfold next at h
  split at h
  · cases h
  · cases h
  next gap ahead hgap =>
    dsimp only at h
    split at h
    · cases h
    next kind taken rest htaken =>
      cases h
      obtain rfl : kind = .number := hkind
      rw [String.toList_ofList]
      exact scanOne_number htaken

theorem scanFrom_numbers [Platform] {fuel : Nat} {p : Location} :
    ∀ t ∈ (scanFrom fuel p cs).1, t.kind = .number → IsNumber t.text.toList := by
  induction fuel generalizing p cs with
  | zero => exact List.forall_mem_nil _
  | succ fuel ih =>
    unfold scanFrom
    split
    · exact List.forall_mem_nil _
    next first stop rest hnext =>
      split
      · exact List.forall_mem_singleton.mpr (next_number hnext)
      · exact List.forall_mem_cons.mpr ⟨next_number hnext, ih⟩

/-- Every number token of a text, also of one that is refused further on, has a number. Its text is read
whole, without a blank around it: with a radix mark all the rest is digits of that radix, and otherwise
nothing is left of it behind a decimal. -/
theorem number_tokens_have_values [Platform] {source : String} {t : Token} (ht : t ∈ (scan source).1)
    (hkind : t.kind = .number) :
    (numberValue t.text).isNaN = false ∧ Text.trim t.text.toList = t.text.toList ∧
      ReadsWhole t.text.toList := by
  have hnumber := scanFrom_numbers t ht hkind
  obtain ⟨hvalue, hwhole⟩ := hnumber.reads
  exact ⟨hvalue, hnumber.trim, hwhole⟩

/-- The last number that is read before a fault. -/
theorem number_tokens_have_values_refused :
    (numberValue ".5E+3").isNaN = false ∧ ReadsWhole ".5E+3".toList := by
  have ht : (⟨.number, ".5E+3", ⟨1, 6, 5⟩, false⟩ : Token) ∈ (scan "0Xf, .5E+3 + 1.e").1 := by
    decide +kernel
  have h := number_tokens_have_values ht rfl
  exact ⟨h.1, h.2.2⟩

end Token
end Surmise
