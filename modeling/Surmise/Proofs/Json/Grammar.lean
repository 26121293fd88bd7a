import Surmise.Platform
import Surmise.Proofs.Literal
import Surmise.Proofs.Rounding.Shortest

/-! The grammar of JSON texts, and the texts of numbers and strings in it. -/
namespace Surmise

namespace Json.Phrase

/-! ### The grammar -/

def Blank (cs : List Char) : Prop := ∀ c ∈ cs, c = ' ' ∨ c = '\t' ∨ c = '\n' ∨ c = '\r'

def Digits (cs : List Char) : Prop := cs ≠ [] ∧ ∀ c ∈ cs, c.isDigit = true

def Whole (cs : List Char) : Prop := Digits cs ∧ (cs = ['0'] ∨ cs.head? ≠ some '0')

inductive Fraction : List Char → Prop
  | none : Fraction []
  | some {ds : List Char} (hds : Digits ds) : Fraction ('.' :: ds)

inductive Exponent : List Char → Prop
  | none : Exponent []
  | some {e : Char} {sign ds : List Char} (he : e = 'e' ∨ e = 'E')
      (hsign : sign = [] ∨ sign = ['+'] ∨ sign = ['-']) (hds : Digits ds) :
      Exponent (e :: sign ++ ds)

inductive Unsigned : List Char → Prop
  | mk {whole fraction exponent : List Char} (hw : Whole whole) (hf : Fraction fraction)
      (he : Exponent exponent) : Unsigned (whole ++ fraction ++ exponent)

inductive Numeral : List Char → Prop
  | plus {cs : List Char} (h : Unsigned cs) : Numeral cs
  | minus {cs : List Char} (h : Unsigned cs) : Numeral ('-' :: cs)

def IsHexDigit (c : Char) : Prop :=
  c.isDigit = true ∨ ('a' ≤ c ∧ c ≤ 'f') ∨ ('A' ≤ c ∧ c ≤ 'F')

instance (c : Char) : Decidable (IsHexDigit c) := inferInstanceAs (Decidable (_ ∨ _ ∨ _))

inductive Characters : List Char → Prop
  | nil : Characters []
  | plain {c : Char} {cs : List Char} (hc : 0x20 ≤ c.toNat) (hquote : c ≠ '"') (hescape : c ≠ '\\')
      (hcs : Characters cs) : Characters (c :: cs)
  | escape {c : Char} {cs : List Char} (hc : c ∈ ['"', '\\', '/', 'b', 'f', 'n', 'r', 't'])
      (hcs : Characters cs) : Characters ('\\' :: c :: cs)
  | code {a b c d : Char} {cs : List Char} (hcode : ∀ x ∈ [a, b, c, d], IsHexDigit x)
      (hcs : Characters cs) : Characters ('\\' :: 'u' :: a :: b :: c :: d :: cs)

inductive Quoted : List Char → Prop
  | mk {cs : List Char} (hcs : Characters cs) : Quoted ('"' :: cs ++ ['"'])

inductive Listed (P : List Char → Prop) : List Char → Prop
  | one {cs : List Char} (h : P cs) : Listed P cs
  | more {cs ds : List Char} (h : P cs) (hds : Listed P ds) : Listed P (cs ++ ',' :: ds)

mutual

inductive Value : List Char → Prop
  | null : Value "null".toList
  | true : Value "true".toList
  | false : Value "false".toList
  | numeral {cs : List Char} (h : Numeral cs) : Value cs
  | quoted {cs : List Char} (h : Quoted cs) : Value cs
  | emptyArray {ws : List Char} (h : Blank ws) : Value ('[' :: ws ++ [']'])
  | array {cs : List Char} (h : Listed Element cs) : Value ('[' :: cs ++ [']'])
  | emptyObject {ws : List Char} (h : Blank ws) : Value ('\x7b' :: ws ++ ['\x7d'])
  | object {cs : List Char} (h : Listed Member cs) : Value ('\x7b' :: cs ++ ['\x7d'])

inductive Element : List Char → Prop
  | mk {left cs right : List Char} (hl : Blank left) (h : Value cs) (hr : Blank right) :
      Element (left ++ cs ++ right)

inductive Member : List Char → Prop
  | mk {left name mid cs : List Char} (hl : Blank left) (hname : Quoted name) (hm : Blank mid)
      (h : Element cs) : Member (left ++ name ++ mid ++ ':' :: cs)

end

theorem Blank.append {cs ds : List Char} (hc : Blank cs) (hd : Blank ds) : Blank (cs ++ ds) :=
  fun c h => (List.mem_append.mp h).elim (hc c) (hd c)

/-! ### Strings -/

theorem isHexDigit_hexDigit (n : Nat) : IsHexDigit (Radix.hexDigit n) := by
  have hall : Radix.hexDigits.all (fun c => decide (IsHexDigit c)) = true := by decide
  unfold Radix.hexDigit
  rw [List.getD_eq_getElem?_getD]
  cases hn : Radix.hexDigits[n]? with
  | none => exact .inl rfl
  | some c => exact of_decide_eq_true (List.all_eq_true.mp hall c (List.mem_of_getElem? hn))

theorem Characters.quoteChar (c : Char) {cs : List Char} (h : Characters cs) :
    Characters (Json.quoteChar c ++ cs) := by
  unfold Json.quoteChar
  split
  iterate 7 exact .escape (by decide) h
  next hquote hescape _ _ _ _ _ =>
    split
    next hc =>
      refine .code (fun x hx => ?_) h
      simp only [List.mem_cons, List.not_mem_nil, or_false] at hx
      rcases hx with rfl | rfl | rfl | rfl
      · exact .inl rfl
      · exact .inl rfl
      · exact isHexDigit_hexDigit _
      · exact isHexDigit_hexDigit _
    next hc => exact .plain (Nat.not_lt.mp hc) hquote hescape h

theorem quoted_quote (s : String) : Quoted (Json.quote s).toList := by
  have hcs : Characters (s.toList.flatMap Json.quoteChar) := by
    induction s.toList with
    | nil => exact .nil
    | cons c cs ih => exact ih.quoteChar c
  unfold quote
  rw [String.toList_ofList]
  exact .mk hcs

/-! ### Numbers -/

theorem digits_toDigits (n : Nat) : Digits (Nat.toDigits 10 n) :=
  ⟨Nat.toDigits_ne_nil, fun _ hc => Nat.isDigit_of_mem_toDigits (by omega) (by omega) hc⟩

theorem digits_replicate_append (n : Nat) {ds : List Char} (h : Digits ds) :
    Digits (List.replicate n '0' ++ ds) := by
  refine ⟨fun he => h.1 (List.append_eq_nil_iff.mp he).2, fun c hc => ?_⟩
  rcases List.mem_append.mp hc with hz | hd
  · rw [List.eq_of_mem_replicate hz]
    rfl
  · exact h.2 c hd

theorem Unsigned.of_whole {whole fraction : List Char} (hw : Whole whole) (hf : Fraction fraction) :
    Unsigned (whole ++ fraction) := by
  have h := Unsigned.mk hw hf .none
  rwa [List.append_nil] at h

theorem digits_zero : Digits ['0'] := ⟨List.cons_ne_nil _ _, List.forall_mem_singleton.mpr rfl⟩

theorem whole_zero : Whole ['0'] := ⟨digits_zero, .inl rfl⟩

theorem exponent_tail (e : Int) :
    Exponent ('e' :: (if 0 ≤ e then '+' else '-') :: Nat.toDigits 10 e.natAbs) := by
  have hsign : [if 0 ≤ e then '+' else '-'] = ['+'] ∨ [if 0 ≤ e then '+' else '-'] = ['-'] := by
    split
    · exact .inl rfl
    · exact .inr rfl
  exact .some (.inl rfl) (.inr hsign) (digits_toDigits _)

/-- Wherever the point stands, digits are laid out as an unsigned number. -/
theorem unsigned_layout (style : Decimal.Style) {ds : List Char} (hd : Digits ds)
    (h0 : ds.head? ≠ some '0') (point : Int) : Unsigned (Decimal.layout style ds point) := by
  unfold Decimal.layout
  split
  next =>
    -- all digits stand before the point
    obtain ⟨d, tail, rfl⟩ := List.exists_cons_of_ne_nil hd.1
    have hdigits : ∀ c ∈ d :: tail ++ List.replicate (point - (d :: tail).length).toNat '0',
        c.isDigit = true := by
      intro c hc
      rcases List.mem_append.mp hc with hds | hz
      · exact hd.2 c hds
      · rw [List.eq_of_mem_replicate hz]
        rfl
    refine .of_whole ⟨⟨List.cons_ne_nil _ _, hdigits⟩, .inr h0⟩ ?_
    unfold Decimal.Style.fraction
    split
    · exact .some digits_zero
    · exact .none
  next hlong =>
    split
    next hpoint =>
      -- the point is among the digits
      have hlt : point.toNat < ds.length := by omega
      have hpos : 0 < point.toNat := by omega
      refine .of_whole ⟨⟨?_, fun c hc => hd.2 c (List.mem_of_mem_take hc)⟩, .inr ?_⟩
        (.some ⟨?_, fun c hc => hd.2 c (List.mem_of_mem_drop hc)⟩)
      · exact fun hnil => (List.take_eq_nil_iff.mp hnil).elim (Nat.ne_of_gt hpos) hd.1
      · rwa [List.head?_take, if_neg (Nat.ne_of_gt hpos)]
      · simpa using hlt
    next =>
      split
      next =>
        have hzeros := Unsigned.of_whole whole_zero
          (.some (digits_replicate_append (-point).toNat hd))
        exact hzeros
      next =>
        -- a power of ten follows, after the first digit or after a fraction
        obtain ⟨d, tail, rfl⟩ := List.exists_cons_of_ne_nil hd.1
        have hfirst : Whole [d] :=
          ⟨⟨List.cons_ne_nil _ _, List.forall_mem_singleton.mpr (hd.2 d (.head _))⟩, .inr h0⟩
        cases tail with
        | nil => exact .mk hfirst .none (exponent_tail _)
        | cons e tail =>
          exact .mk hfirst (.some ⟨List.cons_ne_nil _ _, fun c hc => hd.2 c (.tail _ hc)⟩)
            (exponent_tail _)

theorem unsigned_text (d : Decimal) (h : d = ⟨0, 0⟩ ∨ 0 < d.coefficient) :
    Unsigned (d.text Number.style) := by
  rcases h with rfl | hpos
  · exact .of_whole whole_zero .none
  · exact unsigned_layout Number.style (digits_toDigits _) (head?_toDigits hpos) _

theorem numeral_text {x : Float} (h : x.isFinite = true) : Numeral (Number.text x).toList := by
  obtain ⟨p, hp⟩ := Parts.ofFloat?_of_isFinite h
  have hdigits := unsigned_text _ (Decimal.shortest_cases Number.style.tie p)
  unfold Number.text
  rw [hp]
  dsimp only
  split
  · exact .plus (.of_whole whole_zero .none)
  · unfold Parts.text
    dsimp only
    rw [String.toList_ofList]
    split
    · exact .minus hdigits
    · exact .plus hdigits

end Json.Phrase

/-- Strings are written by the grammar of JSON. -/
class Platform.Quotes [Platform] : Prop where
  quoted (s : String) : Json.Phrase.Quoted (Platform.quoteJson s).toList

instance Platform.quotes_standard : Platform.Quotes := ⟨Json.Phrase.quoted_quote⟩

end Surmise
