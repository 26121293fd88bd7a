import Surmise.Proofs.Literal
import Surmise.Proofs.Numerals.Grammar
import Surmise.Proofs.Rounding.Shortest

/-! The text of a number. Digits and the place of the point are laid out as a literal that writes the number
they stand for, with a power of ten exactly if the number is very large or very small; since the digits of a
double read back, so does its text. -/
namespace Surmise

open Numeral

/-! ### Digits -/

namespace Numeral

variable {ds : List Char}

theorem natural_singleton (d : Char) : natural [d] = d.toNat - 48 := by
  rw [natural, Nat.ofDigitChars_cons, Nat.ofDigitChars_nil, Nat.mul_zero, Nat.zero_add]
  rfl

theorem natural_cons (d : Char) (ds : List Char) :
    natural (d :: ds) = natural [d] * 10 ^ ds.length + natural ds := natural_append [d] ds

@[simp] theorem natural_replicate (n : ℕ) : natural (List.replicate n '0') = 0 := by
  simp [natural]

theorem isDigits_replicate (n : ℕ) : IsDigits (List.replicate n '0') := by
  intro c hc
  rw [List.eq_of_mem_replicate hc]
  rfl

theorem natural_lt (hds : IsDigits ds) : natural ds < 10 ^ ds.length := by
  induction ds with
  | nil => decide
  | cons d ds ih =>
    have hd := toNat_of_isDigit (hds d (.head _))
    have hlt := ih fun c hc => hds c (.tail _ hc)
    have hnine : natural [d] ≤ 9 := by
      rw [natural_singleton]
      omega
    rw [natural_cons, List.length_cons, Nat.pow_succ]
    have hmul := Nat.mul_le_mul_right (10 ^ ds.length) hnine
    omega

structure IsLeading (ds : List Char) : Prop where
  digits : IsDigits ds
  ne_nil : ds ≠ []
  head : ds.head? ≠ some '0'

theorem IsLeading.bounds (h : IsLeading ds) :
    (10 : ℚ) ^ (ds.length - 1 : ℤ) ≤ natural ds ∧ (natural ds : ℚ) < 10 ^ (ds.length : ℤ) := by
  obtain ⟨hds, hne, hhead⟩ := h
  constructor
  · cases ds with
    | nil => exact absurd rfl hne
    | cons d ds =>
      have hd := toNat_of_isDigit (hds d (.head _))
      have hzero : d.toNat ≠ '0'.toNat := fun hd => hhead (congrArg some (Char.toNat_inj.mp hd))
      have hone : 1 ≤ natural [d] := by
        have hchar : '0'.toNat = 48 := rfl
        rw [natural_singleton]
        omega
      have hle : 10 ^ ds.length ≤ natural (d :: ds) := by
        rw [natural_cons]
        exact (Nat.le_mul_of_pos_left _ hone).trans (Nat.le_add_right _ _)
      have hexponent : (((d :: ds).length : ℕ) - 1 : ℤ) = ds.length := by simp
      rw [hexponent, zpow_natCast]
      exact_mod_cast hle
  · rw [zpow_natCast]
    exact_mod_cast natural_lt hds

theorem isLeading_toDigits {n : ℕ} (hn : 0 < n) : IsLeading (Nat.toDigits 10 n) :=
  ⟨isDigits_toDigits n, Nat.toDigits_ne_nil, head?_toDigits hn⟩

end Numeral

/-! ### Layouts -/

theorem Numeral.IsMantissa.writes {ms sign : List Char} {v : ℚ} {negative : Bool} (h : IsMantissa ms v)
    (hs : IsSign sign negative) : Writes (sign ++ ms) negative v := by
  simpa using Writes.intro hs h .none

namespace Decimal

variable {ds t : List Char} {point : ℤ}

def placed (ds : List Char) (point : ℤ) : ℚ := natural ds * 10 ^ (point - ds.length)

def powerText (e : ℤ) : List Char := 'e' :: (if 0 ≤ e then '+' else '-') :: Nat.toDigits 10 e.natAbs

/-- Zeros are put after the digits or before them, a point among them, or a power of ten behind them. -/
inductive LaidOut (ds : List Char) : ℤ → List Char → Prop
  | whole (k : ℕ) (hk : ds.length + k ≤ 21) : LaidOut ds (ds.length + k) (ds ++ List.replicate k '0')
  | pointed {ws fs : List Char} (hds : ds = ws ++ fs) (hne : ws ≠ []) (hk : ws.length ≤ 21) :
      LaidOut ds ws.length (ws ++ '.' :: fs)
  | fraction (k : ℕ) (hk : k < 6) : LaidOut ds (-k) (['0'] ++ '.' :: (List.replicate k '0' ++ ds))
  | digit {d : Char} {point : ℤ} (hds : ds = [d]) (hpoint : 21 < point ∨ point ≤ -6) :
      LaidOut ds point ([d] ++ powerText (point - 1))
  | power {d : Char} {fs : List Char} {point : ℤ} (hds : ds = [d] ++ fs)
      (hpoint : 21 < point ∨ point ≤ -6) :
      LaidOut ds point (([d] ++ '.' :: fs) ++ powerText (point - 1))

/-- Digits are laid out by the position of the point. -/
theorem laidOut_layout (hne : ds ≠ []) (point : ℤ) : LaidOut ds point (layout Number.style ds point) := by
  have hwidth : (Number.style.width : ℤ) = 21 := rfl
  have hzeros : (Number.style.zeros : ℤ) = 6 := rfl
  unfold layout
  rw [hwidth, hzeros]
  dsimp only
  split
  next hwhole =>
    obtain ⟨k, hk⟩ : ∃ k : ℕ, point = ds.length + k := ⟨(point - ds.length).toNat, by omega⟩
    have hcount : (point - ds.length).toNat = k := by omega
    have hfraction : Number.style.fraction = [] := rfl
    rw [hcount, hk, hfraction, List.append_nil]
    exact .whole k (by omega)
  split
  next hshort hpoint =>
    have hlength : ((ds.take point.toNat).length : ℤ) = point := by
      rw [List.length_take]
      omega
    have hlaid := LaidOut.pointed (List.take_append_drop point.toNat ds).symm
      (List.ne_nil_of_length_pos (by omega)) (by omega)
    rw [hlength] at hlaid
    exact hlaid
  split
  next hshort hpositive hpoint =>
    obtain ⟨k, hk⟩ : ∃ k : ℕ, point = -k := ⟨(-point).toNat, by omega⟩
    have hcount : (-point).toNat = k := by omega
    rw [hcount, hk]
    exact .fraction k (by omega)
  next hshort hpositive hfraction =>
    have hpoint : 21 < point ∨ point ≤ -6 := by omega
    cases ds with
    | nil => exact absurd rfl hne
    | cons d fs =>
      cases fs with
      | nil => exact .digit rfl hpoint
      | cons f fs => exact .power rfl hpoint

theorem placed_toDigits (n : ℕ) (e : ℤ) :
    placed (Nat.toDigits 10 n) (e + (Nat.toDigits 10 n).length) = n * 10 ^ e := by
  rw [placed, natural_toDigits, add_sub_cancel_right]

theorem isPower_powerText (e : ℤ) : IsPower (powerText e) e := by
  have hdigits := isDigits_toDigits e.natAbs
  unfold powerText
  by_cases he : 0 ≤ e
  · have hpower := IsPower.marked (.inl rfl) .plus hdigits Nat.toDigits_ne_nil
    rw [natural_toDigits, if_neg Bool.false_ne_true, Int.natAbs_of_nonneg he] at hpower
    rw [if_pos he]
    exact hpower
  · have hpower := IsPower.marked (.inl rfl) .minus hdigits Nat.toDigits_ne_nil
    rw [natural_toDigits, if_pos rfl, Int.ofNat_natAbs_of_nonpos (by omega), neg_neg] at hpower
    rw [if_neg he]
    exact hpower

/-- What is laid out writes the number that the digits and the place of the point stand for. -/
theorem LaidOut.writes {sign : List Char} {negative : Bool} (h : LaidOut ds point t) (hds : IsDigits ds)
    (hne : ds ≠ []) (hs : IsSign sign negative) : Writes (sign ++ t) negative (placed ds point) := by
  unfold placed
  cases h with
  | whole k hk =>
    have hmantissa := IsMantissa.whole (hds.append (isDigits_replicate k)) (by simp [hne])
    have hvalue : (natural (ds ++ List.replicate k '0') : ℚ) =
        natural ds * 10 ^ ((ds.length : ℤ) + k - ds.length) := by
      rw [natural_append, natural_replicate, List.length_replicate, add_sub_cancel_left, zpow_natCast]
      push_cast
      ring
    exact hvalue ▸ hmantissa.writes hs
  | @pointed ws fs hsplit hne' hk =>
    subst hsplit
    have hws : IsDigits ws := fun c hc => hds c (List.mem_append_left _ hc)
    have hfs : IsDigits fs := fun c hc => hds c (List.mem_append_right _ hc)
    have hvalue := natural_mul_zpow ws fs 0
    have hexponent : (ws.length : ℤ) - (ws ++ fs).length = 0 - fs.length := by
      rw [List.length_append]
      omega
    rw [hexponent, hvalue, zpow_zero, mul_one]
    exact (IsMantissa.pointed hws hne' hfs).writes hs
  | fraction k hk =>
    have hfs := (isDigits_replicate k).append hds
    have hvalue := natural_mul_zpow ['0'] (List.replicate k '0' ++ ds) 0
    have hnatural : natural (['0'] ++ (List.replicate k '0' ++ ds)) = natural ds := by
      rw [← List.append_assoc, List.singleton_append, ← List.replicate_succ, natural_append,
        natural_replicate, Nat.zero_mul, Nat.zero_add]
    have hexponent : -(k : ℤ) - ds.length = 0 - (List.replicate k '0' ++ ds).length := by
      rw [List.length_append, List.length_replicate]
      omega
    rw [hnatural, zpow_zero, mul_one] at hvalue
    rw [hexponent, hvalue]
    exact (IsMantissa.pointed (isDigits_replicate 1) (List.cons_ne_nil '0' []) hfs).writes hs
  | @digit d point hsplit hpoint =>
    subst hsplit
    exact .intro hs (.whole hds hne) (isPower_powerText (point - 1))
  | @power d fs point hsplit hpoint =>
    subst hsplit
    have hd : IsDigits [d] := fun c hc => hds c (List.mem_append_left _ hc)
    have hfs : IsDigits fs := fun c hc => hds c (List.mem_append_right _ hc)
    have hvalue := natural_mul_zpow [d] fs (point - 1)
    have hexponent : point - ([d] ++ fs).length = point - 1 - fs.length := by
      rw [List.length_append, List.length_singleton]
      omega
    rw [hexponent, hvalue]
    exact .intro hs (.pointed hd (List.cons_ne_nil d []) hfs) (isPower_powerText (point - 1))

theorem not_mem_of_isDigits (hds : IsDigits ds) : 'e' ∉ ds := fun hmem => by
  cases hds 'e' hmem

theorem LaidOut.mem_iff (h : LaidOut ds point t) (hds : IsDigits ds) : 'e' ∈ t ↔ 21 < point ∨ point ≤ -6 := by
  cases h with
  | whole k hk =>
    have hnone := not_mem_of_isDigits (hds.append (isDigits_replicate k))
    exact iff_of_false hnone (by omega)
  | @pointed ws fs hsplit hne hk =>
    have hnone := not_mem_of_isDigits hds
    rw [hsplit] at hnone
    refine iff_of_false ?_ (by omega)
    simpa using hnone
  | fraction k hk =>
    have hnone := not_mem_of_isDigits ((isDigits_replicate k).append hds)
    refine iff_of_false ?_ (by omega)
    simpa using hnone
  | digit hsplit hpoint | power hsplit hpoint => exact iff_of_true (by simp [powerText]) hpoint

/-- The position of the point says whether the number is large or small. -/
theorem large_or_small_iff (h : IsLeading ds) (point : ℤ) :
    21 < point ∨ point ≤ -6 ↔ 10 ^ (21 : ℤ) ≤ placed ds point ∨ placed ds point < 10 ^ (-6 : ℤ) := by
  obtain ⟨hlow, hhigh⟩ := h.bounds
  have hunit : (0 : ℚ) < 10 ^ (point - ds.length) := zpow_pos (by norm_num) _
  have hlow' : (10 : ℚ) ^ (point - 1) ≤ placed ds point := by
    calc (10 : ℚ) ^ (point - 1) = 10 ^ (ds.length - 1 : ℤ) * 10 ^ (point - ds.length) := by
          rw [← zpow_add₀ (by norm_num)]
          congr 1
          omega
      _ ≤ _ := mul_le_mul_of_nonneg_right hlow hunit.le
  have hhigh' : placed ds point < (10 : ℚ) ^ point := by
    calc placed ds point < 10 ^ (ds.length : ℤ) * (10 : ℚ) ^ (point - ds.length) :=
          mul_lt_mul_of_pos_right hhigh hunit
      _ = 10 ^ point := by
          rw [← zpow_add₀ (by norm_num)]
          congr 1
          omega
  have hmono {a b : ℤ} (hab : a ≤ b) : (10 : ℚ) ^ a ≤ 10 ^ b := zpow_le_zpow_right₀ (by norm_num) hab
  generalize placed ds point = v at *
  constructor
  · rintro (hlarge | hsmall)
    · exact .inl ((hmono (by omega)).trans hlow')
    · exact .inr (hhigh'.trans_le (hmono hsmall))
  · intro hv
    by_contra hneither
    obtain ⟨hle, hge⟩ := not_or.mp hneither
    rcases hv with hlarge | hsmall
    · exact absurd (hhigh'.trans_le (hmono (by omega : point ≤ 21))) (not_lt.mpr hlarge)
    · exact absurd ((hmono (by omega : -6 ≤ point - 1)).trans hlow') (not_le.mpr hsmall)

end Decimal

/-! ### Reading texts back -/

namespace Number

variable {x : Float} {b : Bool} {m : ℕ} {e : ℤ}

/-- The text of a double that is not zero, with the digits of its shortest decimal. -/
theorem toList_text (hx : Parts.ofFloat? x = some ⟨b, m, e⟩) (hm : m ≠ 0) :
    (text x).toList = (if b then ['-'] else []) ++
      Decimal.layout style (Nat.toDigits 10 (Decimal.shortest .up ⟨false, m, e⟩).coefficient)
        ((Decimal.shortest .up ⟨false, m, e⟩).exponent +
          (Nat.toDigits 10 (Decimal.shortest .up ⟨false, m, e⟩).coefficient).length) := by
  unfold text
  rw [hx]
  dsimp only
  rw [if_neg hm]
  unfold Parts.text
  rw [String.toList_ofList]
  cases b <;> rfl

theorem exists_unsigned (hx : Parts.ofFloat? x = some ⟨b, m, e⟩) (hm : m ≠ 0) :
    ∃ y, Parts.ofFloat? y = some ⟨false, m, e⟩ ∧ x = signed b y := by
  obtain ⟨h, he⟩ := Parts.reduced hx hm
  have hy := h.ofFloat?_pack he false
  refine ⟨_, hy, ?_⟩
  rw [Parts.eq_pack hx, Parts.unpacked_of_ne_zero hm]
  cases b with
  | false => rfl
  | true =>
    have hunpack := (Parts.unpack_of_ofFloat? hy).trans (Parts.unpacked_of_ne_zero hm)
    change _ = Float.ofModel (Float.Model.pack (Float.Model.UnpackedFloat.neg _))
    rw [hunpack]
    rfl

theorem ofText_text_of_ne_zero {p : Parts} (hx : Parts.ofFloat? x = some p) (hm : p.significand ≠ 0) :
    ofText (text x).toList = x := by
  obtain ⟨b, m, e⟩ := p
  obtain ⟨y, hy, rfl⟩ := exists_unsigned hx hm
  obtain ⟨hpos, hmagnitude⟩ := Decimal.magnitude_shortest .up hy hm
  have hs : Numeral.IsSign (if b then ['-'] else []) b := by
    cases b
    · exact .none
    · exact .minus
  have hdigits := isLeading_toDigits hpos
  have hwrites := (Decimal.laidOut_layout hdigits.ne_nil ((Decimal.shortest .up ⟨false, m, e⟩).exponent +
    (Nat.toDigits 10 (Decimal.shortest .up ⟨false, m, e⟩).coefficient).length)).writes hdigits.digits
      hdigits.ne_nil hs
  rw [Decimal.placed_toDigits] at hwrites
  rw [toList_text hx hm, ofText_of_writes hwrites, hmagnitude]

/-- Every number is read back from its text, except that the negative zero loses its sign. -/
theorem ofText_text (x : Float) :
    (x = -0.0 → ofText (text x).toList = 0.0) ∧ (x ≠ -0.0 → ofText (text x).toList = x) := by
  have hzero : ofText "0".toList = 0.0 := eq_of_toBits (by decide +kernel)
  constructor
  · rintro rfl
    have htext : text (-0.0) = "0" := by decide +kernel
    rw [htext, hzero]
  · intro hne
    cases hx : Parts.ofFloat? x with
    | none =>
      rcases Parts.eq_of_ofFloat?_none hx with rfl | rfl | rfl <;> exact eq_of_toBits (by decide +kernel)
    | some p =>
      obtain ⟨b, m, e⟩ := p
      by_cases hm : m = 0
      · subst hm
        obtain rfl := Parts.eq_zero_of_ofFloat? hx
        cases b with
        | false => exact eq_of_toBits (by decide +kernel)
        | true => exact absurd rfl hne
      · exact ofText_text_of_ne_zero hx hm

end Number

/-- The text of a number keeps its value: digits are laid out as a literal that writes just the number they
stand for, which has a power of ten exactly from `10 ^ 21` on and below `10 ^ -6` and is scanned as a whole;
the text of a positive double is laid out from digits that round to it; and so a number that is made a text
and a number again is the same, but for the sign of zero. -/
theorem number_text_keeps_value :
    (∀ ds point, IsLeading ds →
      Writes (Decimal.layout Number.style ds point) false (Decimal.placed ds point) ∧
      ('e' ∈ Decimal.layout Number.style ds point ↔
        10 ^ (21 : ℤ) ≤ Decimal.placed ds point ∨ Decimal.placed ds point < 10 ^ (-6 : ℤ)) ∧
      ∃ n : Numeral, scan (Decimal.layout Number.style ds point) = some (n, []) ∧ n.negative = false ∧
        n.coefficient * 10 ^ n.exponent = Decimal.placed ds point) ∧
    (∀ x m e, Parts.ofFloat? x = some ⟨false, m, e⟩ → m ≠ 0 → ∃ ds point, IsLeading ds ∧
      (Number.text x).toList = Decimal.layout Number.style ds point ∧
      NearestDouble (Decimal.placed ds point) x) ∧
    (∀ (h : Heap) (x : Float), ∃ s y, h.toText? (.number x) = some s ∧ h.toNumber? (.string s) = some y ∧
      (x = -0.0 → y = 0.0) ∧ (x ≠ -0.0 → y = x)) := by
  refine ⟨fun ds point hds => ?_, fun x m e hx hm => ?_, fun h x => ?_⟩
  · have hlaid := Decimal.laidOut_layout hds.ne_nil point
    have hwrites := hlaid.writes hds.digits hds.ne_nil .none
    obtain ⟨n, rest, hscan, -, hstops⟩ := hwrites.scan_append []
    obtain ⟨rfl, hsign, hvalue⟩ := hstops nofun
    rw [List.append_nil] at hscan
    refine ⟨hwrites, ?_, n, hscan, hsign, hvalue⟩
    rw [hlaid.mem_iff hds.digits, Decimal.large_or_small_iff hds]
  · obtain ⟨hpos, hmagnitude⟩ := Decimal.magnitude_shortest .up hx hm
    refine ⟨_, _, isLeading_toDigits hpos, Number.toList_text hx hm, ?_⟩
    rw [Decimal.placed_toDigits]
    have hnearest := nearestDouble_magnitude (Decimal.shortest .up ⟨false, m, e⟩).coefficient
      (Decimal.shortest .up ⟨false, m, e⟩).exponent
    rw [hmagnitude] at hnearest
    exact hnearest
  · obtain ⟨hzero, hother⟩ := Number.ofText_text x
    exact ⟨_, _, rfl, rfl, hzero, hother⟩

/-- The number `1.25e-7`. -/
theorem number_text_keeps_value_small :
    'e' ∈ Decimal.layout Number.style ['1', '2', '5'] (-6) ∧
    ∃ ds point, IsLeading ds ∧ (Number.text 1.25e-7).toList = Decimal.layout Number.style ds point ∧
      NearestDouble (Decimal.placed ds point) 1.25e-7 := by
  obtain ⟨hlayout, htext, -⟩ := number_text_keeps_value
  have hleading : IsLeading ['1', '2', '5'] := by
    refine ⟨fun c hc => ?_, List.cons_ne_nil _ _, by decide⟩
    simp only [List.mem_cons, List.not_mem_nil, or_false] at hc
    rcases hc with rfl | rfl | rfl <;> rfl
  have hsmall : Decimal.placed ['1', '2', '5'] (-6) < 10 ^ (-6 : ℤ) := by
    have hnatural : natural ['1', '2', '5'] = 125 := by decide
    rw [Decimal.placed, hnatural]
    norm_num
  exact ⟨(hlayout ['1', '2', '5'] (-6) hleading).2.1.mpr (.inr hsmall),
    htext 1.25e-7 4722366482869645 (-75) (by decide +kernel) (by decide)⟩

end Surmise
