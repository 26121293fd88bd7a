import Surmise.Decimal.Numeral
import Surmise.Proofs.Rounding.Doubles

/-! Decimals are rounded once. Short ones are a product or a quotient of two doubles that are exact, long
ones are cut off far below the last bit that counts; neither changes the double that is found. -/
namespace Surmise

open Float.Model Float.Model.UnpackedFloat

variable {m : ℕ}

/-- The function of the library rounds a decimal once. -/
theorem rounded_ofScientific (hm : 0 < m) (e : ℤ) :
    RoundedTo (m * 10 ^ e) (.ofModel (Float.Model.ofScientific m e)) := by
  have hm' : (0 : ℚ) < m := Nat.cast_pos.mpr hm
  have hone : (1 : ℚ) ≤ m := Nat.one_le_cast.mpr hm
  have hv : (0 : ℚ) < m * 10 ^ e := mul_pos hm' (zpow_pos (by norm_num) e)
  have hbits : (2 : Int) ^ Format.binary64.exponentBits = 2048 := rfl
  change RoundedTo _ (.ofModel (Float.Model.pack (UnpackedFloat.ofScientific Format.binary64 m e)))
  unfold UnpackedFloat.ofScientific
  rw [dif_neg hm.ne', hbits]
  by_cases hhuge : e > 2048
  · rw [if_pos hhuge]
    have hlarge : 2 ^ (1024 : ℤ) ≤ (m * 10 ^ e : ℚ) := by
      calc (2 : ℚ) ^ (1024 : ℤ) ≤ 10 ^ (1024 : ℤ) := zpow_le_zpow_left₀ (by norm_num) (by norm_num) (by norm_num)
        _ ≤ 10 ^ e := zpow_le_zpow_right₀ (by norm_num) (by omega)
        _ ≤ m * 10 ^ e := le_mul_of_one_le_left (zpow_pos (by norm_num) e).le hone
    obtain ⟨u, hu⟩ := exists_rounded .positive hv
    exact ⟨u, hu, by rw [hu.pack_of_le hlarge]⟩
  rw [if_neg hhuge]
  by_cases htiny : e < -(2048 + (m.log2 : ℤ))
  · rw [if_pos htiny]
    have hsmall : (m * 10 ^ e : ℚ) < 2 ^ (-1075 : ℤ) := by
      have hten : (10 : ℚ) ^ e ≤ 2 ^ e := by
        have hpow : (2 : ℚ) ^ (-e) ≤ 10 ^ (-e) := zpow_le_zpow_left₀ (by omega) two_pos.le (by norm_num)
        rw [zpow_neg, zpow_neg] at hpow
        exact (inv_le_inv₀ (zpow_pos two_pos e) (zpow_pos (by norm_num) e)).mp hpow
      calc (m * 10 ^ e : ℚ) ≤ m * 2 ^ e := mul_le_mul_of_nonneg_left hten hm'.le
        _ < (m + 1) * 2 ^ e := mul_lt_mul_of_pos_right (lt_add_one _) (zpow_pos two_pos e)
        _ ≤ 2 ^ (m.log2 + 1 + e) := succ_mul_le_zpow m e
        _ ≤ 2 ^ (-1075 : ℤ) := zpow_le_zpow_right₀ one_le_two (by omega)
    exact ⟨_, rounded_zero _ hv hsmall, rfl⟩
  rw [if_neg htiny]
  by_cases he : 0 ≤ e
  · rw [if_pos he]
    have hten : (0 : ℕ) < 10 ^ e.toNat := Nat.pow_pos (by decide)
    have hshift : 0 < m <<< 53 := by
      rw [Nat.shiftLeft_eq]
      exact Nat.mul_pos hm (Nat.two_pow_pos _)
    have hvalue : ((m <<< 53 : ℕ) * 2 ^ (-53 : ℤ) * ((10 ^ e.toNat : ℕ) * 2 ^ (0 : ℤ)) : ℚ) = m * 10 ^ e := by
      have hcast : (10 : ℚ) ^ e = 10 ^ e.toNat := by
        conv_lhs => rw [← Int.toNat_of_nonneg he, zpow_natCast]
      rw [hcast, Nat.shiftLeft_eq, zpow_neg]
      push_cast
      field_simp
    have hlarge : (1 : ℚ) ≤ m * 10 ^ e := one_le_mul_of_one_le_of_one_le hone (one_le_zpow₀ (by norm_num) he)
    have hlog := (Int.zpow_le_iff_le_log (x := 0) Nat.one_lt_two hv).mp (by simpa using hlarge)
    have hmul := rounded_mul .positive .positive (-53) 0 hshift hten
    rw [hvalue] at hmul
    exact ⟨_, hmul (by unfold unitExponent; omega), rfl⟩
  · rw [if_neg he]
    have hdiv := rounded_div .positive .positive 0 0 hm (Nat.pow_pos (by decide) : 0 < 10 ^ (-e).toNat)
    have hvalue : (m * 2 ^ (0 : ℤ) / ((10 ^ (-e).toNat : ℕ) * 2 ^ (0 : ℤ)) : ℚ) = m * 10 ^ e := by
      have hcast : (10 : ℚ) ^ e = (10 ^ (-e).toNat)⁻¹ := by
        conv_lhs => rw [← neg_neg e, ← Int.toNat_of_nonneg (by omega : 0 ≤ -e), zpow_neg, zpow_natCast]
      rw [hcast]
      push_cast
      simp [div_eq_mul_inv]
    rw [hvalue] at hdiv
    exact ⟨_, hdiv, rfl⟩

/-! ### Short decimals -/

variable {n : ℕ} {e : ℤ}

def Denotes (x : Float) (v : ℚ) : Prop :=
  ∃ m e, Parts.ofFloat? x = some ⟨false, m, e⟩ ∧ 2 ^ 52 ≤ m ∧ v = m * 2 ^ e

/-- A natural number below `2 ^ 53` is converted exactly. -/
theorem denotes_toFloat (hn : 0 < n) (hlt : n < 2 ^ 53) : Denotes n.toUInt64.toFloat n := by
  obtain ⟨hlow, hhigh⟩ := Number.significand_bounds hn.ne' hlt
  have hlog : n.log2 < 53 := (Nat.log2_lt hn.ne').mpr hlt
  have h : Reduced (n * 2 ^ (52 - n.log2)) (-(52 - n.log2 : ℕ)) :=
    ⟨by omega, hhigh, by omega, .inl hlow⟩
  have hround : UnpackedFloat.ofUInt64 Format.binary64 n.toUInt64 =
      .finite .positive (n * 2 ^ (52 - n.log2)) (-(52 - n.log2 : ℕ)) h.pos := by
    have htoNat : n.toUInt64.toNat = n := UInt64.toNat_ofNat_of_lt' (hlt.trans (by decide))
    have htarget : (0 - Format.binary64.targetExponent (totalExponent n 0)).toNat = 52 - n.log2 := by
      rw [targetExponent_eq, totalExponent]
      omega
    have hgt : compare (n : ℤ) 0 = .gt := Int.compare_eq_gt.mpr (by omega)
    unfold UnpackedFloat.ofUInt64 UnpackedFloat.ofNat UnpackedFloat.ofInt UnpackedFloat.normalize
    rw [htoNat, hgt]
    dsimp only
    unfold UnpackedFloat.round decreaseExponent
    dsimp only
    rw [Int.toNat_natCast, htarget, Nat.shiftLeft_eq, Int.zero_sub]
    exact h.roundWithAccuracy .positive
  have hparts := h.ofFloat?_pack (by omega) false
  refine ⟨n * 2 ^ (52 - n.log2), -(52 - n.log2 : ℕ), ?_, hlow, ?_⟩
  · change Parts.ofFloat? (.ofModel (Float.Model.pack (UnpackedFloat.ofUInt64 Format.binary64 n.toUInt64))) = _
    rw [hround]
    exact hparts
  · rw [zpow_neg, zpow_natCast]
    push_cast
    field_simp

theorem mul_zpow_eq (h : m * 2 ^ e.toNat = n * 2 ^ (-e).toNat) : (m * 2 ^ e : ℚ) = n := by
  have hexponent : e = e.toNat - (-e).toNat := by omega
  have hcast : (m * 2 ^ e.toNat : ℚ) = n * 2 ^ (-e).toNat := by exact_mod_cast h
  rw [hexponent, zpow_sub₀ two_ne_zero, zpow_natCast, zpow_natCast, ← mul_div_assoc, hcast]
  exact mul_div_cancel_right₀ _ (by positivity)

def isPowerOfTen (a : ℕ) (p : Parts) : Bool :=
  !p.negative && decide (2 ^ 52 ≤ p.significand) &&
    decide (p.significand * 2 ^ p.exponent.toNat = 10 ^ a * 2 ^ (-p.exponent).toNat)

theorem denotes_powerOfTen {a : ℕ} (ha : a < Float.exactlyRepresentablePowersOfTen.size) :
    Denotes Float.exactlyRepresentablePowersOfTen[a] (10 ^ a) := by
  have hall : ∀ a : Fin 23, (Float.exactlyRepresentablePowersOfTen[a.val]?.bind Parts.ofFloat?).any
      (isPowerOfTen a) = true := by decide +kernel
  have hcheck := hall ⟨a, ha⟩
  rw [Array.getElem?_eq_getElem ha, Option.bind_some, Option.any_eq_true] at hcheck
  obtain ⟨⟨negative, m, e⟩, hparts, hpower⟩ := hcheck
  simp only [isPowerOfTen, Bool.and_eq_true, Bool.not_eq_true', decide_eq_true_eq] at hpower
  obtain ⟨⟨rfl, hlong⟩, hvalue⟩ := hpower
  have hcast := mul_zpow_eq hvalue
  push_cast at hcast
  exact ⟨m, e, hparts, hlong, hcast.symm⟩

namespace Denotes
variable {x y : Float} {v w : ℚ}

theorem unpack (h : Denotes x v) : ∃ m e, ∃ hm : 0 < m,
    x.toModel.unpack = .finite .positive m e hm ∧ 2 ^ 52 ≤ m ∧ v = m * 2 ^ e := by
  obtain ⟨m, e, hparts, hlong, hv⟩ := h
  have hm : m ≠ 0 := by omega
  exact ⟨m, e, Nat.pos_of_ne_zero hm,
    (Parts.unpack_of_ofFloat? hparts).trans (Parts.unpacked_of_ne_zero hm), hlong, hv⟩

theorem roundedTo_mul (hx : Denotes x v) (hy : Denotes y w) : RoundedTo (v * w) (x * y) := by
  obtain ⟨m₁, e₁, hm₁, hux, hlong₁, rfl⟩ := hx.unpack
  obtain ⟨m₂, e₂, hm₂, huy, hlong₂, rfl⟩ := hy.unpack
  refine ⟨_, rounded_mul .positive .positive e₁ e₂ hm₁ hm₂ ?_, ?_⟩
  · have hv₁ : (0 : ℚ) < m₁ * 2 ^ e₁ := mul_pos (Nat.cast_pos.mpr hm₁) (zpow_pos two_pos _)
    have hv₂ : (0 : ℚ) < m₂ * 2 ^ e₂ := mul_pos (Nat.cast_pos.mpr hm₂) (zpow_pos two_pos _)
    have hpow : (2 : ℚ) ^ (m₁.log2 + e₁ + (m₂.log2 + e₂)) ≤ m₁ * 2 ^ e₁ * (m₂ * 2 ^ e₂) := by
      rw [zpow_add₀ two_ne_zero]
      exact mul_le_mul (zpow_log2_le hm₁ e₁) (zpow_log2_le hm₂ e₂) (zpow_pos two_pos _).le hv₁.le
    have hlog := (Int.zpow_le_iff_le_log Nat.one_lt_two (mul_pos hv₁ hv₂)).mp hpow
    have hlog₁ := (Nat.le_log2 hm₁.ne').mpr hlong₁
    unfold unitExponent
    omega
  · change Float.ofModel (Float.Model.pack (UnpackedFloat.mul Format.binary64 x.toModel.unpack y.toModel.unpack)) = _
    rw [hux, huy]

theorem roundedTo_div (hx : Denotes x v) (hy : Denotes y w) : RoundedTo (v / w) (x / y) := by
  obtain ⟨m₁, e₁, hm₁, hux, -, rfl⟩ := hx.unpack
  obtain ⟨m₂, e₂, hm₂, huy, -, rfl⟩ := hy.unpack
  refine ⟨_, rounded_div .positive .positive e₁ e₂ hm₁ hm₂, ?_⟩
  change Float.ofModel (Float.Model.pack (UnpackedFloat.div Format.binary64 x.toModel.unpack y.toModel.unpack)) = _
  rw [hux, huy]

end Denotes

variable {w : ℚ}

/-- A decimal is rounded once, also where this is done by way of doubles. -/
theorem roundedTo_ofScientific (hn : 0 < n) (e : ℤ) :
    RoundedTo (n * 10 ^ e) (Float.ofScientific n (decide (e < 0)) e.natAbs) := by
  unfold Float.ofScientific
  by_cases hfast : n < 2 ^ 53 ∧ e.natAbs ≤ 22
  · rw [dif_pos hfast]
    have hcoefficient := denotes_toFloat hn hfast.1
    have hpower := denotes_powerOfTen (a := e.natAbs) (Nat.lt_succ_of_le hfast.2)
    by_cases he : e < 0
    · rw [if_pos (decide_eq_true he)]
      have hvalue : (n * 10 ^ e : ℚ) = n / 10 ^ e.natAbs := by
        conv_lhs => rw [← neg_neg e, ← Int.ofNat_natAbs_of_nonpos he.le]
        rw [zpow_neg, zpow_natCast, ← div_eq_mul_inv]
      rw [hvalue]
      exact hcoefficient.roundedTo_div hpower
    · rw [decide_eq_false he, if_neg Bool.false_ne_true]
      have hvalue : (n * 10 ^ e : ℚ) = n * 10 ^ e.natAbs := by
        conv_lhs => rw [← Int.natAbs_of_nonneg (not_lt.mp he), zpow_natCast]
      rw [hvalue]
      exact hcoefficient.roundedTo_mul hpower
  · rw [dif_neg hfast]
    have hexponent : (if decide (e < 0) then Int.negOfNat e.natAbs else Int.ofNat e.natAbs) = e := by
      by_cases he : e < 0
      · rw [if_pos (decide_eq_true he), Int.negOfNat_eq, Int.ofNat_eq_natCast]
        omega
      · rw [decide_eq_false he, if_neg Bool.false_ne_true, Int.ofNat_eq_natCast]
        omega
    dsimp only
    rw [hexponent]
    exact rounded_ofScientific hn e

theorem pack_zero : Float.ofModel (Float.Model.pack (.zero .positive)) = 0.0 :=
  eq_of_toBits (by decide +kernel)

theorem unpack_zero : (0 : ℕ).toUInt64.toFloat.toModel.unpack = .zero .positive := by
  have hparts : Parts.ofFloat? (0 : ℕ).toUInt64.toFloat = some ⟨false, 0, -1074⟩ := by decide +kernel
  exact Parts.unpack_of_ofFloat? hparts

theorem Denotes.zero_mul {y : Float} (hy : Denotes y w) : (0 : ℕ).toUInt64.toFloat * y = 0.0 := by
  obtain ⟨m, e, hm, huy, -, -⟩ := hy.unpack
  change Float.ofModel (Float.Model.pack (UnpackedFloat.mul Format.binary64 _ y.toModel.unpack)) = _
  rw [unpack_zero, huy]
  exact pack_zero

theorem Denotes.zero_div {y : Float} (hy : Denotes y w) : (0 : ℕ).toUInt64.toFloat / y = 0.0 := by
  obtain ⟨m, e, hm, huy, -, -⟩ := hy.unpack
  change Float.ofModel (Float.Model.pack (UnpackedFloat.div Format.binary64 _ y.toModel.unpack)) = _
  rw [unpack_zero, huy]
  exact pack_zero

theorem ofScientific_zero (s : Bool) (a : ℕ) : Float.ofScientific 0 s a = 0.0 := by
  unfold Float.ofScientific
  by_cases hfast : 0 < 2 ^ 53 ∧ a ≤ 22
  · have hpower := denotes_powerOfTen (a := a) (Nat.lt_succ_of_le hfast.2)
    rw [dif_pos hfast]
    cases s with
    | true => exact hpower.zero_div
    | false => exact hpower.zero_mul
  · rw [dif_neg hfast]
    exact pack_zero

/-! ### Long decimals -/

variable {v : ℚ}

/-- Two numbers that lie on the same side of every double and of every middle between two doubles. -/
def SameSide (v w : ℚ) : Prop :=
  ∀ (k : ℕ) (e : ℤ), k < 2 ^ 55 → -1075 ≤ e → e ≤ 1024 →
    (k * 2 ^ e < v ↔ k * 2 ^ e < w) ∧ (v < k * 2 ^ e ↔ w < k * 2 ^ e)

theorem SameSide.refl (v : ℚ) : SameSide v v := fun _ _ _ _ _ => ⟨.rfl, .rfl⟩

theorem nearestEven_div_iff : NearestEven (v / 2 ^ e) n ↔
    (2 * n - 1) * 2 ^ (e - 1) ≤ v ∧ v ≤ (2 * n + 1) * 2 ^ (e - 1) ∧
      (v = (2 * n - 1) * 2 ^ (e - 1) ∨ v = (2 * n + 1) * 2 ^ (e - 1) → n % 2 = 0) := by
  have hunit : (0 : ℚ) < 2 ^ e := zpow_pos two_pos e
  have hhalf : (2 : ℚ) ^ (e - 1) = 2 ^ e / 2 := zpow_sub_one₀ two_ne_zero e
  have hdown : (2 * n - 1) * (2 : ℚ) ^ (e - 1) = (n - 1 / 2) * 2 ^ e := by rw [hhalf]; ring
  have hup : (2 * n + 1) * (2 : ℚ) ^ (e - 1) = (n + 1 / 2) * 2 ^ e := by rw [hhalf]; ring
  rw [hdown, hup, ← le_div_iff₀ hunit, ← div_le_iff₀ hunit, ← div_eq_iff hunit.ne', ← div_eq_iff hunit.ne']
  exact ⟨fun h => ⟨h.low, h.high, h.even⟩, fun h => ⟨h.1, h.2.1, h.2.2⟩⟩

theorem SameSide.nearestEven (h : SameSide v w) (hv : 0 < v) (hw : 0 < w) (hn : NearestEven (v / 2 ^ e) n)
    (hle : n ≤ 2 ^ 53) (hlow : -1074 ≤ e) (hhigh : e ≤ 1025) : NearestEven (w / 2 ^ e) n := by
  have hup := h (2 * n + 1) (e - 1) (by omega) (by omega) (by omega)
  push_cast at hup
  -- below zero there is no double, and neither of the two numbers
  have hdown : ((2 * n - 1) * 2 ^ (e - 1) < v ↔ (2 * n - 1) * 2 ^ (e - 1) < w) ∧
      (v < (2 * n - 1) * 2 ^ (e - 1) ↔ w < (2 * n - 1) * 2 ^ (e - 1)) := by
    rcases Nat.eq_zero_or_pos n with rfl | hpos
    · have hneg : (2 * (0 : ℕ) - 1) * (2 : ℚ) ^ (e - 1) < 0 := by
        have hunit : (0 : ℚ) < 2 ^ (e - 1) := zpow_pos two_pos _
        push_cast
        linarith
      exact ⟨iff_of_true (hneg.trans hv) (hneg.trans hw),
        iff_of_false (hneg.trans hv).not_gt (hneg.trans hw).not_gt⟩
    · have hside := h (2 * n - 1) (e - 1) (by omega) (by omega) (by omega)
      rw [Nat.cast_sub (by omega)] at hside
      push_cast at hside
      exact hside
  rw [nearestEven_div_iff] at hn ⊢
  generalize (2 * (n : ℚ) - 1) * 2 ^ (e - 1) = a at *
  generalize (2 * (n : ℚ) + 1) * 2 ^ (e - 1) = b at *
  grind

/-- Numbers on the same side of every middle are rounded alike. -/
theorem SameSide.roundedTo (h : SameSide v w) (hv : 0 < v) (hw : 0 < w) {x : Float} (hx : RoundedTo v x) :
    RoundedTo w x := by
  obtain ⟨u, hu, rfl⟩ := hx
  by_cases hlarge : 2 ^ (1024 : ℤ) ≤ v
  · have hlarge' : 2 ^ (1024 : ℤ) ≤ w := by
      have hside := (h 1 1024 (by decide) (by decide) (by decide)).2
      rw [Nat.cast_one, one_mul] at hside
      exact not_lt.mp fun hlt => not_lt.mpr hlarge (hside.mpr hlt)
    obtain ⟨u', hu'⟩ := exists_rounded .positive hw
    exact ⟨u', hu', by rw [hu.pack_of_le hlarge, hu'.pack_of_le hlarge']⟩
  · obtain ⟨n, hn, hstands⟩ := hu
    have hleast : -1074 ≤ unitExponent v := le_max_right _ _
    have hmost : unitExponent v ≤ 971 := by
      have := (Int.lt_zpow_iff_log_lt Nat.one_lt_two hv).mp (not_le.mp hlarge)
      unfold unitExponent
      omega
    have hle : n ≤ 2 ^ 53 := hn.le_of_lt (by exact_mod_cast (div_unit_mem hv).1)
    have hunits := div_unit_mem hv
    generalize unitExponent v = e at *
    have hexponent : unitExponent w = e := by
      have hunit : (0 : ℚ) < 2 ^ e := zpow_pos two_pos e
      have hupper := (h (2 ^ 53) e (by decide) (by omega) (by omega)).2
      have hlower := (h (2 ^ 52) e (by decide) (by omega) (by omega)).2
      rw [Nat.cast_pow, Nat.cast_ofNat] at hupper hlower
      rw [div_lt_iff₀ hunit, le_div_iff₀ hunit, ← not_lt] at hunits
      rw [unitExponent_eq_iff hw, div_lt_iff₀ hunit, le_div_iff₀ hunit, ← hupper, ← not_lt, ← hlower]
      exact hunits
    refine ⟨u, ⟨n, ?_, ?_⟩, rfl⟩
    · rw [hexponent]
      exact h.nearestEven hv hw hn hle hleast (by omega)
    · rw [hexponent]
      exact hstands

theorem sameSide_of_between {a b : ℚ} (hv : a < v ∧ v < b) (hw : a < w ∧ w < b)
    (hnone : ∀ (k : ℕ) (e : ℤ), k < 2 ^ 55 → -1075 ≤ e → e ≤ 1024 → k * 2 ^ e ≤ a ∨ b ≤ k * 2 ^ e) :
    SameSide v w := by
  intro k e hk hlow hhigh
  rcases hnone k e hk hlow hhigh with hle | hle
  · exact ⟨iff_of_true (hle.trans_lt hv.1) (hle.trans_lt hw.1),
      iff_of_false (hle.trans hv.1.le).not_gt (hle.trans hw.1.le).not_gt⟩
  · exact ⟨iff_of_false (hv.2.le.trans hle).not_gt (hw.2.le.trans hle).not_gt,
      iff_of_true (hv.2.trans_le hle) (hw.2.trans_le hle)⟩

theorem exists_mul_ten_zpow (k : ℕ) {d : ℤ} (hd : d ≤ 0) (hde : d ≤ e) :
    ∃ n : ℕ, (k * 2 ^ e : ℚ) = n * 10 ^ d := by
  refine ⟨k * 2 ^ (e - d).toNat * 5 ^ (-d).toNat, ?_⟩
  have htwo : (2 : ℚ) ^ (e - d).toNat = 2 ^ (e - d) := by
    rw [← zpow_natCast, Int.toNat_of_nonneg (by omega)]
  have hfive : (5 : ℚ) ^ (-d).toNat = 5 ^ (-d) := by
    rw [← zpow_natCast, Int.toNat_of_nonneg (by omega)]
  have hten : (10 : ℚ) ^ d = 2 ^ d * 5 ^ d := by
    rw [← mul_zpow]
    norm_num
  have hcancel : (5 : ℚ) ^ d ≠ 0 := zpow_ne_zero d (by norm_num)
  push_cast
  rw [htwo, hfive, hten, zpow_sub₀ two_ne_zero, zpow_neg]
  field_simp

theorem ten_pow_le : (10 : ℚ) ^ 1074 ≤ 2 ^ 3580 := by
  have hthree : (10 : ℚ) ^ 3 ≤ 2 ^ 10 := by norm_num
  calc (10 : ℚ) ^ 1074 = (10 ^ 3) ^ 358 := by rw [← pow_mul]
    _ ≤ (2 ^ 10) ^ 358 := pow_le_pow_left₀ (by norm_num) hthree 358
    _ = 2 ^ 3580 := by rw [← pow_mul]

/-- Between two decimals that differ in the last of many digits there is no double, and no middle between
two doubles. -/
theorem no_double_between {u : ℕ} (hu : 2 ^ 4096 ≤ u) (d : ℤ) {k : ℕ} (hk : k < 2 ^ 55) (hlow : -1075 ≤ e)
    (hhigh : e ≤ 1024) : (k * 2 ^ e : ℚ) ≤ u * 10 ^ d ∨ (u + 1) * 10 ^ d ≤ (k * 2 ^ e : ℚ) := by
  have hten : (0 : ℚ) < 10 ^ d := zpow_pos (by norm_num) d
  have hu' : (2 : ℚ) ^ (4096 : ℤ) ≤ u := by exact_mod_cast hu
  have hk' : (k : ℚ) ≤ 2 ^ (55 : ℤ) := by exact_mod_cast hk.le
  by_cases hinteger : d ≤ 0 ∧ d ≤ e
  · obtain ⟨n, hn⟩ := exists_mul_ten_zpow k hinteger.1 hinteger.2
    rw [hn]
    rcases Nat.lt_or_ge u n with hlt | hge
    · exact .inr (mul_le_mul_of_nonneg_right (by exact_mod_cast hlt) hten.le)
    · exact .inl (mul_le_mul_of_nonneg_right (by exact_mod_cast hge) hten.le)
  -- otherwise the decimals are large
  left
  by_cases hd : 0 ≤ d
  · calc (k * 2 ^ e : ℚ) ≤ 2 ^ (55 : ℤ) * 2 ^ (1024 : ℤ) :=
          mul_le_mul hk' (zpow_le_zpow_right₀ one_le_two hhigh) (zpow_pos two_pos e).le (zpow_pos two_pos _).le
      _ = 2 ^ (1079 : ℤ) := by rw [← zpow_add₀ two_ne_zero]; rfl
      _ ≤ 2 ^ (4096 : ℤ) := zpow_le_zpow_right₀ one_le_two (by decide)
      _ ≤ u := hu'
      _ ≤ u * 10 ^ d := le_mul_of_one_le_right (Nat.cast_nonneg u) (one_le_zpow₀ (by norm_num) hd)
  · have hpower : (2 : ℚ) ^ (-3580 : ℤ) ≤ 10 ^ d := by
      calc (2 : ℚ) ^ (-3580 : ℤ) = (2 ^ 3580)⁻¹ := by rw [zpow_neg]; norm_cast
        _ ≤ (10 ^ 1074)⁻¹ := (inv_le_inv₀ (by positivity) (by positivity)).mpr ten_pow_le
        _ = 10 ^ (-1074 : ℤ) := by rw [zpow_neg]; norm_cast
        _ ≤ 10 ^ d := zpow_le_zpow_right₀ (by norm_num) (by omega)
    calc (k * 2 ^ e : ℚ) ≤ 2 ^ (55 : ℤ) * 2 ^ (0 : ℤ) :=
          mul_le_mul hk' (zpow_le_zpow_right₀ one_le_two (by omega)) (zpow_pos two_pos e).le
            (zpow_pos two_pos _).le
      _ = 2 ^ (55 : ℤ) := by rw [zpow_zero, mul_one]
      _ ≤ 2 ^ (516 : ℤ) := zpow_le_zpow_right₀ one_le_two (by decide)
      _ = 2 ^ (4096 : ℤ) * 2 ^ (-3580 : ℤ) := by rw [← zpow_add₀ two_ne_zero]; rfl
      _ ≤ u * 10 ^ d := mul_le_mul hu' hpower (zpow_pos two_pos _).le (Nat.cast_nonneg u)

namespace Numeral

variable {c : ℕ}

theorem ten_pow_places_le (n : ℕ) : 10 ^ (n * 3 / 10) ≤ 2 ^ n := by
  rw [← Nat.pow_le_pow_iff_left (n := 3) (by decide)]
  calc (10 ^ (n * 3 / 10)) ^ 3 = (10 ^ 3) ^ (n * 3 / 10) := by rw [← Nat.pow_mul, ← Nat.pow_mul, Nat.mul_comm]
    _ ≤ (2 ^ 10) ^ (n * 3 / 10) := Nat.pow_le_pow_left (by decide) _
    _ = 2 ^ (10 * (n * 3 / 10)) := by rw [← Nat.pow_mul]
    _ ≤ 2 ^ (n * 3) := Nat.pow_le_pow_right (by decide) (Nat.mul_div_le _ _)
    _ = (2 ^ n) ^ 3 := by rw [← Nat.pow_mul]

/-- Long decimals are cut to enough digits and one that says if there were more. -/
theorem cut_cases (c : ℕ) (e : ℤ) : cut c e = (c, e) ∨
    ∃ p u r : ℕ, c = u * 10 ^ p + r ∧ r < 10 ^ p ∧ 2 ^ 4096 ≤ u ∧
      cut c e = (10 * u + (if r = 0 then 0 else 1), e + p - 1) := by
  by_cases hplaces : (c.log2 - decidingBits) * 3 / 10 = 0
  · left
    unfold cut
    dsimp only
    rw [if_pos hplaces]
  · right
    have hbits : 4096 + (c.log2 - decidingBits) = c.log2 := by
      unfold decidingBits at *
      omega
    refine ⟨_, _, _, (Nat.div_add_mod' c (10 ^ ((c.log2 - decidingBits) * 3 / 10))).symm,
      Nat.mod_lt _ (Nat.pow_pos (by decide)), ?_, ?_⟩
    · have hpow := ten_pow_places_le (c.log2 - decidingBits)
      rw [Nat.le_div_iff_mul_le (Nat.pow_pos (by decide))]
      have hc : c ≠ 0 := by
        rintro rfl
        exact hplaces rfl
      calc 2 ^ 4096 * 10 ^ ((c.log2 - decidingBits) * 3 / 10) ≤ 2 ^ 4096 * 2 ^ (c.log2 - decidingBits) :=
            Nat.mul_le_mul_left _ hpow
        _ = 2 ^ c.log2 := by rw [← Nat.pow_add, hbits]
        _ ≤ c := Nat.log2_self_le hc
    · unfold cut
      dsimp only
      rw [if_neg hplaces]
      rfl

/-- The shorter decimal is rounded like the long one. -/
theorem sameSide_cut {e : ℤ} {p u r : ℕ} (hr : r < 10 ^ p) (hu : 2 ^ 4096 ≤ u) (hc : c = u * 10 ^ p + r) :
    SameSide ((10 * u + (if r = 0 then 0 else 1) : ℕ) * 10 ^ (e + p - 1)) (c * 10 ^ e) := by
  have hten : (0 : ℚ) < 10 ^ e := zpow_pos (by norm_num) e
  have hpow : (0 : ℚ) < 10 ^ p := by positivity
  have hunit : (10 : ℚ) ^ (e + p) = 10 ^ e * 10 ^ p := by
    rw [zpow_add₀ (by norm_num), zpow_natCast]
  have hlast : (10 : ℚ) ^ (e + p - 1) = 10 ^ e * 10 ^ p / 10 := by
    rw [zpow_sub_one₀ (by norm_num), hunit, div_eq_mul_inv]
  have hr' : (r : ℚ) < 10 ^ p := by exact_mod_cast hr
  rw [hlast, hc]
  by_cases hzero : r = 0
  · subst hzero
    have heq : ((10 * u + (if 0 = 0 then 0 else 1) : ℕ) * (10 ^ e * 10 ^ p / 10) : ℚ) =
        (u * 10 ^ p + 0 : ℕ) * 10 ^ e := by
      push_cast
      ring
    rw [heq]
    exact .refl _
  · have hpos : (1 : ℚ) ≤ r := by exact_mod_cast Nat.pos_of_ne_zero hzero
    rw [if_neg hzero]
    apply sameSide_of_between (a := u * 10 ^ (e + p)) (b := (u + 1) * 10 ^ (e + p))
    iterate 2
      rw [hunit]
      push_cast
      constructor <;> nlinarith [mul_pos hten hpow]
    · intro k j hk hlow hhigh
      exact no_double_between hu _ hk hlow hhigh

/-- A decimal is rounded once. -/
theorem roundedTo_magnitude (hc : 0 < c) (e : ℤ) : RoundedTo (c * 10 ^ e) (magnitude c e) := by
  have hten : (0 : ℚ) < 10 ^ e := zpow_pos (by norm_num) e
  -- The equation is used as it stands: unfolding would have the kernel evaluate `cut`.
  rw [magnitude.eq_1 c e]
  rcases cut_cases c e with hcut | ⟨p, u, r, hsplit, hr, hu, hcut⟩
  · rw [hcut]
    exact roundedTo_ofScientific hc e
  · rw [hcut]
    have hpos : 0 < 10 * u + (if r = 0 then 0 else 1) := by
      have := Nat.two_pow_pos 4096
      omega
    exact (sameSide_cut hr hu hsplit).roundedTo (mul_pos (Nat.cast_pos.mpr hpos) (zpow_pos (by norm_num) _))
      (mul_pos (Nat.cast_pos.mpr hc) hten) (roundedTo_ofScientific hpos _)

theorem magnitude_zero (e : ℤ) : magnitude 0 e = 0.0 := by
  rw [magnitude.eq_1 0 e]
  rcases cut_cases 0 e with hcut | ⟨p, u, r, hsplit, -, hu, -⟩
  · rw [hcut]
    exact ofScientific_zero _ _
  · have hzero := (Nat.add_eq_zero_iff.mp hsplit.symm).1
    have hpos : 0 < u * 10 ^ p := Nat.mul_pos ((Nat.two_pow_pos _).trans_le hu) (Nat.pow_pos (by decide))
    exact absurd hzero hpos.ne'

theorem magnitude_congr {c' : ℕ} {e e' : ℤ} (h : (c * 10 ^ e : ℚ) = c' * 10 ^ e') :
    magnitude c e = magnitude c' e' := by
  have hten (k : ℤ) : (10 : ℚ) ^ k ≠ 0 := zpow_ne_zero k (by norm_num)
  rcases Nat.eq_zero_or_pos c with rfl | hc
  · rw [Nat.cast_zero, zero_mul, eq_comm, mul_eq_zero, or_iff_left (hten e'), Nat.cast_eq_zero] at h
    rw [h, magnitude_zero, magnitude_zero]
  · rcases Nat.eq_zero_or_pos c' with rfl | hc'
    · rw [Nat.cast_zero, zero_mul, mul_eq_zero, or_iff_left (hten e), Nat.cast_eq_zero] at h
      exact absurd h hc.ne'
    · have hrounded := roundedTo_magnitude hc e
      rw [h] at hrounded
      exact hrounded.unique (roundedTo_magnitude hc' e')

theorem nearestDouble_magnitude (c : ℕ) (e : ℤ) : NearestDouble (c * 10 ^ e) (magnitude c e) := by
  rcases Nat.eq_zero_or_pos c with rfl | hc
  · rw [magnitude_zero, Nat.cast_zero, zero_mul]
    exact nearestDouble_zero
  · exact (roundedTo_magnitude hc e).nearestDouble (mul_pos (Nat.cast_pos.mpr hc) (zpow_pos (by norm_num) e))

end Numeral

/-- A decimal between the middles to the neighbours of a double is read as the double. -/
theorem Parts.magnitude_eq {x : Float} (hx : Parts.ofFloat? x = some ⟨false, m, e⟩) (hm : m ≠ 0) {c : ℕ}
    (hc : 0 < c) (k : ℤ) (hnear : NearestEven (c * 10 ^ k / 2 ^ e) m)
    (hbelow : m = 2 ^ 52 → e ≠ -1074 → (m : ℚ) - 1 / 4 ≤ c * 10 ^ k / 2 ^ e) : Numeral.magnitude c k = x := by
  obtain ⟨u, hu, hmagnitude⟩ := Numeral.roundedTo_magnitude hc k
  have hv : (0 : ℚ) < c * 10 ^ k := mul_pos (Nat.cast_pos.mpr hc) (zpow_pos (by norm_num) k)
  have h : Reduced m e := (Parts.reduced hx hm).1
  have hfinite : u = .finite (signOf false) m e h.pos := hu.eq_finite hv h hnear hbelow
  rw [hmagnitude, hfinite, ← Parts.unpacked_of_ne_zero hm]
  exact (Parts.eq_pack hx).symm

end Surmise
