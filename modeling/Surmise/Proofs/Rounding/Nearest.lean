import Mathlib.Data.Int.Log
import Mathlib.Data.Rat.Floor
import Mathlib.Tactic.FieldSimp
import Mathlib.Tactic.Linarith
import Surmise.Proofs.Rounding.Packing

/-! Rounding to the nearest double. A number is measured in units of the last place that a double of its
size has, and the nearest whole number of units is taken. The bits below the unit are dropped one by one;
of them only the first, and whether any other was set, is kept. -/
namespace Surmise

open Float.Model Float.Model.UnpackedFloat

/-! ### The nearest integer -/

/-- The integer nearest to a number, and of two that are equally near the even one. -/
structure NearestEven (x : ℚ) (n : ℕ) : Prop where
  low : (n : ℚ) - 1 / 2 ≤ x
  high : x ≤ (n : ℚ) + 1 / 2
  even : x = (n : ℚ) - 1 / 2 ∨ x = (n : ℚ) + 1 / 2 → n % 2 = 0

namespace NearestEven
variable {x : ℚ} {m n : ℕ}

theorem le (hm : NearestEven x m) (hn : NearestEven x n) : m ≤ n := by
  by_contra hlt
  have hsucc : (n : ℚ) + 1 ≤ m := by exact_mod_cast Nat.lt_of_not_le hlt
  have hlow := hm.low
  have hhigh := hn.high
  -- the number lies in the middle between the two, and only one of them is even
  have hx : x = n + 1 / 2 := by linarith
  have hm' : (m : ℚ) = n + 1 := by linarith
  have heven := hm.even (.inl (by linarith))
  have heven' := hn.even (.inr hx)
  have : m = n + 1 := by exact_mod_cast hm'
  omega

theorem unique (hm : NearestEven x m) (hn : NearestEven x n) : m = n :=
  Nat.le_antisymm (hm.le hn) (hn.le hm)

theorem le_of_lt (h : NearestEven x n) (hlt : x < m) : n ≤ m := by
  have hlow := h.low
  have : (n : ℚ) < m + 1 := by linarith
  exact Nat.lt_succ_iff.mp (by exact_mod_cast this)

end NearestEven

/-! ### Dropping bits -/

def Holds (x : ℚ) : ExtendedMantissa → Prop
  | ⟨m, false, false⟩ => x = m
  | ⟨m, false, true⟩ => m < x ∧ x < m + 1 / 2
  | ⟨m, true, false⟩ => x = m + 1 / 2
  | ⟨m, true, true⟩ => m + 1 / 2 < x ∧ x < m + 1

namespace Holds
variable {em : ExtendedMantissa} {x : ℚ}

theorem shiftRightOne (h : Holds x em) : Holds (x / 2) em.shiftRightOne := by
  obtain ⟨m, r, s⟩ := em
  have hm : (m : ℚ) = 2 * (m / 2 : ℕ) + (m % 2 : ℕ) := by exact_mod_cast (Nat.div_add_mod m 2).symm
  have hshift : ExtendedMantissa.shiftRightOne ⟨m, r, s⟩ = ⟨m / 2, m % 2 != 0, r || s⟩ := rfl
  rw [hshift]
  obtain hbit | hbit := Nat.mod_two_eq_zero_or_one m
  all_goals
    rw [hbit] at hm ⊢
    push_cast at hm
    cases r <;> cases s <;> simp [Holds] at h ⊢ <;> grind

theorem floor (h : Holds x em) : (em.mantissa : ℚ) ≤ x ∧ x < em.mantissa + 1 := by
  obtain ⟨m, r, s⟩ := em
  cases r <;> cases s <;> simp only [Holds] at h ⊢ <;> constructor <;> linarith

theorem shiftRight (h : Holds x em) (k : ℕ) : Holds (x / 2 ^ k) (em >>> k) := by
  induction k with
  | zero =>
    rw [pow_zero, div_one]
    exact h
  | succ k ih =>
    have hone := ih.shiftRightOne
    rw [div_div, ← pow_succ] at hone
    exact hone

theorem roundedMantissa (h : Holds x em) : NearestEven x em.roundedMantissa := by
  obtain ⟨m, r, s⟩ := em
  cases r <;> cases s
  all_goals
    simp only [Holds, ExtendedMantissa.roundedMantissa, ExtendedMantissa.accuracy,
      Accuracy.roundToNearestEven] at h ⊢
  iterate 2 exact ⟨by linarith, by linarith, by rintro (h' | h') <;> linarith⟩
  · -- the middle: an odd mantissa goes up
    obtain hbit | hbit := Nat.mod_two_eq_zero_or_one m <;> rw [hbit] <;>
      exact ⟨by push_cast; linarith, by push_cast; linarith, fun _ => by omega⟩
  · exact ⟨by push_cast; linarith, by push_cast; linarith, by push_cast; rintro (h' | h') <;> linarith⟩

theorem mantissa_ofMantissaAndAccuracy (m : ℕ) (acc : Accuracy) :
    (ExtendedMantissa.ofMantissaAndAccuracy m acc).mantissa = m := by
  rcases acc with _ | (_ | _ | _) <;> rfl

end Holds

/-! ### Units -/

variable {v : ℚ} {m : ℕ} {e : ℤ}

theorem log_eq_of_mem {k : ℤ} (hv : 0 < v) (hlow : 2 ^ k ≤ v) (hhigh : v < 2 ^ (k + 1)) :
    Int.log 2 v = k := by
  have hle : k ≤ Int.log 2 v := (Int.zpow_le_iff_le_log Nat.one_lt_two hv).mp hlow
  have hlt : Int.log 2 v < k + 1 := (Int.lt_zpow_iff_log_lt Nat.one_lt_two hv).mp hhigh
  omega

theorem zpow_log2_le (hm : 0 < m) (e : ℤ) : (2 : ℚ) ^ (m.log2 + e) ≤ m * 2 ^ e := by
  have hpow : ((2 ^ m.log2 : ℕ) : ℚ) ≤ m := by exact_mod_cast Nat.log2_self_le hm.ne'
  push_cast at hpow
  rw [zpow_add₀ two_ne_zero, zpow_natCast]
  exact mul_le_mul_of_nonneg_right hpow (zpow_pos two_pos e).le

theorem succ_mul_le_zpow (m : ℕ) (e : ℤ) : ((m + 1) * 2 ^ e : ℚ) ≤ 2 ^ (m.log2 + 1 + e) := by
  have hpow : (m + 1 : ℚ) ≤ 2 ^ (m.log2 + 1 : ℤ) := by exact_mod_cast Nat.lt_log2_self
  rw [zpow_add₀ two_ne_zero]
  exact mul_le_mul_of_nonneg_right hpow (zpow_pos two_pos e).le

def unitExponent (v : ℚ) : ℤ := max (Int.log 2 v - 52) (-1074)

theorem unitExponent_eq_iff (hv : 0 < v) : unitExponent v = e ↔
    v / 2 ^ e < 2 ^ 53 ∧ (2 ^ 52 ≤ v / 2 ^ e ∧ -1074 ≤ e ∨ e = -1074) := by
  have hunit : (0 : ℚ) < 2 ^ e := zpow_pos two_pos e
  have hupper : v / 2 ^ e < 2 ^ 53 ↔ Int.log 2 v < 53 + e := by
    rw [div_lt_iff₀ hunit, ← Int.lt_zpow_iff_log_lt Nat.one_lt_two hv, Nat.cast_ofNat,
      zpow_add₀ two_ne_zero]
    norm_cast
  have hlower : 2 ^ 52 ≤ v / 2 ^ e ↔ 52 + e ≤ Int.log 2 v := by
    rw [le_div_iff₀ hunit, ← Int.zpow_le_iff_le_log Nat.one_lt_two hv, Nat.cast_ofNat,
      zpow_add₀ two_ne_zero]
    norm_cast
  rw [hupper, hlower]
  unfold unitExponent
  omega

theorem div_unit_mem (hv : 0 < v) : v / 2 ^ unitExponent v < 2 ^ 53 ∧
    (2 ^ 52 ≤ v / 2 ^ unitExponent v ∧ -1074 ≤ unitExponent v ∨ unitExponent v = -1074) :=
  (unitExponent_eq_iff hv).mp rfl

theorem targetExponent_eq_unitExponent (hv : 0 < v) (hlow : m ≤ v / 2 ^ e) (hhigh : v / 2 ^ e < m + 1)
    (he : e ≤ unitExponent v) : Format.binary64.targetExponent (totalExponent m e) = unitExponent v := by
  have hunit : (0 : ℚ) < 2 ^ e := zpow_pos two_pos e
  rw [le_div_iff₀ hunit] at hlow
  rw [div_lt_iff₀ hunit] at hhigh
  rw [targetExponent_eq, totalExponent]
  unfold unitExponent at he ⊢
  rcases Nat.eq_zero_or_pos m with rfl | hm
  · -- a number below the unit is tiny
    have hlt : v < 2 ^ e := by simpa using hhigh
    have hlog : Int.log 2 v < e := (Int.lt_zpow_iff_log_lt Nat.one_lt_two hv).mp hlt
    simp only [Nat.log2_zero]
    omega
  · have hlog : Int.log 2 v = m.log2 + e := by
      apply log_eq_of_mem hv ((zpow_log2_le hm e).trans hlow)
      rw [add_right_comm]
      exact hhigh.trans_le (succ_mul_le_zpow m e)
    rw [hlog]
    omega

/-! ### Rounding -/

variable {m₁ m₂ : ℕ}

/-- What a number of units is as a double: one more than the longest significand is carried. -/
inductive Stands (s : Sign) : ℕ → ℤ → UnpackedFloat → Prop
  | zero (e : ℤ) : Stands s 0 e (.zero s)
  | finite {m : ℕ} {e : ℤ} (hpos : 0 < m) (hlt : m < 2 ^ 53) : Stands s m e (.finite s m e hpos)
  | carried (e : ℤ) : Stands s (2 ^ 53) e (.finite s (2 ^ 52) (e + 1) (by decide))

theorem shiftToTargetExponent_eq {k : ℕ} (acc : Accuracy)
    (hk : (Format.binary64.targetExponent (totalExponent m e) - e).toNat = k) :
    shiftToTargetExponent Format.binary64 m e acc =
      (ExtendedMantissa.ofMantissaAndAccuracy m acc >>> k, e + k) := by
  unfold shiftToTargetExponent shiftToExponent
  simp only [hk]

theorem exists_second_shift (s : Sign) {n : ℕ} (hn : n ≤ 2 ^ 53) (he : -1074 ≤ e) :
    ∃ em e', shiftToTargetExponent Format.binary64 n e .exact = (em, e') ∧ Stands s n e
      (if h : em.mantissa = 0 then .zero s else .finite s em.mantissa e' (Nat.pos_of_ne_zero h)) := by
  rcases hn.eq_or_lt with rfl | hlt
  · have hone : (Format.binary64.targetExponent (totalExponent (2 ^ 53) e) - e).toNat = 1 := by
      rw [targetExponent_eq, totalExponent, Nat.log2_two_pow]
      omega
    exact ⟨_, _, shiftToTargetExponent_eq _ hone, Stands.carried e⟩
  · have hzero : (Format.binary64.targetExponent (totalExponent n e) - e).toNat = 0 := by
      have hlog : n.log2 < 53 := by
        rcases Nat.eq_zero_or_pos n with rfl | hpos
        · decide
        · exact (Nat.log2_lt hpos.ne').mpr hlt
      rw [targetExponent_eq, totalExponent]
      omega
    refine ⟨.ofMantissaAndAccuracy n .exact, e, ?_, ?_⟩
    · rw [shiftToTargetExponent_eq _ hzero, Int.natCast_zero, Int.add_zero]
      rfl
    · rcases Nat.eq_zero_or_pos n with rfl | hpos
      · exact Stands.zero e
      · exact (dif_neg hpos.ne').symm ▸ Stands.finite hpos hlt

def Rounded (s : Sign) (v : ℚ) (u : UnpackedFloat) : Prop :=
  ∃ n, NearestEven (v / 2 ^ unitExponent v) n ∧ Stands s n (unitExponent v) u

theorem rounded_roundWithAccuracy (hv : 0 < v) (s : Sign) {acc : Accuracy}
    (h : Holds (v / 2 ^ e) (.ofMantissaAndAccuracy m acc)) (he : e ≤ unitExponent v) :
    Rounded s v (roundWithAccuracy Format.binary64 s m e acc) := by
  have hfloor := h.floor
  rw [Holds.mantissa_ofMantissaAndAccuracy] at hfloor
  have htarget := targetExponent_eq_unitExponent hv hfloor.1 hfloor.2 he
  obtain ⟨k, hk⟩ : ∃ k : ℕ, unitExponent v = e + k := ⟨(unitExponent v - e).toNat, by omega⟩
  have hfirst := shiftToTargetExponent_eq (k := k) acc (by rw [htarget]; omega)
  have hshifted := h.shiftRight k
  rw [div_div, ← zpow_natCast, ← zpow_add₀ two_ne_zero, ← hk] at hshifted
  have hnear := hshifted.roundedMantissa
  have hleast : -1074 ≤ unitExponent v := le_max_right _ _
  obtain ⟨em, e', hsecond, hstands⟩ := exists_second_shift s (hnear.le_of_lt (by exact_mod_cast (div_unit_mem hv).1)) hleast
  refine ⟨_, hnear, ?_⟩
  unfold roundWithAccuracy
  rw [hfirst, ← hk]
  dsimp only
  rw [hsecond]
  exact hstands

/-- A number that has at least the bits of a double is rounded by dropping bits. -/
theorem rounded_exact (s : Sign) (hm : 0 < m) (he : e ≤ unitExponent (m * 2 ^ e)) :
    Rounded s (m * 2 ^ e) (roundWithAccuracy Format.binary64 s m e .exact) := by
  have hunit : (0 : ℚ) < 2 ^ e := zpow_pos two_pos e
  refine rounded_roundWithAccuracy (mul_pos (Nat.cast_pos.mpr hm) hunit) s ?_ he
  exact mul_div_cancel_right₀ _ hunit.ne'

/-- Quotient and remainder tell where a fraction lies between two whole numbers and their middle. -/
theorem holds_fraction (a : ℕ) {b : ℕ} (hb : 0 < b) :
    Holds (a / b) (.ofMantissaAndAccuracy (a / b) (accuracyOfFraction (a % b) b)) := by
  have hb' : (0 : ℚ) < b := Nat.cast_pos.mpr hb
  have hsplit : (a : ℚ) / b = (a / b : ℕ) + (a % b : ℕ) / b := by
    rw [div_eq_iff hb'.ne', add_mul, div_mul_cancel₀ _ hb'.ne']
    exact_mod_cast (Nat.div_add_mod' a b).symm
  have hlt : ((a % b : ℕ) : ℚ) < b := by exact_mod_cast Nat.mod_lt a hb
  rw [hsplit]
  unfold accuracyOfFraction
  generalize a % b = r at hlt
  by_cases hr : r = 0
  · subst hr
    simp [ExtendedMantissa.ofMantissaAndAccuracy, Holds]
  have hpos : (0 : ℚ) < r / b := div_pos (by exact_mod_cast Nat.pos_of_ne_zero hr) hb'
  rw [if_neg hr]
  rcases lt_trichotomy (2 * r) b with h | h | h
  · have hhalf : (r : ℚ) / b < 1 / 2 := by
      rw [div_lt_div_iff₀ hb' two_pos]
      exact_mod_cast (by omega : r * 2 < 1 * b)
    rw [Nat.compare_eq_lt.mpr h]
    exact ⟨by linarith, by linarith⟩
  · have hhalf : (r : ℚ) / b = 1 / 2 := by
      rw [div_eq_div_iff hb'.ne' two_ne_zero]
      exact_mod_cast (by omega : r * 2 = 1 * b)
    rw [Nat.compare_eq_eq.mpr h, hhalf]
    rfl
  · have hhalf : 1 / 2 < (r : ℚ) / b := by
      rw [div_lt_div_iff₀ two_pos hb']
      exact_mod_cast (by omega : 1 * b < r * 2)
    have hone : (r : ℚ) / b < 1 := (div_lt_one hb').mpr hlt
    rw [Nat.compare_eq_gt.mpr h]
    exact ⟨by linarith, by linarith⟩

theorem rounded_mul (s₁ s₂ : Sign) (e₁ e₂ : ℤ) (hm₁ : 0 < m₁) (hm₂ : 0 < m₂)
    (he : e₁ + e₂ ≤ unitExponent (m₁ * 2 ^ e₁ * (m₂ * 2 ^ e₂))) :
    Rounded (s₁ * s₂) (m₁ * 2 ^ e₁ * (m₂ * 2 ^ e₂))
      (UnpackedFloat.mul Format.binary64 (.finite s₁ m₁ e₁ hm₁) (.finite s₂ m₂ e₂ hm₂)) := by
  have hv : (m₁ * 2 ^ e₁ * (m₂ * 2 ^ e₂) : ℚ) = (m₁ * m₂ : ℕ) * 2 ^ (e₁ + e₂) := by
    rw [zpow_add₀ two_ne_zero]
    push_cast
    ring
  rw [hv] at he ⊢
  exact rounded_exact _ (Nat.mul_pos hm₁ hm₂) he

theorem divCore_le_unitExponent (e₁ e₂ : ℤ) (hm₁ : 0 < m₁) (hm₂ : 0 < m₂) :
    Format.binary64.targetExponent (totalExponent m₁ e₁ - totalExponent m₂ e₂) ≤
      unitExponent (m₁ * 2 ^ e₁ / (m₂ * 2 ^ e₂)) := by
  have hden : (0 : ℚ) < m₂ * 2 ^ e₂ := mul_pos (Nat.cast_pos.mpr hm₂) (zpow_pos two_pos _)
  have hnum : (0 : ℚ) < m₁ * 2 ^ e₁ := mul_pos (Nat.cast_pos.mpr hm₁) (zpow_pos two_pos _)
  have hv : (0 : ℚ) < m₁ * 2 ^ e₁ / (m₂ * 2 ^ e₂) := div_pos hnum hden
  have hlog : m₁.log2 + e₁ - (m₂.log2 + 1 + e₂) ≤ Int.log 2 (m₁ * 2 ^ e₁ / (m₂ * 2 ^ e₂) : ℚ) := by
    apply (Int.zpow_le_iff_le_log Nat.one_lt_two hv).mp
    have hle : (m₂ * 2 ^ e₂ : ℚ) ≤ 2 ^ (m₂.log2 + 1 + e₂) :=
      (mul_le_mul_of_nonneg_right (lt_add_one _).le (zpow_pos two_pos e₂).le).trans (succ_mul_le_zpow m₂ e₂)
    rw [Nat.cast_ofNat, zpow_sub₀ two_ne_zero]
    exact div_le_div₀ hnum.le (zpow_log2_le hm₁ e₁) hden hle
  rw [targetExponent_eq, totalExponent, totalExponent]
  unfold unitExponent
  omega

theorem rounded_div (s₁ s₂ : Sign) (e₁ e₂ : ℤ) (hm₁ : 0 < m₁) (hm₂ : 0 < m₂) :
    Rounded (s₁ / s₂) (m₁ * 2 ^ e₁ / (m₂ * 2 ^ e₂))
      (UnpackedFloat.div Format.binary64 (.finite s₁ m₁ e₁ hm₁) (.finite s₂ m₂ e₂ hm₂)) := by
  have hbits := divCore_le_unitExponent e₁ e₂ hm₁ hm₂
  unfold UnpackedFloat.div divCore
  dsimp only
  generalize Format.binary64.targetExponent _ = t at hbits ⊢
  obtain ⟨k, hk⟩ : ∃ k : ℕ, min (e₁ - e₂) t = e₁ - e₂ - k := ⟨(e₁ - e₂ - min (e₁ - e₂) t).toNat, by omega⟩
  have hshift : (e₁ - e₂ - (e₁ - e₂ - (k : ℤ))).toNat = k := by omega
  rw [hk, hshift]
  apply rounded_roundWithAccuracy
  · exact div_pos (mul_pos (Nat.cast_pos.mpr hm₁) (zpow_pos two_pos _))
      (mul_pos (Nat.cast_pos.mpr hm₂) (zpow_pos two_pos _))
  · have hquotient : (m₁ * 2 ^ e₁ / (m₂ * 2 ^ e₂) / 2 ^ (e₁ - e₂ - k) : ℚ) = (m₁ <<< k : ℕ) / m₂ := by
      have hm₂' : (m₂ : ℚ) ≠ 0 := Nat.cast_ne_zero.mpr hm₂.ne'
      rw [Nat.shiftLeft_eq, zpow_sub₀ two_ne_zero, zpow_sub₀ two_ne_zero, zpow_natCast]
      push_cast
      field_simp
    rw [hquotient]
    exact holds_fraction _ hm₂
  · omega

end Surmise
