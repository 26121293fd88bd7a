import Surmise.Proofs.Rounding.Decimal

/-! The order of doubles. Of two that are not negative the less is the one that is the less number, and a
natural number is compared with another by their doubles. -/
namespace Surmise

open Float.Model Float.Model.UnpackedFloat

theorem float_lt_iff {x y : Float} : x < y ↔ x.toModel.unpack.compare y.toModel.unpack = some .lt :=
  decide_eq_true_iff.trans beq_iff_eq

namespace Reduced
variable {m m' : ℕ} {e e' : ℤ}

/-- The larger exponent makes the larger number, for only the least exponent leaves significands short. -/
theorem lt_of_exponent_lt (h : Reduced m e) (h' : Reduced m' e') (hlt : e < e') :
    (m * 2 ^ e : ℚ) < m' * 2 ^ e' := by
  have hlong : 2 ^ 52 ≤ m' := h'.long.resolve_right (by have := h.least; omega)
  have hpower : (2 : ℚ) ^ (e + 1) ≤ 2 ^ e' := zpow_le_zpow_right₀ one_le_two hlt
  calc (m * 2 ^ e : ℚ) < 2 ^ 53 * 2 ^ e :=
        mul_lt_mul_of_pos_right (by exact_mod_cast h.lt) (zpow_pos two_pos e)
    _ = 2 ^ 52 * 2 ^ (e + 1) := by rw [zpow_add_one₀ two_ne_zero]; ring
    _ ≤ m' * 2 ^ e' := mul_le_mul (by exact_mod_cast hlong) hpower (zpow_pos two_pos _).le (Nat.cast_nonneg _)

theorem compare_eq_lt_iff (h : Reduced m e) (h' : Reduced m' e') :
    (compare e e').then (compare m m') = .lt ↔ (m * 2 ^ e : ℚ) < m' * 2 ^ e' := by
  rw [Ordering.then_eq_lt, Int.compare_eq_lt, Int.compare_eq_eq, Nat.compare_eq_lt]
  rcases lt_trichotomy e e' with hlt | rfl | hgt
  · exact iff_of_true (.inl hlt) (h.lt_of_exponent_lt h' hlt)
  · rw [mul_lt_mul_iff_left₀ (zpow_pos two_pos e), Nat.cast_lt]
    simp
  · exact iff_of_false (by omega) (h'.lt_of_exponent_lt h hgt).not_gt

end Reduced

namespace Parts
variable {x y : Float} {p q : Parts}

/-- Doubles that are not negative are ordered as the numbers that they are. -/
theorem lt_iff_value_lt (hx : ofFloat? x = some p) (hy : ofFloat? y = some q) (hp : p.negative = false)
    (hq : q.negative = false) : x < y ↔ p.value < q.value := by
  obtain ⟨_, m, e⟩ := p
  obtain ⟨_, m', e'⟩ := q
  obtain rfl : _ = false := hp
  obtain rfl : _ = false := hq
  have hvalue (m : ℕ) (e : ℤ) : Parts.value ⟨false, m, e⟩ = m * 2 ^ e := one_mul _
  have hpos {m : ℕ} (hm : m ≠ 0) (e : ℤ) : (0 : ℚ) < m * 2 ^ e :=
    mul_pos (Nat.cast_pos.mpr (Nat.pos_of_ne_zero hm)) (zpow_pos two_pos e)
  rw [float_lt_iff, unpack_of_ofFloat? hx, unpack_of_ofFloat? hy, hvalue, hvalue]
  by_cases hm : m = 0
  · subst hm
    rw [Nat.cast_zero, zero_mul]
    by_cases hm' : m' = 0
    · subst hm'
      rw [Nat.cast_zero, zero_mul]
      exact iff_of_false (fun h => by cases h) (lt_irrefl _)
    · rw [unpacked_of_ne_zero hm']
      exact iff_of_true rfl (hpos hm' e')
  · rw [unpacked_of_ne_zero hm]
    by_cases hm' : m' = 0
    · subst hm'
      rw [Nat.cast_zero, zero_mul]
      exact iff_of_false (fun h => by cases h) (hpos hm e).not_gt
    · rw [unpacked_of_ne_zero hm', ← (reduced hx hm).1.compare_eq_lt_iff (reduced hy hm').1]
      exact Option.some_inj

/-- After a double with an even significand comes the one with the next significand. -/
theorem exists_next (hx : ofFloat? x = some p) (hp : p.negative = false) (heven : p.significand % 2 = 0) :
    ∃ z, ofFloat? z = some ⟨false, p.significand + 1, p.exponent⟩ ∧
      ∀ y q, ofFloat? y = some q → q.negative = false → p.value < q.value →
        Parts.value ⟨false, p.significand + 1, p.exponent⟩ ≤ q.value := by
  obtain ⟨_, m, e⟩ := p
  obtain rfl : _ = false := hp
  have hfields := (ofFloat?_eq_some_iff.mp hx).2
  dsimp only at hfields heven
  have hnext : Reduced (m + 1) e := ⟨by omega, by omega, by omega, by omega⟩
  refine ⟨_, hnext.ofFloat?_pack (by omega) false, fun y q hy hq hlt => ?_⟩
  obtain ⟨_, m', e'⟩ := q
  obtain rfl : _ = false := hq
  have hvalue (m : ℕ) (e : ℤ) : Parts.value ⟨false, m, e⟩ = m * 2 ^ e := one_mul _
  rw [hvalue, hvalue] at hlt ⊢
  have hunit : (0 : ℚ) < 2 ^ e := zpow_pos two_pos e
  have hm' : m' ≠ 0 := by
    rintro rfl
    rw [Nat.cast_zero, zero_mul] at hlt
    exact absurd hlt (mul_nonneg (Nat.cast_nonneg m) hunit.le).not_gt
  have hreduced : Reduced m' e' := (reduced hy hm').1
  rcases lt_trichotomy e e' with hless | rfl | hmore
  · exact (hnext.lt_of_exponent_lt hreduced hless).le
  · rw [mul_lt_mul_iff_left₀ hunit, Nat.cast_lt] at hlt
    exact mul_le_mul_of_nonneg_right (Nat.cast_le.mpr hlt) hunit.le
  · -- a double that is not zero and has a larger exponent is not below
    have hm : m ≠ 0 := by
      have := hreduced.least
      omega
    exact absurd hlt (hreduced.lt_of_exponent_lt (reduced hx hm).1 hmore).not_gt

theorem eq_of_value_eq (hx : ofFloat? x = some p) (hy : ofFloat? y = some q) (hp : p.negative = false)
    (hq : q.negative = false) (h : p.value = q.value) : p = q := by
  obtain ⟨_, m, e⟩ := p
  obtain ⟨_, m', e'⟩ := q
  obtain rfl : _ = false := hp
  obtain rfl : _ = false := hq
  have hvalue (m : ℕ) (e : ℤ) : Parts.value ⟨false, m, e⟩ = m * 2 ^ e := one_mul _
  rw [hvalue, hvalue] at h
  have hunit (e : ℤ) : (2 : ℚ) ^ e ≠ 0 := (zpow_pos two_pos e).ne'
  have hzero : m = 0 ↔ m' = 0 := by
    have hiff : (m * 2 ^ e : ℚ) = 0 ↔ (m' * 2 ^ e' : ℚ) = 0 := by rw [h]
    simpa [hunit] using hiff
  by_cases hm : m = 0
  · have hleast := (ofFloat?_eq_some_iff.mp hx).2
    have hleast' := (ofFloat?_eq_some_iff.mp hy).2
    dsimp only at hleast hleast'
    have hm' := hzero.mp hm
    rw [hm, hm', show e = e' by omega]
  · have hreduced : Reduced m e := (reduced hx hm).1
    have hreduced' : Reduced m' e' := (reduced hy (mt hzero.mpr hm)).1
    rcases lt_trichotomy e e' with hless | rfl | hmore
    · exact absurd h (hreduced.lt_of_exponent_lt hreduced' hless).ne
    · rw [Nat.cast_injective (mul_right_cancel₀ (hunit e) h)]
    · exact absurd h (hreduced'.lt_of_exponent_lt hreduced hmore).ne'

/-- Two doubles that are equally near, and nearest, do not both have even significands. -/
theorem odd_of_lt (hx : ofFloat? x = some p) (hy : ofFloat? y = some q) (hp : p.negative = false)
    (hq : q.negative = false) {v : ℚ} (hlt : p.value < q.value) (hdist : |p.value - v| = |q.value - v|)
    (hnear : ∀ z r, ofFloat? z = some r → |p.value - v| ≤ |r.value - v|) (heven : p.significand % 2 = 0) :
    q.significand % 2 ≠ 0 := by
  obtain ⟨z, hz, hnext⟩ := exists_next hx hp heven
  have hle := hnext y q hy hq hlt
  have hmiddle : p.value + q.value = 2 * v := by
    rcases abs_eq_abs.mp hdist with h | h <;> linarith
  have hbetween : p.value < Parts.value ⟨false, p.significand + 1, p.exponent⟩ := by
    have hunit : (0 : ℚ) < 2 ^ p.exponent := zpow_pos two_pos _
    simp only [Parts.value, hp]
    push_cast
    linarith
  have hfar := hnear z _ hz
  rw [abs_of_nonpos (by linarith)] at hfar
  have hsame : Parts.value ⟨false, p.significand + 1, p.exponent⟩ = q.value := by
    rcases le_abs.mp hfar with h | h <;> linarith
  rw [← eq_of_value_eq hz hy rfl hq hsame]
  dsimp only
  omega

end Parts

/-- There is one nearest double. -/
theorem NearestDouble.unique {v : ℚ} {x y : Float} (hx : NearestDouble v x) (hy : NearestDouble v y) :
    x = y := by
  rcases le_or_gt overflowBound v with hover | hunder
  · rw [hx.infinite hover, hy.infinite hover]
  · obtain ⟨p, hp, hpositive, hnear⟩ := hx.finite hunder
    obtain ⟨q, hq, hpositive', hnear'⟩ := hy.finite hunder
    obtain ⟨hle, htie⟩ := hnear y q hq
    obtain ⟨hle', htie'⟩ := hnear' x p hp
    have hdist := le_antisymm hle hle'
    have hvalue : p.value = q.value := by
      by_contra hne
      have heven := (htie hdist).resolve_left hne
      have heven' := (htie' hdist.symm).resolve_left (Ne.symm hne)
      rcases lt_or_gt_of_ne hne with hlt | hgt
      · exact Parts.odd_of_lt hp hq hpositive hpositive' hlt hdist (fun z r hr => (hnear z r hr).1)
          heven heven'
      · exact Parts.odd_of_lt hq hp hpositive' hpositive hgt hdist.symm (fun z r hr => (hnear' z r hr).1)
          heven' heven
    rw [Parts.eq_pack hp, Parts.eq_pack hq, Parts.eq_of_value_eq hp hq hpositive hpositive' hvalue]

/-- Whatever reads decimals as the nearest doubles reads them as they are read here. -/
theorem Numeral.eq_magnitude {read : ℕ → ℤ → Float} (h : ∀ (c : ℕ) e, NearestDouble (c * 10 ^ e) (read c e)) :
    read = magnitude :=
  funext₂ fun c e => (h c e).unique (nearestDouble_magnitude c e)

namespace Number
variable {n i : ℕ}

theorem value_ofNat (h : n < 2 ^ 53) : ∃ p, Parts.ofFloat? (ofNat n) = some p ∧ p.negative = false ∧
    p.value = n := by
  by_cases h0 : n = 0
  · subst h0
    exact ⟨⟨false, 0, -1074⟩, by decide +kernel, rfl, by simp [Parts.value]⟩
  · refine ⟨_, ofFloat?_ofNat h0 h, rfl, ?_⟩
    have hpower : (2 : ℚ) ^ (52 - n.log2) ≠ 0 := pow_ne_zero _ two_ne_zero
    simp [Parts.value, zpow_neg, hpower]

theorem nearestDouble_ofNat (h : 2 ^ 53 ≤ n) : NearestDouble n (ofNat n) := by
  have hn : 0 < n := by omega
  have hrounded : RoundedTo (n * 10 ^ (0 : ℤ)) (ofNat n) := by
    have hlarge : ¬ n < 9007199254740992 := Nat.not_lt.mpr h
    unfold ofNat
    rw [if_neg hlarge]
    exact roundedTo_ofScientific hn 0
  rw [zpow_zero, mul_one] at hrounded
  exact hrounded.nearestDouble (by exact_mod_cast hn)

/-- What is nearest to a number from `2 ^ 53` on is not below `2 ^ 53`, which is a double. -/
theorem le_of_nearest (h : 2 ^ 53 ≤ n) {v : ℚ}
    (hnear : ∀ y r, Parts.ofFloat? y = some r → |v - n| ≤ |r.value - n|) : 2 ^ 53 ≤ v := by
  have hreduced : Reduced (2 ^ 52) 1 := ⟨by decide, by decide, by decide, .inl le_rfl⟩
  have hbound := hnear _ _ (hreduced.ofFloat?_pack (by decide) false)
  have hvalue : Parts.value ⟨false, 2 ^ 52, 1⟩ = 2 ^ 53 := by norm_num [Parts.value]
  have hn : (2 ^ 53 : ℚ) ≤ n := by exact_mod_cast h
  rw [hvalue, abs_of_nonpos (sub_nonpos.mpr hn)] at hbound
  by_contra hlt
  rw [abs_of_nonpos (by linarith)] at hbound
  linarith

theorem lt_infinity {x : Float} {p : Parts} (hx : Parts.ofFloat? x = some p) : x < infinity := by
  have hinfinity : infinity.toModel.unpack = .infinity .positive := by
    rw [← pack_infinity]
    rfl
  rw [float_lt_iff, Parts.unpack_of_ofFloat? hx, hinfinity]
  by_cases hm : p.significand = 0
  · rw [Parts.unpacked, dif_pos hm]
    rfl
  · rw [Parts.unpacked, dif_neg hm]
    rfl

/-- A number that has an exact double is less than another if and only if its double is. -/
theorem ofNat_lt_ofNat_iff (hi : i < 2 ^ 53) : ofNat i < ofNat n ↔ i < n := by
  obtain ⟨p, hp, hpositive, hvalue⟩ := value_ofNat hi
  by_cases hn : n < 2 ^ 53
  · obtain ⟨q, hq, hpositive', hvalue'⟩ := value_ofNat hn
    rw [Parts.lt_iff_value_lt hp hq hpositive hpositive', hvalue, hvalue', Nat.cast_lt]
  · have hlarge := Nat.not_lt.mp hn
    have hnearest := nearestDouble_ofNat hlarge
    refine iff_of_true ?_ (by omega)
    rcases le_or_gt overflowBound n with hover | hunder
    · rw [hnearest.infinite hover]
      exact lt_infinity hp
    · obtain ⟨q, hq, hpositive', hnear⟩ := hnearest.finite hunder
      have hle := le_of_nearest hlarge fun y r hr => (hnear y r hr).1
      have hlt : (i : ℚ) < 2 ^ 53 := by exact_mod_cast hi
      rw [Parts.lt_iff_value_lt hp hq hpositive hpositive', hvalue]
      exact hlt.trans_le hle

end Number
end Surmise
