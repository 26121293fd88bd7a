import Surmise.Proofs.Rounding.Decimal

/-! Decimals that stand for a double exactly: with all its places written out a double is read back. -/
namespace Surmise

def exactPlaces (e : Int) : Nat := max 23 (-e).toNat

def exactDigits (m : Nat) (e : Int) : Nat := m * 5 ^ exactPlaces e * 2 ^ (e + exactPlaces e).toNat

theorem Reduced.exactDigits_pos {m : Nat} {e : Int} (h : Reduced m e) : 0 < exactDigits m e :=
  Nat.mul_pos (Nat.mul_pos h.pos (Nat.pow_pos (by decide))) (Nat.two_pow_pos _)

theorem exactDigits_eq (m : ℕ) (e : ℤ) :
    (exactDigits m e * 10 ^ (-(exactPlaces e : ℤ)) : ℚ) = m * 2 ^ e := by
  have hplaces : 0 ≤ e + exactPlaces e := by
    unfold exactPlaces
    omega
  have hpower : (2 : ℚ) ^ (e + exactPlaces e).toNat = 2 ^ e * 2 ^ exactPlaces e := by
    rw [← zpow_natCast, Int.toNat_of_nonneg hplaces, zpow_add₀ two_ne_zero, zpow_natCast]
  have hten : (10 : ℚ) ^ exactPlaces e = 5 ^ exactPlaces e * 2 ^ exactPlaces e := by
    rw [← mul_pow]
    norm_num
  unfold exactDigits
  push_cast
  rw [hpower, zpow_neg, zpow_natCast, hten]
  field_simp

theorem Parts.magnitude_exact {x : Float} {m : Nat} {e : Int}
    (hx : Parts.ofFloat? x = some ⟨false, m, e⟩) (hm : m ≠ 0) :
    Numeral.magnitude (exactDigits m e) (-(exactPlaces e : Int)) = x := by
  have hvalue : (exactDigits m e * 10 ^ (-(exactPlaces e : ℤ)) / 2 ^ e : ℚ) = m := by
    rw [exactDigits_eq]
    exact mul_div_cancel_right₀ _ (zpow_pos two_pos e).ne'
  apply Parts.magnitude_eq hx hm (Parts.reduced hx hm).1.exactDigits_pos
  · rw [hvalue]
    exact .natCast m
  · intro _ _
    rw [hvalue]
    linarith

end Surmise
