import Mathlib.Tactic.NormNum
import Surmise.Proofs.Rounding.Nearest

/-! The double that a number is rounded to. It is found from any number between the middles to its
neighbours, and no double is nearer. -/
namespace Surmise

open Float.Model Float.Model.UnpackedFloat

variable {s : Sign} {e : ℤ} {u : UnpackedFloat} {v : ℚ} {m : ℕ} {x : Float}

theorem Stands.unique {n : ℕ} {u' : UnpackedFloat} (h : Stands s n e u) (h' : Stands s n e u') : u = u' := by
  cases h with
  | zero =>
    cases h' with
    | zero => rfl
    | finite hpos => exact absurd hpos (Nat.lt_irrefl 0)
  | finite hpos hlt =>
    cases h' with
    | zero => exact absurd hpos (Nat.lt_irrefl 0)
    | finite => rfl
    | carried => exact absurd hlt (Nat.lt_irrefl _)
  | carried =>
    cases h' with
    | finite _ hlt => exact absurd hlt (Nat.lt_irrefl _)
    | carried => rfl

theorem exists_rounded (s : Sign) (hv : 0 < v) : ∃ u, Rounded s v u := by
  have hnum : 0 < v.num.toNat := by
    have := Rat.num_pos.mpr hv
    omega
  have hvalue : (v.num.toNat * 2 ^ (0 : ℤ) / (v.den * 2 ^ (0 : ℤ)) : ℚ) = v := by
    have hcast : ((v.num.toNat : ℤ) : ℚ) = v.num := by
      rw [Int.toNat_of_nonneg (Rat.num_pos.mpr hv).le]
    rw [zpow_zero, mul_one, mul_one, ← Int.cast_natCast, hcast]
    exact Rat.num_div_den v
  have hrounded := rounded_div s .positive 0 0 hnum v.pos
  rw [hvalue] at hrounded
  have hsign : s / Sign.positive = s := by cases s <;> rfl
  rw [hsign] at hrounded
  exact ⟨_, hrounded⟩

/-- Between the middles to its neighbours a number is rounded to the double. -/
theorem Rounded.eq_finite {q : ℚ} (hu : Rounded s q u) (hq : 0 < q) (h : Reduced m e)
    (hnear : NearestEven (q / 2 ^ e) m) (hbelow : m = 2 ^ 52 → e ≠ -1074 → (m : ℚ) - 1 / 4 ≤ q / 2 ^ e) :
    u = .finite s m e h.pos := by
  obtain ⟨n, hn, hstands⟩ := hu
  have hlt : (m : ℚ) + 1 ≤ 2 ^ 53 := by exact_mod_cast h.lt
  have hhigh := hnear.high
  by_cases hlow : 2 ^ 52 ≤ q / 2 ^ e ∨ e = -1074
  · -- the units are those of the double
    have hexponent : unitExponent q = e :=
      (unitExponent_eq_iff hq).mpr ⟨by linarith, hlow.imp (⟨·, h.least⟩) id⟩
    rw [hexponent] at hn hstands
    obtain rfl := hn.unique hnear
    exact hstands.unique (.finite h.pos h.lt)
  · -- just below a power of two the units are half as large
    obtain ⟨hlow, hne⟩ := not_or.mp hlow
    have hleast := h.least
    have hm : m = 2 ^ 52 := by
      have hmlow := hnear.low
      have hmlong := h.long.resolve_right hne
      have hmlt : (m : ℚ) < 2 ^ 52 + 1 := by linarith
      have hmlt' : m < 2 ^ 52 + 1 := by exact_mod_cast hmlt
      omega
    have hquarter := hbelow hm hne
    subst hm
    push_cast at hquarter
    have hhalf : q / 2 ^ (e - 1) = 2 * (q / 2 ^ e) := by
      rw [zpow_sub_one₀ two_ne_zero]
      field_simp
    have hexponent : unitExponent q = e - 1 := by
      rw [unitExponent_eq_iff hq, hhalf]
      exact ⟨by linarith, .inl ⟨by linarith, by omega⟩⟩
    have hcarried : NearestEven (q / 2 ^ (e - 1)) (2 ^ 53) := by
      rw [hhalf]
      exact ⟨by push_cast; linarith, by push_cast; linarith, fun _ => by decide⟩
    rw [hexponent] at hn hstands
    obtain rfl := hn.unique hcarried
    rw [hstands.unique (.carried _)]
    exact finite_congr rfl rfl (by omega)

theorem Reduced.le_unitExponent (h : Reduced m e) : e ≤ unitExponent (m * 2 ^ e) := by
  unfold unitExponent
  rcases h.long with hlong | rfl
  · have hv : (0 : ℚ) < m * 2 ^ e := mul_pos (Nat.cast_pos.mpr h.pos) (zpow_pos two_pos e)
    have hpow := (Int.zpow_le_iff_le_log Nat.one_lt_two hv).mp (zpow_log2_le h.pos e)
    have hlog := (Nat.le_log2 h.pos.ne').mpr hlong
    omega
  · exact le_max_right _ _

theorem NearestEven.natCast (n : ℕ) : NearestEven n n :=
  ⟨by linarith, by linarith, by rintro (h | h) <;> linarith⟩

theorem Reduced.roundWithAccuracy (h : Reduced m e) (s : Sign) :
    UnpackedFloat.roundWithAccuracy Format.binary64 s m e .exact = .finite s m e h.pos := by
  have hunit : (0 : ℚ) < 2 ^ e := zpow_pos two_pos e
  have hvalue : (m * 2 ^ e / 2 ^ e : ℚ) = m := mul_div_cancel_right₀ _ hunit.ne'
  refine (rounded_exact s h.pos h.le_unitExponent).eq_finite (mul_pos (Nat.cast_pos.mpr h.pos) hunit) h ?_ ?_
  · rw [hvalue]
    exact .natCast m
  · intro _ _
    rw [hvalue]
    linarith

theorem pack_of_overflow (s : Sign) (hm : 0 < m) (he : 972 ≤ e) :
    Float.Model.pack (.finite s m e hm) = Float.Model.pack (.infinity s) := by
  have hpack : UnpackedFloat.pack Format.binary64 (.finite s m e hm) =
      UnpackedFloat.pack Format.binary64 (.infinity s) := by
    change (if 2048 ≤ (e + (1023 : ℕ) + (52 : ℕ)).toNat + 1 then _ else _) = _
    rw [if_pos (by omega)]
    rfl
  rw [Float.Model.pack, Float.Model.pack, Float.Model.mk.injEq, hpack]

theorem Rounded.pack_of_le (h : Rounded s v u) (hv : 2 ^ (1024 : ℤ) ≤ v) :
    Float.Model.pack u = Float.Model.pack (.infinity s) := by
  have hpos : 0 < v := (zpow_pos two_pos _).trans_le hv
  have hexponent : 972 ≤ unitExponent v := by
    have := (Int.zpow_le_iff_le_log Nat.one_lt_two hpos).mp hv
    unfold unitExponent
    omega
  obtain ⟨n, hn, hstands⟩ := h
  cases hstands with
  | zero =>
    have hunits := (div_unit_mem hpos).2.resolve_right (by omega)
    have hhigh := hn.high
    push_cast at hhigh
    linarith
  | finite hpos' => exact pack_of_overflow s hpos' hexponent
  | carried => exact pack_of_overflow s _ (by omega)

theorem rounded_zero (s : Sign) (hv : 0 < v) (hsmall : v < 2 ^ (-1075 : ℤ)) : Rounded s v (.zero s) := by
  have hexponent : unitExponent v = -1074 := by
    have := (Int.lt_zpow_iff_log_lt Nat.one_lt_two hv).mp hsmall
    unfold unitExponent
    omega
  have hhalf : v / 2 ^ (-1074 : ℤ) < 1 / 2 := by
    rw [div_lt_iff₀ (zpow_pos two_pos _)]
    calc v < 2 ^ (-1075 : ℤ) := hsmall
      _ = 1 / 2 * 2 ^ (-1074 : ℤ) := by rw [one_div, ← zpow_neg_one, ← zpow_add₀ two_ne_zero]; rfl
  have hpos : 0 < v / 2 ^ (-1074 : ℤ) := div_pos hv (zpow_pos two_pos _)
  refine ⟨0, ?_, .zero _⟩
  rw [hexponent]
  generalize v / 2 ^ (-1074 : ℤ) = x at hhalf hpos
  exact ⟨by push_cast; linarith, by push_cast; linarith, fun _ => rfl⟩

def RoundedTo (v : ℚ) (x : Float) : Prop :=
  ∃ u, Rounded .positive v u ∧ x = .ofModel (Float.Model.pack u)

theorem RoundedTo.unique {y : Float} (hx : RoundedTo v x) (hy : RoundedTo v y) : x = y := by
  obtain ⟨u, ⟨n, hn, hstands⟩, rfl⟩ := hx
  obtain ⟨u', ⟨n', hn', hstands'⟩, rfl⟩ := hy
  obtain rfl := hn.unique hn'
  rw [hstands.unique hstands']

/-! ### The nearest double -/

def Parts.value (p : Parts) : ℚ := (if p.negative then -1 else 1) * (p.significand * 2 ^ p.exponent)

/-- The middle between the largest double and the power of two after it. -/
def overflowBound : ℚ := 2 ^ (1024 : ℤ) - 2 ^ (970 : ℤ)

theorem pow_1024 : (2 : ℚ) ^ (1024 : ℤ) = 2 ^ 53 * 2 ^ (971 : ℤ) := by
  rw [← zpow_natCast, ← zpow_add₀ two_ne_zero]
  rfl

theorem overflowBound_eq : overflowBound = (2 ^ 53 - 1 / 2) * 2 ^ (971 : ℤ) := by
  have hhalf : (2 : ℚ) ^ (970 : ℤ) = 2 ^ (971 : ℤ) / 2 := zpow_sub_one₀ two_ne_zero 971
  rw [overflowBound, pow_1024, hhalf]
  ring

/-- The double that a number is rounded to: of all doubles the nearest, and of two that are equally near
the one with an even significand. From the middle above the largest double on it is infinite. -/
structure NearestDouble (v : ℚ) (x : Float) : Prop where
  infinite : overflowBound ≤ v → x = Number.infinity
  finite : v < overflowBound → ∃ p, Parts.ofFloat? x = some p ∧ p.negative = false ∧
    ∀ y r, Parts.ofFloat? y = some r → |p.value - v| ≤ |r.value - v| ∧
      (|p.value - v| = |r.value - v| → p.value = r.value ∨ p.significand % 2 = 0)

theorem pack_infinity : Float.ofModel (Float.Model.pack (.infinity .positive)) = Number.infinity :=
  eq_of_toBits (by decide +kernel)

namespace NearestEven
variable {x : ℚ} {n : ℕ}

theorem ge_of_le (h : NearestEven x n) {k : ℕ} (hle : k ≤ x) : k ≤ n := by
  have hhigh := h.high
  have hlt : (k : ℚ) < n + 1 := by linarith
  exact Nat.lt_succ_iff.mp (by exact_mod_cast hlt)

theorem abs_sub_le (h : NearestEven x n) (k : ℤ) :
    |n - x| ≤ |k - x| ∧ (|n - x| = |k - x| → (n : ℚ) = k ∨ n % 2 = 0) := by
  have hlow := h.low
  have hhigh := h.high
  have hle : |n - x| ≤ 1 / 2 := abs_le.mpr ⟨by linarith, by linarith⟩
  rcases eq_or_ne (n : ℤ) k with rfl | hne
  · exact ⟨le_refl _, fun _ => .inl rfl⟩
  · have hge : 1 / 2 ≤ |k - x| := by
      rcases lt_or_gt_of_ne hne with hlt | hgt
      · have hsucc : (n : ℚ) + 1 ≤ k := by exact_mod_cast hlt
        exact le_abs.mpr (.inl (by linarith))
      · have hpred : (k : ℚ) + 1 ≤ n := by exact_mod_cast hgt
        exact le_abs.mpr (.inr (by linarith))
    refine ⟨hle.trans hge, fun heq => .inr (h.even ?_)⟩
    rcases abs_eq (by norm_num) |>.mp (le_antisymm hle (heq ▸ hge)) with hup | hdown
    · exact .inl (by linarith)
    · exact .inr (by linarith)

end NearestEven

/-- The parts of the double that a number is rounded to make up the nearest number of units. -/
theorem RoundedTo.parts (hx : RoundedTo v x) (hv : 0 < v) (hlt : v < overflowBound) :
    ∃ n p, NearestEven (v / 2 ^ unitExponent v) n ∧ Parts.ofFloat? x = some p ∧ p.negative = false ∧
      (p.significand * 2 ^ p.exponent : ℚ) = n * 2 ^ unitExponent v ∧
      (n % 2 = 0 → p.significand % 2 = 0) := by
  obtain ⟨u, ⟨n, hn, hstands⟩, rfl⟩ := hx
  have hunits := div_unit_mem hv
  have hmost : unitExponent v ≤ 971 := by
    have hlt' : v < 2 ^ (1024 : ℤ) := hlt.trans (sub_lt_self _ (zpow_pos two_pos _))
    have hlog := (Int.lt_zpow_iff_log_lt Nat.one_lt_two hv).mp hlt'
    unfold unitExponent
    omega
  generalize unitExponent v = e at *
  cases hstands with
  | zero =>
    refine ⟨0, ⟨false, 0, -1074⟩, hn, by decide +kernel, rfl, ?_, fun _ => rfl⟩
    rw [Nat.cast_zero, zero_mul, zero_mul]
  | finite hpos hlt' =>
    have h : Reduced n e := by
      refine ⟨hpos, hlt', by omega, hunits.2.imp (fun hlong => ?_) id⟩
      exact hn.ge_of_le (by exact_mod_cast hlong.1)
    exact ⟨n, ⟨false, n, e⟩, hn, h.ofFloat?_pack hmost false, rfl, rfl, id⟩
  | carried =>
    have hne : e ≠ 971 := by
      rintro rfl
      have hlow := hn.low
      rw [le_div_iff₀ (zpow_pos two_pos _)] at hlow
      rw [Nat.cast_pow, Nat.cast_ofNat, ← overflowBound_eq] at hlow
      exact absurd hlt (not_lt.mpr hlow)
    have h : Reduced (2 ^ 52) (e + 1) := ⟨by decide, by decide, by omega, .inl le_rfl⟩
    refine ⟨2 ^ 53, ⟨false, 2 ^ 52, e + 1⟩, hn, h.ofFloat?_pack (by omega) false, rfl, ?_, fun _ => by norm_num⟩
    rw [zpow_add_one₀ two_ne_zero]
    push_cast
    ring

/-- A double is a whole number of the units of a number, or it is below the least number that has them. -/
theorem Parts.value_cases {y : Float} {r : Parts} (hr : Parts.ofFloat? y = some r) (hv : 0 < v) :
    (∃ k : ℤ, r.value = k * 2 ^ unitExponent v) ∨
      r.value < 2 ^ 52 * 2 ^ unitExponent v ∧ 2 ^ 52 ≤ v / 2 ^ unitExponent v := by
  have hunits := div_unit_mem hv
  generalize unitExponent v = e at *
  have hfields := (Parts.ofFloat?_eq_some_iff.mp hr).2
  by_cases hfine : e ≤ r.exponent
  · left
    refine ⟨(if r.negative then -1 else 1) * (r.significand * 2 ^ (r.exponent - e).toNat), ?_⟩
    have hpower : (2 : ℚ) ^ r.exponent = 2 ^ (r.exponent - e).toNat * 2 ^ e := by
      rw [← zpow_natCast, Int.toNat_of_nonneg (by omega), ← zpow_add₀ two_ne_zero, sub_add_cancel]
    unfold Parts.value
    rw [hpower]
    push_cast
    ring
  · right
    have hlong := hunits.2.resolve_right (by omega)
    have hunit : (0 : ℚ) < 2 ^ e := zpow_pos two_pos e
    have hmagnitude : (r.significand * 2 ^ r.exponent : ℚ) < 2 ^ 52 * 2 ^ e := by
      have hpower : (2 : ℚ) ^ r.exponent ≤ 2 ^ e / 2 :=
        (zpow_le_zpow_right₀ one_le_two (by omega)).trans_eq (zpow_sub_one₀ two_ne_zero e)
      have hsignificand : (r.significand : ℚ) < 2 ^ 53 := by
        exact_mod_cast (by omega : r.significand < 2 ^ 53)
      calc (r.significand * 2 ^ r.exponent : ℚ) ≤ r.significand * (2 ^ e / 2) :=
            mul_le_mul_of_nonneg_left hpower (Nat.cast_nonneg _)
        _ < 2 ^ 53 * (2 ^ e / 2) := mul_lt_mul_of_pos_right hsignificand (by linarith)
        _ = 2 ^ 52 * 2 ^ e := by ring
    have hnonneg : (0 : ℚ) ≤ r.significand * 2 ^ r.exponent :=
      mul_nonneg (Nat.cast_nonneg _) (zpow_pos two_pos _).le
    refine ⟨?_, hlong.1⟩
    unfold Parts.value
    split <;> linarith

/-- What a number is rounded to is the nearest double. -/
theorem RoundedTo.nearestDouble (hx : RoundedTo v x) (hv : 0 < v) : NearestDouble v x := by
  constructor
  · intro hle
    obtain ⟨u, hu, rfl⟩ := hx
    by_cases hlarge : 2 ^ (1024 : ℤ) ≤ v
    · rw [hu.pack_of_le hlarge, pack_infinity]
    · -- the nearest number of units is one too many
      have hunit : (0 : ℚ) < 2 ^ (971 : ℤ) := zpow_pos two_pos _
      rw [overflowBound_eq, ← le_div_iff₀ hunit] at hle
      rw [pow_1024, not_le, ← div_lt_iff₀ hunit] at hlarge
      have hexponent : unitExponent v = 971 :=
        (unitExponent_eq_iff hv).mpr ⟨hlarge, .inl ⟨by linarith, by omega⟩⟩
      obtain ⟨n, hn, hstands⟩ := hu
      rw [hexponent] at hn hstands
      have hcarried : NearestEven (v / 2 ^ (971 : ℤ)) (2 ^ 53) := by
        refine ⟨?_, ?_, fun _ => by decide⟩ <;> rw [Nat.cast_pow, Nat.cast_ofNat] <;> linarith
      obtain rfl := hn.unique hcarried
      rw [hstands.unique (.carried _), pack_of_overflow _ _ (by omega), pack_infinity]
  · intro hlt
    obtain ⟨n, p, hn, hp, hpositive, hvalue, heven⟩ := hx.parts hv hlt
    refine ⟨p, hp, hpositive, fun y r hr => ?_⟩
    have hunit : (0 : ℚ) < 2 ^ unitExponent v := zpow_pos two_pos _
    have hscale (q : ℚ) : |q * 2 ^ unitExponent v - v| = |q - v / 2 ^ unitExponent v| * 2 ^ unitExponent v := by
      rw [← abs_of_pos hunit, ← abs_mul, abs_of_pos hunit, sub_mul, div_mul_cancel₀ _ hunit.ne']
    have hpvalue : p.value = n * 2 ^ unitExponent v := by
      unfold Parts.value
      rw [hpositive, hvalue]
      simp
    rcases Parts.value_cases hr hv with ⟨k, hk⟩ | ⟨hbelow, hlong⟩
    · obtain ⟨hle, htie⟩ := hn.abs_sub_le k
      rw [hpvalue, hk, hscale, hscale]
      refine ⟨mul_le_mul_of_nonneg_right hle hunit.le, fun heq => ?_⟩
      rcases htie (mul_right_cancel₀ hunit.ne' heq) with hsame | htwo
      · exact .inl (by rw [hsame])
      · exact .inr (heven htwo)
    · -- the least number with these units is nearer than any double below it
      have hle := (hn.abs_sub_le (2 ^ 52)).1
      push_cast at hle
      rw [le_div_iff₀ hunit] at hlong
      have hnear : |p.value - v| < |r.value - v| := by
        calc |p.value - v| ≤ |2 ^ 52 * 2 ^ unitExponent v - v| := by
              rw [hpvalue, hscale, hscale]
              exact mul_le_mul_of_nonneg_right hle hunit.le
          _ < |r.value - v| := by
            rw [abs_of_nonpos (by linarith), abs_of_nonpos (by linarith)]
            linarith
      exact ⟨hnear.le, fun heq => absurd heq hnear.ne⟩

theorem nearestDouble_zero : NearestDouble 0 0.0 := by
  have hparts : Parts.ofFloat? 0.0 = some ⟨false, 0, -1074⟩ := by decide +kernel
  have hvalue : Parts.value ⟨false, 0, -1074⟩ = 0 := by simp [Parts.value]
  constructor
  · intro hle
    have hpos : (0 : ℚ) < (2 ^ 53 - 1 / 2) * 2 ^ (971 : ℤ) := mul_pos (by norm_num) (zpow_pos two_pos _)
    exact absurd hle (not_le.mpr (overflowBound_eq ▸ hpos))
  · refine fun _ => ⟨_, hparts, rfl, fun y r _ => ?_⟩
    rw [hvalue, sub_zero, abs_zero, sub_zero]
    exact ⟨abs_nonneg _, fun _ => .inr rfl⟩

end Surmise
