import Surmise.Decimal.Shortest
import Surmise.Proofs.Rounding.Decimal

/-! The shortest decimal of a double reads back. Every decimal that is tried lies between the middles to the
neighbours of the double, and one with seventeen digits always does. -/
namespace Surmise

def reach (m : ℕ) (e : ℤ) : ℚ := if m = 2 ^ 52 ∧ -1074 < e then 1 / 4 else 1 / 2

theorem pow_toNat_div {b : ℕ} (hb : 0 < b) (e : ℤ) : (b ^ e.toNat / b ^ (-e).toNat : ℚ) = b ^ e := by
  have hb' : (b : ℚ) ≠ 0 := Nat.cast_ne_zero.mpr hb.ne'
  rw [← zpow_natCast, ← zpow_natCast, ← zpow_sub₀ hb']
  congr 1
  omega

theorem reach_pos (m : ℕ) (e : ℤ) : 0 < reach m e := by
  unfold reach
  split <;> norm_num

theorem reach_le (m : ℕ) (e : ℤ) : reach m e ≤ 1 / 2 := by
  unfold reach
  split <;> norm_num

namespace Bracket
variable {p : Parts} {t : ℤ} {b : Bracket} {tie : Tie} {n : Nat}

theorem holds_of_nearest? (h : b.nearest? tie = some n) : b.Holds n := by
  unfold nearest? at h
  dsimp only at h
  split at h
  next hn =>
    split at h
    next hup =>
      cases h
      exact hup.1
    next =>
      cases h
      exact hn
  next =>
    split at h
    next hup =>
      cases h
      exact hup
    next => cases h

theorem pos_of_holds (hlow : 0 < b.low) (h : b.Holds n) : 0 < n := by
  refine Nat.pos_of_ne_zero fun h0 => ?_
  subst h0
  unfold Holds at h
  rw [Nat.zero_mul] at h
  split at h <;> omega

theorem low_rescale (hlow : 0 < b.low) (t : Int) : 0 < (b.rescale t).low :=
  Nat.mul_pos hlow (Nat.pow_pos (by decide))

theorem coefficient_of_withDigits? {d : Decimal} (hlow : 0 < b.low) (h : b.withDigits? tie n = some d) :
    0 < d.coefficient := by
  obtain ⟨c, hc, rfl⟩ := Option.map_eq_some_iff.mp h
  split
  · exact Nat.one_pos
  · exact pos_of_holds (low_rescale hlow _) (holds_of_nearest? hc)

theorem low_ofParts {p : Parts} (h : p.significand ≠ 0) : 0 < (ofParts p).low := by
  refine Nat.mul_pos ?_ (Nat.pow_pos (by decide))
  split <;> omega

theorem unit_pos (p : Parts) (t : ℤ) : (0 : ℚ) < ((ofParts p).rescale t).unit := by
  have hunit : 0 < ((ofParts p).rescale t).unit :=
    Nat.mul_pos (Nat.mul_pos (by decide) (Nat.pow_pos (by decide))) (Nat.pow_pos (by decide))
  exact_mod_cast hunit

theorem cast_quarters (p : Parts) (t : ℤ) (n : ℕ) :
    ((n * 2 ^ p.exponent.toNat * 10 ^ (-t).toNat : ℕ) : ℚ) =
      n / 4 * 2 ^ p.exponent / 10 ^ t * ((ofParts p).rescale t).unit := by
  have htwo := pow_toNat_div two_pos p.exponent
  have hten := pow_toNat_div (b := 10) (by decide) t
  have hunit : ((ofParts p).rescale t).unit = 4 * 2 ^ (-p.exponent).toNat * 10 ^ t.toNat := rfl
  push_cast at htwo hten
  rw [hunit, ← htwo, ← hten]
  push_cast
  field_simp

theorem cast_low (hm : 0 < p.significand) : (((ofParts p).rescale t).low : ℚ) =
    (p.significand - reach p.significand p.exponent) * 2 ^ p.exponent / 10 ^ t *
      ((ofParts p).rescale t).unit := by
  have hlow : ((ofParts p).rescale t).low =
      (4 * p.significand - if p.significand = 2 ^ 52 ∧ -1074 < p.exponent then 1 else 2) *
        2 ^ p.exponent.toNat * 10 ^ (-t).toNat := rfl
  rw [hlow, cast_quarters]
  congr 3
  unfold reach
  split
  · rw [Nat.cast_sub (by omega)]
    push_cast
    ring
  · rw [Nat.cast_sub (by omega)]
    push_cast
    ring

theorem cast_value : (((ofParts p).rescale t).value : ℚ) =
    p.significand * 2 ^ p.exponent / 10 ^ t * ((ofParts p).rescale t).unit := by
  have hvalue : ((ofParts p).rescale t).value =
      4 * p.significand * 2 ^ p.exponent.toNat * 10 ^ (-t).toNat := rfl
  rw [hvalue, cast_quarters]
  congr 3
  push_cast
  ring

theorem cast_high : (((ofParts p).rescale t).high : ℚ) =
    (p.significand + 1 / 2) * 2 ^ p.exponent / 10 ^ t * ((ofParts p).rescale t).unit := by
  have hhigh : ((ofParts p).rescale t).high =
      (4 * p.significand + 2) * 2 ^ p.exponent.toNat * 10 ^ (-t).toNat := rfl
  rw [hhigh, cast_quarters]
  congr 3
  push_cast
  ring

/-- The decimals of a bracket lie between the middles to the neighbours of the double. The middles belong
to it if the significand is even. -/
theorem holds_iff (hm : 0 < p.significand) (n : ℕ) : ((ofParts p).rescale t).Holds n ↔
    if p.significand % 2 = 0 then
      p.significand - reach p.significand p.exponent ≤ n * 10 ^ t / 2 ^ p.exponent ∧
        n * 10 ^ t / 2 ^ p.exponent ≤ (p.significand + 1 / 2 : ℚ)
    else
      p.significand - reach p.significand p.exponent < n * 10 ^ t / 2 ^ p.exponent ∧
        n * 10 ^ t / 2 ^ p.exponent < (p.significand + 1 / 2 : ℚ) := by
  have hunit := unit_pos p t
  have htwo : (0 : ℚ) < 2 ^ p.exponent := zpow_pos two_pos _
  have hten : (0 : ℚ) < 10 ^ t := zpow_pos (by norm_num) _
  have hclosed : ((ofParts p).rescale t).closed = decide (p.significand % 2 = 0) := rfl
  unfold Holds
  rw [hclosed]
  by_cases heven : p.significand % 2 = 0
  · rw [if_pos (decide_eq_true heven), if_pos heven, ← Nat.cast_le (α := ℚ), ← Nat.cast_le (α := ℚ),
      cast_low hm, cast_high, Nat.cast_mul, mul_le_mul_iff_left₀ hunit, mul_le_mul_iff_left₀ hunit,
      div_le_iff₀ hten, le_div_iff₀ hten, le_div_iff₀ htwo, div_le_iff₀ htwo]
  · rw [if_neg (by simpa using heven), if_neg heven, ← Nat.cast_lt (α := ℚ), ← Nat.cast_lt (α := ℚ),
      cast_low hm, cast_high, Nat.cast_mul, mul_lt_mul_iff_left₀ hunit, mul_lt_mul_iff_left₀ hunit,
      div_lt_iff₀ hten, lt_div_iff₀ hten, lt_div_iff₀ htwo, div_lt_iff₀ htwo]

theorem nearestEven_of_holds (h : Reduced p.significand p.exponent) {n : ℕ}
    (hn : ((ofParts p).rescale t).Holds n) :
    NearestEven (n * 10 ^ t / 2 ^ p.exponent) p.significand ∧
      (p.significand = 2 ^ 52 → p.exponent ≠ -1074 →
        (p.significand : ℚ) - 1 / 4 ≤ n * 10 ^ t / 2 ^ p.exponent) := by
  rw [holds_iff h.pos] at hn
  have hleast := h.least
  have hreach := reach_le p.significand p.exponent
  have hquarter (hm : p.significand = 2 ^ 52) (he : p.exponent ≠ -1074) :
      reach p.significand p.exponent = 1 / 4 := if_pos ⟨hm, by omega⟩
  generalize (n * 10 ^ t / 2 ^ p.exponent : ℚ) = q at hn ⊢
  by_cases heven : p.significand % 2 = 0
  · rw [if_pos heven] at hn
    exact ⟨⟨by linarith, hn.2, fun _ => heven⟩, fun hm he => hquarter hm he ▸ hn.1⟩
  · rw [if_neg heven] at hn
    refine ⟨⟨by linarith, hn.2.le, ?_⟩, fun hm he => hquarter hm he ▸ hn.1.le⟩
    rintro (heq | heq) <;> linarith

theorem not_holds_of_nearest? (h : b.nearest? tie = none) :
    ¬ b.Holds (b.value / b.unit) ∧ ¬ b.Holds (b.value / b.unit + 1) := by
  unfold nearest? at h
  dsimp only at h
  split at h
  · split at h <;> cases h
  next hn =>
    split at h
    · cases h
    next hup => exact ⟨hn, hup⟩

theorem value_mem (p : Parts) (t : ℤ) :
    (((ofParts p).rescale t).value / ((ofParts p).rescale t).unit : ℕ) * 10 ^ t / 2 ^ p.exponent ≤
        (p.significand : ℚ) ∧
      (p.significand : ℚ) <
        (((ofParts p).rescale t).value / ((ofParts p).rescale t).unit + 1 : ℕ) * 10 ^ t / 2 ^ p.exponent := by
  have hunit := unit_pos p t
  have hunit' : 0 < ((ofParts p).rescale t).unit := by exact_mod_cast hunit
  have htwo : (0 : ℚ) < 2 ^ p.exponent := zpow_pos two_pos _
  have hten : (0 : ℚ) < 10 ^ t := zpow_pos (by norm_num) _
  have hvalue := cast_value (p := p) (t := t)
  have hfloor := Nat.div_mul_le_self ((ofParts p).rescale t).value ((ofParts p).rescale t).unit
  have hceil := Nat.lt_mul_div_succ ((ofParts p).rescale t).value hunit'
  rw [Nat.mul_comm] at hceil
  generalize ((ofParts p).rescale t).value / ((ofParts p).rescale t).unit = n at *
  rw [← Nat.cast_le (α := ℚ), hvalue, Nat.cast_mul, mul_le_mul_iff_left₀ hunit, le_div_iff₀ hten] at hfloor
  rw [← Nat.cast_lt (α := ℚ), hvalue, Nat.cast_mul, mul_lt_mul_iff_left₀ hunit, div_lt_iff₀ hten] at hceil
  exact ⟨(div_le_iff₀ htwo).mpr hfloor, (lt_div_iff₀ htwo).mpr hceil⟩

/-- A grid finer than the bracket meets it next to its value. -/
theorem isSome_nearest? (h : Reduced p.significand p.exponent) (tie : Tie)
    (hfine : (10 : ℚ) ^ t / 2 ^ p.exponent < reach p.significand p.exponent + 1 / 2) :
    (((ofParts p).rescale t).nearest? tie).isSome = true := by
  rw [Option.isSome_iff_ne_none]
  intro hnone
  obtain ⟨hlow, hhigh⟩ := not_holds_of_nearest? hnone
  have hunit := unit_pos p t
  have htwo : (0 : ℚ) < 2 ^ p.exponent := zpow_pos two_pos _
  have hten : (0 : ℚ) < 10 ^ t := zpow_pos (by norm_num) _
  have hreach := reach_pos p.significand p.exponent
  obtain ⟨hfloor, hceil⟩ := value_mem p t
  rw [holds_iff h.pos] at hlow hhigh
  generalize ((ofParts p).rescale t).value / ((ofParts p).rescale t).unit = n at *
  have hstep : ((n + 1 : ℕ) * 10 ^ t / 2 ^ p.exponent : ℚ) =
      n * 10 ^ t / 2 ^ p.exponent + 10 ^ t / 2 ^ p.exponent := by
    push_cast
    ring
  rw [hstep] at hhigh hceil
  generalize (n * 10 ^ t / 2 ^ p.exponent : ℚ) = q at *
  by_cases heven : p.significand % 2 = 0
  · rw [if_pos heven, not_and_or, not_le, not_le] at hlow hhigh
    rcases hlow with hlow | hlow <;> rcases hhigh with hhigh | hhigh <;> linarith
  · rw [if_neg heven, not_and_or, not_lt, not_lt] at hlow hhigh
    rcases hlow with hlow | hlow <;> rcases hhigh with hhigh | hhigh <;> linarith

@[simp] theorem rescale_zero (b : Bracket) : b.rescale 0 = b := by
  simp [rescale]

theorem cast_length_toDigits {n : ℕ} (hn : 0 < n) :
    (10 : ℚ) ^ ((Nat.toDigits 10 n).length - 1 : ℤ) ≤ n ∧ n < (10 : ℚ) ^ (Nat.toDigits 10 n).length := by
  have hpos : 0 < (Nat.toDigits 10 n).length := Nat.length_toDigits_pos
  have hle (k : ℕ) (hk : 0 < k) : (Nat.toDigits 10 n).length ≤ k ↔ n < 10 ^ k :=
    Nat.length_toDigits_le_iff (by decide) hk
  constructor
  · obtain ⟨k, hk⟩ : ∃ k, (Nat.toDigits 10 n).length = k + 1 := ⟨_, (Nat.succ_pred_eq_of_pos hpos).symm⟩
    have hlow : 10 ^ k ≤ n := by
      rcases Nat.eq_zero_or_pos k with rfl | hk'
      · exact hn
      · exact Nat.not_lt.mp fun hlt => absurd ((hle k hk').mpr hlt) (by omega)
    rw [hk]
    push_cast
    rw [add_sub_cancel_right, zpow_natCast]
    exact_mod_cast hlow
  · exact_mod_cast (hle _ hpos).mp le_rfl

/-- A number has at least as many digits before its point as the order says. -/
theorem zpow_order_le (hm : 0 < p.significand) :
    (10 : ℚ) ^ ((ofParts p).order - 1) ≤ p.significand * 2 ^ p.exponent := by
  have hunit := unit_pos p 0
  have hvalue := cast_value (p := p) (t := 0)
  rw [rescale_zero] at hunit hvalue
  rw [zpow_zero, div_one] at hvalue
  have hpos : (0 : ℚ) < p.significand * 2 ^ p.exponent := mul_pos (Nat.cast_pos.mpr hm) (zpow_pos two_pos _)
  have hvalue' : 0 < (ofParts p).value := by
    have : (0 : ℚ) < (ofParts p).value := hvalue ▸ mul_pos hpos hunit
    exact_mod_cast this
  have hunit' : 0 < (ofParts p).unit := by exact_mod_cast hunit
  unfold order
  generalize (ofParts p).value = a at *
  generalize (ofParts p).unit = b at *
  by_cases hle : b ≤ a
  · rw [if_pos hle]
    have hfloor : ((a / b : ℕ) * b : ℚ) ≤ a := by exact_mod_cast Nat.div_mul_le_self a b
    rw [hvalue, mul_le_mul_iff_left₀ hunit] at hfloor
    exact (cast_length_toDigits (Nat.div_pos hle hunit')).1.trans hfloor
  · rw [if_neg hle]
    have hmore : 0 < (b + a - 1) / a - 1 := by
      have : 2 ≤ (b + a - 1) / a := (Nat.le_div_iff_mul_le hvalue').mpr (by omega)
      omega
    obtain ⟨-, hupper⟩ := cast_length_toDigits hmore
    have hceil : b ≤ a * ((b + a - 1) / a) := by
      have hlt := Nat.lt_mul_div_succ (b + a - 1) hvalue'
      rw [Nat.mul_succ] at hlt
      omega
    generalize (b + a - 1) / a = c at *
    generalize (Nat.toDigits 10 (c - 1)).length = k at *
    have hc : c ≤ 10 ^ k := by
      have : c - 1 < 10 ^ k := by exact_mod_cast hupper
      omega
    have hb : (b : ℚ) ≤ a * 10 ^ k := by exact_mod_cast hceil.trans (Nat.mul_le_mul_left a hc)
    have hexponent : (1 - (k : ℤ) - 1) = -k := by omega
    rw [hexponent, zpow_neg, zpow_natCast, inv_le_iff_one_le_mul₀ (by positivity)]
    rw [hvalue, mul_right_comm] at hb
    exact (le_mul_iff_one_le_left hunit).mp hb

theorem holds_of_withDigits? {n : ℕ} {d : Decimal} (h : b.withDigits? tie n = some d) :
    ∃ c t, (b.rescale t).Holds c ∧ (d.coefficient * 10 ^ d.exponent : ℚ) = c * 10 ^ t := by
  obtain ⟨c, hc, hd⟩ := Option.map_eq_some_iff.mp h
  refine ⟨c, b.order - n, holds_of_nearest? hc, ?_⟩
  rw [← hd]
  split
  next hpow =>
    have hcast : (c : ℚ) = 10 ^ n := by
      rw [hpow]
      exact_mod_cast rfl
    rw [hcast, zpow_add₀ (by norm_num), zpow_natCast, mul_comm ((10 : ℚ) ^ n)]
    push_cast
    ring
  · rfl

theorem isSome_withDigits? (h : Reduced p.significand p.exponent) (tie : Tie) :
    ((ofParts p).withDigits? tie 17).isSome = true := by
  unfold withDigits?
  rw [Option.isSome_map]
  apply isSome_nearest? h tie
  have htwo : (0 : ℚ) < 2 ^ p.exponent := zpow_pos two_pos _
  have hgrid : (10 : ℚ) ^ ((ofParts p).order - (17 : ℕ)) * 10 ^ 16 ≤ p.significand * 2 ^ p.exponent := by
    calc (10 : ℚ) ^ ((ofParts p).order - (17 : ℕ)) * 10 ^ 16 = 10 ^ ((ofParts p).order - 1) := by
          rw [← zpow_natCast, ← zpow_add₀ (by norm_num)]
          congr 1
          omega
      _ ≤ _ := zpow_order_le h.pos
  have hlt : (p.significand : ℚ) < 2 ^ 53 := by exact_mod_cast h.lt
  rw [div_lt_iff₀ htwo]
  generalize (10 : ℚ) ^ ((ofParts p).order - (17 : ℕ)) = s at *
  unfold reach
  split
  next hpower =>
    have hcast : (p.significand : ℚ) = 2 ^ 52 := by exact_mod_cast hpower.1
    rw [hcast] at hgrid
    linarith
  · nlinarith

end Bracket

theorem Decimal.shortest_cases (tie : Tie) (p : Parts) :
    Decimal.shortest tie p = ⟨0, 0⟩ ∨ 0 < (Decimal.shortest tie p).coefficient := by
  unfold shortest
  split
  next => exact .inl rfl
  next hp =>
    dsimp only
    cases hd : (List.range 17).findSome? fun i => (Bracket.ofParts p).withDigits? tie (i + 1) with
    | none => exact .inl rfl
    | some d =>
      obtain ⟨i, _, hi⟩ := List.exists_of_findSome?_eq_some hd
      exact .inr (Bracket.coefficient_of_withDigits? (Bracket.low_ofParts hp) hi)

theorem Decimal.magnitude_shortest (tie : Tie) {x : Float} {m : ℕ} {e : ℤ}
    (hx : Parts.ofFloat? x = some ⟨false, m, e⟩) (hm : m ≠ 0) :
    0 < (Decimal.shortest tie ⟨false, m, e⟩).coefficient ∧
      Numeral.magnitude (Decimal.shortest tie ⟨false, m, e⟩).coefficient
        (Decimal.shortest tie ⟨false, m, e⟩).exponent = x := by
  have h : Reduced m e := (Parts.reduced hx hm).1
  have hsome : ((List.range 17).findSome? fun i =>
      (Bracket.ofParts ⟨false, m, e⟩).withDigits? tie (i + 1)).isSome = true :=
    List.findSome?_isSome_iff.mpr ⟨16, List.mem_range.mpr (by decide), Bracket.isSome_withDigits? h tie⟩
  obtain ⟨d, hd⟩ := Option.isSome_iff_exists.mp hsome
  obtain ⟨i, -, hi⟩ := List.exists_of_findSome?_eq_some hd
  obtain ⟨c, t, hc, hvalue⟩ := Bracket.holds_of_withDigits? hi
  have hshortest : Decimal.shortest tie ⟨false, m, e⟩ = d := by
    unfold Decimal.shortest
    dsimp only
    rw [if_neg hm, hd, Option.getD_some]
  have hlow : 0 < (Bracket.ofParts ⟨false, m, e⟩).low := Bracket.low_ofParts hm
  have hpos : 0 < c := Bracket.pos_of_holds (Bracket.low_rescale hlow t) hc
  obtain ⟨hnear, hbelow⟩ := Bracket.nearestEven_of_holds h hc
  rw [hshortest]
  refine ⟨Bracket.coefficient_of_withDigits? hlow hi, ?_⟩
  rw [Numeral.magnitude_congr hvalue]
  exact Parts.magnitude_eq hx hm hpos t hnear hbelow

end Surmise
