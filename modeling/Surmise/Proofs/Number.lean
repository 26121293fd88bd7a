import Mathlib.Algebra.Order.Ring.Nat
import Surmise.Number.Integer

/-! Doubles that are built from bits and read back: every bit pattern of a finite double survives, so a
natural number below `2 ^ 53` is recovered exactly from its double. -/
namespace Surmise

open Float.Model Float.Model.UnpackedFloat

variable {m : Nat}

theorem toNat_unpackMantissa (b : BitVec Format.binary64.numBits) :
    (unpackMantissa b).toNat = b.toNat % 2 ^ 52 := by
  simp [unpackMantissa, BitVec.extractLsb]

theorem toNat_unpackExponent (b : BitVec Format.binary64.numBits) :
    (unpackExponent b).toNat = b.toNat / 2 ^ 52 % 2 ^ 11 := by
  simp [unpackExponent, BitVec.extractLsb, Nat.shiftRight_eq_div_pow]

theorem toNat_unpackSign (b : BitVec Format.binary64.numBits) :
    (unpackSign b).toNat = b.toNat / 2 ^ 63 := by
  have hb : b.toNat < 2 ^ 64 := b.isLt
  change (BitVec.cast _ (b.extractLsb 63 63)).toNat = _
  simp only [BitVec.extractLsb, BitVec.toNat_cast, BitVec.extractLsb'_toNat, Nat.shiftRight_eq_div_pow]
  omega

theorem toNat_packComponents (sign : Sign) (e : BitVec 11) (m : BitVec 52) :
    (packComponents Format.binary64 sign e m).toNat =
      sign.toBitVec.toNat * 2 ^ 63 + e.toNat * 2 ^ 52 + m.toNat := by
  have he : e.toNat < 2 ^ 11 := e.isLt
  have hm : m.toNat < 2 ^ 52 := m.isLt
  simp only [packComponents, BitVec.toNat_append]
  rw [← Nat.shiftLeft_add_eq_or_of_lt he, ← Nat.shiftLeft_add_eq_or_of_lt hm]
  simp only [Nat.shiftLeft_eq]
  omega

theorem packComponents_fields {b : BitVec Format.binary64.numBits} {e : BitVec 11} {m : BitVec 52}
    (he : (unpackExponent b).toNat = e.toNat) (hm : (unpackMantissa b).toNat = m.toNat) :
    packComponents Format.binary64 (Sign.ofBitVec (unpackSign b)) e m = b := by
  have hsign : ∀ c : BitVec 1, (Sign.ofBitVec c).toBitVec = c := by decide
  apply BitVec.eq_of_toNat_eq
  rw [toNat_packComponents, hsign, ← he, ← hm, toNat_unpackSign, toNat_unpackExponent, toNat_unpackMantissa]
  omega

theorem log2_of_subnormal (h0 : m ≠ 0) (hm : m < 2 ^ 52) : ¬ m.log2 + 1 = 53 := by
  have h := (Nat.log2_lt h0).mpr hm
  omega

theorem log2_of_normal (hlo : 2 ^ 52 ≤ m) (hhi : m < 2 ^ 53) : m.log2 + 1 = 53 := by
  have h0 : m ≠ 0 := by omega
  have h1 := (Nat.le_log2 h0).mpr hlo
  have h2 := (Nat.log2_lt h0).mpr hhi
  omega

theorem pack_finite (s : Sign) (hm : 0 < m) {e : Int} {biased : Nat} (he : e = (biased : Int) - 1075)
    (hb : biased < 2047) :
    UnpackedFloat.pack Format.binary64 (.finite s m e hm) =
      packComponents Format.binary64 s (if m.log2 + 1 = 53 then BitVec.ofNat 11 biased else 0#11)
        (BitVec.ofNat 52 m) := by
  have hbiased : (e + (1023 : Nat) + (52 : Nat)).toNat = biased := by omega
  change (if 2048 ≤ (e + (1023 : Nat) + (52 : Nat)).toNat + 1 then _
    else if m.log2 + 1 = 53 then
      packComponents Format.binary64 s (BitVec.ofNat 11 (e + (1023 : Nat) + (52 : Nat)).toNat)
        (BitVec.ofNat 52 m)
    else packComponents Format.binary64 s 0#11 (BitVec.ofNat 52 m)) = _
  rw [hbiased, if_neg (by omega)]
  split <;> rfl

/-- The bits of a finite double are recovered from its parts. -/
theorem pack_unpack {b : BitVec Format.binary64.numBits} (h : (unpackExponent b).toNat ≠ 2047) :
    UnpackedFloat.pack Format.binary64 (UnpackedFloat.unpack Format.binary64 b) = b := by
  have hm : (unpackMantissa b).toNat < 2 ^ 52 := (unpackMantissa b).isLt
  have he : (unpackExponent b).toNat < 2 ^ 11 := (unpackExponent b).isLt
  have hne : unpackExponent b ≠ -1#_ := fun hc => h (by rw [hc]; rfl)
  unfold UnpackedFloat.unpack
  rw [if_neg hne]
  by_cases h0 : unpackExponent b = 0#_
  · rw [if_pos h0]
    by_cases hm0 : unpackMantissa b = 0#_
    · -- a zero
      rw [dif_pos hm0]
      exact packComponents_fields (by rw [h0]; rfl) (by rw [hm0]; rfl)
    · -- a subnormal double, whose significand is too short for a leading bit
      rw [dif_neg hm0]
      have hmn : (unpackMantissa b).toNat ≠ 0 := fun hc => hm0 (BitVec.eq_of_toNat_eq hc)
      have hexp : ((unpackExponent b).toNat : Int) - ((1023 : Nat) + (52 : Nat)) + 1 =
          ((1 : Nat) : Int) - 1075 := by
        rw [h0]
        rfl
      refine (pack_finite _ _ hexp (by omega)).trans ?_
      rw [if_neg (log2_of_subnormal hmn hm)]
      refine packComponents_fields (by rw [h0]) ?_
      simp
  · -- a normal double, whose leading bit is not among the bits
    rw [if_neg h0]
    have happ : (1#1 ++ unpackMantissa b).toNat = 2 ^ 52 + (unpackMantissa b).toNat := by
      rw [BitVec.toNat_append, ← Nat.shiftLeft_add_eq_or_of_lt hm]
      rfl
    have hexp : ((unpackExponent b).toNat : Int) - ((1023 : Nat) + (52 : Nat)) =
        ((unpackExponent b).toNat : Int) - 1075 := rfl
    refine (pack_finite _ _ hexp (by omega)).trans ?_
    rw [if_pos (log2_of_normal (by omega) (by omega))]
    refine packComponents_fields ?_ ?_
    · simp
    · rw [happ, BitVec.toNat_ofNat]
      omega

theorem toBits_ofBits {b : UInt64} (h : b.toNat / 2 ^ 52 % 2 ^ 11 ≠ 2047) :
    (Float.ofBits b).toBits = b := by
  have hp : UnpackedFloat.pack Format.binary64 (UnpackedFloat.unpack Format.binary64 b.toBitVec) =
      b.toBitVec := pack_unpack (by rw [toNat_unpackExponent]; exact h)
  change UInt64.ofBitVec (UnpackedFloat.pack Format.binary64
    (UnpackedFloat.unpack Format.binary64 b.toBitVec)) = b
  rw [hp]

theorem Parts.ofFloat?_of_isFinite {x : Float} (h : x.isFinite = true) :
    ∃ p, Parts.ofFloat? x = some p := by
  have hne : ¬ x.toBits.toNat / 4503599627370496 % 2048 = 2047 := by
    intro he
    have hexp : @unpackExponent Format.binary64 x.toBits.toBitVec = -1#_ :=
      BitVec.eq_of_toNat_eq ((toNat_unpackExponent _).trans he)
    change (UnpackedFloat.unpack Format.binary64 x.toBits.toBitVec).isFinite = true at h
    unfold UnpackedFloat.unpack at h
    dsimp only at h
    rw [if_pos hexp] at h
    split at h <;> cases h
  unfold ofFloat?
  dsimp only
  rw [if_neg hne]
  split <;> exact ⟨_, rfl⟩

namespace Number

variable {n : Nat} {x : Float}

theorem significand_bounds (h0 : n ≠ 0) (h : n < 2 ^ 53) :
    2 ^ 52 ≤ n * 2 ^ (52 - n.log2) ∧ n * 2 ^ (52 - n.log2) < 2 ^ 53 := by
  have hl : n.log2 < 53 := (Nat.log2_lt h0).mpr h
  have hlo : 2 ^ n.log2 ≤ n := Nat.log2_self_le h0
  have hhi : n < 2 ^ (n.log2 + 1) := Nat.lt_log2_self
  constructor
  · calc 2 ^ 52 = 2 ^ n.log2 * 2 ^ (52 - n.log2) := by rw [← Nat.pow_add]; congr 1; omega
      _ ≤ n * 2 ^ (52 - n.log2) := Nat.mul_le_mul_right _ hlo
  · calc n * 2 ^ (52 - n.log2) < 2 ^ (n.log2 + 1) * 2 ^ (52 - n.log2) :=
          Nat.mul_lt_mul_of_pos_right hhi (Nat.two_pow_pos _)
      _ = 2 ^ 53 := by rw [← Nat.pow_add]; congr 1; omega

theorem ofNat_zero : ofNat 0 = 0 := by
  decide +kernel

theorem ofNat_eq_ofBits (h0 : n ≠ 0) (h : n < 2 ^ 53) :
    ofNat n = Float.ofBits
      ((1075 - (52 - n.log2)) * 2 ^ 52 + (n * 2 ^ (52 - n.log2) - 2 ^ 52)).toUInt64 := by
  obtain ⟨hlo, hhi⟩ := significand_bounds h0 h
  have hshift : min (52 - n.log2) ((0 : Int) + 1074).toNat = 52 - n.log2 := by omega
  have hexp : (0 - ((52 - n.log2 : Nat) : Int) + 1075).toNat = 1075 - (52 - n.log2) := by omega
  have hnormal : ¬ n * 2 ^ (52 - n.log2) < 4503599627370496 := by omega
  have hfinite : 0 - ((52 - n.log2 : Nat) : Int) + 1075 < 2047 := by omega
  have hsmall : n < 9007199254740992 := h
  unfold ofNat Parts.toFloat
  simp only [if_pos hsmall, hshift, hexp, Parts.signBit, Nat.pow_eq, if_neg h0, if_neg hnormal,
    if_pos hfinite, Bool.false_eq_true, if_false, Nat.zero_add]
  rfl

theorem ofFloat?_ofNat (h0 : n ≠ 0) (h : n < 2 ^ 53) :
    Parts.ofFloat? (ofNat n) =
      some ⟨false, n * 2 ^ (52 - n.log2), -((52 - n.log2 : Nat) : Int)⟩ := by
  obtain ⟨hlo, hhi⟩ := significand_bounds h0 h
  have hbits := ofNat_eq_ofBits h0 h
  have hk : 52 - n.log2 ≤ 52 := Nat.sub_le _ _
  generalize 52 - n.log2 = k at *
  generalize n * 2 ^ k = m at *
  have hb : ((1075 - k) * 2 ^ 52 + (m - 2 ^ 52)).toUInt64.toNat =
      (1075 - k) * 2 ^ 52 + (m - 2 ^ 52) := by
    simp only [UInt64.toNat_ofNat']
    omega
  have hbiased : ((1075 - k) * 2 ^ 52 + (m - 2 ^ 52)) / 4503599627370496 % 2048 = 1075 - k := by omega
  have hfraction : ((1075 - k) * 2 ^ 52 + (m - 2 ^ 52)) % 4503599627370496 = m - 2 ^ 52 := by omega
  unfold Parts.ofFloat?
  rw [hbits, toBits_ofBits (by rw [hb]; omega), hb]
  simp only [hbiased, hfraction]
  rw [if_neg (by omega), if_neg (by omega)]
  simp only [Option.some.injEq, Parts.mk.injEq, decide_eq_false_iff_not]
  omega

theorem whole_shifted (negative : Bool) (n k : Nat) :
    Parts.whole ⟨negative, n * 2 ^ k, -(k : Int)⟩ = n := by
  unfold Parts.whole
  by_cases hk : k = 0
  · subst hk
    simp
  · rw [if_neg (by simp; omega)]
    simp

theorem toNat?_eq_some (h : toNat? x = some n) :
    ∃ p, Parts.ofFloat? x = some p ∧ p.IsInteger ∧ p.whole = n ∧ (p.negative = true → n = 0) := by
  unfold toNat? at h
  split at h
  next => cases h
  next p hp =>
    split at h
    next hi =>
      have hw := Option.some.inj h
      refine ⟨p, hp, hi.1, hw, fun hneg => ?_⟩
      have hs : p.significand = 0 := hi.2.resolve_left (by simp [hneg])
      rw [← hw]
      simp [Parts.whole, hs]
    next => cases h

theorem toNat?_ofNat (h : n < 2 ^ 53) : toNat? (ofNat n) = some n := by
  by_cases h0 : n = 0
  · subst h0
    decide +kernel
  · have hint : Parts.IsInteger ⟨false, n * 2 ^ (52 - n.log2), -((52 - n.log2 : Nat) : Int)⟩ :=
      .inr (by simp)
    unfold toNat?
    rw [ofFloat?_ofNat h0 h]
    simp only [hint, whole_shifted, true_and, true_or, if_true]

theorem leNat_of_toNat? (h : toNat? x = some n) (m : Nat) : leNat x m = decide (n ≤ m) := by
  obtain ⟨p, hp, hinteger, hwhole, hzero⟩ := toNat?_eq_some h
  unfold leNat
  simp only [hp]
  cases hneg : p.negative with
  | true => simp [hzero hneg]
  | false =>
    rw [Bool.false_or]
    split
    next => rw [hwhole]
    next hexp =>
      -- below the point there are only zeros, so dividing them off loses nothing
      have hdvd : Nat.pow 2 (-p.exponent).toNat ∣ p.significand :=
        Nat.dvd_of_mod_eq_zero (hinteger.resolve_left hexp)
      have hpos : 0 < Nat.pow 2 (-p.exponent).toNat := Nat.two_pow_pos _
      have hmul := Nat.div_mul_cancel hdvd
      rw [Parts.whole, if_neg hexp] at hwhole
      rw [hwhole] at hmul
      rw [decide_eq_decide, ← hmul]
      exact Nat.mul_le_mul_right_iff hpos

theorem leNat_ofNat (h : n < 2 ^ 53) (m : Nat) : leNat (ofNat n) m = decide (n ≤ m) :=
  leNat_of_toNat? (toNat?_ofNat h) m

theorem leNat_mono {m : Nat} (h : leNat x m = true) (hmn : m ≤ n) : leNat x n = true := by
  unfold leNat at h ⊢
  split at h
  next => exact h
  next p _ =>
    rw [Bool.or_eq_true] at h ⊢
    refine h.imp_right fun h => ?_
    split at h
    next he =>
      rw [if_pos he]
      simp only [decide_eq_true_eq] at h ⊢
      omega
    next he =>
      rw [if_neg he]
      simp only [decide_eq_true_eq] at h ⊢
      exact Nat.le_trans h (Nat.mul_le_mul_right _ hmn)

end Number

end Surmise
