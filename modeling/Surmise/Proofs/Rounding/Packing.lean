import Surmise.Proofs.Number

/-! Doubles and their parts. A finite double is unpacked into the parts that are read off its bits, and parts
whose significand is as long as it may be are packed into a double that has them. -/
namespace Surmise

open Float.Model Float.Model.UnpackedFloat

structure Reduced (m : Nat) (e : Int) : Prop where
  pos : 0 < m
  lt : m < 2 ^ 53
  least : -1074 ≤ e
  long : 2 ^ 52 ≤ m ∨ e = -1074

theorem targetExponent_eq (t : Int) :
    Format.binary64.targetExponent t = max (t - 53) (-1074) := rfl

theorem eq_of_toBits {x y : Float} (h : x.toBits = y.toBits) : x = y := by
  obtain ⟨⟨b, hb⟩⟩ := x
  obtain ⟨⟨c, hc⟩⟩ := y
  obtain rfl : b = c := h
  rfl

def signOf : Bool → Sign
  | true => .negative
  | false => .positive

theorem finite_congr {s s' : Sign} {m m' : Nat} {e e' : Int} {h : 0 < m} {h' : 0 < m'} (hs : s = s')
    (hm : m = m') (he : e = e') : UnpackedFloat.finite s m e h = .finite s' m' e' h' := by
  subst hs hm he
  rfl

theorem ofBitVec_unpackSign (b : BitVec Format.binary64.numBits) :
    Sign.ofBitVec (unpackSign b) = signOf (decide (2 ^ 63 ≤ b.toNat)) := by
  have hb : b.toNat < 2 ^ 64 := b.isLt
  have hsign := toNat_unpackSign b
  by_cases h : 2 ^ 63 ≤ b.toNat
  · have hone : unpackSign b = 1#1 := BitVec.eq_of_toNat_eq (hsign.trans (by rw [BitVec.toNat_ofNat]; omega))
    rw [hone, decide_eq_true h]
    rfl
  · have hzero : unpackSign b = 0#1 := BitVec.eq_of_toNat_eq (hsign.trans (by rw [BitVec.toNat_ofNat]; omega))
    rw [hzero, decide_eq_false h]
    rfl

namespace Parts

variable {x : Float} {p : Parts}

theorem ofFloat?_eq_some_iff : ofFloat? x = some p ↔
    p.negative = decide (2 ^ 63 ≤ x.toBits.toNat) ∧
      (x.toBits.toNat / 2 ^ 52 % 2 ^ 11 = 0 ∧ p.significand = x.toBits.toNat % 2 ^ 52 ∧
          p.exponent = -1074 ∨
        x.toBits.toNat / 2 ^ 52 % 2 ^ 11 ≠ 0 ∧ x.toBits.toNat / 2 ^ 52 % 2 ^ 11 ≠ 2047 ∧
          p.significand = x.toBits.toNat % 2 ^ 52 + 2 ^ 52 ∧
          p.exponent = (x.toBits.toNat / 2 ^ 52 % 2 ^ 11 : Nat) - 1075) := by
  obtain ⟨negative, significand, exponent⟩ := p
  unfold ofFloat?
  simp only [Nat.reducePow]
  generalize x.toBits.toNat / 4503599627370496 % 2048 = biased
  by_cases hall : biased = 2047
  · rw [if_pos hall]
    simp [hall]
  · rw [if_neg hall]
    by_cases hnone : biased = 0
    · rw [if_pos hnone]
      simp [hnone, eq_comm]
    · rw [if_neg hnone]
      simp [hnone, hall, eq_comm]

def unpacked (p : Parts) : UnpackedFloat :=
  if h : p.significand = 0 then .zero (signOf p.negative)
  else .finite (signOf p.negative) p.significand p.exponent (Nat.pos_of_ne_zero h)

theorem unpacked_of_ne_zero {b : Bool} {m : Nat} {e : Int} (hm : m ≠ 0) :
    unpacked ⟨b, m, e⟩ = .finite (signOf b) m e (Nat.pos_of_ne_zero hm) := dif_neg hm

/-- The parts that are read off the bits are those that the double is unpacked into. -/
theorem unpack_of_ofFloat? (hx : ofFloat? x = some p) : x.toModel.unpack = p.unpacked := by
  obtain ⟨b, hb⟩ : ∃ b : BitVec Format.binary64.numBits, x.toBits.toBitVec = b := ⟨_, rfl⟩
  have hbits : x.toBits.toNat = b.toNat := congrArg BitVec.toNat hb
  rw [ofFloat?_eq_some_iff, hbits, ← toNat_unpackMantissa, ← toNat_unpackExponent] at hx
  obtain ⟨hnegative, hfields⟩ := hx
  have hsign : Sign.ofBitVec (unpackSign b) = signOf p.negative := by
    rw [ofBitVec_unpackSign, hnegative]
  change UnpackedFloat.unpack Format.binary64 x.toBits.toBitVec = _
  rw [hb]
  unfold UnpackedFloat.unpack unpacked
  dsimp only
  obtain ⟨hexponent, hm, he⟩ | ⟨hzero, hall, hm, he⟩ := hfields
  · have hzero : unpackExponent b = 0#_ := BitVec.eq_of_toNat_eq hexponent
    have hall : unpackExponent b ≠ -1#_ := fun hc => absurd (hc.symm.trans hzero) (by decide)
    rw [if_neg hall, if_pos hzero]
    by_cases hmantissa : unpackMantissa b = 0#_
    · have hnone : p.significand = 0 := by
        rw [hm, hmantissa]
        rfl
      rw [dif_pos hmantissa, dif_pos hnone, hsign]
    · have hsome : p.significand ≠ 0 := fun hc =>
        hmantissa (BitVec.eq_of_toNat_eq (hm.symm.trans hc))
      rw [dif_neg hmantissa, dif_neg hsome]
      exact finite_congr hsign hm.symm (by rw [he, hexponent]; rfl)
  · have hzero' : unpackExponent b ≠ 0#_ := fun hc => hzero (by rw [hc]; rfl)
    have hall' : unpackExponent b ≠ -1#_ := fun hc => hall (by rw [hc]; rfl)
    have hsome : p.significand ≠ 0 := by omega
    have happend : (1#1 ++ unpackMantissa b).toNat = 2 ^ 52 + (unpackMantissa b).toNat := by
      rw [BitVec.toNat_append, ← Nat.shiftLeft_add_eq_or_of_lt (unpackMantissa b).isLt]
      rfl
    rw [if_neg hall', if_neg hzero', dif_neg hsome]
    exact finite_congr hsign (by omega) he.symm

theorem eq_pack (hx : ofFloat? x = some p) : x = .ofModel (Float.Model.pack p.unpacked) := by
  have hne : x.toBits.toNat / 2 ^ 52 % 2 ^ 11 ≠ 2047 := by
    have hfields := (ofFloat?_eq_some_iff.mp hx).2
    omega
  have hpack : UnpackedFloat.pack Format.binary64 (UnpackedFloat.unpack Format.binary64 x.toBits.toBitVec) =
      x.toBits.toBitVec := pack_unpack (by rw [toNat_unpackExponent]; exact hne)
  rw [← unpack_of_ofFloat? hx]
  apply eq_of_toBits
  change x.toBits = UInt64.ofBitVec (UnpackedFloat.pack Format.binary64
    (UnpackedFloat.unpack Format.binary64 x.toBits.toBitVec))
  rw [hpack]

theorem eq_zero_of_ofFloat? {b : Bool} {e : Int} (hx : ofFloat? x = some ⟨b, 0, e⟩) :
    x = Number.signed b 0.0 := by
  have hunpacked : unpacked ⟨b, 0, e⟩ = .zero (signOf b) := dif_pos rfl
  rw [eq_pack hx, hunpacked]
  cases b <;> exact eq_of_toBits (by decide +kernel)

/-- What has no parts is an infinity or no number. -/
theorem eq_of_ofFloat?_none (hx : ofFloat? x = none) :
    x = Number.nan ∨ x = Number.infinity ∨ x = -Number.infinity := by
  have hinfinity : Number.infinity.toBits.toNat = 2047 * 2 ^ 52 := by decide +kernel
  have hnegative : (-Number.infinity).toBits.toNat = 2 ^ 63 + 2047 * 2 ^ 52 := by decide +kernel
  have hlt : x.toBits.toNat < 2 ^ 64 := x.toBits.toNat_lt
  have hall : x.toBits.toNat / 2 ^ 52 % 2 ^ 11 = 2047 := by
    unfold ofFloat? at hx
    dsimp only at hx
    split at hx
    next hall => exact hall
    · split at hx <;> cases hx
  obtain ⟨b, hb⟩ : ∃ b : BitVec Format.binary64.numBits, x.toBits.toBitVec = b := ⟨_, rfl⟩
  have hbits : x.toBits.toNat = b.toNat := congrArg BitVec.toNat hb
  by_cases hm : unpackMantissa b = 0#_
  · have hzero : x.toBits.toNat % 2 ^ 52 = 0 := by
      rw [hbits, ← toNat_unpackMantissa, hm]
      rfl
    right
    by_cases hsign : 2 ^ 63 ≤ x.toBits.toNat
    · exact .inr (eq_of_toBits (UInt64.toNat_inj.mp (by omega)))
    · exact .inl (eq_of_toBits (UInt64.toNat_inj.mp (by omega)))
  · -- there is only one bit pattern for a double that is not a number
    left
    have hexponent : unpackExponent b = -1#_ :=
      BitVec.eq_of_toNat_eq ((toNat_unpackExponent b).trans (hbits ▸ hall))
    have hvalid : Format.binary64.Valid b := hb ▸ x.toModel.valid
    have hnan : Number.nan.toBits.toBitVec = packedNaN Format.binary64 := by decide +kernel
    exact eq_of_toBits (UInt64.toBitVec_inj.mp
      (hb.trans ((hvalid.eq_packedNaN hexponent hm).trans hnan.symm)))

theorem reduced (hx : ofFloat? x = some p) (hm : p.significand ≠ 0) :
    Reduced p.significand p.exponent ∧ p.exponent ≤ 971 := by
  have hfields := (ofFloat?_eq_some_iff.mp hx).2
  exact ⟨⟨by omega, by omega, by omega, by omega⟩, by omega⟩

end Parts

theorem toBits_pack (u : UnpackedFloat) :
    (Float.ofModel (Float.Model.pack u)).toBits.toNat = (UnpackedFloat.pack Format.binary64 u).toNat :=
  rfl

theorem toNat_toBitVec_signOf (b : Bool) : (signOf b).toBitVec.toNat = if b then 1 else 0 := by
  cases b <;> rfl

namespace Reduced
variable {m : Nat} {e : Int}

theorem toNat_toBits (h : Reduced m e) (b : Bool) {biased : Nat} (he : e = (biased : Int) - 1075)
    (hb : biased < 2047) :
    (Float.ofModel (Float.Model.pack (.finite (signOf b) m e h.pos))).toBits.toNat =
      (if b then 1 else 0) * 2 ^ 63 + (if 2 ^ 52 ≤ m then biased else 0) * 2 ^ 52 + m % 2 ^ 52 := by
  have hlog : m.log2 + 1 = 53 ↔ 2 ^ 52 ≤ m := by
    constructor
    · intro hl
      exact Nat.not_lt.mp fun hlt => log2_of_subnormal h.pos.ne' hlt hl
    · exact fun hlow => log2_of_normal hlow h.lt
  have hbiased : biased % 2 ^ 11 = biased := Nat.mod_eq_of_lt (by omega)
  rw [toBits_pack, pack_finite (signOf b) h.pos he hb, toNat_packComponents, toNat_toBitVec_signOf]
  by_cases hlow : 2 ^ 52 ≤ m
  · rw [if_pos hlow, if_pos (hlog.mpr hlow), BitVec.toNat_ofNat, BitVec.toNat_ofNat, hbiased]
  · rw [if_neg hlow, if_neg fun hl => hlow (hlog.mp hl), BitVec.toNat_ofNat, BitVec.toNat_ofNat]

theorem ofFloat?_pack (h : Reduced m e) (he : e ≤ 971) (b : Bool) :
    Parts.ofFloat? (.ofModel (Float.Model.pack (.finite (signOf b) m e h.pos))) = some ⟨b, m, e⟩ := by
  have hlt := h.lt
  have hleast := h.least
  have hlong := h.long
  obtain ⟨biased, hbiased⟩ : ∃ biased : Nat, e = (biased : Int) - 1075 := ⟨(e + 1075).toNat, by omega⟩
  have hbits := h.toNat_toBits b hbiased (by omega)
  rw [Parts.ofFloat?_eq_some_iff]
  generalize (Float.ofModel _).toBits.toNat = bits at hbits ⊢
  cases b <;> by_cases hlow : 2 ^ 52 ≤ m
  all_goals
    simp only [hlow, if_true, if_false, Bool.false_eq_true] at hbits
    refine ⟨?_, by dsimp only; omega⟩
    simp
    omega

end Reduced
end Surmise
