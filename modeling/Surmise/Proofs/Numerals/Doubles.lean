import Surmise.Number.Reader
import Surmise.Proofs.Rounding.Decimal

/-! Doubles that are numbers, the infinities included. What is rounded is a number, a number times or
divided by a finite one that is not zero is a number, and so is a number plus a finite one. Therefore
numerals are numbers, whether they are rounded once or at every digit. -/
namespace Surmise

open Float.Model Float.Model.UnpackedFloat

/-! ### Packing -/

theorem unpackExponent_packComponents (s : Sign) (e : BitVec 11) (m : BitVec 52) :
    unpackExponent (packComponents Format.binary64 s e m) = e := by
  have he : e.toNat < 2 ^ 11 := e.isLt
  have hm : m.toNat < 2 ^ 52 := m.isLt
  apply BitVec.eq_of_toNat_eq
  rw [toNat_unpackExponent, toNat_packComponents]
  omega

theorem unpackMantissa_packComponents (s : Sign) (e : BitVec 11) (m : BitVec 52) :
    unpackMantissa (packComponents Format.binary64 s e m) = m := by
  have hm : m.toNat < 2 ^ 52 := m.isLt
  apply BitVec.eq_of_toNat_eq
  rw [toNat_unpackMantissa, toNat_packComponents]
  omega

theorem isNaN_unpack {b : BitVec Format.binary64.numBits}
    (h : unpackExponent b ≠ -1#11 ∨ unpackMantissa b = 0#52) :
    (UnpackedFloat.unpack Format.binary64 b).isNaN = false := by
  unfold UnpackedFloat.unpack
  dsimp only
  by_cases he : unpackExponent b = -1#11
  · rw [if_pos he, if_pos (h.resolve_left (not_not_intro he))]
    rfl
  rw [if_neg he]
  by_cases hzero : unpackExponent b = 0#11
  · rw [if_pos hzero]
    by_cases hm : unpackMantissa b = 0#52
    · rw [dif_pos hm]
      rfl
    · rw [dif_neg hm]
      rfl
  · rw [if_neg hzero]
    rfl

theorem isNaN_packComponents (s : Sign) {e : BitVec 11} {m : BitVec 52} (h : e ≠ -1#11 ∨ m = 0#52) :
    (UnpackedFloat.unpack Format.binary64 (packComponents Format.binary64 s e m)).isNaN = false := by
  apply isNaN_unpack
  rwa [unpackExponent_packComponents, unpackMantissa_packComponents]

theorem isNaN_pack {u : UnpackedFloat} (h : u.isNaN = false) :
    (Float.ofModel (Float.Model.pack u)).isNaN = false := by
  change (UnpackedFloat.unpack Format.binary64 (UnpackedFloat.pack Format.binary64 u)).isNaN = false
  cases u with
  | notANumber => cases h
  | infinity s | zero s => exact isNaN_packComponents s (.inr rfl)
  | finite s m e hm =>
    unfold UnpackedFloat.pack
    dsimp only
    split
    · exact isNaN_packComponents s (.inr rfl)
    next hlarge =>
      have hbiased : (e + (1023 : Nat) + (52 : Nat)).toNat + 1 < 2048 := Nat.lt_of_not_le hlarge
      split
      · refine isNaN_packComponents s (.inl fun hones => ?_)
        have htoNat : (e + (1023 : Nat) + (52 : Nat)).toNat % 2048 = 2047 := congrArg BitVec.toNat hones
        omega
      · exact isNaN_packComponents s (.inl (by decide))

/-! ### Operations -/

theorem isNaN_roundWithAccuracy (s : Sign) (m : Nat) (e : Int) (a : Accuracy) :
    (UnpackedFloat.roundWithAccuracy Format.binary64 s m e a).isNaN = false := by
  unfold UnpackedFloat.roundWithAccuracy
  dsimp only
  by_cases hzero : (shiftToTargetExponent Format.binary64
      (shiftToTargetExponent Format.binary64 m e a).1.roundedMantissa
      (shiftToTargetExponent Format.binary64 m e a).2 .exact).1.mantissa = 0
  · rw [dif_pos hzero]
    rfl
  · rw [dif_neg hzero]
    rfl

theorem isNaN_normalize (m e : Int) (s : Sign) :
    (UnpackedFloat.normalize Format.binary64 m e s).isNaN = false := by
  unfold UnpackedFloat.normalize
  split
  · exact isNaN_roundWithAccuracy _ _ _ _
  · rfl
  · exact isNaN_roundWithAccuracy _ _ _ _

def isScale (x : Float) : Bool :=
  match x.toModel.unpack with
  | .finite .. => true
  | _ => false

section

variable {x y : Float} (hx : x.isNaN = false)
include hx

theorem unpack_of_not_isNaN : (∃ s, x.toModel.unpack = .infinity s) ∨ (∃ s, x.toModel.unpack = .zero s) ∨
    ∃ s m e hm, x.toModel.unpack = .finite s m e hm := by
  change x.toModel.unpack.isNaN = false at hx
  cases hu : x.toModel.unpack with
  | notANumber =>
    rw [hu] at hx
    cases hx
  | infinity s => exact .inl ⟨s, rfl⟩
  | zero s => exact .inr (.inl ⟨s, rfl⟩)
  | finite s m e hm => exact .inr (.inr ⟨s, m, e, hm, rfl⟩)

omit hx in
theorem unpack_of_isScale (hy : isScale y = true) : ∃ s m e hm, y.toModel.unpack = .finite s m e hm := by
  unfold isScale at hy
  cases hu : y.toModel.unpack with
  | finite s m e hm => exact ⟨s, m, e, hm, rfl⟩
  | _ =>
    rw [hu] at hy
    cases hy

theorem isNaN_mul (hy : isScale y = true) : (x * y).isNaN = false := by
  obtain ⟨s, m, e, hm, hy⟩ := unpack_of_isScale hy
  refine isNaN_pack ?_
  obtain ⟨s', hx⟩ | ⟨s', hx⟩ | ⟨s', m', e', hm', hx⟩ := unpack_of_not_isNaN hx <;> rw [hx, hy]
  · rfl
  · rfl
  · exact isNaN_roundWithAccuracy _ _ _ _

theorem isNaN_add (hy : y.isFinite = true) : (x + y).isNaN = false := by
  change y.toModel.unpack.isFinite = true at hy
  refine isNaN_pack ?_
  cases hv : y.toModel.unpack with
  | notANumber | infinity s =>
    rw [hv] at hy
    cases hy
  | zero s =>
    obtain ⟨s', hx⟩ | ⟨s', hx⟩ | ⟨s', m', e', hm', hx⟩ := unpack_of_not_isNaN hx <;> rw [hx]
    · rfl
    · cases s <;> cases s' <;> rfl
    · rfl
  | finite s m e hm =>
    obtain ⟨s', hx⟩ | ⟨s', hx⟩ | ⟨s', m', e', hm', hx⟩ := unpack_of_not_isNaN hx <;> rw [hx]
    · rfl
    · rfl
    · exact isNaN_normalize _ _ _

end

/-! ### Numerals -/

theorem RoundedTo.isNaN {v : ℚ} {x : Float} (h : RoundedTo v x) : x.isNaN = false := by
  obtain ⟨u, ⟨n, -, hstands⟩, rfl⟩ := h
  refine isNaN_pack ?_
  cases hstands <;> rfl

theorem Numeral.isNaN_magnitude (coefficient : Nat) (exponent : Int) :
    (magnitude coefficient exponent).isNaN = false := by
  rcases Nat.eq_zero_or_pos coefficient with rfl | hpos
  · rw [magnitude_zero]
    decide +kernel
  · exact (roundedTo_magnitude hpos exponent).isNaN

/-- The digits of a radix that is announced by a mark are a number, be it infinite. -/
theorem Number.isNaN_ofDigits? {radix : Nat} (hradix : radix = 16 ∨ radix = 8 ∨ radix = 2)
    {digits : List Char} (hne : digits ≠ []) (hdigits : ∀ d ∈ digits, Radix.isDigit radix d = true) :
    ∃ x, ofDigits? radix digits = some x ∧ x.isNaN = false := by
  have hscale : isScale (ofNat radix) = true := by
    obtain rfl | rfl | rfl := hradix <;> decide +kernel
  have hfinite : ∀ k : Fin 16, (ofNat k).isFinite = true := by decide +kernel
  have hzero : (0.0 : Float).isNaN = false := by decide +kernel
  unfold ofDigits?
  rw [if_neg hne]
  generalize (0.0 : Float) = x at hzero
  clear hne
  induction digits generalizing x with
  | nil => exact ⟨x, rfl, hzero⟩
  | cons d ds ih =>
    rw [List.forall_mem_cons] at hdigits
    obtain ⟨k, hk⟩ := Option.isSome_iff_exists.mp hdigits.1
    have hlt : k < 16 := by
      have hk : k < radix := by simpa using (Option.filter_eq_some_iff.mp hk).2
      omega
    have hstep : (x * ofNat radix + ofNat k).isNaN = false :=
      isNaN_add (isNaN_mul hzero hscale) (hfinite ⟨k, hlt⟩)
    rw [List.foldlM_cons, hk]
    exact ih hdigits.2 _ hstep

end Surmise
