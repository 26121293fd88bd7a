import Surmise.Proofs.Termination.Depth

/-! The comparison `==`. Whichever operand is converted first, the outcome is that of the operands the other
way around, and it cannot be told only where an operand cannot be told or converts to what cannot. -/
namespace Surmise

/-! ### Numbers -/

section

open Float.Model

/-- Comparing the other way round gives the reversed order, or again none. -/
theorem unpacked_compare_swap (u v : UnpackedFloat) : v.compare u = (u.compare v).map Ordering.swap := by
  -- doubles of one sign are compared by their exponents first
  have hthen (d e : Int) (m n : Nat) :
      (compare e d).then (compare n m) = ((compare d e).then (compare m n)).swap := by
    rw [Ordering.swap_then, Int.compare_swap, Nat.compare_swap]
  cases u with
  | notANumber => cases v <;> rfl
  | infinity s =>
    cases v with
    | infinity t => cases s <;> cases t <;> rfl
    | _ => cases s <;> rfl
  | zero s =>
    cases v with
    | infinity t | finite t => cases t <;> rfl
    | _ => rfl
  | finite s m e hm =>
    cases v with
    | notANumber => rfl
    | infinity t => cases s <;> cases t <;> rfl
    | zero t => cases s <;> rfl
    | finite t n d hn =>
      cases s <;> cases t
      · exact congrArg some (congrArg Ordering.swap (hthen e d m n))
      · rfl
      · rfl
      · exact congrArg some (hthen e d m n)

theorem float_beq_comm (x y : Float) : (x == y) = (y == x) := by
  change (x.toModel.unpack.compare y.toModel.unpack == some .eq) =
    (y.toModel.unpack.compare x.toModel.unpack == some .eq)
  rw [unpacked_compare_swap x.toModel.unpack]
  cases x.toModel.unpack.compare y.toModel.unpack with
  | none => rfl
  | some o => cases o <;> rfl

end

/-! ### Symmetry -/

namespace Value

def isScalar : Value → Bool
  | boolean _ | number _ | string _ => true
  | _ => false

end Value

namespace Heap
variable {h : Heap} {a b : Value} {id : ObjectId}

theorem looseEqualsIn_comm (h : Heap) (n : Nat) (a b : Value) :
    h.looseEqualsIn n a b = h.looseEqualsIn n b a := by
  induction n generalizing a b with
  | zero => rfl
  | succ n ih =>
    cases a <;> cases b
    case number.number x y => exact congrArg some (float_beq_comm x y)
    case boolean.boolean p q => exact congrArg some Bool.beq_comm
    case string.string s t => exact congrArg some BEq.comm
    case object.object i j => exact congrArg some BEq.comm
    any_goals rfl
    all_goals exact ih _ _

theorem looseEquals_comm (h : Heap) (a b : Value) : h.looseEquals a b = h.looseEquals b a :=
  h.looseEqualsIn_comm _ a b

/-! ### Comparisons that cannot be told -/

theorem looseEqualsIn_unknown (n : Nat) (b : Value) : h.looseEqualsIn n .unknown b = none := by
  cases n <;> rfl

/-- Without objects, two conversions make numbers of both operands. -/
theorem looseEqualsIn_told (n : Nat) (ha : a.isObject = false) (ha' : a.isUnknown = false)
    (hb : b.isObject = false) (hb' : b.isUnknown = false) :
    (h.looseEqualsIn (n + 3) a b).isSome = true := by
  cases a with
  | object | unknown => contradiction
  | _ =>
    cases b with
    | object | unknown => contradiction
    | _ => rfl

theorem Flat.looseEqualsIn_object (hf : h.Flat) (n : Nat) (hb : b.isScalar = true) :
    h.looseEqualsIn (n + 5) (.object id) b = none ↔ h.toPrimitive (.object id) = .unknown := by
  have hprimitive := hf.isObject_toPrimitive (.object id)
  have hstep (n : Nat) {u : Value} (hu : u.isObject = false) (hu' : u.isUnknown = false) :
      h.looseEqualsIn (n + 3) (h.toPrimitive (.object id)) u = none ↔
        h.toPrimitive (.object id) = .unknown := by
    generalize h.toPrimitive (.object id) = w at hprimitive
    refine ⟨fun hnone => ?_, fun hw => ?_⟩
    · by_contra hw
      have hw' : w.isUnknown = false := by
        cases w with
        | unknown => exact absurd rfl hw
        | _ => rfl
      have hsome := looseEqualsIn_told (h := h) n hprimitive hw' hu hu'
      rw [hnone] at hsome
      cases hsome
    · rw [hw]
      exact looseEqualsIn_unknown _ _
  cases b with
  | boolean q => exact hstep n (u := .number (if q then 1 else 0)) rfl rfl
  | number y => exact hstep (n + 1) (u := .number y) rfl rfl
  | string t => exact hstep (n + 1) (u := .string t) rfl rfl
  | _ => contradiction

def Untold (h : Heap) (id : ObjectId) : Prop := ∃ n, h.primitiveOf? n [] id = some .unknown

/-- An object is compared with a truth value, a number or a text, and cannot be converted to any. -/
def Obscures (h : Heap) (a b : Value) : Prop := ∃ id, a = .object id ∧ b.isScalar = true ∧ h.Untold id

def Converts (h : Heap) : Prop := ∀ id, ∃ n v, h.primitiveOf? n [] id = some v

theorem Converts.toPrimitive_eq_unknown_iff (hc : h.Converts) :
    h.toPrimitive (.object id) = .unknown ↔ h.Untold id := by
  rw [toPrimitive]
  constructor
  · intro hunknown
    obtain ⟨n, v, hn⟩ := hc id
    rw [primitiveOf?_conversionDepth hn] at hunknown
    obtain rfl : v = .unknown := hunknown
    exact ⟨n, hn⟩
  · rintro ⟨n, hn⟩
    rw [primitiveOf?_conversionDepth hn]
    rfl

theorem looseEquals_object (hf : h.Flat) (hc : h.Converts) (hb : b.isScalar = true) :
    h.looseEquals (.object id) b = none ↔ h.Untold id :=
  (hf.looseEqualsIn_object h.size hb).trans hc.toPrimitive_eq_unknown_iff

/-- Loose equality is undecided only where an operand is unknown, or an object is compared with a scalar and
cannot be converted. -/
theorem looseEquals_eq_none_iff (hf : h.Flat) (hc : h.Converts) :
    h.looseEquals a b = none ↔ a = .unknown ∨ b = .unknown ∨ h.Obscures a b ∨ h.Obscures b a := by
  constructor
  · intro hnone
    cases a with
    | unknown => exact .inl rfl
    | undefined | null =>
      cases b with
      | unknown => exact .inr (.inl rfl)
      | _ => cases hnone
    | object id =>
      cases b with
      | unknown => exact .inr (.inl rfl)
      | undefined | null | object => cases hnone
      | _ => exact .inr (.inr (.inl ⟨id, rfl, rfl, (looseEquals_object hf hc rfl).mp hnone⟩))
    | _ =>
      cases b with
      | unknown => exact .inr (.inl rfl)
      | object id =>
        rw [looseEquals_comm] at hnone
        exact .inr (.inr (.inr ⟨id, rfl, rfl, (looseEquals_object hf hc rfl).mp hnone⟩))
      | _ => cases hnone
  · rintro (rfl | rfl | ⟨id, rfl, hb, hid⟩ | ⟨id, rfl, ha, hid⟩)
    · exact looseEqualsIn_unknown _ _
    · rw [looseEquals_comm]
      exact looseEqualsIn_unknown _ _
    · exact (looseEquals_object hf hc hb).mpr hid
    · rw [looseEquals_comm]
      exact (looseEquals_object hf hc ha).mpr hid

/-! ### Operators -/

theorem looseEquals_of_strictEquals (heq : a.strictEquals b = true) : h.looseEquals a b = some true := by
  cases a <;> cases b
  case undefined.undefined | null.null => rfl
  case boolean.boolean | number.number | string.string | object.object => exact congrArg some heq
  all_goals cases heq

theorem looseEquals_of_isUnknown (hu : (a.isUnknown || b.isUnknown) = true) : h.looseEquals a b = none := by
  obtain ha | hb := Bool.or_eq_true_iff.mp hu
  · cases a with
    | unknown => exact looseEqualsIn_unknown _ _
    | _ => cases ha
  · rw [looseEquals_comm]
    cases b with
    | unknown => exact looseEqualsIn_unknown _ _
    | _ => cases hb

theorem binary_equal (h : Heap) (a b : Value) : h.binary .equal a b = .ofBool? (h.looseEquals a b) := by
  unfold binary
  split
  next hu =>
    rw [looseEquals_of_isUnknown hu]
    rfl
  next => rfl

theorem binary_notEqual (h : Heap) (a b : Value) :
    h.binary .notEqual a b = .ofBool? ((h.looseEquals a b).map not) := by
  unfold binary
  split
  next hu =>
    rw [looseEquals_of_isUnknown hu]
    rfl
  next => rfl

end Heap

/-- In a heap without objects in wrappers where all conversions come to an end, the comparison `==` comes to
an end, and gives for the operands in either order the same. It cannot be told exactly if one operand cannot
be told, or is an object that cannot be converted and is compared with a truth value, a number or a text. What
is identical is equal, and `!=` is the contrary of `==`. -/
theorem loose_equality_coherent {h : Heap} (hf : h.Flat) (hc : h.Converts) (a b : Value) :
    (∀ n, 5 ≤ n → h.looseEqualsIn n a b = h.looseEquals a b) ∧
    h.looseEquals a b = h.looseEquals b a ∧
    (h.looseEquals a b = none ↔ a = .unknown ∨ b = .unknown ∨ h.Obscures a b ∨ h.Obscures b a) ∧
    (a.strictEquals b = true → h.looseEquals a b = some true) ∧
    h.binary .equal a b = .ofBool? (h.looseEquals a b) ∧
    h.binary .notEqual a b = .ofBool? ((h.looseEquals a b).map not) :=
  ⟨fun _ hn => hf.looseEqualsIn_eq a b hn, h.looseEquals_comm a b, Heap.looseEquals_eq_none_iff hf hc,
    Heap.looseEquals_of_strictEquals, h.binary_equal a b, h.binary_notEqual a b⟩

def boxed : Heap :=
  ⟨#[{ objectClass := .boolean, primitive := some (.boolean true) },
    .ofError .typeError (.object ⟨0⟩) .unknown]⟩

theorem boxed_cases (id : ObjectId) : id = ⟨0⟩ ∨ id = ⟨1⟩ ∨ boxed.record id = default := by
  obtain ⟨i⟩ := id
  cases i with
  | zero => exact .inl rfl
  | succ i =>
    cases i with
    | zero => exact .inr (.inl rfl)
    | succ i => exact .inr (.inr (Heap.record_of_size_le (Nat.le_add_left 2 i)))

theorem loose_equality_coherent_boxed : boxed.Flat ∧ boxed.Converts ∧
    boxed.looseEquals (.number 1) (.object ⟨0⟩) = boxed.looseEquals (.object ⟨0⟩) (.number 1) ∧
    boxed.looseEquals (.string "") (.object ⟨1⟩) = none := by
  have hf : boxed.Flat := by
    intro id v hw hv
    obtain rfl | rfl | hr := boxed_cases id
    · cases hv
      rfl
    · cases hw
    · rw [hr] at hw
      cases hw
  have hc : boxed.Converts := by
    intro id
    obtain rfl | rfl | hr := boxed_cases id
    · exact ⟨1, .boolean true, rfl⟩
    · exact ⟨2, .unknown, rfl⟩
    · refine ⟨1, .string "[object Object]", ?_⟩
      unfold Heap.primitiveOf?
      rw [hr]
      rfl
  have huntold : boxed.Untold ⟨1⟩ := ⟨2, rfl⟩
  refine ⟨hf, hc, (loose_equality_coherent hf hc _ _).2.1, ?_⟩
  exact (loose_equality_coherent hf hc _ _).2.2.1.mpr (.inr (.inr (.inr ⟨⟨1⟩, rfl, rfl, huntold⟩)))

end Surmise
