import Surmise.Proofs.Covering.Basic

/-! Conversions and operators make nothing up: where an operand or a part of an object is unknown, the
result is unknown or does not depend on it. -/
namespace Surmise

/-- The first conversion does not come to an end, ends in the unknown value, or ends as the second
does. -/
def Value.Foretells (a b : Option Value) : Prop := a = none ∨ a = some .unknown ∨ a = b

namespace Value

variable {v w : Value}

theorem Foretells.refl (a : Option Value) : Foretells a a := .inr (.inr rfl)

theorem Foretells.unknown (b : Option Value) : Foretells (some .unknown) b := .inr (.inl rfl)

theorem Covers.foretells (h : v.Covers w) : Foretells (some v) (some w) := by
  obtain rfl | rfl := h
  · exact .unknown _
  · exact .refl _

theorem Foretells.getD {a b : Option Value} (h : Foretells a b) :
    (a.getD .unknown).Covers (b.getD .unknown) := by
  obtain rfl | rfl | rfl := h
  · exact .unknown _
  · exact .unknown _
  · exact .refl _

theorem told_primitiveText? (h : v.Covers w) : Told v.primitiveText? w.primitiveText? := by
  obtain rfl | rfl := h
  · exact .inl rfl
  · exact .refl _

theorem told_primitiveNumber? (h : v.Covers w) : Told v.primitiveNumber? w.primitiveNumber? := by
  obtain rfl | rfl := h
  · exact .inl rfl
  · exact .refl _

theorem settle_unknown (p : ObjectId → Option Value) (n : Nat) :
    unknown.settle p n = some unknown := by
  cases n <;> rfl

theorem foretells_settle {p q : ObjectId → Option Value} (hp : ∀ id, Foretells (p id) (q id)) (n : Nat)
    (h : v.Covers w) : Foretells (v.settle p n) (w.settle q n) := by
  obtain rfl | rfl := h
  · rw [settle_unknown]
    exact .unknown _
  induction n generalizing v with
  | zero => cases v <;> exact .refl _
  | succ n ih =>
    cases v with
    | object id =>
      unfold settle
      obtain h | h | h := hp id
      · rw [h]
        exact .inl rfl
      · rw [h]
        dsimp only
        rw [settle_unknown]
        exact .unknown _
      · rw [h]
        cases q id with
        | none => exact .refl _
        | some v => exact ih
    | _ => exact .refl _

end Value

open Value (Foretells)

theorem foretells_elementText {p q : ObjectId → Option Value} (hp : ∀ id, Foretells (p id) (q id))
    {v w : Value} (h : v.Covers w) : Foretells (elementText p v) (elementText q w) := by
  obtain rfl | rfl := h
  · exact .unknown _
  cases v with
  | object id =>
    unfold elementText
    dsimp only
    obtain h | h | h := hp id
    · rw [h]
      exact .inl rfl
    · rw [h]
      exact .unknown _
    · rw [h]
      exact .refl _
  | _ => exact .refl _

theorem foretells_joinElements {part part' : Nat → Option Value}
    (hp : ∀ i, Foretells (part i) (part' i)) (n i : Nat) (done : List String) :
    Foretells (joinElements part n i done) (joinElements part' n i done) := by
  induction n generalizing i done with
  | zero => exact .refl _
  | succ n ih =>
    unfold joinElements
    obtain h | h | h := hp i
    · rw [h]
      exact .inl rfl
    · rw [h]
      exact .unknown _
    · rw [h]
      split
      · exact ih _ _
      · exact .refl _
      · exact .refl _

/-- The text of an error foretells the text of any error that it covers. -/
theorem foretells_errorText {s s' : Value → Option Value} (hu : s .unknown = some .unknown)
    (hs : ∀ v w : Value, v.Covers w → Foretells (s v) (s' w)) {r q : Record} (hr : r.Covers q) :
    Foretells (errorText s r) (errorText s' q) := by
  unfold errorText
  obtain h | h | h := hs _ _ (hr.get "name")
  · rw [h]
    exact .inl rfl
  · rw [h]
    exact .unknown _
  rw [h]
  cases s' (q.get "name") with
  | none => exact .refl _
  | some name =>
    dsimp only
    cases name.primitiveText? with
    | none => exact .refl _
    | some name =>
      obtain hm | hm := hr.get "message"
      · simp only [hm, hu]
        exact .unknown _
      · rw [hm]
        dsimp only
        split
        · exact .refl _
        · obtain h | h | h := hs _ _ (.refl (q.get "message"))
          · rw [h]
            exact .inl rfl
          · rw [h]
            exact .unknown _
          · rw [h]
            exact .refl _

namespace Heap

variable {h k : Heap} {v w a b a' b' : Value}

section

variable (hk : h.Covers k)
include hk

/-- A record that does not override its conversion and may not do so leaves no doubt about the record
it stands for. -/
theorem Covers.overridesConversion {r q : Record} (hr : r.Covers q)
    (ho : h.overridesConversion r = false) : k.overridesConversion q = false := by
  unfold Heap.overridesConversion at ho ⊢
  rw [List.any_eq_false] at ho ⊢
  intro key hkey
  have hr' := ho key hkey
  rw [Bool.not_eq_true, Bool.or_eq_false_iff] at hr' ⊢
  rw [← (hr.get key).eq_of_known hr'.2, ← hk.isCallable]
  exact hr'

/-- Conversion to a primitive value foretells what it gives in a heap that is covered. -/
theorem Covers.foretells_primitiveOf? (fuel : Nat) (path : List ObjectId)
    (id : ObjectId) : Foretells (h.primitiveOf? fuel path id) (k.primitiveOf? fuel path id) := by
  induction fuel generalizing path id with
  | zero => exact .refl _
  | succ fuel ih =>
    have hr := hk.record id
    unfold primitiveOf?
    dsimp only
    rw [← hr.objectClass]
    cases hc : (h.record id).objectClass with
    | boolean | number | string =>
      exact hr.wrapped.foretells
    | array =>
      dsimp only
      split
      · exact .refl _
      obtain he | he := hr.extent
      · rw [he]
        exact .unknown _
      rw [he]
      cases (k.record id).extent with
      | walkable n =>
        exact foretells_joinElements
          (fun i => foretells_elementText (ih (id :: path)) (hr.get (indexKey i))) n 0 []
      | unknown | tooLong => exact .refl _
    | error kind =>
      rw [← hk.size]
      exact foretells_errorText (Value.settle_unknown _ _)
        (fun v w hv => Value.foretells_settle (ih []) _ hv) hr
    | function =>
      rw [← hr.callable]
      exact .refl _
    | math | json => exact .refl _
    | object =>
      dsimp only
      cases ho : h.overridesConversion (h.record id) with
      | true => exact .unknown _
      | false =>
        rw [hk.overridesConversion hr ho]
        exact .refl _

theorem Covers.conversionDepth : h.conversionDepth = k.conversionDepth := by
  unfold Heap.conversionDepth
  rw [hk.size]

theorem Covers.toPrimitive (hv : v.Covers w) : (h.toPrimitive v).Covers (k.toPrimitive w) := by
  obtain rfl | rfl := hv
  · exact .unknown _
  cases v with
  | object id =>
    have := hk.foretells_primitiveOf? h.conversionDepth [] id
    unfold Heap.toPrimitive
    rw [← hk.conversionDepth]
    exact this.getD
  | _ => exact .refl _

theorem Covers.settled (hv : v.Covers w) : (h.settled v).Covers (k.settled w) := by
  unfold Heap.settled
  rw [← hk.conversionDepth, ← hk.size]
  exact (Value.foretells_settle (hk.foretells_primitiveOf? h.conversionDepth []) _ hv).getD

theorem Covers.toText? (hv : v.Covers w) : Told (h.toText? v) (k.toText? w) :=
  Value.told_primitiveText? (hk.settled hv)

theorem Covers.toNumber? (hv : v.Covers w) : Told (h.toNumber? v) (k.toNumber? w) :=
  Value.told_primitiveNumber? (hk.settled hv)

omit hk in
theorem toNumber?_unknown (h : Heap) : h.toNumber? .unknown = none := by
  unfold Heap.toNumber? Heap.settled
  rw [Value.settle_unknown]
  rfl

theorem Covers.typeof? (hv : v.Covers w) : Told (h.typeof? v) (k.typeof? w) := by
  obtain rfl | rfl := hv
  · exact .inl rfl
  cases v with
  | object id =>
    unfold Heap.typeof?
    dsimp only
    rw [(hk.record id).callable]
    exact .refl _
  | _ => exact .refl _

/-! ### Operators -/

theorem Covers.arithmetic (f : Float → Float → Float) (ha : a.Covers a')
    (hb : b.Covers b') : (h.arithmetic f a b).Covers (k.arithmetic f a' b') := by
  unfold Heap.arithmetic
  obtain hx | hx := hk.toNumber? ha
  · rw [hx]
    exact .unknown _
  obtain hy | hy := hk.toNumber? hb
  · rw [hy]
    cases h.toNumber? a <;> exact .unknown _
  · rw [hx, hy]
    exact .refl _

theorem Covers.concat (ha : a.Covers a') (hb : b.Covers b') :
    (h.concat a b).Covers (k.concat a' b') := by
  unfold Heap.concat
  obtain hs | hs := hk.toText? ha
  · rw [hs]
    exact .unknown _
  obtain ht | ht := hk.toText? hb
  · rw [ht]
    cases h.toText? a <;> exact .unknown _
  · rw [hs, ht]
    exact .refl _

theorem Covers.add (ha : a.Covers a') (hb : b.Covers b') : (h.add a b).Covers (k.add a' b') := by
  unfold Heap.add
  dsimp only
  obtain hx | hx := hk.toPrimitive ha
  · rw [hx]
    exact .unknown _
  obtain hy | hy := hk.toPrimitive hb
  · rw [hy, if_pos (by simp [Value.isUnknown])]
    exact .unknown _
  rw [hx, hy]
  split
  · exact .unknown _
  split
  · exact hk.concat (.refl _) (.refl _)
  · exact hk.arithmetic _ (.refl _) (.refl _)

theorem Covers.relational (accept : Ordering → Bool) (ha : a.Covers a')
    (hb : b.Covers b') : (h.relational accept a b).Covers (k.relational accept a' b') := by
  unfold Heap.relational
  obtain hx | hx := hk.toPrimitive ha
  · rw [hx]
    exact .unknown _
  obtain hy | hy := hk.toPrimitive hb
  · rw [hy]
    refine .inl ?_
    cases h.toPrimitive a <;> dsimp only <;> rw [toNumber?_unknown] <;> split <;> trivial
  rw [hx, hy]
  split
  · exact .refl _
  · obtain hx | hx := hk.toNumber? (.refl (k.toPrimitive a'))
    · rw [hx]
      exact .unknown _
    obtain hy | hy := hk.toNumber? (.refl (k.toPrimitive b'))
    · rw [hy]
      cases h.toNumber? (k.toPrimitive a') <;> exact .unknown _
    · rw [hx, hy]
      exact .refl _

theorem Covers.looseEqualsIn (fuel : Nat) (ha : a.Covers a') (hb : b.Covers b') :
    Told (h.looseEqualsIn fuel a b) (k.looseEqualsIn fuel a' b') := by
  induction fuel generalizing a b a' b' with
  | zero => exact .refl _
  | succ fuel ih =>
    obtain rfl | rfl := ha
    · exact .inl rfl
    obtain rfl | rfl := hb
    · exact .inl (by cases a <;> rfl)
    -- The operands are the same on both sides, and so are the steps that convert neither.
    have number (v : Value) := Value.covers_ofNumber? (hk.toNumber? (.refl v))
    have primitive (v : Value) := hk.toPrimitive (.refl v)
    cases a <;> cases b <;>
      first
      | exact .refl _
      | exact ih (number _) (.refl _)
      | exact ih (.refl _) (number _)
      | exact ih (primitive _) (.refl _)
      | exact ih (.refl _) (primitive _)

theorem Covers.looseEquals (ha : a.Covers a') (hb : b.Covers b') :
    Told (h.looseEquals a b) (k.looseEquals a' b') := by
  unfold Heap.looseEquals
  rw [← hk.size]
  exact hk.looseEqualsIn _ ha hb

theorem Covers.binary (op : BinaryOp) (ha : a.Covers a') (hb : b.Covers b') :
    (h.binary op a b).Covers (k.binary op a' b') := by
  unfold Heap.binary
  obtain rfl | rfl := ha
  · exact .unknown _
  obtain rfl | rfl := hb
  · rw [if_pos (by simp [Value.isUnknown])]
    exact .unknown _
  split
  · exact .refl _
  cases op with
  | add => exact hk.add (.refl a) (.refl b)
  | sub | mul | div | mod => exact hk.arithmetic _ (.refl a) (.refl b)
  | equal => exact Value.covers_ofBool? (hk.looseEquals (.refl a) (.refl b))
  | notEqual => exact Value.covers_ofBool? ((hk.looseEquals (.refl a) (.refl b)).map not)
  | strictEqual | strictNotEqual => exact .refl _
  | less | greater | lessEq | greaterEq => exact hk.relational _ (.refl a) (.refl b)

end

/-- Whatever a conversion or an operator tells about operands and objects in which something is unknown,
it tells as well once all is known. The text of a value is also the name of the property it selects. -/
theorem conversion_covers (h k : Heap) (hk : h.Covers k) (a a' b b' : Value) (ha : a.Covers a')
    (hb : b.Covers b') :
    (h.toPrimitive a).Covers (k.toPrimitive a') ∧
      Told (h.toText? a) (k.toText? a') ∧
      Told (h.toNumber? a) (k.toNumber? a') ∧
      Told a.truth? a'.truth? ∧
      Told (h.toInteger? a) (k.toInteger? a') ∧
      Told (h.toInt32? a) (k.toInt32? a') ∧
      Told (h.toUInt32? a) (k.toUInt32? a') ∧
      Told (h.typeof? a) (k.typeof? a') ∧
      (∀ op, (h.binary op a b).Covers (k.binary op a' b')) ∧
      Told (h.looseEquals a b) (k.looseEquals a' b') := by
  have hn := hk.toNumber? ha
  refine ⟨hk.toPrimitive ha, hk.toText? ha, hn, Value.told_truth? ha, ?_, ?_, ?_, hk.typeof? ha,
    fun op => hk.binary op ha hb, hk.looseEquals ha hb⟩
  · exact hn.map Number.integerPart
  · exact hn.map Number.toInt32
  · exact hn.map Number.toUInt32

def ofValueOf (v : Value) : Heap :=
  (Heap.allocate ((Record.empty .object).setProperty "valueOf" (.data v)) {}).1

theorem covers_ofValueOf {v w : Value} (hv : v.Covers w) : (ofValueOf v).Covers (ofValueOf w) :=
  .allocate (.refl _) (.setProperty (.refl _) "valueOf" ⟨hv, rfl⟩)

/-- An object that may bring its own conversion, added to an operand that may be anything. -/
theorem conversion_covers_override :
    (ofValueOf .unknown).Covers (ofValueOf .null) ∧ Value.unknown.Covers (.number 1) ∧
      Told ((ofValueOf .unknown).toText? (.object ⟨0⟩)) ((ofValueOf .null).toText? (.object ⟨0⟩)) ∧
      ((ofValueOf .unknown).binary .add (.object ⟨0⟩) .unknown).Covers
        ((ofValueOf .null).binary .add (.object ⟨0⟩) (.number 1)) := by
  have hk := covers_ofValueOf (.unknown .null)
  have hc := conversion_covers (ofValueOf .unknown) (ofValueOf .null) hk (.object ⟨0⟩) (.object ⟨0⟩)
    .unknown (.number 1) (.refl _) (.unknown _)
  obtain ⟨_, text, _, _, _, _, _, _, binary, _⟩ := hc
  exact ⟨hk, .unknown _, text, binary .add⟩

end Heap
end Surmise
