import Surmise.Proofs.ArrayIndex
import Surmise.Proofs.Put

/-! The length of an array. Whatever is written to an array or deleted from it, its length stays an
unknown value or a number beyond all its elements. -/
namespace Surmise

namespace Record

variable {r r' : Record} {v : Value}

/-- The value is a length for the elements of the record: unknown, or an integer from 0 to the largest
length that no index among the own properties reaches. -/
def FitsLength (r : Record) : Value → Prop
  | .unknown => True
  | .number x => ∃ n, Number.toNat? x = some n ∧ n ≤ maxArrayLength ∧
      ∀ key i, key ∈ r.keys → arrayIndex? key = some i → i < n
  | _ => False

/-- An array with a length that can be written but not listed or deleted, and that fits its elements. -/
structure Measured (r : Record) : Prop where
  objectClass : r.objectClass = .array
  length : ∃ v, r.getOwn? "length" = some ⟨v, .lengthOfArray⟩ ∧ r.FitsLength v

def FitsBut (r : Record) (loose : Nat → Prop) : Value → Prop
  | .unknown => True
  | .number x => ∃ n, Number.toNat? x = some n ∧ n ≤ maxArrayLength ∧
      ∀ key i, key ∈ r.keys → arrayIndex? key = some i → i < n ∨ loose i
  | _ => False

structure Spans (r : Record) (loose : Nat → Prop) : Prop where
  objectClass : r.objectClass = .array
  length : ∃ v, r.getOwn? "length" = some ⟨v, .lengthOfArray⟩ ∧ r.FitsBut loose v

theorem fitsBut_false : r.FitsBut (fun _ => False) v ↔ r.FitsLength v := by
  cases v with
  | number x => simp only [FitsBut, FitsLength, or_false]
  | _ => exact Iff.rfl

theorem spans_false : r.Spans (fun _ => False) ↔ r.Measured := by
  constructor
  · rintro ⟨hc, v, hv, hfit⟩
    exact ⟨hc, v, hv, fitsBut_false.mp hfit⟩
  · rintro ⟨hc, v, hv, hfit⟩
    exact ⟨hc, v, hv, fitsBut_false.mpr hfit⟩

variable {loose : Nat → Prop}

theorem FitsBut.mono {loose' : Nat → Prop} (h : r.FitsBut loose v) (hl : ∀ i, loose i → loose' i)
    (hk : ∀ key i, key ∈ r'.keys → arrayIndex? key = some i → key ∈ r.keys ∨ loose' i) :
    r'.FitsBut loose' v := by
  cases v with
  | unknown => trivial
  | number x =>
    obtain ⟨n, hn, hmax, hcover⟩ := h
    refine ⟨n, hn, hmax, fun key i hm hi => ?_⟩
    obtain hm | hi' := hk key i hm hi
    · exact (hcover key i hm hi).imp_right (hl i)
    · exact .inr hi'
  | _ => exact h.elim

theorem Spans.shrink (h : r.Spans loose) (hc : r'.objectClass = r.objectClass)
    (hl : r'.getOwn? "length" = r.getOwn? "length")
    (hk : ∀ key i, key ∈ r'.keys → arrayIndex? key = some i → key ∈ r.keys) : r'.Spans loose := by
  obtain ⟨v, hv, hfit⟩ := h.length
  exact ⟨hc.trans h.objectClass, v, hl.trans hv,
    hfit.mono (fun _ => id) fun key i hm hi => .inl (hk key i hm hi)⟩

theorem Spans.loosen {loose' : Nat → Prop} (h : r.Spans loose) (hl : ∀ i, loose i → loose' i) :
    r.Spans loose' := by
  obtain ⟨v, hv, hfit⟩ := h.length
  exact ⟨h.objectClass, v, hv, hfit.mono hl fun _ _ hm _ => .inl hm⟩

/-! ### Writing the length -/

theorem mem_keys_dropElements {n : Nat} {key : String} (h : key ∈ (r.dropElements n).keys) :
    key ∈ r.keys ∧ ∀ i, arrayIndex? key = some i → i < n := by
  have hg : ((r.dropElements n).getOwn? key).isSome := (mem_keys _ key).mp h
  rw [getOwn?_dropElements_eq, Option.isSome_filter, Option.any_eq_true] at hg
  obtain ⟨p, hp, hall⟩ := hg
  refine ⟨(mem_keys r key).mpr (Option.isSome_of_eq_some hp), fun i hi => ?_⟩
  simpa [hi] using hall

theorem Spans.setLength (h : r.Spans loose) (hv : r.FitsBut loose v) : (r.writeLength v).1.Spans loose := by
  obtain ⟨old, hold, _⟩ := h.length
  have hw : r.writeLength v = (r.setProperty "length" ⟨v, .lengthOfArray⟩, true) := by
    simp [writeLength, hold, Attributes.lengthOfArray]
  have hm : "length" ∈ r.keys := (mem_keys r _).mpr (Option.isSome_of_eq_some hold)
  rw [hw]
  refine ⟨h.objectClass, v, by simp, hv.mono (fun _ => id) fun key i hk _ => .inl ?_⟩
  rwa [keys_setProperty, if_pos hm] at hk

theorem Spans.putLength (h : r.Spans loose) (v : Value) : (r.putLength v).1.Spans loose := by
  cases v with
  | unknown => exact h.setLength (v := .unknown) trivial
  | number x =>
    simp only [Record.putLength]
    split
    next n hn =>
      -- first the elements from `n` on go, then the length is written
      have hdrop : (r.dropElements n).Spans loose :=
        h.shrink rfl (r.getOwn?_dropElements arrayIndex?_length n) fun key _ hk _ =>
          (mem_keys_dropElements hk).1
      obtain ⟨hx, hmax⟩ := Option.filter_eq_some_iff.mp hn
      refine hdrop.setLength ⟨n, hx, by simpa using hmax, fun key i hk hi => .inl ?_⟩
      exact (mem_keys_dropElements hk).2 i hi
    next => exact h
  | _ => exact h

/-! ### Writing elements and other properties -/

variable {k : String}

theorem mem_keys_assign {key : String} (h : key ∈ (r.assign k v).1.keys) : key = k ∨ key ∈ r.keys := by
  by_cases hk : k = key
  · exact .inl hk.symm
  · rw [mem_keys, getOwn?_assign_of_ne r hk, ← mem_keys] at h
    exact .inr h

theorem Spans.assign (h : r.Spans loose) (hk : arrayIndex? k = none) (hl : k ≠ "length") (v : Value) :
    (r.assign k v).1.Spans loose := by
  refine h.shrink (objectClass_of_shape (shape_assign r k v)) (r.getOwn?_assign_of_ne hl v) ?_
  intro key i hm hi
  obtain rfl | hm := mem_keys_assign hm
  · rw [hk] at hi
    cases hi
  · exact hm

theorem assign_refused (h : r.assign k v = (r', false)) : r' = r := by
  unfold Record.assign at h
  split at h <;> split at h <;> cases h
  · rfl
  · rfl

/-- Moving the length past an index that was stored makes the record span its elements again. -/
theorem spans_coverIndex {q : Record} {len : Value} {i : Nat} (hc : r.objectClass = .array)
    (hlen : r.getOwn? "length" = some ⟨len, .lengthOfArray⟩) (hfit : q.FitsBut loose len)
    (hi : i < maxArrayLength) (hk : ∀ key j, key ∈ r.keys → arrayIndex? key = some j → j = i ∨ key ∈ q.keys) :
    (r.coverIndex i).Spans loose := by
  cases len with
  | unknown =>
    have hcover : r.coverIndex i = r := by simp [coverIndex, hlen]
    rw [hcover]
    exact ⟨hc, .unknown, hlen, trivial⟩
  | number x =>
    obtain ⟨n, hn, hmax, hold⟩ := hfit
    have hle := Number.leNat_of_toNat? hn i
    by_cases hni : n ≤ i
    · -- the length grows to `i + 1`, which a length may still be
      have hcover : r.coverIndex i =
          r.setProperty "length" ⟨.number (Number.ofNat (i + 1)), .lengthOfArray⟩ := by
        simp [coverIndex, hlen, hle, hni]
      have hin : "length" ∈ r.keys := (mem_keys r _).mpr (Option.isSome_of_eq_some hlen)
      have hread : Number.toNat? (Number.ofNat (i + 1)) = some (i + 1) := by
        refine Number.toNat?_ofNat ?_
        simp only [maxArrayLength] at hi
        omega
      rw [hcover]
      refine ⟨hc, .number (Number.ofNat (i + 1)), by simp, i + 1, hread, hi, fun key j hm hj => ?_⟩
      rw [keys_setProperty, if_pos hin] at hm
      obtain rfl | hm := hk key j hm hj
      · exact .inl (Nat.lt_succ_self _)
      · exact (hold key j hm hj).imp_left fun hjn => by omega
    · have hcover : r.coverIndex i = r := by simp [coverIndex, hlen, hle, hni]
      rw [hcover]
      refine ⟨hc, .number x, hlen, n, hn, hmax, fun key j hm hj => ?_⟩
      obtain rfl | hm := hk key j hm hj
      · exact .inl (Nat.lt_of_not_le hni)
      · exact hold key j hm hj
  | _ => exact hfit.elim

theorem Spans.putIndex (h : r.Spans loose) {i : Nat} (hi : arrayIndex? k = some i) (v : Value) :
    (r.putIndex k i v).1.Spans loose := by
  obtain ⟨len, hlen, hfit⟩ := h.length
  unfold Record.putIndex
  split
  next r' heq =>
    obtain rfl : r' = (r.assign k v).1 := by rw [heq]
    have hlen' : (r.assign k v).1.getOwn? "length" = some ⟨len, .lengthOfArray⟩ := by
      rw [getOwn?_assign_of_ne r (ne_length_of_index hi), hlen]
    have hc' : (r.assign k v).1.objectClass = .array := by
      rw [objectClass_of_shape (shape_assign r k v), h.objectClass]
    refine spans_coverIndex hc' hlen' hfit (arrayIndex?_lt hi) fun key j hm hj => ?_
    obtain rfl | hm := mem_keys_assign hm
    · rw [hi] at hj
      exact .inl (Option.some.inj hj).symm
    · exact .inr hm
  next r' heq =>
    rw [assign_refused heq]
    exact h

theorem Spans.put (h : r.Spans loose) (key : String) (v : Value) : (r.put key v).1.Spans loose := by
  unfold Record.put
  rw [if_pos h.objectClass]
  split
  · exact h.putLength v
  next hl =>
    split
    next i hi => exact h.putIndex hi v
    next hi => exact h.assign hi hl v

/-! ### Deleting -/

theorem Spans.delete (h : r.Spans loose) (key : String) : (r.delete key).1.Spans loose := by
  obtain ⟨len, hlen, _⟩ := h.length
  unfold Record.delete
  split
  next old hold =>
    split
    next hconf =>
      -- the length cannot be deleted
      have hne : key ≠ "length" := by
        rintro rfl
        rw [hlen] at hold
        cases hold
        cases hconf
      have hg : ∀ k, ({ r with properties := r.properties.erase key } : Record).getOwn? k =
          if key = k then none else r.getOwn? k := fun k => r.properties.get?_erase key k
      refine h.shrink rfl ((hg _).trans (if_neg hne)) fun k i hm _ => ?_
      rw [mem_keys, hg] at hm
      by_cases hk : key = k
      · simp [hk] at hm
      · rwa [if_neg hk, ← mem_keys] at hm
    next => exact h
  next => exact h

/-! ### Any sequence of operations -/

inductive Operation where
  | put (key : String) (v : Value)
  | delete (key : String)
  | setExtensible (b : Bool)

def perform (r : Record) : Operation → Record
  | .put key v => (r.put key v).1
  | .delete key => (r.delete key).1
  | .setExtensible b => { r with extensible := b }

theorem Measured.perform (h : r.Measured) (op : Operation) : (r.perform op).Measured := by
  rw [← spans_false] at h ⊢
  cases op with
  | put key v => exact h.put key v
  | delete key => exact h.delete key
  | setExtensible b => exact h.shrink rfl rfl fun _ _ hm _ => hm

theorem measured_emptyArray : emptyArray.Measured := by
  refine ⟨rfl, .number 0, by simp [emptyArray], 0, ?_, Nat.zero_le _, fun key i hm hi => ?_⟩
  · rw [← Number.ofNat_zero]
    exact Number.toNat?_ofNat (by decide)
  · have hk : emptyArray.keys = ["length"] := rfl
    rw [hk, List.mem_singleton] at hm
    subst hm
    rw [arrayIndex?_length] at hi
    cases hi

/-- An array keeps its length property and the length fits its elements, whatever sequence of writes,
deletions and changes of extensibility it has gone through. -/
theorem length_fits_after_operations (ops : List Operation) :
    (ops.foldl perform emptyArray).Measured := by
  suffices h : ∀ r : Record, r.Measured → (ops.foldl perform r).Measured from
    h emptyArray measured_emptyArray
  induction ops with
  | nil => exact fun _ h => h
  | cons op ops ih => exact fun r h => ih _ (h.perform op)

end Record
end Surmise
