import Surmise.Proofs.Retention

/-! Writes that are refused. They leave the record as it was, except for the length of an array that has
none or one that cannot be written: by the time it is refused, the elements behind it are gone. -/
namespace Surmise

theorem Dict.keys_filter {α : Type} (d : Dict α) (keep : String → Bool) :
    (d.filter keep).keys = d.keys.filter keep :=
  List.filter_reverse.symm

theorem Dict.filter_eq_self {α : Type} {d : Dict α} {keep : String → Bool}
    (h : ∀ key ∈ d.keys, keep key = true) : d.filter keep = d := by
  refine Dict.ext ?_ fun key => ?_
  · rw [keys_filter, List.filter_eq_self]
    exact h
  · rw [get?_filter]
    cases ha : d.get? key with
    | none => rfl
    | some a =>
      have hkey : keep key = true := h key ((d.mem_keys key).mpr (Option.isSome_of_eq_some ha))
      simp [hkey]

namespace Record

def Locked (r : Record) : Prop :=
  ∀ p, r.getOwn? "length" = some p → p.attributes.writable = false

/-- The write of the length `n` is to an array that is locked and has elements from `n` on. -/
structure Strips (r : Record) (key : String) (v : Value) (n : Nat) : Prop where
  array : r.objectClass = .array
  length : key = "length"
  value : ∃ x, v = .number x ∧ lengthOf? x = some n
  locked : r.Locked
  reached : ∃ k i, k ∈ r.keys ∧ arrayIndex? k = some i ∧ n ≤ i

variable {r : Record} {key : String} {v : Value}

theorem dropElements_eq_self_iff {n : Nat} :
    r.dropElements n = r ↔ ∀ k i, k ∈ r.keys → arrayIndex? k = some i → i < n := by
  constructor
  · intro h k i hk hi
    rw [← h] at hk
    exact (mem_keys_dropElements hk).2 i hi
  · intro h
    unfold dropElements
    rw [Dict.filter_eq_self]
    intro k hk
    rw [Option.all_eq_true]
    exact fun i hi => decide_eq_true (h k i hk hi)

theorem Locked.dropElements (h : r.Locked) (n : Nat) : (r.dropElements n).Locked := by
  unfold Locked
  rw [r.getOwn?_dropElements arrayIndex?_length n]
  exact h

theorem Locked.writeLength_eq (h : r.Locked) (v : Value) : r.writeLength v = (r, false) := by
  unfold writeLength
  split
  next old hold => simp [h old hold]
  next => rfl

theorem locked_of_refused (h : (r.writeLength v).2 = false) : r.Locked := by
  intro p hp
  rw [writeLength_eq_assign hp, assign_of_getOwn? hp] at h
  cases hw : p.attributes.writable with
  | false => rfl
  | true =>
    rw [hw] at h
    cases h

theorem putLength_refused (h : (r.putLength v).2 = false) :
    (r.putLength v).1 = r ∨
      ∃ x n, v = .number x ∧ lengthOf? x = some n ∧ r.Locked ∧ (r.putLength v).1 = r.dropElements n := by
  cases v with
  | unknown =>
    rw [putLength, (locked_of_refused h).writeLength_eq]
    exact .inl rfl
  | number x =>
    cases hn : lengthOf? x with
    | none =>
      rw [putLength_refused_number r hn]
      exact .inl rfl
    | some n =>
      rw [putLength_number r hn] at h ⊢
      have hdropped : (r.dropElements n).Locked := locked_of_refused h
      have hlocked : r.Locked := fun p hp =>
        hdropped p ((r.getOwn?_dropElements arrayIndex?_length n).trans hp)
      exact .inr ⟨x, n, rfl, hn, hlocked, by rw [hdropped.writeLength_eq]⟩
  | _ => exact .inl rfl

theorem putIndex_refused {i : Nat} (h : (r.putIndex key i v).2 = false) :
    (r.putIndex key i v).1 = r := by
  cases ha : r.assign key v with
  | mk r' accepted =>
    unfold putIndex at h ⊢
    rw [ha] at h ⊢
    cases accepted with
    | true => cases h
    | false => exact assign_refused ha

theorem put_refused (h : (r.put key v).2 = false) :
    (r.put key v).1 = r ∨
      r.objectClass = .array ∧ key = "length" ∧
        ∃ x n, v = .number x ∧ lengthOf? x = some n ∧ r.Locked ∧ (r.put key v).1 = r.dropElements n := by
  have hassign (h : (r.assign key v).2 = false) : (r.assign key v).1 = r :=
    assign_refused (Prod.ext rfl h)
  unfold put at h ⊢
  by_cases hc : r.objectClass = .array
  · rw [if_pos hc] at h ⊢
    by_cases hk : key = "length"
    · rw [if_pos hk] at h ⊢
      exact (putLength_refused h).imp_right fun hdrop => ⟨hc, hk, hdrop⟩
    · rw [if_neg hk] at h ⊢
      cases hi : arrayIndex? key with
      | some i =>
        rw [hi] at h
        exact .inl (putIndex_refused h)
      | none =>
        rw [hi] at h
        exact .inl (hassign h)
  · rw [if_neg hc] at h ⊢
    exact .inl (hassign h)

theorem Strips.put_eq {n : Nat} (h : r.Strips key v n) : r.put key v = (r.dropElements n, false) := by
  obtain ⟨x, rfl, hn⟩ := h.value
  rw [h.length, put_length h.array, putLength_number r hn]
  exact (h.locked.dropElements n).writeLength_eq (.number x)

theorem Strips.dropElements_ne {n : Nat} (h : r.Strips key v n) : r.dropElements n ≠ r := by
  intro hsame
  obtain ⟨k, i, hk, hi, hle⟩ := h.reached
  exact absurd (dropElements_eq_self_iff.mp hsame k i hk hi) (Nat.not_lt.mpr hle)

/-- A write that is refused leaves the record as it was, unless it writes a length to an array whose own
length is missing or cannot be written, and that has elements behind the new one: they are gone then. -/
theorem refused_put_changes_nothing (r : Record) (key : String) (v : Value)
    (h : (r.put key v).2 = false) :
    ((r.put key v).1 = r ↔ ∀ n, ¬ r.Strips key v n) ∧
      ∀ n, r.Strips key v n → (r.put key v).1 = r.dropElements n := by
  refine ⟨⟨fun hsame n hn => ?_, fun hnone => ?_⟩, fun n hn => congrArg Prod.fst hn.put_eq⟩
  · rw [hn.put_eq] at hsame
    exact hn.dropElements_ne hsame
  · obtain hsame | ⟨hc, hk, x, n, hv, hn, hlocked, hdrop⟩ := put_refused h
    · exact hsame
    · rw [hdrop, dropElements_eq_self_iff]
      intro k i hm hi
      refine Nat.lt_of_not_le fun hle => ?_
      exact hnone n ⟨hc, hk, ⟨x, hv, hn⟩, hlocked, k, i, hm, hi, hle⟩

theorem locked_withFixedLength (key : String) (p : Property) (h : key ≠ "length") :
    (withFixedLength.setProperty key p).Locked := by
  intro q hq
  rw [getOwn?_setProperty, if_neg h, withFixedLength, getOwn?_setProperty, if_pos rfl] at hq
  cases hq
  rfl

/-- A length that cannot be written is refused, and the element that it would leave stays. -/
theorem refused_put_changes_nothing_length :
    ((withFixedLength.setProperty "0" (.data .null)).put "length" (.number (Number.ofNat 1))).2 = false ∧
      ((withFixedLength.setProperty "0" (.data .null)).put "length" (.number (Number.ofNat 1))).1 =
        withFixedLength.setProperty "0" (.data .null) := by
  have hlocked := locked_withFixedLength "0" (.data .null) (by decide)
  have hn : lengthOf? (Number.ofNat 1) = some 1 := lengthOf?_ofNat (by decide)
  have hkeys : (withFixedLength.setProperty "0" (.data .null)).keys = ["length", "0"] := rfl
  have hc : (withFixedLength.setProperty "0" (.data .null)).objectClass = .array := rfl
  generalize withFixedLength.setProperty "0" (.data .null) = r at *
  have hrefused : (r.put "length" (.number (Number.ofNat 1))).2 = false := by
    rw [put_length hc, putLength_number r hn, (hlocked.dropElements 1).writeLength_eq]
  refine ⟨hrefused, (refused_put_changes_nothing r _ _ hrefused).1.mpr fun n hstrips => ?_⟩
  obtain ⟨x, hx, hxn⟩ := hstrips.value
  cases hx
  cases hn.symm.trans hxn
  obtain ⟨k, i, hk, hi, hle⟩ := hstrips.reached
  rw [hkeys, List.mem_cons, List.mem_singleton] at hk
  obtain rfl | rfl := hk
  · cases arrayIndex?_length.symm.trans hi
  · have hzero : arrayIndex? "0" = some 0 := by decide
    cases hzero.symm.trans hi
    exact Nat.not_succ_le_zero 0 hle

/-- A length that is refused empties an array that has none. -/
theorem refused_put_drops_elements :
    (((empty .array).setProperty "0" (.data .null)).put "length" (.number (Number.ofNat 0))).2 = false ∧
      ((empty .array).setProperty "0" (.data .null)).has "0" = true ∧
      (((empty .array).setProperty "0" (.data .null)).put "length"
        (.number (Number.ofNat 0))).1.has "0" = false := by
  have hnone : ((empty .array).setProperty "0" (.data .null)).getOwn? "length" = none := rfl
  have hzero : arrayIndex? "0" = some 0 := by decide
  have hstrips : ((empty .array).setProperty "0" (.data .null)).Strips "length"
      (.number (Number.ofNat 0)) 0 :=
    { array := rfl
      length := rfl
      value := ⟨_, rfl, lengthOf?_ofNat (by decide)⟩
      locked := fun _ hp => by cases hnone.symm.trans hp
      reached := ⟨"0", 0, .head _, hzero, Nat.le_refl 0⟩ }
  rw [hstrips.put_eq]
  refine ⟨rfl, rfl, ?_⟩
  rw [has_eq, getOwn?_dropElements_eq, hzero]
  simp

end Record
end Surmise
