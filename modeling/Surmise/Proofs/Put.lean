import Surmise.Proofs.Record

/-! What a write to a property changes of a record. Most properties are left alone; the length of an
array and its elements move together. -/
namespace Surmise

theorem Dict.get?_filter {α : Type} (d : Dict α) (keep : String → Bool) (key : String) :
    (d.filter keep).get? key = (d.get? key).filter fun _ => keep key :=
  Std.ExtTreeMap.getElem?_filter'

theorem arrayIndex?_length : arrayIndex? "length" = none := by decide

theorem ne_length_of_index {key : String} {i : Nat} (h : arrayIndex? key = some i) :
    key ≠ "length" := by
  rintro rfl
  rw [arrayIndex?_length] at h
  cases h

namespace Record

variable {r : Record} {k key : String} {p : Property}

/-- Whether a write to the property `k` can change another one, `key`: the length of an array and its
elements move together. -/
def entangles (r : Record) (k key : String) : Bool :=
  r.objectClass == .array &&
    (k == "length" && (arrayIndex? key).isSome || key == "length" && (arrayIndex? k).isSome)

theorem entangles_of_shape {r' : Record} (h : r'.shape = r.shape) (k key : String) :
    r'.entangles k key = r.entangles k key := by
  unfold entangles
  rw [objectClass_of_shape h]

theorem entangles_of_ne_array (h : r.objectClass ≠ .array) (k key : String) : r.entangles k key = false := by
  simp [entangles, h]

theorem getOwn?_assign_of_ne (r : Record) (hk : k ≠ key) (v : Value) :
    (r.assign k v).1.getOwn? key = r.getOwn? key := by
  unfold assign
  split <;> split <;> simp [hk]

theorem getOwn?_writeLength_of_ne (r : Record) (hk : key ≠ "length") (v : Value) :
    (r.writeLength v).1.getOwn? key = r.getOwn? key := by
  unfold writeLength
  split
  · split <;> simp [hk.symm]
  · rfl

theorem getOwn?_coverIndex_of_ne (r : Record) (hk : key ≠ "length") (i : Nat) :
    (r.coverIndex i).getOwn? key = r.getOwn? key := by
  unfold coverIndex
  split
  · split <;> simp [hk.symm]
  · rfl

theorem getOwn?_dropElements_eq (r : Record) (n : Nat) (key : String) :
    (r.dropElements n).getOwn? key =
      (r.getOwn? key).filter fun _ => (arrayIndex? key).all fun i => i < n :=
  Dict.get?_filter r.properties _ key

theorem getOwn?_dropElements (r : Record) (hk : arrayIndex? key = none) (n : Nat) :
    (r.dropElements n).getOwn? key = r.getOwn? key := by
  rw [getOwn?_dropElements_eq, hk]
  cases r.getOwn? key <;> rfl

theorem getOwn?_putLength_of_ne (r : Record) (hk : key ≠ "length") (hi : arrayIndex? key = none) (v : Value) :
    (r.putLength v).1.getOwn? key = r.getOwn? key := by
  cases v with
  | unknown => exact r.getOwn?_writeLength_of_ne hk .unknown
  | number x =>
    simp only [putLength]
    split
    next n _ => rw [getOwn?_writeLength_of_ne _ hk, getOwn?_dropElements r hi]
    next => rfl
  | _ => rfl

theorem getOwn?_putIndex_of_ne (r : Record) (hk : k ≠ key) (hl : key ≠ "length") (i : Nat) (v : Value) :
    (r.putIndex k i v).1.getOwn? key = r.getOwn? key := by
  have ha := r.getOwn?_assign_of_ne hk v
  unfold putIndex
  split
  next r' heq =>
    rw [heq] at ha
    rw [getOwn?_coverIndex_of_ne r' hl, ha]
  next r' heq =>
    rw [heq] at ha
    exact ha

/-- A write leaves the other properties alone that are not entangled with the one written. -/
theorem getOwn?_put_of_ne (r : Record) (hk : k ≠ key) (he : r.entangles k key = false) (v : Value) :
    (r.put k v).1.getOwn? key = r.getOwn? key := by
  unfold put
  split
  next ha =>
    simp only [entangles, ha, BEq.rfl, Bool.true_and, Bool.or_eq_false_iff, Bool.and_eq_false_iff,
      beq_eq_false_iff_ne, Option.isSome_eq_false_iff, Option.isNone_iff_eq_none] at he
    obtain ⟨hindex, hlength⟩ := he
    split
    next hkl =>
      subst hkl
      exact r.getOwn?_putLength_of_ne hk.symm (hindex.resolve_left fun h => h rfl) v
    next hkl =>
      split
      next i hi =>
        have hl : key ≠ "length" := hlength.resolve_right fun h => by simp [h] at hi
        exact r.getOwn?_putIndex_of_ne hk hl i v
      next => exact r.getOwn?_assign_of_ne hk v
  next => exact r.getOwn?_assign_of_ne hk v

/-! ### The property that is written -/

theorem assign_of_getOwn? (h : r.getOwn? key = some p) (v : Value) :
    r.assign key v =
      if p.attributes.writable then (r.setProperty key { p with value := v }, true) else (r, false) := by
  simp [assign, h]

theorem writeLength_eq_assign (h : r.getOwn? "length" = some p) (v : Value) :
    r.writeLength v = r.assign "length" v := by
  simp [writeLength, assign, h]

theorem putLength_number (r : Record) {x : Float} {n : Nat} (hn : lengthOf? x = some n) :
    r.putLength (.number x) = (r.dropElements n).writeLength (.number x) := by
  rw [putLength, hn]

theorem putLength_refused_number (r : Record) {x : Float} (hn : lengthOf? x = none) :
    r.putLength (.number x) = (r, false) := by
  rw [putLength, hn]

/-- The record and the answer after a write of `v` to a property that was `p`: it has the value, for which it
had to be writable, or is as it was. -/
structure Answered (key : String) (p : Property) (v : Value) (x : Record × Bool) : Prop where
  getOwn?_eq : x.1.getOwn? key = some (if x.2 then { p with value := v } else p)
  writable : x.2 = true → p.attributes.writable = true
  unknown : v = .unknown → p.attributes.writable = true → x.2 = true

theorem answered_refused (h : r.getOwn? key = some p) {v : Value} (hv : v ≠ .unknown) :
    Answered key p v (r, false) :=
  ⟨h, fun hd => absurd hd Bool.false_ne_true, fun hu => absurd hu hv⟩

theorem answered_assign (h : r.getOwn? key = some p) (v : Value) : Answered key p v (r.assign key v) := by
  rw [assign_of_getOwn? h]
  cases hw : p.attributes.writable with
  | true => exact ⟨by simp, fun _ => hw, fun _ _ => rfl⟩
  | false =>
    exact ⟨h, fun hd => absurd hd Bool.false_ne_true, fun _ hw' => by cases hw.symm.trans hw'⟩

theorem answered_putLength (h : r.getOwn? "length" = some p) (v : Value) :
    Answered "length" p v (r.putLength v) := by
  cases v with
  | unknown =>
    rw [putLength, writeLength_eq_assign h]
    exact answered_assign h .unknown
  | number x =>
    cases hn : lengthOf? x with
    | none =>
      rw [putLength_refused_number r hn]
      exact answered_refused h (by simp)
    | some n =>
      have hdrop : (r.dropElements n).getOwn? "length" = some p :=
        (r.getOwn?_dropElements arrayIndex?_length n).trans h
      rw [putLength_number r hn, writeLength_eq_assign hdrop]
      exact answered_assign hdrop (.number x)
  | _ => exact answered_refused h (by simp)

theorem answered_putIndex (h : r.getOwn? key = some p) {i : Nat} (hi : arrayIndex? key = some i) (v : Value) :
    Answered key p v (r.putIndex key i v) := by
  have ha := answered_assign h v
  unfold putIndex
  split
  next r' heq =>
    rw [heq] at ha
    exact ⟨(getOwn?_coverIndex_of_ne r' (ne_length_of_index hi) i).trans ha.getOwn?_eq, ha.writable, ha.unknown⟩
  next r' heq =>
    rw [heq] at ha
    exact ha

theorem answered_put (h : r.getOwn? key = some p) (v : Value) : Answered key p v (r.put key v) := by
  unfold put
  split
  · split
    next hk =>
      subst hk
      exact answered_putLength h v
    next =>
      split
      next hi => exact answered_putIndex h hi v
      next => exact answered_assign h v
  · exact answered_assign h v

theorem getOwn?_put_of_not_writable (h : r.getOwn? key = some p) (hw : p.attributes.writable = false)
    (v : Value) : (r.put key v).1.getOwn? key = some p := by
  have ha := answered_put h v
  have hd : (r.put key v).2 = false := Bool.eq_false_iff.mpr fun hd => by cases hw.symm.trans (ha.writable hd)
  rw [ha.getOwn?_eq, hd]
  rfl

theorem getOwn?_put_unknown (h : r.getOwn? key = some p) (hw : p.attributes.writable = true) :
    (r.put key .unknown).1.getOwn? key = some { p with value := .unknown } := by
  have ha := answered_put h .unknown
  rw [ha.getOwn?_eq, ha.unknown rfl hw]
  rfl

/-! ### Definitions and deletions -/

theorem getOwn?_define_of_ne (r : Record) (hk : k ≠ key) (p : Property) :
    (r.define k p).1.getOwn? key = r.getOwn? key := by
  unfold define
  split
  · split <;> simp [hk]
  · simp [hk]

theorem getOwn?_delete_of_ne (r : Record) (hk : k ≠ key) : (r.delete k).1.getOwn? key = r.getOwn? key := by
  unfold delete
  split
  · split
    · exact (Dict.get?_erase r.properties k key).trans (if_neg hk)
    · rfl
  · rfl

theorem getOwn?_delete_of_not_configurable (h : r.getOwn? key = some p)
    (hc : p.attributes.configurable = false) (k : String) : (r.delete k).1.getOwn? key = some p := by
  by_cases hk : k = key
  · subst hk
    simp [delete, h, hc]
  · rw [getOwn?_delete_of_ne r hk, h]

/-! ### What all properties have -/

def Each (P : String → Property → Prop) (r : Record) : Prop :=
  ∀ key p, r.getOwn? key = some p → P key p

theorem each_empty (P : String → Property → Prop) (c : ObjectClass) : (empty c).Each P :=
  fun _ _ h => by cases h

section Each

variable {P : String → Property → Prop} {r : Record} {key : String}

theorem Each.setProperty (h : r.Each P) {p : Property} (hp : P key p) : (r.setProperty key p).Each P := by
  intro k q hq
  rw [getOwn?_setProperty] at hq
  split at hq
  next hk =>
    cases hq
    exact hk ▸ hp
  next => exact h k q hq

theorem Each.dropElements (h : r.Each P) (n : Nat) : (r.dropElements n).Each P := by
  intro key p hp
  rw [getOwn?_dropElements_eq] at hp
  exact h key p (Option.filter_eq_some_iff.mp hp).1

theorem Each.define (h : r.Each P) {p : Property} (hp : P key p) : (r.define key p).1.Each P := by
  unfold Record.define
  split
  · split
    · exact h.setProperty hp
    · exact h
  · exact h.setProperty hp

theorem Each.delete (h : r.Each P) (key : String) :
    (r.delete key).1.Each fun k p => P k p ∧ (k = key → p.attributes.configurable = false) := by
  intro k p hp
  unfold Record.delete at hp
  split at hp
  next old hold =>
    split at hp
    · have he := (Dict.get?_erase r.properties key k).symm.trans hp
      split at he
      · cases he
      next hk => exact ⟨h k p he, fun h' => absurd h'.symm hk⟩
    next hc =>
      refine ⟨h k p hp, fun hk => ?_⟩
      subst hk
      cases hold.symm.trans hp
      exact Bool.eq_false_iff.mpr hc
  next hold =>
    refine ⟨h k p hp, fun hk => ?_⟩
    subst hk
    cases hold.symm.trans hp

theorem getOwn?_of_delete {k : String} {p : Property} (hp : (r.delete k).1.getOwn? key = some p) :
    r.getOwn? key = some p :=
  (Each.delete (P := fun key p => r.getOwn? key = some p) (fun _ _ h => h) k key p hp).1

variable {v : Value} (write : ∀ key p u, u = v ∨ (∃ x, u = .number x) → P key p →
  P key { p with value := u })
include write

theorem Each.assign (h : r.Each P) (add : P key (.data v)) : (r.assign key v).1.Each P := by
  unfold Record.assign
  split
  next old hold =>
    split
    · exact h.setProperty (write key old v (.inl rfl) (h key old hold))
    · exact h
  next =>
    split
    · exact h.setProperty add
    · exact h

theorem Each.writeLength (h : r.Each P) : (r.writeLength v).1.Each P := by
  unfold Record.writeLength
  split
  next old hold =>
    split
    · exact h.setProperty (write _ old v (.inl rfl) (h _ old hold))
    · exact h
  next => exact h

theorem Each.putLength (h : r.Each P) : (r.putLength v).1.Each P := by
  cases v with
  | unknown => exact h.writeLength write
  | number x =>
    simp only [Record.putLength]
    split
    next n _ => exact (h.dropElements n).writeLength write
    next => exact h
  | _ => exact h

theorem Each.coverIndex (h : r.Each P) (i : Nat) : (r.coverIndex i).Each P := by
  unfold Record.coverIndex
  split
  next x attributes hlen =>
    split
    · exact h.setProperty (write _ _ (.number _) (.inr ⟨_, rfl⟩) (h _ _ hlen))
    · exact h
  next => exact h

theorem Each.put (h : r.Each P) (add : P key (.data v)) : (r.put key v).1.Each P := by
  have ha := h.assign write add
  unfold Record.put
  split
  · split
    · exact h.putLength write
    · split
      next i _ =>
        unfold Record.putIndex
        split
        next r' heq =>
          rw [heq] at ha
          exact ha.coverIndex write i
        next r' heq =>
          rw [heq] at ha
          exact ha
      next => exact ha
  · exact ha

end Each

def Inherits (r r' : Record) : Prop :=
  ∀ key p, r'.getOwn? key = some p →
    p.attributes = .data ∨ ∃ q, r.getOwn? key = some q ∧ q.attributes = p.attributes

theorem inherits_put (r : Record) (key : String) (v : Value) : r.Inherits (r.put key v).1 := by
  have hr : r.Each fun key p => p.attributes = .data ∨
      ∃ q, r.getOwn? key = some q ∧ q.attributes = p.attributes := fun _ p hp => .inr ⟨p, hp, rfl⟩
  exact hr.put (fun _ _ _ _ h => h) (.inl rfl)

end Record

end Surmise
