import Mathlib.Data.List.Nodup
import Mathlib.Data.List.Perm.Subperm
import Surmise.Proofs.Store

/-! Conversions come to an end. Arrays inside one another are joined along a path that enters none of them
twice, so no conversion goes deeper than there are arrays, unless an error has an object for its name or its
message or a wrapper holds one. -/
namespace Surmise

/-- No error has an object for a property, and nothing is wrapped. -/
structure Heap.Terminal (h : Heap) : Prop where
  errors : ∀ id kind, (h.record id).objectClass = .error kind →
    ∀ key p, (h.record id).getOwn? key = some p → p.value.isObject = false
  wrappers : ∀ id, (h.record id).objectClass.isWrapper = false

def Heap.Flat (h : Heap) : Prop :=
  ∀ id v, (h.record id).objectClass.isWrapper = true → (h.record id).primitive = some v → v.isObject = false

structure Heap.Shallow (h : Heap) : Prop where
  errors : ∀ id kind, (h.record id).objectClass = .error kind →
    ((h.record id).get "name").isObject = false ∧ ((h.record id).get "message").isObject = false
  flat : h.Flat

/-- All conversions and comparisons come to an end within the steps that they are given. -/
structure Heap.Settles (h : Heap) : Prop where
  primitive : ∀ id, (h.primitiveOf? h.conversionDepth [] id).isSome = true
  settled : ∀ v : Value, (v.settle (h.primitiveOf? h.conversionDepth []) (h.size + 1)).isSome = true
  /-- No number of further steps changes the outcome. -/
  equals : ∀ a b n, h.size + 5 ≤ n → h.looseEqualsIn n a b = h.looseEquals a b

theorem Record.isObject_get {r : Record} {key : String}
    (h : ∀ p, r.getOwn? key = some p → p.value.isObject = false) : (r.get key).isObject = false := by
  unfold Record.get
  cases hp : r.getOwn? key with
  | none => rfl
  | some p => exact h p hp

theorem Heap.Terminal.shallow {h : Heap} (ht : h.Terminal) : h.Shallow where
  errors id kind hc :=
    ⟨Record.isObject_get (ht.errors id kind hc "name"), Record.isObject_get (ht.errors id kind hc "message")⟩
  flat id v hw := by
    rw [ht.wrappers id] at hw
    cases hw

theorem Value.settle_of_not_object {v : Value} (h : v.isObject = false)
    (primitive : ObjectId → Option Value) (n : Nat) : v.settle primitive n = some v := by
  cases v with
  | object id => cases h
  | _ => cases n <;> rfl

/-! ### Values that come out -/

theorem isObject_joinElements {part : Nat → Option Value} {n i : Nat} {done : List String} {v : Value}
    (h : joinElements part n i done = some v) : v.isObject = false := by
  induction n generalizing i done with
  | zero =>
    cases h
    rfl
  | succ n ih =>
    unfold joinElements at h
    split at h
    · exact ih h
    · cases h
      rfl
    · cases h

theorem isObject_errorText {settled : Value → Option Value} {r : Record} {v : Value}
    (h : errorText settled r = some v) : v.isObject = false := by
  unfold errorText at h
  split at h
  · cases h
  split at h
  · cases h
    rfl
  split at h
  · cases h
    rfl
  split at h
  · cases h
  next message _ =>
    cases h
    cases message.primitiveText? <;> rfl

namespace Heap
variable {h : Heap}

/-- In a flat heap conversion to a primitive value does not end in an object. -/
theorem Flat.isObject_primitiveOf? (hf : h.Flat) {fuel : Nat} {path : List ObjectId}
    {id : ObjectId} {v : Value} (hv : h.primitiveOf? fuel path id = some v) : v.isObject = false := by
  cases fuel with
  | zero => cases hv
  | succ fuel =>
    unfold primitiveOf? at hv
    dsimp only at hv
    cases hc : (h.record id).objectClass with
    | boolean | number | string =>
      rw [hc] at hv
      cases hp : (h.record id).primitive with
      | none =>
        rw [hp] at hv
        cases hv
        rfl
      | some w =>
        rw [hp] at hv
        cases hv
        exact hf id _ (by rw [hc]; rfl) hp
    | array =>
      rw [hc] at hv
      dsimp only at hv
      split at hv
      · cases hv
        rfl
      split at hv
      · exact isObject_joinElements hv
      · cases hv
        rfl
    | error kind =>
      rw [hc] at hv
      exact isObject_errorText hv
    | function | math | json =>
      rw [hc] at hv
      cases hv
      rfl
    | object =>
      rw [hc] at hv
      dsimp only at hv
      split at hv
      · cases hv
        rfl
      · cases hv
        rfl

end Heap

/-! ### Enough steps -/

theorem isSome_joinElements {part : Nat → Option Value} (h : ∀ i, (part i).isSome = true) (n i : Nat)
    (done : List String) : (joinElements part n i done).isSome = true := by
  induction n generalizing i done with
  | zero => rfl
  | succ n ih =>
    unfold joinElements
    split
    · exact ih _ _
    · rfl
    next hp =>
      have := h i
      rw [hp] at this
      cases this

theorem isSome_elementText {primitive : ObjectId → Option Value}
    (h : ∀ id, (primitive id).isSome = true) (v : Value) : (elementText primitive v).isSome = true := by
  unfold elementText
  split
  · rfl
  · rfl
  · rfl
  next id =>
    obtain ⟨w, hw⟩ := Option.isSome_iff_exists.mp (h id)
    rw [hw]
    cases w <;> rfl
  · rfl

theorem isSome_errorText {settled : Value → Option Value} {r : Record}
    (hname : settled (r.get "name") = some (r.get "name"))
    (hmessage : settled (r.get "message") = some (r.get "message")) :
    (errorText settled r).isSome = true := by
  unfold errorText
  rw [hname]
  dsimp only
  split
  · rfl
  split
  · rfl
  · rw [hmessage]
    rfl

namespace Heap
variable {h : Heap}

theorem length_le_of_nodup {path : List ObjectId} (hpath : path.Nodup)
    (hin : ∀ j ∈ path, j.index < h.size) : path.length ≤ h.size := by
  have hindex : Function.Injective ObjectId.index := fun i j hij => by
    cases i
    cases j
    cases hij
    rfl
  have hsub : path.map ObjectId.index ⊆ List.range h.size := fun i hi => by
    obtain ⟨j, hj, rfl⟩ := List.mem_map.mp hi
    exact List.mem_range.mpr (hin j hj)
  have := ((List.Nodup.map hindex hpath).subperm hsub).length_le
  rwa [List.length_map, List.length_range] at this

theorem lt_size_of_objectClass {id : ObjectId} (hc : (h.record id).objectClass ≠ .object) :
    id.index < h.size := by
  by_contra hout
  rw [record_of_size_le (Nat.not_lt.mp hout)] at hc
  exact hc rfl

def arrays (h : Heap) : List ObjectId :=
  ((List.range h.size).map ObjectId.mk).filter fun id => (h.record id).objectClass = .array

theorem mem_arrays {id : ObjectId} : id ∈ h.arrays ↔ (h.record id).objectClass = .array := by
  unfold arrays
  rw [List.mem_filter, decide_eq_true_eq]
  refine ⟨And.right, fun hc => ⟨List.mem_map.mpr ⟨id.index, List.mem_range.mpr ?_, rfl⟩, hc⟩⟩
  exact lt_size_of_objectClass (by rw [hc]; nofun)

theorem length_arrays_le (h : Heap) : h.arrays.length ≤ h.size := by
  refine Nat.le_trans (List.length_filter_le _ _) (Nat.le_of_eq ?_)
  rw [List.length_map, List.length_range]

structure Entered (h : Heap) (path : List ObjectId) : Prop where
  nodup : path.Nodup
  arrays : path ⊆ h.arrays

theorem entered_nil (h : Heap) : h.Entered [] := ⟨.nil, List.nil_subset _⟩

theorem Entered.length_le {path : List ObjectId} (hpath : h.Entered path) : path.length ≤ h.arrays.length :=
  (hpath.nodup.subperm hpath.arrays).length_le

theorem Entered.cons {path : List ObjectId} {id : ObjectId} (hpath : h.Entered path)
    (hc : (h.record id).objectClass = .array) (hnew : ¬ path.contains id = true) : h.Entered (id :: path) where
  nodup := List.nodup_cons.mpr ⟨fun hmem => hnew (List.contains_iff_mem.mpr hmem), hpath.nodup⟩
  arrays := List.cons_subset.mpr ⟨mem_arrays.mpr hc, hpath.arrays⟩

/-- A path that is entered at an array grows, and it cannot outgrow the arrays. -/
theorem Shallow.isSome_primitiveOf? (hs : h.Shallow) {fuel : Nat} {path : List ObjectId}
    (hpath : h.Entered path) (hfuel : h.arrays.length < fuel + path.length) (id : ObjectId) :
    (h.primitiveOf? fuel path id).isSome = true := by
  induction fuel generalizing path id with
  | zero =>
    have := hpath.length_le
    omega
  | succ fuel ih =>
    unfold primitiveOf?
    dsimp only
    cases hc : (h.record id).objectClass with
    | boolean | number | string => rfl
    | array =>
      dsimp only
      split
      · rfl
      next hnew =>
        split
        · have hfuel' : h.arrays.length < fuel + (id :: path).length := by
            rw [List.length_cons]
            omega
          exact isSome_joinElements
            (fun i => isSome_elementText (ih (hpath.cons hc hnew) hfuel') _) _ _ _
        · rfl
    | error kind =>
      obtain ⟨hname, hmessage⟩ := hs.errors id kind hc
      exact isSome_errorText (Value.settle_of_not_object hname _ _) (Value.settle_of_not_object hmessage _ _)
    | function | math | json => rfl
    | object =>
      dsimp only
      split <;> rfl

theorem Shallow.primitive (hs : h.Shallow) (id : ObjectId) :
    (h.primitiveOf? h.conversionDepth [] id).isSome = true := by
  refine hs.isSome_primitiveOf? h.entered_nil ?_ id
  have hdepth : h.size + 1 ≤ h.conversionDepth := Nat.le_mul_of_pos_right _ (by omega)
  exact Nat.lt_of_le_of_lt h.length_arrays_le hdepth

theorem Flat.settle_eq (hf : h.Flat) {fuel n : Nat} (hn : 0 < n) {id : ObjectId} {w : Value}
    (hw : h.primitiveOf? fuel [] id = some w) :
    (Value.object id).settle (h.primitiveOf? fuel []) n = some w := by
  obtain ⟨n, rfl⟩ : ∃ k, n = k + 1 := ⟨n - 1, by omega⟩
  unfold Value.settle
  rw [hw]
  exact Value.settle_of_not_object (hf.isObject_primitiveOf? hw) _ _

theorem Shallow.settled (hs : h.Shallow) (v : Value) :
    (v.settle (h.primitiveOf? h.conversionDepth []) (h.size + 1)).isSome = true := by
  by_cases hv : v.isObject = false
  · rw [Value.settle_of_not_object hv]
    rfl
  · cases v with
    | object id =>
      obtain ⟨w, hw⟩ := Option.isSome_iff_exists.mp (hs.primitive id)
      rw [hs.flat.settle_eq (Nat.succ_pos _) hw]
      rfl
    | _ => exact absurd rfl hv

/-! ### Comparisons -/

def conversions : Value → Nat
  | .object _ => 2
  | .string _ | .boolean _ => 1
  | _ => 0

theorem conversions_of_not_object {v : Value} (hv : v.isObject = false) : conversions v ≤ 1 := by
  cases v with
  | object id => cases hv
  | string _ | boolean _ => exact Nat.le_refl 1
  | _ => exact Nat.zero_le 1

theorem conversions_ofNumber? (x? : Option Float) : conversions (.ofNumber? x?) = 0 := by
  cases x? <;> rfl

theorem Flat.isObject_toPrimitive (hf : h.Flat) (v : Value) : (h.toPrimitive v).isObject = false := by
  cases v with
  | object id =>
    rw [toPrimitive]
    cases hv : h.primitiveOf? h.conversionDepth [] id with
    | none => rfl
    | some w => exact hf.isObject_primitiveOf? hv
  | _ => rfl

/-- Each step of a comparison that does not end it makes one of the conversions. -/
theorem Flat.looseEqualsIn_stable (hf : h.Flat) {n k : Nat} {a b : Value}
    (hn : conversions a + conversions b < n) (hk : conversions a + conversions b < k) :
    h.looseEqualsIn n a b = h.looseEqualsIn k a b := by
  induction n generalizing k a b with
  | zero => omega
  | succ n ih =>
    obtain ⟨k, rfl⟩ : ∃ m, k = m + 1 := ⟨k - 1, by omega⟩
    have hnumber := conversions_ofNumber?
    have hprimitive (v : Value) := conversions_of_not_object (hf.isObject_toPrimitive v)
    cases a <;> cases b
    any_goals rfl
    all_goals exact ih (by grind [conversions]) (by grind [conversions])

theorem Flat.looseEqualsIn_eq (hf : h.Flat) (a b : Value) {n : Nat} (hn : 5 ≤ n) :
    h.looseEqualsIn n a b = h.looseEquals a b := by
  have hle (v : Value) : conversions v ≤ 2 := by
    cases v <;> simp [conversions]
  have ha := hle a
  have hb := hle b
  exact hf.looseEqualsIn_stable (by omega) (by omega)

theorem Terminal.settles (ht : h.Terminal) : h.Settles where
  primitive := ht.shallow.primitive
  settled := ht.shallow.settled
  equals a b n hn := ht.shallow.flat.looseEqualsIn_eq a b (by omega)

end Heap
end Surmise
