import Mathlib.Data.List.Basic
import Surmise.Proofs.Number
import Surmise.Proofs.Record

/-! The records of arrays and objects made from their contents. The element with index `i` is named by
the numeral of `i`, which stands for no other index. -/
namespace Surmise

variable {α : Type} {i : Nat}

theorem Dict.map_fst_entries (d : Dict α) : d.entries.map Prod.fst = d.keys := by
  unfold entries
  rw [List.map_filterMap]
  refine (List.filterMap_congr fun key hk => ?_).trans (List.filterMap_some (l := d.keys))
  obtain ⟨a, ha⟩ := Option.isSome_iff_exists.mp ((d.mem_keys key).mp hk)
  rw [ha]
  rfl

theorem Dict.get?_of_mem_entries {d : Dict α} {e : String × α} (h : e ∈ d.entries) :
    d.get? e.1 = some e.2 := by
  obtain ⟨key, _, hk⟩ := List.mem_filterMap.mp h
  obtain ⟨a, ha, rfl⟩ := Option.map_eq_some_iff.mp hk
  exact ha

theorem Dict.entries_insert_new {d : Dict α} {key : String} (h : key ∉ d.keys) (a : α) :
    (d.insert key a).entries = d.entries ++ [(key, a)] := by
  unfold entries
  rw [keys_insert, if_neg h, List.filterMap_append]
  congr 1
  · refine List.filterMap_congr fun k hk => ?_
    have hne : key ≠ k := fun he => h (he ▸ hk)
    rw [get?_insert, if_neg hne]
  · simp [get?_insert]

theorem head?_toDigits {n : Nat} (h : 0 < n) : (Nat.toDigits 10 n).head? ≠ some '0' := by
  induction n using Nat.strongRecOn with
  | ind n ih =>
    by_cases hn : n < 10
    · rw [Nat.toDigits_of_lt_base hn]
      simpa using Nat.ne_of_gt h
    · have hq := ih (n / 10) (by omega) (by omega)
      rw [Nat.toDigits_of_base_le (by omega) (by omega)]
      cases hd : Nat.toDigits 10 (n / 10) with
      | nil => exact absurd hd Nat.toDigits_ne_nil
      | cons c cs =>
        rw [hd] at hq
        exact hq

theorem digitsToNat_toDigits (n : Nat) : digitsToNat (Nat.toDigits 10 n) = n :=
  Nat.ofDigitChars_ten_toDigits

theorem arrayIndex?_indexKey (h : i < maxArrayLength) : arrayIndex? (indexKey i) = some i := by
  have hlen : (Nat.toDigits 10 i).length ≤ 10 :=
    (Nat.length_toDigits_le_iff (by omega) (by omega)).mpr (by unfold maxArrayLength at h; omega)
  have hdigits : (Nat.toDigits 10 i).all Char.isDigit = true :=
    List.all_eq_true.mpr fun c hc => Nat.isDigit_of_mem_toDigits (by omega) (by omega) hc
  have hvalue := digitsToNat_toDigits i
  unfold arrayIndex? indexKey
  rw [Nat.toList_repr]
  split
  next hnil => exact absurd hnil Nat.toDigits_ne_nil
  next c cs hzero =>
    -- only the numeral of 0 begins with a zero, and it has no second digit
    by_cases h0 : i = 0
    · subst h0
      simp at hzero
    · have hhead := head?_toDigits (Nat.pos_of_ne_zero h0)
      rw [hzero] at hhead
      simp at hhead
  next cs _ _ => rw [if_pos ⟨hlen, hdigits, by rw [hvalue]; exact h⟩, hvalue]

theorem indexKey_inj {j : Nat} (hi : i < maxArrayLength) (hj : j < maxArrayLength)
    (h : indexKey i = indexKey j) : i = j := by
  have hk := arrayIndex?_indexKey hi
  rw [h, arrayIndex?_indexKey hj] at hk
  exact (Option.some.inj hk).symm

theorem indexKey_ne {key : String} (hi : i < maxArrayLength) (h : arrayIndex? key = none) :
    indexKey i ≠ key := by
  rintro rfl
  rw [arrayIndex?_indexKey hi] at h
  cases h

theorem indexKey_ne_length (hi : i < maxArrayLength) : indexKey i ≠ "length" :=
  indexKey_ne hi (by decide)

namespace Record

variable {r : Record} {key : String} {n : Nat}

theorem mem_keys (r : Record) (key : String) : key ∈ r.keys ↔ (r.getOwn? key).isSome :=
  r.properties.mem_keys key

theorem get_of_getOwn? {p : Property} (h : r.getOwn? key = some p) : r.get key = p.value := by
  unfold get
  rw [h]
  rfl

theorem getOwn?_of_not_mem (h : key ∉ r.keys) : r.getOwn? key = none := by
  rw [mem_keys, Option.not_isSome_iff_eq_none] at h
  exact h

theorem get_of_not_mem (h : key ∉ r.keys) : r.get key = .undefined := by
  unfold get
  rw [getOwn?_of_not_mem h]
  rfl

theorem assign_new (hx : r.extensible = true) (hk : key ∉ r.keys) (v : Value) :
    r.assign key v = (r.setProperty key (.data v), true) := by
  unfold assign
  rw [getOwn?_of_not_mem hk]
  simp [hx]

structure Plain (r : Record) : Prop where
  objectClass : r.objectClass = .object
  callable : r.callable = none
  enumerable : ∀ key p, r.getOwn? key = some p → p.attributes.enumerable = true

/-- A dense array of `n` elements, few enough to be walked: its properties are its length and the
elements below it. -/
structure Dense (r : Record) (n : Nat) : Prop where
  objectClass : r.objectClass = .array
  callable : r.callable = none
  length : ∃ x, r.get "length" = .number x ∧ Number.toNat? x = some n
  walkable : n ≤ maxWalkedLength
  mem_keys : ∀ key, key ∈ r.keys ↔ key = "length" ∨ ∃ i, i < n ∧ key = indexKey i

theorem Dense.lt_maxArrayLength {i : Nat} (h : r.Dense n) (hi : i < n) : i < maxArrayLength :=
  Nat.lt_of_lt_of_le hi (Nat.le_trans h.walkable (by decide))

theorem Dense.length_unique {m : Nat} (hm : r.Dense m) (hn : r.Dense n) : m = n := by
  obtain ⟨x, hx, hxm⟩ := hm.length
  obtain ⟨y, hy, hyn⟩ := hn.length
  have hxy : x = y := Value.number.inj (hx.symm.trans hy)
  rw [hxy, hyn] at hxm
  exact (Option.some.inj hxm).symm

theorem Dense.arrayLength_eq (h : r.Dense n) : r.arrayLength = n := by
  obtain ⟨x, hx, hn⟩ := h.length
  obtain ⟨p, hp, _, hw, hneg⟩ := Number.toNat?_eq_some hn
  unfold arrayLength
  simp only [hx, hp]
  split
  next hminus => exact (hneg hminus).symm
  next =>
    rw [hw]
    exact Nat.min_eq_left (Nat.le_trans h.walkable (by decide))

theorem Dense.extent_eq (h : r.Dense n) : r.extent = .walkable n := by
  obtain ⟨x, hx, _⟩ := h.length
  unfold extent
  rw [hx, h.arrayLength_eq]
  exact if_neg (Nat.not_lt.mpr h.walkable)

theorem Plain.enumerableKeys_eq (h : r.Plain) : r.enumerableKeys = r.keys := by
  have hall : r.properties.entries.filter (fun p => p.2.attributes.enumerable) =
      r.properties.entries :=
    List.filter_eq_self.mpr fun e he => h.enumerable e.1 e.2 (Dict.get?_of_mem_entries he)
  unfold enumerableKeys
  rw [hall]
  exact Dict.map_fst_entries _

/-! ### Objects from entries -/

variable {es : List (String × Value)}

structure Lists (r : Record) (es : List (String × Value)) : Prop where
  shape : r.shape = (empty .object).shape
  keys : r.keys = es.map Prod.fst
  own : ∀ e ∈ es, r.getOwn? e.1 = some (.data e.2)

theorem Lists.put (h : r.Lists es) (hk : key ∉ es.map Prod.fst) (v : Value) :
    (r.put key v).1.Lists (es ++ [(key, v)]) := by
  have hc : r.objectClass = .object := objectClass_of_shape h.shape
  have hx : r.extensible = true := extensible_of_shape h.shape
  have hnew : key ∉ r.keys := h.keys ▸ hk
  have hput : (r.put key v).1 = r.setProperty key (.data v) := by
    unfold Record.put
    rw [if_neg (by simp [hc]), assign_new hx hnew]
  rw [hput]
  refine ⟨h.shape, ?_, ?_⟩
  · rw [keys_setProperty, if_neg hnew, h.keys, List.map_append]
    rfl
  · intro e he
    rw [getOwn?_setProperty]
    rcases List.mem_append.mp he with hm | hm
    · have hne : key ≠ e.1 := fun heq => hk (heq ▸ List.mem_map_of_mem hm)
      rw [if_neg hne]
      exact h.own e hm
    · obtain rfl := List.mem_singleton.mp hm
      simp

theorem lists_ofEntries (h : (es.map Prod.fst).Nodup) : (ofEntries es).Lists es := by
  suffices hs : ∀ (done : List (String × Value)) (r : Record), r.Lists done →
      ((done ++ es).map Prod.fst).Nodup →
      (es.foldl (fun r e => (r.put e.1 e.2).1) r).Lists (done ++ es) from
    hs [] (empty .object) ⟨rfl, rfl, by simp⟩ h
  clear h
  induction es with
  | nil => exact fun done r hr _ => by simpa using hr
  | cons e es ih =>
    intro done r hr hd
    have hk : e.1 ∉ done.map Prod.fst := by
      rw [List.map_append, List.nodup_append] at hd
      exact fun hm => hd.2.2 _ hm _ (by simp) rfl
    have hstep := ih (done ++ [e]) _ (hr.put hk e.2) (by simpa using hd)
    simpa using hstep

theorem Lists.plain (h : r.Lists es) : r.Plain where
  objectClass := objectClass_of_shape h.shape
  callable := callable_of_shape h.shape
  enumerable key p hp := by
    have hm : key ∈ r.keys := (r.mem_keys key).mpr (by simp [hp])
    rw [h.keys] at hm
    obtain ⟨e, he, rfl⟩ := List.mem_map.mp hm
    rw [h.own e he] at hp
    obtain rfl := Option.some.inj hp
    rfl

/-! ### Arrays from elements -/

variable {vs : List Value}

structure Fills (r : Record) (vs : List Value) : Prop where
  shape : r.shape = (empty .array).shape
  keys : r.keys = "length" :: (List.range vs.length).map indexKey
  length : r.getOwn? "length" = some ⟨.number (Number.ofNat vs.length), .lengthOfArray⟩
  element : ∀ i (h : i < vs.length), r.getOwn? (indexKey i) = some (.data vs[i])

theorem fills_emptyArray : emptyArray.Fills [] where
  shape := rfl
  keys := by rfl
  length := by
    rw [List.length_nil, Number.ofNat_zero]
    simp [emptyArray]
  element i h := absurd h (Nat.not_lt_zero i)

/-- Storing at the index after the last element adds an element. -/
theorem Fills.put (h : r.Fills vs) (hn : vs.length < maxWalkedLength) (v : Value) :
    (r.put (indexKey vs.length) v).1.Fills (vs ++ [v]) := by
  have hmax : vs.length < maxArrayLength := Nat.lt_trans hn (by decide)
  have hc : r.objectClass = .array := objectClass_of_shape h.shape
  have hx : r.extensible = true := extensible_of_shape h.shape
  have hl : indexKey vs.length ≠ "length" := indexKey_ne_length hmax
  have hnew : indexKey vs.length ∉ r.keys := by
    rw [h.keys]
    simp only [List.mem_cons, List.mem_map, List.mem_range, not_or, not_exists, not_and]
    refine ⟨hl, fun i hi he => ?_⟩
    exact Nat.ne_of_lt hi (indexKey_inj (Nat.lt_trans hi hmax) hmax he)
  have hle : Number.leNat (Number.ofNat vs.length) vs.length = true := by
    rw [Number.leNat_ofNat (Nat.lt_trans hn (by decide))]
    simp
  have hput : (r.put (indexKey vs.length) v).1 =
      (r.setProperty (indexKey vs.length) (.data v)).setProperty "length"
        ⟨.number (Number.ofNat (vs.length + 1)), .lengthOfArray⟩ := by
    unfold Record.put
    rw [if_pos hc, if_neg hl, arrayIndex?_indexKey hmax]
    simp only [putIndex, assign_new hx hnew, coverIndex, getOwn?_setProperty, if_neg hl, h.length, hle,
      if_true]
  rw [hput]
  refine ⟨h.shape, ?_, ?_, ?_⟩
  · rw [keys_setProperty, keys_setProperty, if_neg hnew, h.keys]
    simp [List.range_succ]
  · simp
  · intro i hi
    have hle : i ≤ vs.length := by
      rw [List.length_append, List.length_singleton] at hi
      exact Nat.le_of_lt_succ hi
    have hlt : i < maxArrayLength := Nat.lt_of_le_of_lt hle hmax
    rw [getOwn?_setProperty, if_neg (Ne.symm (indexKey_ne_length hlt)), getOwn?_setProperty]
    by_cases he : i = vs.length
    · subst he
      simp
    · have hv : i < vs.length := Nat.lt_of_le_of_ne hle he
      rw [if_neg fun hk => he (indexKey_inj hmax hlt hk).symm, h.element i hv,
        List.getElem_append_left hv]

theorem fills_ofList (h : vs.length ≤ maxWalkedLength) : (ofList vs).Fills vs := by
  suffices hs : ∀ (done : List Value) (r : Record), r.Fills done →
      (done ++ vs).length ≤ maxWalkedLength →
      (r.putElements done.length (vs.map some)).Fills (done ++ vs) from
    hs [] emptyArray fills_emptyArray h
  clear h
  induction vs with
  | nil => exact fun done r hr _ => by simpa [putElements] using hr
  | cons v vs ih =>
    intro done r hr hd
    have hlt : done.length < maxWalkedLength := by
      rw [List.length_append, List.length_cons] at hd
      omega
    have hstep := ih (done ++ [v]) _ (hr.put hlt v) (by simpa using hd)
    simpa [putElements] using hstep

theorem Fills.dense (h : r.Fills vs) (hn : vs.length ≤ maxWalkedLength) : r.Dense vs.length where
  objectClass := objectClass_of_shape h.shape
  callable := callable_of_shape h.shape
  length := ⟨_, get_of_getOwn? h.length,
    Number.toNat?_ofNat (Nat.lt_of_le_of_lt hn (by decide))⟩
  walkable := hn
  mem_keys key := by
    rw [h.keys]
    simp [eq_comm]

end Record

end Surmise
