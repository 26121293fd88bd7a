import Mathlib.Data.List.Sort
import Surmise.Proofs.Literal

/-! The indexes of a record. A name stands for an index only if it is the numeral of that index, so the
indexes of a record are those whose numerals are among its names, each once and in ascending order. -/
namespace Surmise

variable {key : String} {i : Nat}

theorem arrayIndex?_lt (h : arrayIndex? key = some i) : i < maxArrayLength := by
  unfold arrayIndex? at h
  split at h
  · cases h
  · cases h
  · split at h
    next hd =>
      obtain rfl := Option.some.inj h
      exact hd.2.2
    next => cases h

theorem indexKey_injective {j : Nat} (h : indexKey i = indexKey j) : i = j := by
  have hd := congrArg (fun key => digitsToNat key.toList) h
  simpa only [indexKey, Nat.toList_repr, digitsToNat_toDigits] using hd

theorem arrayIndex?_indexKey_of_le (h : maxArrayLength ≤ i) : arrayIndex? (indexKey i) = none := by
  unfold arrayIndex? indexKey
  rw [Nat.toList_repr]
  split
  next => rfl
  next => rfl
  next =>
    rw [digitsToNat_toDigits]
    exact if_neg fun hc => absurd hc.2.2 (Nat.not_lt.mpr h)

theorem indexKey_ne_letters (h : key.toList.all Char.isDigit = false) : indexKey i ≠ key := by
  rintro rfl
  have hdigits : (indexKey i).toList.all Char.isDigit = true := by
    rw [indexKey, Nat.toList_repr]
    exact List.all_eq_true.mpr fun c hc => Nat.isDigit_of_mem_toDigits (by omega) (by omega) hc
  rw [hdigits] at h
  cases h

theorem digitChar_of_isDigit {c : Char} (h : c.isDigit = true) :
    c.toNat - '0'.toNat < 10 ∧ Nat.digitChar (c.toNat - '0'.toNat) = c := by
  obtain ⟨hlow, hhigh⟩ : '0'.toNat ≤ c.toNat ∧ c.toNat ≤ '9'.toNat := by
    simpa [Char.isDigit, UInt32.le_iff_toNat_le] using h
  have hzero : '0'.toNat = 48 := rfl
  have hnine : '9'.toNat = 57 := rfl
  have hlt : c.toNat - '0'.toNat < 10 := by omega
  refine ⟨hlt, Char.toNat_inj.mp ?_⟩
  rw [Nat.toNat_digitChar_of_lt_ten hlt]
  omega

/-! ### Numerals -/

inductive IsNumeral : List Char → Nat → Prop
  | digit {c : Char} (hc : c.isDigit = true) : IsNumeral [c] (c.toNat - '0'.toNat)
  | more {cs : List Char} {n : Nat} {c : Char} (h : IsNumeral cs n) (hn : 0 < n) (hc : c.isDigit = true) :
      IsNumeral (cs ++ [c]) (10 * n + (c.toNat - '0'.toNat))

theorem isNumeral_toDigits (n : Nat) : IsNumeral (Nat.toDigits 10 n) n := by
  induction n using Nat.strongRecOn with
  | ind n ih =>
    have hdigit {d : Nat} (hd : d < 10) :
        d.digitChar.isDigit = true ∧ d.digitChar.toNat - '0'.toNat = d :=
      ⟨Nat.isDigit_digitChar.trans (decide_eq_true hd), Nat.toNat_digitChar_sub_48_of_lt_ten hd⟩
    by_cases hn : n < 10
    · obtain ⟨hc, hvalue⟩ := hdigit hn
      rw [Nat.toDigits_of_lt_base hn]
      simpa only [hvalue] using IsNumeral.digit hc
    · obtain ⟨hc, hvalue⟩ := hdigit (Nat.mod_lt n (by omega))
      have hmore := IsNumeral.more (ih (n / 10) (by omega)) (by omega) hc
      rw [hvalue, Nat.div_add_mod] at hmore
      rw [Nat.toDigits_of_base_le (by omega) (by omega)]
      exact hmore

namespace IsNumeral
variable {cs : List Char} {n : Nat}

theorem eq_toDigits (h : IsNumeral cs n) : cs = Nat.toDigits 10 n := by
  induction h with
  | digit hc =>
    obtain ⟨hlt, hchar⟩ := digitChar_of_isDigit hc
    rw [Nat.toDigits_of_lt_base hlt, hchar]
  | more _ hn hc ih =>
    obtain ⟨hlt, hchar⟩ := digitChar_of_isDigit hc
    rw [ih, ← Nat.toDigits_append_toDigits (by decide) hn hlt, Nat.toDigits_of_lt_base hlt, hchar]

theorem iff_eq_indexKey : IsNumeral key.toList i ↔ key = indexKey i := by
  rw [← String.toList_inj, indexKey, Nat.toList_repr]
  exact ⟨eq_toDigits, fun h => h ▸ isNumeral_toDigits i⟩

/-- Digits after a numeral make the numeral of the number that they lead to. -/
theorem append (h : IsNumeral cs n) (hn : 0 < n) {ds : List Char} (hds : ∀ d ∈ ds, d.isDigit = true) :
    IsNumeral (cs ++ ds) (ds.foldl (fun n c => 10 * n + (c.toNat - '0'.toNat)) n) := by
  induction ds generalizing cs n with
  | nil =>
    rw [List.append_nil]
    exact h
  | cons d ds ih =>
    rw [List.forall_mem_cons] at hds
    have hpos : 0 < 10 * n + (d.toNat - '0'.toNat) := by omega
    rw [List.append_cons]
    exact ih (.more h hn hds.1) hpos hds.2

/-- Digits are the numeral of the number read from them, unless a zero leads others. -/
theorem of_digits {c : Char} (hcs : ∀ d ∈ c :: cs, d.isDigit = true) (hzero : c = '0' → cs = []) :
    IsNumeral (c :: cs) (digitsToNat (c :: cs)) := by
  rw [List.forall_mem_cons] at hcs
  have hfirst := digit hcs.1
  unfold digitsToNat
  rw [List.foldl_cons, Nat.mul_zero, Nat.zero_add]
  by_cases hc : c = '0'
  · rw [hzero hc]
    exact hfirst
  · refine hfirst.append (Nat.pos_of_ne_zero fun h0 => hc ?_) hcs.2
    rw [← (digitChar_of_isDigit hcs.1).2, h0]
    rfl

end IsNumeral

theorem isNumeral_of_arrayIndex? (h : arrayIndex? key = some i) : IsNumeral key.toList i := by
  unfold arrayIndex? at h
  split at h
  · cases h
  · cases h
  next hnil hlong =>
    obtain ⟨⟨-, hdigits, -⟩, rfl⟩ : (_ ∧ _ ∧ _) ∧ digitsToNat key.toList = i := by
      simpa [Option.ite_none_right_eq_some] using h
    cases hk : key.toList with
    | nil => exact absurd hk hnil
    | cons c cs =>
      rw [hk] at hdigits
      refine .of_digits hdigits fun hc => ?_
      cases cs with
      | nil => rfl
      | cons d cs => exact absurd (hc ▸ hk) (hlong d cs)

/-- Only the numeral of an index stands for it. -/
theorem eq_indexKey_of_arrayIndex? (h : arrayIndex? key = some i) : key = indexKey i :=
  IsNumeral.iff_eq_indexKey.mp (isNumeral_of_arrayIndex? h)

theorem arrayIndex?_eq_some_iff : arrayIndex? key = some i ↔ IsNumeral key.toList i ∧ i < maxArrayLength := by
  constructor
  · exact fun h => ⟨isNumeral_of_arrayIndex? h, arrayIndex?_lt h⟩
  · rintro ⟨hkey, hi⟩
    rw [IsNumeral.iff_eq_indexKey.mp hkey]
    exact arrayIndex?_indexKey hi

namespace Record

variable (r : Record)

theorem has_iff (key : String) : r.has key = true ↔ key ∈ r.keys := r.properties.contains_iff key

theorem mem_indexes (i : Nat) : i ∈ r.indexes ↔ i < maxArrayLength ∧ indexKey i ∈ r.keys := by
  unfold indexes
  rw [List.mem_mergeSort, List.mem_filterMap]
  constructor
  · rintro ⟨key, hkey, hi⟩
    exact ⟨arrayIndex?_lt hi, eq_indexKey_of_arrayIndex? hi ▸ hkey⟩
  · rintro ⟨hi, hkey⟩
    exact ⟨indexKey i, hkey, arrayIndex?_indexKey hi⟩

theorem nodup_indexes : r.indexes.Nodup := by
  unfold indexes
  refine (List.mergeSort_perm _ _).nodup_iff.mpr (List.Nodup.filterMap ?_ r.properties.nodup_keys)
  intro key key' i hi hi'
  exact (eq_indexKey_of_arrayIndex? hi).trans (eq_indexKey_of_arrayIndex? hi').symm

theorem pairwise_indexes : r.indexes.Pairwise (· < ·) := by
  have hle : r.indexes.Pairwise (· ≤ ·) := by
    refine (List.pairwise_mergeSort (fun a b c => ?_) (fun a b => ?_) _).imp of_decide_eq_true
    · simpa using Nat.le_trans
    · simpa using Nat.le_total a b
  exact (hle.and r.nodup_indexes).imp fun h => Nat.lt_of_le_of_ne h.1 h.2

theorem filter_indexes {n : Nat} (hn : n ≤ maxArrayLength) :
    r.indexes.filter (· < n) = (List.range n).filter fun i => r.has (indexKey i) := by
  have hleft : (r.indexes.filter (· < n)).Pairwise (· < ·) := r.pairwise_indexes.filter _
  have hright : ((List.range n).filter fun i => r.has (indexKey i)).Pairwise (· < ·) :=
    List.pairwise_lt_range.filter _
  refine hleft.eq_of_mem_iff hright fun i => ?_
  rw [List.mem_filter, List.mem_filter, mem_indexes, List.mem_range, decide_eq_true_eq, has_iff]
  constructor
  · exact fun ⟨⟨_, hkey⟩, hi⟩ => ⟨hi, hkey⟩
  · exact fun ⟨hi, hkey⟩ => ⟨⟨Nat.lt_of_lt_of_le hi hn, hkey⟩, hi⟩

theorem arrayLength_le : r.arrayLength ≤ maxArrayLength := by
  unfold arrayLength
  split
  · split
    · split
      · exact Nat.zero_le _
      · exact Nat.min_le_right _ _
    · exact Nat.zero_le _
  · exact Nat.zero_le _

end Record

/-- A name stands for an index exactly if it is the decimal numeral of it, without leading zeros, and the index
is at most 2³² - 2. So no two names stand for the same index, and the indexes of a record, each once and in
ascending order, are those whose numerals are among its names. -/
theorem index_names_canonical :
    (∀ key i, arrayIndex? key = some i ↔ IsNumeral key.toList i ∧ i ≤ 4294967294) ∧
    (∀ key key' i, arrayIndex? key = some i → arrayIndex? key' = some i → key = key') ∧
    ∀ r : Record, r.indexes.Pairwise (· < ·) ∧
      ∀ i, i ∈ r.indexes ↔ i ≤ 4294967294 ∧ ∃ key ∈ r.keys, IsNumeral key.toList i := by
  have hbound (i : Nat) : i ≤ 4294967294 ↔ i < maxArrayLength := Nat.lt_succ_iff.symm
  refine ⟨fun key i => ?_, fun key key' i h h' => ?_, fun r => ⟨r.pairwise_indexes, fun i => ?_⟩⟩
  · rw [arrayIndex?_eq_some_iff, hbound]
  · exact (eq_indexKey_of_arrayIndex? h).trans (eq_indexKey_of_arrayIndex? h').symm
  · simp only [r.mem_indexes, hbound, IsNumeral.iff_eq_indexKey, exists_eq_right]

def scattered : Record :=
  ["10", "9", "09", "4294967294", "4294967295"].foldl (fun r key => r.setProperty key (.data .null))
    (.empty .object)

theorem index_names_canonical_scattered :
    arrayIndex? "4294967294" = some 4294967294 ∧ arrayIndex? "4294967295" = none ∧
      scattered.indexes = [9, 10, 4294967294] := by
  obtain ⟨hname, -, hrecord⟩ := index_names_canonical
  obtain ⟨hascending, hmem⟩ := hrecord scattered
  have hkeys : scattered.keys = ["10", "9", "09", "4294967294", "4294967295"] := rfl
  have hread : ["10", "9", "09", "4294967294", "4294967295"].map arrayIndex? =
      [some 10, some 9, none, some 4294967294, none] := by decide
  refine ⟨by decide, by decide, hascending.eq_of_mem_iff (by decide) fun i => ?_⟩
  have hstands : i ∈ scattered.indexes ↔ some i ∈ scattered.keys.map arrayIndex? := by
    simp only [hmem, List.mem_map, hname, ← and_assoc, exists_and_right]
    exact and_comm
  rw [hstands, hkeys, hread]
  simp [or_left_comm]

end Surmise
