import Mathlib.Data.List.Lex
import Surmise.Proofs.ArrayIndex
import Surmise.Proofs.Put
import Surmise.Proofs.Rounding.Order

/-! Strings as sequences of sixteen-bit units. No two strings have the same units, so the order of the units
is an order of the strings. The length of a string counts units, while its elements are characters, so there
are fewer of them if some characters have two units. -/
namespace Surmise

namespace Text

variable {a b c : String}

/-! ### The units of a text -/

def unitsOf (s : String) : List Nat := s.toList.flatMap units

/-- The first unit tells whether there is a second one, so a text cannot be divided into the units of
characters in two ways. -/
theorem units_append_inj {c d : Char} {us vs : List Nat} (h : units c ++ us = units d ++ vs) :
    c = d ∧ us = vs := by
  have hc := not_surrogate c
  have hd := not_surrogate d
  have heq (hcd : c.toNat = d.toNat) : c = d := Char.toNat_inj.mp hcd
  by_cases hwide : c.toNat < 0x10000
  · by_cases hwide' : d.toNat < 0x10000
    · obtain ⟨hcd, hrest⟩ : c.toNat = d.toNat ∧ us = vs := by
        simpa [units, hwide, hwide'] using h
      exact ⟨heq hcd, hrest⟩
    · obtain ⟨hhigh, -⟩ : c.toNat = 0xD800 + (d.toNat - 0x10000) / 0x400 ∧ _ := by
        simpa [units, hwide, hwide'] using h
      omega
  · by_cases hwide' : d.toNat < 0x10000
    · obtain ⟨hhigh, -⟩ : 0xD800 + (c.toNat - 0x10000) / 0x400 = d.toNat ∧ _ := by
        simpa [units, hwide, hwide'] using h
      omega
    · obtain ⟨hhigh, hlow, hrest⟩ : (c.toNat - 0x10000) / 0x400 = (d.toNat - 0x10000) / 0x400 ∧
          (c.toNat - 0x10000) % 0x400 = (d.toNat - 0x10000) % 0x400 ∧ us = vs := by
        simpa [units, hwide, hwide'] using h
      exact ⟨heq (by omega), hrest⟩

theorem units_ne_nil (c : Char) : units c ≠ [] := by
  unfold units
  split <;> exact List.cons_ne_nil _ _

theorem flatMap_units_injective {cs ds : List Char} (h : cs.flatMap units = ds.flatMap units) : cs = ds := by
  induction cs generalizing ds with
  | nil =>
    cases ds with
    | nil => rfl
    | cons d ds => exact absurd (List.append_eq_nil_iff.mp h.symm).1 (units_ne_nil d)
  | cons c cs ih =>
    cases ds with
    | nil => exact absurd (List.append_eq_nil_iff.mp h).1 (units_ne_nil c)
    | cons d ds =>
      obtain ⟨rfl, hrest⟩ := units_append_inj h
      rw [ih hrest]

theorem unitsOf_inj : unitsOf a = unitsOf b ↔ a = b :=
  ⟨fun h => String.toList_inj.mp (flatMap_units_injective h), congrArg unitsOf⟩

/-! ### The order of texts -/

theorem compareUnits_eq (us vs : List Nat) : compareUnits us vs = List.compareLex compare us vs := by
  induction us generalizing vs with
  | nil => cases vs <;> rfl
  | cons u us ih =>
    cases vs with
    | nil => rfl
    | cons v vs => rw [compareUnits, List.compareLex_cons_cons, ih]

theorem compareUnits_eq_lt_iff {us vs : List Nat} : compareUnits us vs = .lt ↔ List.Lex (· < ·) us vs := by
  induction us generalizing vs with
  | nil =>
    cases vs with
    | nil => exact ⟨nofun, nofun⟩
    | cons v vs => exact ⟨fun _ => .nil, fun _ => rfl⟩
  | cons u us ih =>
    cases vs with
    | nil => exact ⟨nofun, nofun⟩
    | cons v vs =>
      rw [compareUnits, Ordering.then_eq_lt, Nat.compare_eq_lt, Nat.compare_eq_eq, ih, List.cons_lex_cons_iff]

theorem compareStrings_eq_eq_iff : compareStrings a b = .eq ↔ a = b := by
  rw [compareStrings, compareUnits_eq, Std.LawfulEqCmp.compare_eq_iff_eq]
  exact unitsOf_inj

theorem compareStrings_trans (hab : compareStrings a b = .lt) (hbc : compareStrings b c = .lt) :
    compareStrings a c = .lt := by
  rw [compareStrings, compareUnits_eq] at hab hbc ⊢
  exact Std.TransCmp.lt_trans hab hbc

end Text

theorem Heap.binary_less_strings {h : Heap} {a b : String} :
    h.binary .less (.string a) (.string b) = .boolean true ↔ Text.compareStrings a b = .lt := by
  change Value.boolean (Text.compareStrings a b == .lt) = .boolean true ↔ _
  rw [Value.boolean.injEq, beq_iff_eq]

/-- Of two strings, one comes before the other, or they are the same, or the other comes before the one: of
the comparisons `<`, `===` and `>` exactly one holds. The comparisons `<=` and `>=` are the contraries of `>`
and `<`, and `<` is transitive; it is the lexicographic order of the units. -/
theorem string_order_total (h : Heap) (a b c : String) :
    (∃ o : Ordering,
      h.binary .less (.string a) (.string b) = .boolean (o == .lt) ∧
      h.binary .strictEqual (.string a) (.string b) = .boolean (o == .eq) ∧
      h.binary .greater (.string a) (.string b) = .boolean (o == .gt)) ∧
    (∃ p, h.binary .greater (.string a) (.string b) = .boolean p ∧
      h.binary .lessEq (.string a) (.string b) = .boolean (!p)) ∧
    (∃ p, h.binary .less (.string a) (.string b) = .boolean p ∧
      h.binary .greaterEq (.string a) (.string b) = .boolean (!p)) ∧
    (h.binary .less (.string a) (.string b) = .boolean true →
      h.binary .less (.string b) (.string c) = .boolean true →
      h.binary .less (.string a) (.string c) = .boolean true) ∧
    (h.binary .less (.string a) (.string b) = .boolean true ↔
      List.Lex (· < ·) (Text.unitsOf a) (Text.unitsOf b)) := by
  have hsame : (a == b) = (Text.compareStrings a b == .eq) := by
    rw [Bool.eq_iff_iff, beq_iff_eq, beq_iff_eq, Text.compareStrings_eq_eq_iff]
  refine ⟨⟨Text.compareStrings a b, rfl, congrArg Value.boolean hsame, rfl⟩, ⟨_, rfl, rfl⟩,
    ⟨_, rfl, rfl⟩, fun hab hbc => ?_, ?_⟩
  · rw [Heap.binary_less_strings] at hab hbc ⊢
    exact Text.compareStrings_trans hab hbc
  · rw [Heap.binary_less_strings]
    exact Text.compareUnits_eq_lt_iff

/-- A character of two units comes before the last ones that have a single unit. -/
theorem string_order_total_pair :
    ({} : Heap).binary .less (.string "z") (.string "😀") = .boolean true ∧
      ({} : Heap).binary .less (.string "😀") (.string "\uFFFD") = .boolean true ∧
      ({} : Heap).binary .less (.string "z") (.string "\uFFFD") = .boolean true :=
  ⟨rfl, rfl, (string_order_total {} "z" "😀" "\uFFFD").2.2.2.1 rfl rfl⟩

/-! ### Length and elements -/

namespace Text

def pairs (s : String) : Nat := s.toList.countP fun c => 0x10000 ≤ c.toNat

theorem unitCount_eq (s : String) : unitCount s = s.length + pairs s := by
  unfold unitCount pairs
  rw [← String.length_toList]
  induction s.toList with
  | nil => rfl
  | cons c cs ih =>
    rw [List.foldr_cons, ih, List.length_cons, List.countP_cons, unitWidth]
    split
    next hsingle => simp [Nat.not_le.mpr hsingle]; omega
    next hwide => simp [Nat.not_lt.mp hwide]; omega

end Text

namespace Heap
variable {h : Heap} {s key : String} {i : Nat}

theorem member_length (h : Heap) (s : String) :
    h.member (.string s) "length" = .number (Number.ofNat (s.length + Text.pairs s)) := by
  rw [← Text.unitCount_eq]
  rfl

/-- The element of a string under an index is its character there. -/
theorem member_index (hkey : arrayIndex? key = some i) :
    h.member (.string s) key = (s.toList[i]?).elim .undefined fun c => .string (String.singleton c) := by
  have hlength : key ≠ "length" := by
    rintro rfl
    cases arrayIndex?_length.symm.trans hkey
  unfold member Value.ofText
  dsimp only
  rw [if_neg hlength, hkey]

theorem isString_member_index (hkey : arrayIndex? key = some i) :
    (h.member (.string s) key).isString = true ∧ i < s.length ∨
      h.member (.string s) key = .undefined ∧ s.length ≤ i := by
  rw [member_index hkey, ← String.length_toList]
  rcases Nat.lt_or_ge i s.toList.length with hlt | hge
  · rw [List.getElem?_eq_getElem hlt]
    exact .inl ⟨rfl, hlt⟩
  · rw [List.getElem?_eq_none hge]
    exact .inr ⟨rfl, hge⟩

end Heap

/-- Reading an index of a string gives a string if the index is below the number of characters, and undefined
otherwise. The length is greater than the number of characters by one for each character of two units, so in
a string without such characters an index has a string if and only if it is below the length. -/
theorem string_elements_fit_length (h : Heap) (s : String) {key : String} {i : Nat}
    (hkey : arrayIndex? key = some i) :
    ∃ x, h.member (.string s) "length" = .number x ∧
      ((h.member (.string s) key).isString = true ↔ i < s.length) ∧
      ((h.member (.string s) key).isString = false ↔ h.member (.string s) key = .undefined) ∧
      (Number.ofNat i < x ↔ i < s.length + Text.pairs s) ∧
      (Text.pairs s = 0 → ((h.member (.string s) key).isString = true ↔ Number.ofNat i < x)) := by
  have hi : i < 2 ^ 53 := (arrayIndex?_lt hkey).trans (by decide)
  have hlt := Number.ofNat_lt_ofNat_iff (n := s.length + Text.pairs s) hi
  refine ⟨_, h.member_length s, ?_⟩
  obtain ⟨hstring, hinside⟩ | ⟨hnone, hpast⟩ := Heap.isString_member_index (h := h) (s := s) hkey
  · refine ⟨iff_of_true hstring hinside, ?_, hlt, fun _ => ?_⟩
    · rw [hstring]
      refine iff_of_false (by decide) fun hnone => ?_
      rw [hnone] at hstring
      cases hstring
    · exact iff_of_true hstring (hlt.mpr (by omega))
  · rw [hnone]
    refine ⟨iff_of_false Bool.false_ne_true (by omega), iff_of_true rfl rfl, hlt, fun hpairs => ?_⟩
    exact iff_of_false Bool.false_ne_true (mt hlt.mp (by omega))

/-- An accented letter has one unit. -/
theorem string_elements_fit_length_accented :
    arrayIndex? "1" = some 1 ∧ Text.pairs "hé" = 0 ∧
      ∃ x, ({} : Heap).member (.string "hé") "length" = .number x ∧
        ((({} : Heap).member (.string "hé") "1").isString = true ↔ Number.ofNat 1 < x) := by
  have hkey : arrayIndex? "1" = some 1 := by decide
  have hpairs : Text.pairs "hé" = 0 := by decide
  obtain ⟨x, hlength, -, -, -, hfits⟩ := string_elements_fit_length {} "hé" hkey
  exact ⟨hkey, hpairs, x, hlength, hfits hpairs⟩

/-- Of a character of two units the second is below the length and has no element. -/
theorem string_element_missing :
    arrayIndex? "1" = some 1 ∧
      ({} : Heap).member (.string "😀") "length" = .number (Number.ofNat 2) ∧
      Number.ofNat 1 < Number.ofNat 2 ∧
      ({} : Heap).member (.string "😀") "1" = .undefined :=
  ⟨by decide, rfl, (Number.ofNat_lt_ofNat_iff (by decide)).mpr (by decide), rfl⟩

end Surmise
