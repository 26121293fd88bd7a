import Mathlib.Data.List.TakeWhile
import Mathlib.Data.List.TakeDrop
import Surmise.Number.Reader
import Surmise.Proofs.Rounding.Decimal

/-! The grammar of decimal literals. A literal is a sign or none, digits with a point among them or none,
and a power of ten or none; it writes a number. The scanner takes the longest literal at the start of a
text, and what it returns is the number that this literal writes. -/
namespace Surmise

/-! ### Digits -/

variable {c : Char}

theorem toNat_of_isDigit (h : c.isDigit = true) : 48 ≤ c.toNat ∧ c.toNat ≤ 57 := by
  simp only [Char.isDigit, Bool.and_eq_true, decide_eq_true_eq] at h
  exact h

theorem ne_of_isDigit {d : Char} (h : c.isDigit = true) (hd : d.isDigit = false) : c ≠ d := by
  rintro rfl
  rw [h] at hd
  cases hd

theorem not_isBlank_of_isDigit (h : c.isDigit = true) : Text.isBlank c = false := by
  have hrange := toNat_of_isDigit h
  have hchars : c ≠ '\t' ∧ c ≠ '\x0b' ∧ c ≠ '\x0c' ∧ c ≠ ' ' ∧ c ≠ '\n' ∧ c ≠ '\r' := by
    refine ⟨?_, ?_, ?_, ?_, ?_, ?_⟩ <;> exact ne_of_isDigit h rfl
  simp only [Text.isBlank, Text.isSpaceSeparator, Text.isLineEnd, Bool.or_eq_false_iff,
    Bool.and_eq_false_iff, beq_eq_false_iff_ne, decide_eq_false_iff_not, hchars, ne_eq,
    not_false_eq_true, true_and]
  omega

theorem digit?_of_isDigit (h : c.isDigit = true) : Radix.digit? 10 c = some (c.toNat - '0'.toNat) := by
  have hrange := toNat_of_isDigit h
  have hchar : '0' ≤ c ∧ c ≤ '9' := hrange
  have hzero : '0'.toNat = 48 := rfl
  rw [Radix.digit?, Radix.digitValue, if_pos hchar, Option.filter_some, if_pos]
  rw [hzero]
  exact decide_eq_true (by omega)

theorem isDigit_of_mem_toDigits {n : Nat} (h : c ∈ Nat.toDigits 10 n) : c.isDigit = true :=
  Nat.isDigit_of_mem_toDigits (by omega) (by omega) h

theorem Radix.value_ten {ds : List Char} (h : ∀ c ∈ ds, c.isDigit = true) :
    Radix.value 10 ds = Nat.ofDigitChars 10 ds 0 := by
  have hfold : ∀ (cs : List Char) (acc : Nat), (∀ c ∈ cs, c.isDigit = true) →
      cs.foldl (fun n c => 10 * n + (digit? 10 c).getD 0) acc = Nat.ofDigitChars 10 cs acc := by
    intro cs
    induction cs with
    | nil => exact fun _ _ => rfl
    | cons c cs ih =>
      intro acc hcs
      rw [List.foldl_cons, digit?_of_isDigit (hcs c (.head _)), ih _ fun d hd => hcs d (.tail _ hd)]
      rfl
  rw [value_eq_foldl, hfold _ _ h]

theorem span_append {p : Char → Bool} {taken more : List Char} (htaken : ∀ c ∈ taken, p c = true)
    (hmore : ∀ c ∈ more.head?, p c = false) :
    (taken ++ more).takeWhile p = taken ∧ (taken ++ more).dropWhile p = more := by
  rw [List.takeWhile_append_of_pos htaken, List.dropWhile_append_of_pos htaken]
  cases more with
  | nil => simp
  | cons c cs => simp [hmore c rfl]

theorem Text.trim_of_not_isBlank {cs : List Char} (h : ∀ c ∈ cs, isBlank c = false) : trim cs = cs := by
  have hstart {ds : List Char} (hds : ∀ c ∈ ds, isBlank c = false) : ds.dropWhile isBlank = ds :=
    (@span_append isBlank [] ds nofun fun c hc => hds c (List.mem_of_head? hc)).2
  rw [trim, trimStart, hstart h, trimEnd, hstart fun c hc => h c (List.mem_reverse.mp hc),
    List.reverse_reverse]

namespace Numeral

/-! ### Literals -/

def IsDigits (ds : List Char) : Prop := ∀ c ∈ ds, c.isDigit = true

def natural (ds : List Char) : ℕ := Nat.ofDigitChars 10 ds 0

theorem natural_append (ds es : List Char) :
    natural (ds ++ es) = natural ds * 10 ^ es.length + natural es := by
  unfold natural
  rw [Nat.ofDigitChars_append, Nat.ofDigitChars_eq_ofDigitChars_zero, Nat.mul_comm]

theorem isDigits_toDigits (n : ℕ) : IsDigits (Nat.toDigits 10 n) := fun _ => isDigit_of_mem_toDigits

theorem natural_toDigits (n : ℕ) : natural (Nat.toDigits 10 n) = n := Nat.ofDigitChars_ten_toDigits

inductive IsSign : List Char → Bool → Prop
  | none : IsSign [] false
  | plus : IsSign ['+'] false
  | minus : IsSign ['-'] true

inductive IsMantissa : List Char → ℚ → Prop
  | whole {ds : List Char} (hds : IsDigits ds) (hne : ds ≠ []) : IsMantissa ds (natural ds)
  | pointed {ds fs : List Char} (hds : IsDigits ds) (hne : ds ≠ []) (hfs : IsDigits fs) :
      IsMantissa (ds ++ '.' :: fs) (natural ds + natural fs / 10 ^ fs.length)
  | fraction {fs : List Char} (hfs : IsDigits fs) (hne : fs ≠ []) :
      IsMantissa ('.' :: fs) (natural fs / 10 ^ fs.length)

inductive IsPower : List Char → ℤ → Prop
  | none : IsPower [] 0
  | marked {mark : Char} {sign ds : List Char} {negative : Bool} (hmark : mark = 'e' ∨ mark = 'E')
      (hsign : IsSign sign negative) (hds : IsDigits ds) (hne : ds ≠ []) :
      IsPower (mark :: (sign ++ ds)) (if negative then -(natural ds : ℤ) else natural ds)

/-- A text that is a decimal literal, with its sign and the magnitude that it writes. -/
inductive Writes : List Char → Bool → ℚ → Prop
  | intro {sign mantissa power : List Char} {negative : Bool} {v : ℚ} {k : ℤ} (hs : IsSign sign negative)
      (hm : IsMantissa mantissa v) (hx : IsPower power k) :
      Writes (sign ++ (mantissa ++ power)) negative (v * 10 ^ k)

/-! ### The characters of literals -/

variable {ds t : List Char} {negative : Bool} {v : ℚ}

def isDecimalChar (c : Char) : Bool := c.isDigit || ['.', 'e', 'E', '+', '-'].contains c

theorem isBlank_decimalChar {c : Char} (h : isDecimalChar c = true) : Text.isBlank c = false := by
  obtain h | h := Bool.or_eq_true_iff.mp h
  · exact not_isBlank_of_isDigit h
  · have hall : ['.', 'e', 'E', '+', '-'].all (fun c => !Text.isBlank c) = true := by decide
    simpa using List.all_eq_true.mp hall c (by simpa using h)

theorem IsDigits.chars (h : IsDigits ds) : ∀ c ∈ ds, isDecimalChar c = true :=
  fun c hc => by simp [isDecimalChar, h c hc]

theorem IsSign.chars {s : List Char} (h : IsSign s negative) : ∀ c ∈ s, isDecimalChar c = true := by
  cases h with
  | none => exact List.forall_mem_nil _
  | plus | minus => exact List.forall_mem_singleton.mpr rfl

theorem Writes.chars (h : Writes t negative v) : ∀ c ∈ t, isDecimalChar c = true := by
  obtain ⟨hs, hm, hx⟩ := h
  simp only [List.forall_mem_append]
  refine ⟨hs.chars, ?_, ?_⟩
  · cases hm with
    | whole hds => exact hds.chars
    | pointed hds _ hfs =>
      simp only [List.forall_mem_append, List.forall_mem_cons]
      exact ⟨hds.chars, rfl, hfs.chars⟩
    | fraction hfs => exact List.forall_mem_cons.mpr ⟨rfl, hfs.chars⟩
  · cases hx with
    | none => exact List.forall_mem_nil _
    | marked hmark hs hds =>
      simp only [List.forall_mem_append, List.forall_mem_cons]
      refine ⟨?_, hs.chars, hds.chars⟩
      rcases hmark with rfl | rfl <;> rfl

/-! ### What is taken is a literal -/

variable {rest : List Char} {n : Numeral}

theorem splitDigits_eq (cs : List Char) :
    splitDigits cs = (cs.takeWhile isDigit, cs.dropWhile isDigit) :=
  List.span_eq_takeWhile_dropWhile isDigit cs

theorem exists_splitDigits (cs : List Char) :
    ∃ ds rest, splitDigits cs = (ds, rest) ∧ cs = ds ++ rest ∧ IsDigits ds :=
  ⟨_, _, splitDigits_eq cs, List.takeWhile_append_dropWhile.symm, List.all_eq_true.mp List.all_takeWhile⟩

theorem exists_splitSign (cs : List Char) :
    ∃ s negative rest, splitSign cs = (negative, rest) ∧ cs = s ++ rest ∧ IsSign s negative := by
  unfold splitSign
  split
  · exact ⟨_, _, _, rfl, rfl, .minus⟩
  · exact ⟨_, _, _, rfl, rfl, .plus⟩
  · exact ⟨_, _, _, rfl, rfl, .none⟩

theorem exists_splitFraction (cs : List Char) : ∃ fs rest, splitFraction cs = (fs, rest) ∧ IsDigits fs ∧
    (cs = '.' :: (fs ++ rest) ∨ fs = [] ∧ cs = rest) := by
  unfold splitFraction
  split
  next cs =>
    obtain ⟨fs, rest, hsplit, hcs, hfs⟩ := exists_splitDigits cs
    exact ⟨fs, rest, hsplit, hfs, .inl (by rw [hcs])⟩
  · exact ⟨_, _, rfl, nofun, .inr ⟨rfl, rfl⟩⟩

theorem exists_splitExponent (cs : List Char) :
    ∃ xs k rest, splitExponent cs = (k, rest) ∧ cs = xs ++ rest ∧ IsPower xs k := by
  cases cs with
  | nil => exact ⟨[], 0, [], rfl, rfl, .none⟩
  | cons c cs =>
    rw [splitExponent]
    by_cases hc : c = 'e' ∨ c = 'E'
    · obtain ⟨s, negative, rest, hsplit, hcs, hs⟩ := exists_splitSign cs
      obtain ⟨ds, rest', hsplit', hrest, hds⟩ := exists_splitDigits rest
      rw [if_pos hc, hsplit]
      dsimp only
      rw [hsplit']
      cases ds with
      | nil => exact ⟨[], 0, _, rfl, rfl, .none⟩
      | cons d ds =>
        refine ⟨c :: (s ++ d :: ds), _, rest', rfl, by simp [hcs, hrest], ?_⟩
        rw [Radix.value_ten hds]
        exact .marked hc hs hds (List.cons_ne_nil d ds)
    · rw [if_neg hc]
      exact ⟨[], 0, _, rfl, rfl, .none⟩

theorem scan_eq {cs u ws a fs b : List Char} {k : ℤ} (hsign : splitSign cs = (negative, u))
    (hwhole : splitDigits u = (ws, a)) (hfraction : splitFraction a = (fs, b))
    (hpower : splitExponent b = (k, rest)) :
    scan cs = if ws = [] ∧ fs = [] then none
      else some (⟨negative, Radix.value 10 (ws ++ fs), k - fs.length⟩, rest) := by
  rw [scan, hsign]
  dsimp only
  rw [hwhole]
  dsimp only
  rw [hfraction]
  dsimp only
  rw [hpower]

theorem natural_mul_zpow (ws fs : List Char) (k : ℤ) :
    (natural (ws ++ fs) * 10 ^ (k - fs.length) : ℚ) =
      (natural ws + natural fs / 10 ^ fs.length) * 10 ^ k := by
  rw [natural_append, zpow_sub₀ (by norm_num), zpow_natCast]
  push_cast
  field_simp

theorem IsDigits.append {es : List Char} (hds : IsDigits ds) (hes : IsDigits es) : IsDigits (ds ++ es) :=
  fun c hc => (List.mem_append.mp hc).elim (hds c) (hes c)

theorem IsMantissa.split {ms : List Char} (h : IsMantissa ms v) : ∃ ws fs, IsDigits ws ∧
    IsDigits fs ∧ ¬ (ws = [] ∧ fs = []) ∧ v = natural ws + natural fs / 10 ^ fs.length ∧
      (ms = ws ++ '.' :: fs ∨ fs = [] ∧ ms = ws) := by
  cases h with
  | whole hds hne => exact ⟨_, [], hds, nofun, fun hnil => hne hnil.1, by simp [natural], .inr ⟨rfl, rfl⟩⟩
  | pointed hds hne hfs => exact ⟨_, _, hds, hfs, fun hnil => hne hnil.1, rfl, .inl rfl⟩
  | fraction hfs hne => exact ⟨[], _, nofun, hfs, fun hnil => hne hnil.2, by simp [natural], .inl rfl⟩

theorem isMantissa_pointed {ws fs : List Char} (hws : IsDigits ws) (hfs : IsDigits fs)
    (hne : ¬ (ws = [] ∧ fs = [])) :
    IsMantissa (ws ++ '.' :: fs) (natural ws + natural fs / 10 ^ fs.length) := by
  by_cases hnil : ws = []
  · subst hnil
    simpa [natural] using IsMantissa.fraction hfs fun hnil => hne ⟨rfl, hnil⟩
  · exact .pointed hws hnil hfs

/-- What the scanner takes is a literal, and what it returns is the number that is written. -/
theorem writes_of_scan {cs : List Char} (h : scan cs = some (n, rest)) :
    ∃ taken, cs = taken ++ rest ∧ Writes taken n.negative (n.coefficient * 10 ^ n.exponent) := by
  obtain ⟨s, negative, u, hsign, rfl, hs⟩ := exists_splitSign cs
  obtain ⟨ws, a, hwhole, rfl, hws⟩ := exists_splitDigits u
  obtain ⟨fs, b, hfraction, hfs, ha⟩ := exists_splitFraction a
  obtain ⟨xs, k, rest', hpower, rfl, hxs⟩ := exists_splitExponent b
  rw [scan_eq hsign hwhole hfraction hpower] at h
  split at h
  · cases h
  next hne =>
    obtain ⟨rfl, rfl⟩ := Prod.mk.inj (Option.some.inj h)
    rw [Radix.value_ten (hws.append hfs)]
    change ∃ taken, _ ∧ Writes taken negative (natural (ws ++ fs) * 10 ^ (k - fs.length))
    rw [natural_mul_zpow]
    rcases ha with rfl | ⟨rfl, rfl⟩
    · exact ⟨s ++ ((ws ++ '.' :: fs) ++ xs), by simp, .intro hs (isMantissa_pointed hws hfs hne) hxs⟩
    · have hws' : ws ≠ [] := fun hnil => hne ⟨hnil, rfl⟩
      refine ⟨s ++ (ws ++ xs), by simp, .intro hs ?_ hxs⟩
      simpa [natural] using IsMantissa.whole hws hws'

/-! ### No literal is longer -/

variable {more : List Char}

def StopsDigits (cs : List Char) : Prop := ∀ c ∈ cs.head?, c.isDigit = false ∧ c ≠ '.'

theorem splitDigits_digits (hds : IsDigits ds) (more : List Char) :
    splitDigits (ds ++ more) = (ds ++ more.takeWhile isDigit, more.dropWhile isDigit) := by
  have hall : ∀ c ∈ ds, isDigit c = true := hds
  rw [splitDigits_eq, List.takeWhile_append_of_pos hall, List.dropWhile_append_of_pos hall]

theorem span_of_stops {more : List Char} (h : ∀ c ∈ more.head?, c.isDigit = false) :
    more.takeWhile isDigit = [] ∧ more.dropWhile isDigit = more :=
  @span_append isDigit [] more nofun h

theorem splitFraction_of_stops (h : StopsDigits more) : splitFraction more = ([], more) := by
  unfold splitFraction
  split
  next cs => exact absurd rfl (h '.' rfl).2
  · rfl

theorem splitSign_append {s : List Char} (hs : IsSign s negative) {c : Char} (hc : c ≠ '-' ∧ c ≠ '+')
    (cs : List Char) : splitSign (s ++ c :: cs) = (negative, c :: cs) := by
  cases hs with
  | none => simp [splitSign, hc]
  | plus => rfl
  | minus => rfl

/-- All of a mantissa is scanned, and what follows it is left if it cannot go on. -/
theorem IsMantissa.split_append {ms : List Char} (h : IsMantissa ms v) (more : List Char) :
    ∃ ws a fs b, splitDigits (ms ++ more) = (ws, a) ∧ splitFraction a = (fs, b) ∧ IsDigits ws ∧ IsDigits fs ∧
      ¬ (ws = [] ∧ fs = []) ∧ b <:+ more ∧
      (StopsDigits more → b = more ∧ natural ws + natural fs / 10 ^ fs.length = v) := by
  obtain ⟨ws, fs, hws, hfs, hne, rfl, rfl | ⟨rfl, rfl⟩⟩ := h.split
  · have hpoint : splitDigits (ws ++ '.' :: (fs ++ more)) = (ws, '.' :: (fs ++ more)) := by
      obtain ⟨htake, hdrop⟩ := @span_of_stops ('.' :: (fs ++ more)) (by simp)
      rw [splitDigits_digits hws, htake, hdrop, List.append_nil]
    refine ⟨ws, '.' :: (fs ++ more), fs ++ more.takeWhile isDigit, more.dropWhile isDigit, ?_,
      splitDigits_digits hfs more, hws, hfs.append (List.all_eq_true.mp List.all_takeWhile), ?_,
      List.dropWhile_suffix _, fun hstop => ?_⟩
    · rw [List.append_assoc]
      exact hpoint
    · exact fun hnil => hne ⟨hnil.1, (List.append_eq_nil_iff.mp hnil.2).1⟩
    · obtain ⟨htake, hdrop⟩ := span_of_stops fun c hc => (hstop c hc).1
      rw [htake, hdrop, List.append_nil]
      exact ⟨rfl, rfl⟩
  · obtain ⟨fs, b, hfraction, hfs, ha⟩ := exists_splitFraction (more.dropWhile isDigit)
    have hsuffix : b <:+ more.dropWhile isDigit := by
      rcases ha with ha | ⟨-, ha⟩
      · exact ⟨'.' :: fs, ha.symm⟩
      · exact ha ▸ List.suffix_rfl
    refine ⟨_, _, fs, b, splitDigits_digits hws more, hfraction,
      hws.append (List.all_eq_true.mp List.all_takeWhile), hfs, ?_,
      hsuffix.trans (List.dropWhile_suffix _), fun hstop => ?_⟩
    · exact fun hnil => hne ⟨(List.append_eq_nil_iff.mp hnil.1).1, rfl⟩
    · obtain ⟨htake, hdrop⟩ := span_of_stops fun c hc => (hstop c hc).1
      rw [hdrop, splitFraction_of_stops hstop] at hfraction
      obtain ⟨rfl, rfl⟩ := Prod.mk.inj hfraction
      rw [htake, List.append_nil]
      exact ⟨rfl, rfl⟩

def Stops (cs : List Char) : Prop := ∀ c ∈ cs.head?, isDecimalChar c = false

theorem splitExponent_of_stops (h : Stops more) : splitExponent more = (0, more) := by
  cases more with
  | nil => rfl
  | cons c more =>
    have hc := h c rfl
    have hmark : ¬ (c = 'e' ∨ c = 'E') := by
      rintro (rfl | rfl)
      · cases hc
      · cases hc
    rw [splitExponent, if_neg hmark]

theorem Stops.digits (h : Stops more) : StopsDigits more := by
  intro c hc
  have hchar := h c hc
  constructor
  · exact (Bool.or_eq_false_iff.mp hchar).1
  · rintro rfl
    cases hchar

/-- All of an exponent is scanned, and what follows it is left if it cannot go on. -/
theorem IsPower.splitExponent_append {xs : List Char} {k : ℤ} (h : IsPower xs k) (more : List Char) :
    ∃ k' rest, splitExponent (xs ++ more) = (k', rest) ∧ rest <:+ more ∧
      (Stops more → rest = more ∧ k' = k) := by
  cases h with
  | none =>
    obtain ⟨ys, k', rest, hsplit, hmore, -⟩ := exists_splitExponent more
    refine ⟨k', rest, hsplit, ⟨ys, hmore.symm⟩, fun hstop => ?_⟩
    rw [splitExponent_of_stops hstop] at hsplit
    obtain ⟨rfl, rfl⟩ := Prod.mk.inj hsplit
    exact ⟨rfl, rfl⟩
  | @marked mark sign ds negative hmark hsign hds hne =>
    cases ds with
    | nil => exact absurd rfl hne
    | cons d ds =>
      have hd := hds d (.head _)
      have hd' : d ≠ '-' ∧ d ≠ '+' := ⟨ne_of_isDigit hd rfl, ne_of_isDigit hd rfl⟩
      have hdigits := splitDigits_digits hds more
      have hvalue : Radix.value 10 (d :: ds ++ more.takeWhile isDigit) =
          natural (d :: ds ++ more.takeWhile isDigit) :=
        Radix.value_ten (hds.append (List.all_eq_true.mp List.all_takeWhile))
      have hsplit : splitExponent (mark :: (sign ++ d :: ds) ++ more) =
          (if negative then -(natural (d :: ds ++ more.takeWhile isDigit) : ℤ)
            else natural (d :: ds ++ more.takeWhile isDigit), more.dropWhile isDigit) := by
        rw [List.cons_append, List.append_assoc, splitExponent, if_pos hmark, List.cons_append,
          splitSign_append hsign hd', ← List.cons_append]
        dsimp only
        rw [hdigits, ← hvalue]
        rfl
      refine ⟨_, _, hsplit, List.dropWhile_suffix _, fun hstop => ?_⟩
      obtain ⟨htake, hdrop⟩ := span_of_stops fun c hc => (hstop.digits c hc).1
      rw [htake, hdrop, List.append_nil]
      exact ⟨rfl, rfl⟩

theorem IsMantissa.cons {ms : List Char} {v : ℚ} (h : IsMantissa ms v) :
    ∃ c cs, ms = c :: cs ∧ (c.isDigit = true ∨ c = '.') := by
  cases h with
  | whole hds hne =>
    cases ms with
    | nil => exact absurd rfl hne
    | cons d ds => exact ⟨d, ds, rfl, .inl (hds d (.head _))⟩
  | @pointed ds fs hds hne =>
    cases ds with
    | nil => exact absurd rfl hne
    | cons d ds => exact ⟨d, _, rfl, .inl (hds d (.head _))⟩
  | fraction => exact ⟨'.', _, rfl, .inr rfl⟩

/-- A literal is taken at least, and where nothing that follows can be part of one, it is read. -/
theorem Writes.scan_append (h : Writes t negative v) (more : List Char) :
    ∃ n rest, scan (t ++ more) = some (n, rest) ∧ rest <:+ more ∧
      (Stops more → rest = more ∧ n.negative = negative ∧ (n.coefficient * 10 ^ n.exponent : ℚ) = v) := by
  obtain @⟨sign, ms, xs, negative, v, k, hs, hm, hx⟩ := h
  have hsign : splitSign (sign ++ (ms ++ xs) ++ more) = (negative, ms ++ (xs ++ more)) := by
    obtain ⟨c, cs, rfl, hc⟩ := hm.cons
    have hc' : c ≠ '-' ∧ c ≠ '+' := by
      rcases hc with hc | rfl
      · exact ⟨ne_of_isDigit hc rfl, ne_of_isDigit hc rfl⟩
      · decide
    simpa using splitSign_append hs hc' (cs ++ (xs ++ more))
  obtain ⟨ws, a, fs, b, hwhole, hfraction, hws, hfs, hne, hb, hstops⟩ := hm.split_append (xs ++ more)
  have hscan {k' : ℤ} {rest : List Char} (hpower : splitExponent b = (k', rest)) :
      scan (sign ++ (ms ++ xs) ++ more) = some (⟨negative, natural (ws ++ fs), k' - fs.length⟩, rest) := by
    rw [scan_eq hsign hwhole hfraction hpower, if_neg hne, Radix.value_ten (hws.append hfs)]
    rfl
  by_cases hnil : xs = []
  · subst hnil
    obtain ⟨ys, k', rest, hpower, hrest, -⟩ := exists_splitExponent b
    refine ⟨_, rest, hscan hpower, ?_, fun hstop => ?_⟩
    · exact (List.suffix_append ys rest).trans (hrest ▸ hb)
    · obtain ⟨hmore, rfl⟩ := hstops hstop.digits
      obtain ⟨k'', rest', hpower', -, hvalue⟩ := hx.splitExponent_append more
      rw [← hmore] at hpower'
      obtain ⟨rfl, rfl⟩ := Prod.mk.inj (hpower.symm.trans hpower')
      obtain ⟨rfl, rfl⟩ := hvalue hstop
      exact ⟨rfl, rfl, natural_mul_zpow ws fs _⟩
  · have hstop : StopsDigits (xs ++ more) := by
      cases hx with
      | none => exact absurd rfl hnil
      | marked hmark =>
        rintro c hc
        obtain rfl := Option.some.inj hc
        rcases hmark with rfl | rfl <;> decide
    obtain ⟨rfl, rfl⟩ := hstops hstop
    obtain ⟨k', rest, hpower, hsuffix, hvalue⟩ := hx.splitExponent_append more
    refine ⟨_, rest, hscan hpower, hsuffix, fun hstop => ?_⟩
    obtain ⟨rfl, rfl⟩ := hvalue hstop
    exact ⟨rfl, rfl, natural_mul_zpow ws fs _⟩

theorem Writes.ne_nil (h : Writes t negative v) : t ≠ [] := by
  obtain ⟨hs, hm, hx⟩ := h
  obtain ⟨c, cs, rfl, -⟩ := hm.cons
  simp

theorem isSome_scan_iff (cs : List Char) :
    (scan cs).isSome = true ↔ ∃ t negative v, t ≠ [] ∧ t <+: cs ∧ Writes t negative v := by
  constructor
  · intro h
    obtain ⟨⟨n, rest⟩, hscan⟩ := Option.isSome_iff_exists.mp h
    obtain ⟨taken, hcs, hwrites⟩ := writes_of_scan hscan
    exact ⟨taken, _, _, hwrites.ne_nil, ⟨rest, hcs.symm⟩, hwrites⟩
  · rintro ⟨t, negative, v, -, ⟨more, rfl⟩, hwrites⟩
    obtain ⟨n, rest, hscan, -, -⟩ := hwrites.scan_append more
    rw [hscan]
    rfl

theorem length_le_of_scan {taken : List Char} (hscan : scan (taken ++ rest) = some (n, rest))
    (ht : t <+: taken ++ rest) (h : Writes t negative v) : t.length ≤ taken.length := by
  obtain ⟨more, hmore⟩ := ht
  obtain ⟨n', rest', hscan', hsuffix, -⟩ := h.scan_append more
  rw [hmore, hscan] at hscan'
  obtain ⟨rfl, rfl⟩ := Prod.mk.inj (Option.some.inj hscan')
  have hlength := congrArg List.length hmore
  have hle := hsuffix.length_le
  simp only [List.length_append] at hlength
  omega

theorem toFloat_congr {n' : Numeral} (hsign : n.negative = n'.negative)
    (hvalue : (n.coefficient * 10 ^ n.exponent : ℚ) = n'.coefficient * 10 ^ n'.exponent) :
    n.toFloat = n'.toFloat := by
  unfold toFloat
  rw [hsign, magnitude_congr hvalue]

end Numeral

/-! ### Numbers in text -/

theorem Text.trimStart_eq (cs : List Char) :
    ∃ bs, trimStart cs = trim cs ++ bs ∧ ∀ c ∈ bs, isBlank c = true := by
  refine ⟨((trimStart cs).reverse.takeWhile isBlank).reverse, ?_, fun c hc => ?_⟩
  · rw [trim, trimEnd, ← List.reverse_append, List.takeWhile_append_dropWhile, List.reverse_reverse]
  · exact List.all_eq_true.mp List.all_takeWhile c (List.mem_reverse.mp hc)

namespace Number

variable {negative : Bool} {t : List Char}

theorem stops_of_isBlank {bs : List Char} (h : ∀ c ∈ bs, Text.isBlank c = true) : Numeral.Stops bs := by
  intro c hc
  have hblank := h c (List.mem_of_head? hc)
  by_contra hchar
  rw [Numeral.isBlank_decimalChar (Bool.of_not_eq_false hchar)] at hblank
  cases hblank

theorem not_isPrefixOf_of_writes {v : ℚ} (h : Numeral.Writes t negative v) (bs : List Char) :
    "Infinity".toList.isPrefixOf (t ++ bs) = false ∧ "+Infinity".toList.isPrefixOf (t ++ bs) = false ∧
      "-Infinity".toList.isPrefixOf (t ++ bs) = false := by
  obtain ⟨hs, hm, hx⟩ := h
  obtain ⟨c, cs, rfl, hc⟩ := hm.cons
  have hne : 'I' ≠ c ∧ '+' ≠ c ∧ '-' ≠ c := by
    rcases hc with hc | rfl
    · exact ⟨(ne_of_isDigit hc rfl).symm, (ne_of_isDigit hc rfl).symm, (ne_of_isDigit hc rfl).symm⟩
    · decide
  have hword : "Infinity".toList = 'I' :: "nfinity".toList := rfl
  have hplus : "+Infinity".toList = '+' :: 'I' :: "nfinity".toList := rfl
  have hminus : "-Infinity".toList = '-' :: 'I' :: "nfinity".toList := rfl
  rw [hword, hplus, hminus]
  cases hs <;> simp [List.isPrefixOf, hne]

theorem radixOf?_eq_none {mark : Char} (h : mark ∉ ['x', 'X', 'o', 'O', 'b', 'B']) : radixOf? mark = none := by
  simp only [List.mem_cons, List.not_mem_nil, or_false, not_or] at h
  simp [radixOf?, h]

theorem radixOf?_decimalChar {c : Char} (h : Numeral.isDecimalChar c = true) : radixOf? c = none := by
  refine radixOf?_eq_none fun hmark => ?_
  have hall : ['x', 'X', 'o', 'O', 'b', 'B'].all (fun c => !Numeral.isDecimalChar c) = true := by decide
  have hc := List.all_eq_true.mp hall c hmark
  rw [h] at hc
  cases hc

theorem radixLiteral?_of_unmarked (h : ∀ mark ds, t = '0' :: mark :: ds → radixOf? mark = none) :
    radixLiteral? t = none := by
  unfold radixLiteral?
  split
  next mark d ds => rw [h mark (d :: ds) rfl, Option.map_none]
  · rfl

theorem radixLiteral?_of_writes {v : ℚ} (h : Numeral.Writes t negative v) : radixLiteral? t = none := by
  refine radixLiteral?_of_unmarked ?_
  rintro mark ds rfl
  exact radixOf?_decimalChar (h.chars mark (.tail _ (.head _)))

/-- A literal is read as the number that it writes. -/
theorem ofText_of_writes {c : ℕ} {e : ℤ} (h : Numeral.Writes t negative (c * 10 ^ e)) :
    ofText t = signed negative (Numeral.magnitude c e) := by
  have htrim : Text.trim t = t := Text.trim_of_not_isBlank fun c hc => Numeral.isBlank_decimalChar (h.chars c hc)
  have hword {w : List Char} (hw : ∃ c ∈ w, Numeral.isDecimalChar c = false) : t ≠ w := by
    rintro rfl
    obtain ⟨c, hc, hchar⟩ := hw
    rw [h.chars c hc] at hchar
    cases hchar
  have hinfinite : ¬ (t = "Infinity".toList ∨ t = "+Infinity".toList) :=
    not_or.mpr ⟨hword ⟨'I', by decide, rfl⟩, hword ⟨'I', by decide, rfl⟩⟩
  have hminus : t ≠ "-Infinity".toList := hword ⟨'I', by decide, rfl⟩
  obtain ⟨n, rest, hscan, -, hstops⟩ := h.scan_append []
  obtain ⟨rfl, rfl, hvalue⟩ := hstops nofun
  rw [List.append_nil] at hscan
  unfold ofText
  rw [htrim, if_neg h.ne_nil, if_neg hinfinite, if_neg hminus, radixLiteral?_of_writes h]
  dsimp only
  rw [ofDecimalText, hscan]
  exact congrArg (signed n.negative) (Numeral.magnitude_congr hvalue)

theorem exists_scan_of_ofDecimalText (h : (ofDecimalText t).isNaN = false) :
    ∃ n, Numeral.scan t = some (n, []) ∧ ofDecimalText t = n.toFloat := by
  unfold ofDecimalText at h ⊢
  split
  next n hscan => exact ⟨n, hscan, rfl⟩
  next hnone =>
    split at h
    next n hscan => exact absurd hscan (hnone n)
    · exact absurd h (by decide +kernel)

/-- A text that is a number with blanks around it is read as the number from its start, too. -/
theorem leadingDecimal_eq_ofText {cs : List Char} (hne : Text.trim cs ≠ [])
    (hradix : ∀ mark ds, Text.trim cs = '0' :: mark :: ds → radixOf? mark = none)
    (hnumber : (ofText cs).isNaN = false) : leadingDecimal cs = ofText cs := by
  obtain ⟨bs, hbs, hblank⟩ := Text.trimStart_eq cs
  unfold leadingDecimal
  rw [hbs]
  unfold ofText at hnumber ⊢
  dsimp only at hnumber ⊢
  generalize Text.trim cs = t at *
  rw [if_neg hne] at hnumber ⊢
  by_cases hinfinite : t = "Infinity".toList ∨ t = "+Infinity".toList
  · have hstart : "Infinity".toList.isPrefixOf (t ++ bs) = true ∨ "+Infinity".toList.isPrefixOf (t ++ bs) = true :=
      hinfinite.imp (fun h => List.isPrefixOf_iff_prefix.mpr ⟨bs, by rw [h]⟩)
        fun h => List.isPrefixOf_iff_prefix.mpr ⟨bs, by rw [h]⟩
    rw [if_pos hinfinite, if_pos hstart]
  rw [if_neg hinfinite] at hnumber ⊢
  by_cases hminus : t = "-Infinity".toList
  · have hword : "Infinity".toList.isPrefixOf ("-Infinity".toList ++ bs) = false := rfl
    have hplus : "+Infinity".toList.isPrefixOf ("-Infinity".toList ++ bs) = false := rfl
    have hstart : "-Infinity".toList.isPrefixOf ("-Infinity".toList ++ bs) = true := rfl
    rw [if_pos hminus, hminus, hword, hplus, hstart, if_neg (by simp), if_pos rfl]
  rw [if_neg hminus, radixLiteral?_of_unmarked hradix] at hnumber ⊢
  obtain ⟨n, hscan, hvalue⟩ := exists_scan_of_ofDecimalText hnumber
  obtain ⟨taken, htaken, hwrites⟩ := Numeral.writes_of_scan hscan
  rw [List.append_nil] at htaken
  subst htaken
  obtain ⟨hword, hplus, hminus'⟩ := not_isPrefixOf_of_writes hwrites bs
  obtain ⟨n', rest, hscan', -, hstop⟩ := hwrites.scan_append bs
  obtain ⟨rfl, hsign, hsame⟩ := hstop (stops_of_isBlank hblank)
  rw [hword, hplus, hminus', if_neg (by simp), if_neg Bool.false_ne_true, hscan', hvalue]
  exact Numeral.toFloat_congr hsign hsame

end Number

/-- The scanner takes the longest literal at the start of a text and returns the number that it writes,
rounded once and then given the sign. So a text that is a decimal as a whole is the same number whether all
of it or its start is read. -/
theorem longest_decimal_literal (cs : List Char) :
    ((Numeral.scan cs).isSome = true ↔ ∃ t negative v, t ≠ [] ∧ t <+: cs ∧ Numeral.Writes t negative v) ∧
    (∀ n rest, Numeral.scan cs = some (n, rest) → ∃ taken v x, cs = taken ++ rest ∧
      Numeral.Writes taken n.negative v ∧
      (∀ t negative w, t <+: cs → Numeral.Writes t negative w → t.length ≤ taken.length) ∧
      NearestDouble v x ∧ n.toFloat = Number.signed n.negative x) ∧
    (Text.trim cs ≠ [] →
      (∀ mark ds, Text.trim cs = '0' :: mark :: ds → mark ∉ ['x', 'X', 'o', 'O', 'b', 'B']) →
      (Number.ofText cs).isNaN = false → Number.leadingDecimal cs = Number.ofText cs) := by
  refine ⟨Numeral.isSome_scan_iff cs, fun n rest hscan => ?_, fun hne hmark hnumber => ?_⟩
  · obtain ⟨taken, rfl, hwrites⟩ := Numeral.writes_of_scan hscan
    refine ⟨taken, _, _, rfl, hwrites, fun t negative w ht h => ?_,
      Numeral.nearestDouble_magnitude n.coefficient n.exponent, rfl⟩
    exact Numeral.length_le_of_scan hscan ht h
  · exact Number.leadingDecimal_eq_ofText hne
      (fun mark ds htrim => Number.radixOf?_eq_none (hmark mark ds htrim)) hnumber

/-- A fraction with a sign and a power of ten, and a blank after it. -/
theorem longest_decimal_literal_fraction :
    (∃ taken v x, "-.5e3 ".toList = taken ++ [' '] ∧ Numeral.Writes taken true v ∧
      (∀ t negative w, t <+: "-.5e3 ".toList → Numeral.Writes t negative w → t.length ≤ taken.length) ∧
      NearestDouble v x ∧ Numeral.toFloat ⟨true, 5, 2⟩ = Number.signed true x) ∧
    Number.leadingDecimal "-.5e3 ".toList = Number.ofText "-.5e3 ".toList := by
  obtain ⟨-, hliteral, hwhole⟩ := longest_decimal_literal "-.5e3 ".toList
  have htrim : Text.trim "-.5e3 ".toList = ['-', '.', '5', 'e', '3'] := by decide +kernel
  refine ⟨hliteral ⟨true, 5, 2⟩ [' '] (by decide +kernel), hwhole ?_ ?_ (by decide +kernel)⟩
  · rw [htrim]
    exact List.cons_ne_nil _ _
  · intro mark ds hcons
    rw [htrim] at hcons
    cases hcons

end Surmise
