import Surmise.Proofs.Numerals.Tokens
import Surmise.Proofs.Quotation.Spelling

/-! Tokens written out anew. A token is read from its own text and from whatever cannot continue it, so a
source and its tokens with a single blank before each of them have the same tokens. -/
namespace Surmise

/-! ### Spaced out tokens -/

namespace Token

/-- A line feed before a token that stands on a new line, a space before any other. -/
def separator (t : Token) : Char := if t.newlineBefore then '\n' else ' '

def respaced (tokens : List Token) : List Char := tokens.flatMap fun t => t.separator :: t.text.toList

theorem respaced_cons (t : Token) (tokens : List Token) :
    respaced (t :: tokens) = t.separator :: (t.text.toList ++ respaced tokens) := rfl

def unplaced (t : Token) : Kind × String × Bool := (t.kind, t.text, t.newlineBefore)

def Apart (cs : List Char) : Prop := ∀ c ∈ cs.head?, c = ' ' ∨ c = '\n'

theorem separator_eq (t : Token) : t.separator = ' ' ∨ t.separator = '\n' := by
  unfold separator
  split
  · exact .inr rfl
  · exact .inl rfl

theorem isLineEnd_separator (t : Token) : Text.isLineEnd t.separator = t.newlineBefore := by
  unfold separator
  cases t.newlineBefore <;> rfl

theorem apart_respaced (tokens : List Token) : Apart (respaced tokens) := by
  cases tokens with
  | nil => exact fun _ h => by cases h
  | cons t ts =>
    intro c hc
    obtain rfl : t.separator = c := Option.some.inj hc
    exact t.separator_eq

section

variable {more : List Char} (hmore : Apart more)
include hmore

theorem Apart.head_eq_false {p : Char → Bool} (hspace : p ' ' = false) (hline : p '\n' = false) :
    ∀ c ∈ more.head?, p c = false := by
  intro c hc
  obtain rfl | rfl := hmore c hc
  · exact hspace
  · exact hline

theorem Apart.head_ne {c : Char} (hc : ¬ (c = ' ' ∨ c = '\n')) : more.head? ≠ some c :=
  fun h => hc (hmore c h)

theorem Apart.cases : more = [] ∨ (∃ cs, more = ' ' :: cs) ∨ ∃ cs, more = '\n' :: cs := by
  cases more with
  | nil => exact .inl rfl
  | cons c cs =>
    obtain rfl | rfl := hmore c rfl
    · exact .inr (.inl ⟨cs, rfl⟩)
    · exact .inr (.inr ⟨cs, rfl⟩)

end

/-! ### Names -/

variable {taken more : List Char}

theorem scanName_append [Platform] (htaken : ∀ c ∈ taken, Text.isIdentifierPart c = true)
    (hmore : Apart more) :
    scanName (taken ++ more) = (kindOfName (.ofList taken), taken, more) := by
  have hstop := hmore.head_eq_false (p := Text.isIdentifierPart) (Text.isIdentifierPart_ascii (by decide))
    (Text.isIdentifierPart_ascii (by decide))
  obtain ⟨htake, hdrop⟩ := span_append htaken hstop
  rw [scanName, htake, hdrop]

/-! ### Numbers -/

variable {xs cs text : List Char} {k : ℤ}

theorem spanDigits_append_of_not {radix : Nat} {ds : List Char} (hds : ∀ d ∈ ds, Radix.isDigit radix d = true)
    (hmore : ∀ c ∈ more.head?, Radix.isDigit radix c = false) :
    spanDigits radix (ds ++ more) = (ds, more) := by
  obtain ⟨htake, hdrop⟩ := span_append hds hmore
  rw [spanDigits, List.span_eq_takeWhile_dropWhile, htake, hdrop]

theorem spanDigits_ten_append {ds : List Char} (hds : ∀ d ∈ ds, d.isDigit = true)
    (hmore : ∀ c ∈ more.head?, c.isDigit = false) : spanDigits 10 (ds ++ more) = (ds, more) := by
  simp only [← Radix.isDigit_ten] at hds hmore
  exact spanDigits_append_of_not hds hmore

open Numeral

theorem spanSign_append_digits {sign : List Char} {negative : Bool} (hsign : IsSign sign negative) {d : Char}
    (hd : d.isDigit = true) (cs : List Char) : spanSign (sign ++ d :: cs) = (sign, d :: cs) := by
  have hplus : d ≠ '+' := ne_of_isDigit hd rfl
  have hminus : d ≠ '-' := ne_of_isDigit hd rfl
  cases hsign with
  | none => simp [spanSign, hplus, hminus]
  | plus => rfl
  | minus => rfl

theorem spanExponent?_append_of_apart (h : IsPower xs k) (hmore : Apart more) :
    spanExponent? (xs ++ more) = some (xs, more) := by
  cases h with
  | none => obtain rfl | ⟨cs, rfl⟩ | ⟨cs, rfl⟩ := hmore.cases <;> rfl
  | @marked mark sign ds negative hmark hsign hds hne =>
    cases ds with
    | nil => exact absurd rfl hne
    | cons d ds =>
      have hdigits := spanDigits_ten_append hds (hmore.head_eq_false (p := Char.isDigit) rfl rfl)
      have hsplit := spanSign_append_digits hsign (hds d (by simp)) (ds ++ more)
      rw [List.cons_append, spanExponent?, if_pos hmark, List.append_assoc, List.cons_append, hsplit]
      dsimp only
      rw [← List.cons_append, hdigits]
      rfl

theorem stopsDigits_append (h : IsPower xs k) (hmore : Apart more) : StopsDigits (xs ++ more) := by
  cases h with
  | none =>
    intro c hc
    obtain rfl | rfl := hmore c hc <;> decide
  | marked hmark => obtain rfl | rfl := hmark <;> simp [StopsDigits]

theorem spanFraction_of_stops (h : StopsDigits more) : spanFraction more = ([], more) := by
  unfold spanFraction
  split
  next cs => exact absurd rfl (h '.' rfl).2
  next => rfl

theorem spanDecimal?_append_of_apart {ms : List Char} {v : ℚ} (hm : IsMantissa ms v) (hx : IsPower xs k)
    (hmore : Apart more) : spanDecimal? (ms ++ xs ++ more) = some (ms ++ xs, more) := by
  have hstops := stopsDigits_append hx hmore
  obtain ⟨ws, fs, hws, hfs, -, -, rfl | ⟨rfl, rfl⟩⟩ := hm.split
  · have hwhole : spanDigits 10 (ws ++ '.' :: (fs ++ (xs ++ more))) = (ws, '.' :: (fs ++ (xs ++ more))) :=
      spanDigits_ten_append hws (by simp)
    have hfraction := spanDigits_ten_append hfs fun c hc => (hstops c hc).1
    simp only [List.append_assoc, List.cons_append]
    rw [spanDecimal?, hwhole]
    dsimp only
    rw [spanFraction, hfraction]
    dsimp only
    rw [spanExponent?_append_of_apart hx hmore]
    simp only [Option.map_some, List.append_assoc, List.cons_append]
  · have hwhole := spanDigits_ten_append hws fun c hc => (hstops c hc).1
    rw [List.append_assoc, spanDecimal?, hwhole]
    dsimp only
    rw [spanFraction_of_stops hstops]
    dsimp only
    rw [spanExponent?_append_of_apart hx hmore, Option.map_some, List.append_nil]

theorem spanNumber?_eq_spanDecimal? (h : ∀ c ∈ cs.tail.head?, Number.radixOf? c = none) :
    spanNumber? cs = spanDecimal? cs := by
  unfold spanNumber?
  split
  next mark cs => rw [h mark rfl]
  next => rfl

/-- A number is scanned to its end and no further. -/
theorem IsNumber.spanNumber? (h : IsNumber text) (hmore : Apart more) :
    spanNumber? (text ++ more) = some (text, more) := by
  cases h with
  | @marked mark d radix ds hmark hds =>
    have hstop : ∀ c ∈ more.head?, Radix.isDigit radix c = false :=
      hmore.head_eq_false (by simp [Radix.isDigit, Radix.digit?, Radix.digitValue])
        (by simp [Radix.isDigit, Radix.digit?, Radix.digitValue])
    have hdigits := spanDigits_append_of_not hds hstop
    rw [List.cons_append, List.cons_append, Token.spanNumber?, hmark]
    dsimp only
    rw [spanRadix?, hdigits]
  | @decimal ms xs v k hm hx =>
    have hchars := (Writes.intro .none hm hx).chars
    obtain ⟨c, cs, rfl, -⟩ := hm.cons
    rw [spanNumber?_eq_spanDecimal?, spanDecimal?_append_of_apart hm hx hmore]
    -- the second character belongs to the decimal, or it is the separator after a single digit
    intro mark hmark
    rw [List.cons_append, List.cons_append, List.tail_cons] at hmark
    cases hrest : cs ++ xs with
    | nil =>
      rw [hrest] at hmark
      obtain rfl | rfl := hmore mark hmark <;> decide
    | cons d ds =>
      rw [hrest] at hmark
      obtain rfl : d = mark := Option.some.inj hmark
      exact Number.radixOf?_decimalChar (hchars d (by simp [hrest]))

theorem IsNumber.scanNumber? [Platform] (h : IsNumber text) (hmore : Apart more) :
    scanNumber? (text ++ more) = some (text, more) := by
  have hends : endsNumber more = true := by
    obtain rfl | ⟨cs, rfl⟩ | ⟨cs, rfl⟩ := hmore.cases
    · rfl
    · rw [endsNumber, Text.isIdentifierStart_ascii (by decide)]
      rfl
    · rw [endsNumber, Text.isIdentifierStart_ascii (by decide)]
      rfl
  rw [Token.scanNumber?, h.spanNumber? hmore, Option.filter_some, if_pos hends]

theorem IsNumber.startsNumber_append (h : IsNumber text) (more : List Char) :
    startsNumber (text ++ more) = true := by
  cases h with
  | marked => rfl
  | @decimal ms xs v k hm hx =>
    obtain ⟨ws, fs, hws, hfs, hne, -, hms⟩ := hm.split
    cases ws with
    | cons d ds =>
      have hd : isDigit d = true := hws d (by simp)
      have hpoint : d ≠ '.' := ne_of_isDigit hd rfl
      obtain rfl | ⟨-, rfl⟩ := hms <;> simp [startsNumber, hpoint, hd]
    | nil =>
      obtain rfl | ⟨rfl, -⟩ := hms
      · cases fs with
        | nil => simp at hne
        | cons d ds => exact hfs d (by simp)
      · simp at hne

/-! ### Strings -/

theorem spanString?_append_of_some {quote : Char} (hquote : quote ≠ '\\') {s : Split}
    (h : spanString? quote cs = some s) (more : List Char) :
    spanString? quote (s.1 ++ more) = some (s.1, more) := by
  fun_induction spanString? quote cs generalizing s with
  | case1 => cases h
  | case2 c cs ih =>
    obtain ⟨t, ht, rfl⟩ := Option.map_eq_some_iff.mp h
    rw [List.cons_append, List.cons_append, spanString?, ih ht]
    rfl
  | case3 => cases h
  | case4 cs hopen hline =>
    cases h
    simp [spanString?, hquote, hline]
  | case5 c cs hopen hline hne ih =>
    obtain ⟨t, ht, rfl⟩ := Option.map_eq_some_iff.mp h
    have hescape : c ≠ '\\' := by
      rintro rfl
      cases cs with
      | nil => cases ht
      | cons d ds => exact hopen d ds rfl rfl
    have hpass := Passes.raw hne hescape (fun he => hline ((Text.isLineEnd_iff c).mpr he)) (t.1 ++ more)
    rw [ih ht] at hpass
    exact hpass

/-! ### Punctuators -/

theorem scanPunctuator?_append_of_apart (p : Punctuator) (hmore : Apart more) :
    scanPunctuator? (p.text.toList ++ more) = some (p, more) := by
  obtain rfl | ⟨cs, rfl⟩ | ⟨cs, rfl⟩ := hmore.cases <;> cases p <;> rfl

theorem startsNumber_punctuator_append (p : Punctuator) (hmore : Apart more) :
    startsNumber (p.text.toList ++ more) = false := by
  obtain rfl | ⟨cs, rfl⟩ | ⟨cs, rfl⟩ := hmore.cases <;> cases p <;> rfl

/-! ### Tokens -/

variable {c : Char} {rest : List Char} {kind : Kind}

theorem scanOne_number_append [Platform] (hname : Text.isIdentifierStart c = false) (h : IsNumber (c :: text))
    (hmore : Apart more) : scanOne (c :: text ++ more) = .ok (.number, c :: text, more) := by
  have hstart := h.startsNumber_append more
  have hscan := h.scanNumber? hmore
  rw [List.cons_append] at hstart hscan ⊢
  simp [scanOne, hname, hstart, hscan, orComplain]

theorem scanOne_punctuator_append [Platform] {p : Punctuator} (hname : Text.isIdentifierStart c = false)
    (hquote : ¬ (c = '"' ∨ c = '\'')) (htext : p.text.toList = c :: text) (hmore : Apart more) :
    scanOne (c :: text ++ more) = .ok (.punctuator p, c :: text, more) := by
  have hstart := startsNumber_punctuator_append p hmore
  have hscan := scanPunctuator?_append_of_apart p hmore
  rw [htext, List.cons_append] at hstart hscan
  rw [List.cons_append]
  simp [scanOne, hname, hstart, hquote, hscan, orComplain, htext]

/-- A token is read again from its text, with a separator or nothing after it. -/
theorem scanOne_append [Platform] (h : scanOne cs = .ok (kind, taken, rest)) (hmore : Apart more)
    (hlast : kind = .eof → more = []) : scanOne (taken ++ more) = .ok (kind, taken, more) := by
  obtain ⟨happend, hempty⟩ := scanOne_ok h
  unfold scanOne at h
  split at h
  next =>
    cases h
    rw [hlast rfl]
    rfl
  next c tail =>
    have hne : taken ≠ [] := (hempty.resolve_left fun he => by cases he.2).2
    obtain ⟨text, rfl, -⟩ := (List.append_eq_cons_iff.mp happend).resolve_left fun hnil => hne hnil.1
    split at h
    next hname =>
      have htaken : (c :: tail).takeWhile Text.isIdentifierPart = c :: text :=
        congrArg (fun s => s.2.1) (Except.ok.inj h)
      have hkind : kindOfName (.ofList ((c :: tail).takeWhile Text.isIdentifierPart)) = kind :=
        congrArg Prod.fst (Except.ok.inj h)
      have hparts : ∀ d ∈ c :: text, Text.isIdentifierPart d = true := by
        rw [← htaken]
        exact List.all_eq_true.mp List.all_takeWhile
      rw [htaken] at hkind
      have hscan := scanName_append hparts hmore
      rw [List.cons_append] at hscan ⊢
      rw [scanOne, if_pos hname, hscan, hkind]
    next hname =>
      have hname : Text.isIdentifierStart c = false := by simpa using hname
      split at h
      next hstart =>
        obtain ⟨s, hs, heq⟩ := Option.map_eq_some_iff.mp (orComplain_eq_ok h)
        cases heq
        have hnumber := isNumber_spanNumber? (Option.filter_eq_some_iff.mp hs).1 hstart
        exact scanOne_number_append hname hnumber hmore
      split at h
      next hquote =>
        obtain ⟨s, hs, heq⟩ := Option.map_eq_some_iff.mp (orComplain_eq_ok h)
        cases heq
        have hescape : c ≠ '\\' := by
          rintro rfl
          simp at hquote
        rw [List.cons_append, scanOne_quoted hquote, spanString?_append_of_some hescape hs]
        rfl
      next hquote =>
        obtain ⟨s, hs, heq⟩ := Option.map_eq_some_iff.mp (orComplain_eq_ok h)
        obtain ⟨hkind, htext⟩ := Prod.mk.inj heq
        obtain rfl := hkind
        exact scanOne_punctuator_append hname hquote (Prod.mk.inj htext).1 hmore

/-! ### Gaps -/

theorem split_plain (hline : ∀ ds, c = '/' → cs = '/' :: ds → False)
    (hblock : ∀ ds, c = '/' → cs = '*' :: ds → False) :
    Gap.split .plain (c :: cs) =
      if Text.isScriptBlank c then (Gap.split .plain cs).prepend [c] else .ends [] (c :: cs) := by
  rw [Gap.split]
  · exact hline
  · exact hblock

theorem split_of_ends {mode : Gap.Mode} {gap : List Char} (h : Gap.split mode cs = .ends gap rest) :
    Gap.split .plain rest = .ends [] rest := by
  fun_induction Gap.split mode cs generalizing gap with
  | case2 => cases h
  | case5 c cs hline hblock hblank =>
    cases h
    rw [split_plain hline hblock, if_neg hblank]
  | case10 => cases h
  | case11 mode hmode =>
    cases h
    rfl
  | _ =>
    rename_i ih
    obtain ⟨tail, htail, -⟩ := Gap.Result.prepend_eq_ends h
    exact ih htail

theorem split_cons (hblank : Text.isScriptBlank c = false)
    (hcomment : c = '/' → cs.head? ≠ some '/' ∧ cs.head? ≠ some '*') :
    Gap.split .plain (c :: cs) = .ends [] (c :: cs) := by
  rw [split_plain, if_neg (by simp [hblank])]
  · rintro ds rfl rfl
    exact (hcomment rfl).1 rfl
  · rintro ds rfl rfl
    exact (hcomment rfl).2 rfl

theorem split_blank (hblank : Text.isScriptBlank c = true) (cs : List Char) :
    Gap.split .plain (c :: cs) = (Gap.split .plain cs).prepend [c] := by
  have hslash : c ≠ '/' := by
    rintro rfl
    cases hblank
  rw [split_plain (fun _ hc _ => hslash hc) fun _ hc _ => hslash hc, if_pos hblank]

theorem not_blank_of_ends (h : Gap.split .plain (c :: cs) = .ends [] (c :: cs)) :
    Text.isScriptBlank c = false := by
  by_contra hblank
  rw [split_blank (by simpa using hblank)] at h
  obtain ⟨tail, -, hnil⟩ := Gap.Result.prepend_eq_ends h
  cases hnil

theorem scanOne_slash [Platform] {tail : List Char} (h : scanOne ('/' :: tail) = .ok (kind, taken, rest)) :
    taken = ['/'] ∨ taken = ['/', '='] := by
  have hname : Text.isIdentifierStart '/' = false := Text.isIdentifierStart_ascii (by decide)
  have hstart : startsNumber ('/' :: tail) = false := rfl
  rw [scanOne, hname, if_neg Bool.false_ne_true, hstart, if_neg Bool.false_ne_true, if_neg (by decide)] at h
  obtain ⟨⟨p, rest⟩, hs, heq⟩ := Option.map_eq_some_iff.mp (orComplain_eq_ok h)
  cases heq
  have happend := scanPunctuator?_append hs
  cases p <;> simp [Punctuator.text] at happend ⊢

theorem split_append [Platform] (hgap : Gap.split .plain cs = .ends [] cs)
    (h : scanOne cs = .ok (kind, taken, rest)) (hmore : Apart more) (hlast : kind = .eof → more = []) :
    Gap.split .plain (taken ++ more) = .ends [] (taken ++ more) := by
  obtain ⟨happend, hempty⟩ := scanOne_ok h
  cases taken with
  | nil =>
    obtain ⟨heof, -⟩ | ⟨-, hne⟩ := hempty
    · rw [hlast heof]
      rfl
    · exact absurd rfl hne
  | cons c text =>
    subst happend
    refine split_cons (not_blank_of_ends hgap) ?_
    rintro rfl
    obtain htext | htext := scanOne_slash h
    · cases htext
      exact ⟨hmore.head_ne (by decide), hmore.head_ne (by decide)⟩
    · cases htext
      simp

/-! ### Scanning -/

/-- With one separator in front of it the token is the same but for its place. -/
theorem next_respaced [Platform] {p stop : Location} {t : Token} (h : next p cs = .ok (t, stop, rest))
    (hmore : Apart more) (hlast : t.kind = .eof → more = []) (q : Location) :
    ∃ u stop', next q (t.separator :: (t.text.toList ++ more)) = .ok (u, stop', more) ∧
      u.unplaced = t.unplaced := by
  unfold next at h
  split at h
  · cases h
  · cases h
  next gap ahead hgap =>
    dsimp only at h
    split at h
    · cases h
    next kind taken rest htaken =>
      obtain ⟨ht, -⟩ := Prod.mk.inj (Except.ok.inj h)
      have htext : t.text.toList = taken := by
        rw [← ht, String.toList_ofList]
      have hkind : kind = t.kind := congrArg Token.kind ht
      rw [← hkind] at hlast
      have hblank : Text.isScriptBlank t.separator = true := by
        obtain hs | hs := t.separator_eq <;> rw [hs] <;> rfl
      have hsplit : Gap.split .plain (t.separator :: (taken ++ more)) = .ends [t.separator] (taken ++ more) := by
        rw [split_blank hblank, split_append (split_of_ends hgap) htaken hmore hlast]
        rfl
      refine ⟨⟨kind, .ofList taken, q.advance [t.separator], t.newlineBefore⟩,
        (q.advance [t.separator]).advance taken, ?_, ?_⟩
      · rw [next, htext, hsplit]
        dsimp only
        rw [scanOne_append htaken hmore hlast]
        dsimp only
        rw [List.any_cons, List.any_nil, Bool.or_false, isLineEnd_separator]
      · rw [unplaced, unplaced, ← htext, String.ofList_toList, hkind]

/-- Scanning tokens that have one separator each gives them back but for their places. -/
theorem scanFrom_respaced [Platform] {fuel : Nat} {p : Location} {tokens : List Token}
    (h : scanFrom fuel p cs = (tokens, none)) {steps : Nat} (hsteps : tokens.length ≤ steps) (q : Location) :
    ∃ us, scanFrom steps q (respaced tokens) = (us, none) ∧ us.map unplaced = tokens.map unplaced := by
  induction fuel generalizing p cs tokens steps q with
  | zero => cases h
  | succ fuel ih =>
    unfold scanFrom at h
    split at h
    · cases h
    next t stop rest hnext =>
      split at h
      next heof =>
        cases h
        rw [List.length_singleton] at hsteps
        obtain ⟨steps, rfl⟩ := Nat.exists_eq_add_of_le' hsteps
        obtain ⟨u, stop', hu, hview⟩ := next_respaced hnext (apart_respaced []) (fun _ => rfl) q
        have hkind : u.kind = .eof := (congrArg Prod.fst hview).trans heof
        refine ⟨[u], ?_, congrArg (· :: []) hview⟩
        rw [respaced_cons, scanFrom, hu]
        exact if_pos hkind
      next hne =>
        split at h
        next tail fault htail =>
          cases h
          rw [List.length_cons] at hsteps
          obtain ⟨steps, rfl⟩ : ∃ n, steps = n + 1 := ⟨steps - 1, by omega⟩
          obtain ⟨u, stop', hu, hview⟩ :=
            next_respaced hnext (apart_respaced tail) (fun heof => absurd heof hne) q
          have hkind : u.kind ≠ .eof := fun heof => hne ((congrArg Prod.fst hview).symm.trans heof)
          obtain ⟨us, hus, hviews⟩ := ih htail (Nat.le_of_succ_le_succ hsteps) stop'
          refine ⟨u :: us, ?_, congrArg₂ List.cons hview hviews⟩
          rw [respaced_cons, scanFrom, hu]
          dsimp only
          rw [if_neg hkind, hus]

theorem length_le_respaced (tokens : List Token) : tokens.length ≤ (respaced tokens).length := by
  induction tokens with
  | nil => exact Nat.le_refl 0
  | cons t ts ih =>
    rw [respaced_cons, List.length_cons, List.length_cons, List.length_append]
    omega

/-- Every source can be written with a single blank before each of its tokens: a line feed where there was a
line end, a space elsewhere. It has the same tokens, apart from where they are. -/
theorem tokenize_respaced [Platform] {source : String} {tokens : List Token}
    (h : tokenize source = .ok tokens) :
    ∃ us, tokenize (.ofList (respaced tokens)) = .ok us ∧ us.map unplaced = tokens.map unplaced := by
  unfold tokenize at h
  split at h
  next ts hscan =>
    cases h
    have hsteps := Nat.le_succ_of_le (length_le_respaced tokens)
    obtain ⟨us, hus, hviews⟩ := scanFrom_respaced hscan hsteps .start
    refine ⟨us, ?_, hviews⟩
    rw [tokenize, scan, String.toList_ofList, hus]
  next => cases h

/-- The tokens of `1..x/ //` and, on a new line, `/=.5===='` with a line end behind a backslash. -/
def dense : List Token :=
  [⟨.number, "1.", ⟨1, 1, 0⟩, false⟩, ⟨.punctuator .dot, ".", ⟨1, 3, 2⟩, false⟩,
    ⟨.identifier, "x", ⟨1, 4, 3⟩, false⟩, ⟨.punctuator .slash, "/", ⟨1, 5, 4⟩, false⟩,
    ⟨.punctuator .slashEquals, "/=", ⟨2, 1, 9⟩, true⟩, ⟨.number, ".5", ⟨2, 3, 11⟩, false⟩,
    ⟨.punctuator .equalsEqualsEquals, "===", ⟨2, 5, 13⟩, false⟩,
    ⟨.punctuator .equals, "=", ⟨2, 8, 16⟩, false⟩, ⟨.string, "'\\\n'", ⟨2, 9, 17⟩, false⟩,
    ⟨.eof, "", ⟨3, 2, 21⟩, false⟩]

theorem tokenize_respaced_dense :
    tokenize "1..x/ //\n/=.5===='\\\n'" = .ok dense ∧
      ∃ us, tokenize " 1. . x /\n/= .5 === = '\\\n' " = .ok us ∧ us.map unplaced = dense.map unplaced := by
  have h : tokenize "1..x/ //\n/=.5===='\\\n'" = .ok dense := by decide +kernel
  have htext : String.ofList (respaced dense) = " 1. . x /\n/= .5 === = '\\\n' " := by decide +kernel
  rw [← htext]
  exact ⟨h, tokenize_respaced h⟩

end Token
end Surmise
