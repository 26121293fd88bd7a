import Surmise.Proofs.Quotation.Spelling

/-! Lines continued in a string. Decoding takes a backslash and the line end after it as one escape, and a
line feed after a carriage return belongs to the line end; the scanner takes the backslash and one
character, whatever that is. So the two agree on all continuations but that of two characters. -/
namespace Surmise.Token

/-! ### How decoding takes a string apart -/

/-- The single characters and the whole escapes that decoding takes, one after the other. -/
def segmentsWithin : (fuel : Nat) → List Char → List (List Char)
  | _, [] => []
  | 0, _ :: _ => []
  | fuel + 1, '\\' :: cs =>
    match decodeEscape? cs with
    | none => []
    | some (_, rest) => ('\\' :: cs.take (cs.length - rest.length)) :: segmentsWithin fuel rest
  | fuel + 1, c :: cs => [c] :: segmentsWithin fuel cs

def segments (cs : List Char) : List (List Char) := segmentsWithin cs.length cs

def continuations : List (List Char) :=
  [['\\', '\n'], ['\\', '\r'], ['\\', '\r', '\n'], ['\\', '\u2028'], ['\\', '\u2029']]

/-! ### Escapes -/

section

variable {quote : Char} (hquote : IsQuote quote)
include hquote

variable {n : Nat} {cs rest : List Char}

theorem passes_digits {ds : List Char} (h : ds.all (Radix.isDigit 16) = true) : Passes quote ds :=
  passes_hexNumeral hquote (hexNumeral_iff.mpr ⟨List.all_eq_true.mp h, rfl⟩)

theorem takeHex?_passes {count : Nat} (h : takeHex? count cs = some (n, rest)) :
    ∃ es, cs = es ++ rest ∧ Passes quote es := by
  unfold takeHex? at h
  dsimp only at h
  split at h
  next hdigits =>
    cases h
    exact ⟨cs.take count, (List.take_append_drop count cs).symm, passes_digits hquote hdigits.2⟩
  · cases h

theorem takeBraced?_passes (h : takeBraced? cs = some (n, rest)) :
    ∃ es, cs = es ++ rest ∧ Passes quote es := by
  unfold takeBraced? at h
  split at h
  next d ds rest' hspan =>
    dsimp only at h
    split at h
    · cases h
      rw [List.span_eq_takeWhile_dropWhile, Prod.mk.injEq] at hspan
      have hcs : cs = (d :: ds) ++ '\x7d' :: rest := by
        rw [← hspan.1, ← hspan.2, List.takeWhile_append_dropWhile]
      have hdigits : (d :: ds).all (Radix.isDigit 16) = true := by
        rw [← hspan.1]
        exact List.all_takeWhile
      refine ⟨(d :: ds) ++ ['\x7d'], by simp [hcs], ?_⟩
      exact (passes_digits hquote hdigits).append (passes_brace hquote (.inr rfl))
    · cases h
  · cases h

theorem takeUnicode?_passes (h : takeUnicode? cs = some (n, rest)) :
    ∃ es, cs = es ++ rest ∧ Passes quote es := by
  unfold takeUnicode? at h
  split at h
  next cs =>
    obtain ⟨es, rfl, hes⟩ := takeBraced?_passes hquote h
    exact ⟨'\x7b' :: es, rfl, (passes_brace hquote (.inl rfl)).append hes⟩
  next => exact takeHex?_passes hquote h

theorem takeLowSurrogate?_passes (h : takeLowSurrogate? cs = some (n, rest)) :
    ∃ es, cs = es ++ rest ∧ Passes quote es := by
  unfold takeLowSurrogate? at h
  split at h
  next cs =>
    obtain ⟨es, rfl, hes⟩ := takeUnicode?_passes hquote (Option.filter_eq_some_iff.mp h).1
    exact ⟨'\\' :: 'u' :: es, rfl, (Passes.escaped 'u').append hes⟩
  · cases h

theorem decodeUnicode?_passes {c : Char} (h : decodeUnicode? cs = some (c, rest)) :
    ∃ es, cs = es ++ rest ∧ Passes quote es := by
  unfold decodeUnicode? at h
  split at h
  · cases h
  next unit after hunit =>
    obtain ⟨es, rfl, hes⟩ := takeUnicode?_passes hquote hunit
    split at h
    · split at h
      next low after' hlow =>
        simp only [Option.some.injEq, Prod.mk.injEq] at h
        obtain ⟨-, rfl⟩ := h
        obtain ⟨es', rfl, hes'⟩ := takeLowSurrogate?_passes hquote hlow
        exact ⟨es ++ es', by simp, hes.append hes'⟩
      · cases h
        exact ⟨es, rfl, hes⟩
    · split at h <;> cases h <;> exact ⟨es, rfl, hes⟩

/-- An escape that is decoded is passed over by the scanner, unless it is a line end of two characters. -/
theorem decodeEscape?_passes {out : List Char} (h : decodeEscape? cs = some (out, rest)) :
    ∃ es, cs = es ++ rest ∧ (es = ['\r', '\n'] ∨ Passes quote ('\\' :: es)) := by
  unfold decodeEscape? at h
  split at h
  · cases h
  next cs =>
    obtain ⟨⟨c, after⟩, hc, heq⟩ := Option.map_eq_some_iff.mp h
    cases heq
    obtain ⟨⟨n, after'⟩, hn, heq⟩ := Option.map_eq_some_iff.mp hc
    cases heq
    obtain ⟨es, rfl, hes⟩ := takeHex?_passes hquote hn
    exact ⟨'x' :: es, rfl, .inr ((Passes.escaped 'x').append hes)⟩
  next cs =>
    obtain ⟨⟨c, after⟩, hc, heq⟩ := Option.map_eq_some_iff.mp h
    cases heq
    obtain ⟨es, rfl, hes⟩ := decodeUnicode?_passes hquote hc
    exact ⟨'u' :: es, rfl, .inr ((Passes.escaped 'u').append hes)⟩
  · cases h
    exact ⟨['\r', '\n'], rfl, .inl rfl⟩
  next c cs _ _ _ =>
    have hone : rest = cs := by
      split at h
      · cases h
        rfl
      split at h
      · cases h
        rfl
      split at h
      · cases h
        rfl
      split at h
      · cases h
      · cases h
        rfl
    exact ⟨[c], by rw [hone]; rfl, .inr (Passes.escaped c)⟩

/-- What decoding takes is all of the string; it is a character, or the scanner passes over it too, or it is
a line end of two characters. -/
theorem segmentsWithin_decoded {fuel : Nat} {body out : List Char}
    (h : decodeString? fuel body = some out) :
    (segmentsWithin fuel body).flatten = body ∧ ∀ g ∈ segmentsWithin fuel body,
      (∃ c, c ≠ '\\' ∧ g = [c]) ∨ g = ['\\', '\r', '\n'] ∨ Passes quote g := by
  induction fuel generalizing body out with
  | zero =>
    cases body with
    | nil => exact ⟨rfl, List.forall_mem_nil _⟩
    | cons c cs => cases h
  | succ fuel ih =>
    cases body with
    | nil => exact ⟨rfl, List.forall_mem_nil _⟩
    | cons c cs =>
      by_cases hc : c = '\\'
      · subst hc
        cases hescape : decodeEscape? cs with
        | none => simp [decodeString?, hescape] at h
        | some e =>
          obtain ⟨value, rest⟩ := e
          obtain ⟨es, rfl, hes⟩ := decodeEscape?_passes hquote hescape
          obtain ⟨out', hout', -⟩ : ∃ out', decodeString? fuel rest = some out' ∧ value ++ out' = out := by
            simpa [decodeString?, hescape] using h
          obtain ⟨hflatten, hall⟩ := ih hout'
          have hsegments : segmentsWithin (fuel + 1) ('\\' :: (es ++ rest)) =
              ('\\' :: es) :: segmentsWithin fuel rest := by
            simp [segmentsWithin, hescape]
          rw [hsegments, List.flatten_cons, hflatten, List.forall_mem_cons]
          exact ⟨rfl, .inr (hes.imp_left (congrArg ('\\' :: ·))), hall⟩
      · obtain ⟨out', hout', -⟩ : ∃ out', decodeString? fuel cs = some out' ∧ c :: out' = out := by
          simpa [decodeString?, hc] using h
        obtain ⟨hflatten, hall⟩ := ih hout'
        have hsegments : segmentsWithin (fuel + 1) (c :: cs) = [c] :: segmentsWithin fuel cs := by
          simp [segmentsWithin]
        rw [hsegments, List.flatten_cons, hflatten, List.forall_mem_cons]
        exact ⟨rfl, .inl ⟨c, hc, rfl⟩, hall⟩

/-! ### Where the token ends -/

theorem spanString?_flatten {gs : List (List Char)}
    (h : ∀ g ∈ gs, g = ['\\', '\r', '\n'] ∨ Passes quote g) :
    spanString? quote (gs.flatten ++ [quote]) =
      if ['\\', '\r', '\n'] ∈ gs then none else some (gs.flatten ++ [quote], []) := by
  induction gs with
  | nil => obtain rfl | rfl := hquote <;> rfl
  | cons g gs ih =>
    rw [List.forall_mem_cons] at h
    rw [List.flatten_cons, List.append_assoc]
    by_cases hg : g = ['\\', '\r', '\n']
    · subst hg
      simp [spanString?, Text.isLineEnd]
    · rw [h.1.resolve_left hg, ih h.2]
      by_cases hmem : ['\\', '\r', '\n'] ∈ gs
      · simp [hmem]
      · simp [hmem, Ne.symm hg]

end

theorem tokenize_unterminated [Platform] {quote : Char} (hquote : IsQuote quote) {tail : List Char}
    (h : spanString? quote tail = none) :
    tokenize (.ofList (quote :: tail)) = .error ⟨.unterminatedString, .start⟩ := by
  have hscan : scan (.ofList (quote :: tail)) = ([], some ⟨.unterminatedString, .start⟩) := by
    unfold scan
    rw [String.toList_ofList, List.length_cons, scanFrom, next_quoted hquote, h]
    rfl
  rw [tokenize, hscan]

/-- Let a text between quotes have a value, let no quote in it stand for itself, and let each line end in it
be part of a continuation. Then the text is one token exactly if no line is continued by a carriage return
and a line feed together. -/
theorem continued_strings_scan [Platform] {quote : Char} (hquote : IsQuote quote) {body : List Char}
    {value : String} (hvalue : stringValue? (.ofList (quote :: (body ++ [quote]))) = some value)
    (hclosed : [quote] ∉ segments body)
    (hline : ∀ g ∈ segments body, (∃ c ∈ g, Text.EndsLine c) → g ∈ continuations) :
    (segments body).flatten = body ∧
      (tokenize (.ofList (quote :: (body ++ [quote]))) = .ok (alone (quote :: (body ++ [quote]))) ↔
        ['\\', '\r', '\n'] ∉ segments body) := by
  obtain ⟨out, hout, -⟩ : ∃ out, decodeString? body.length body = some out ∧ .ofList out = value := by
    simpa [stringValue?] using hvalue
  obtain ⟨hflatten, hall⟩ := segmentsWithin_decoded hquote hout
  have hpasses : ∀ g ∈ segments body, g = ['\\', '\r', '\n'] ∨ Passes quote g := by
    intro g hg
    obtain ⟨c, hescape, rfl⟩ | hg' := hall g hg
    · refine .inr (.raw ?_ hescape fun hend => ?_)
      · rintro rfl
        exact hclosed hg
      · have hmem := hline [c] hg ⟨c, by simp, hend⟩
        simp [continuations] at hmem
    · exact hg'
  have hspan := spanString?_flatten hquote hpasses
  rw [show (segments body).flatten = body from hflatten] at hspan
  refine ⟨hflatten, fun htoken hmem => ?_, fun hmem => ?_⟩
  · rw [if_pos hmem] at hspan
    rw [tokenize_unterminated hquote hspan] at htoken
    cases htoken
  · rw [if_neg hmem] at hspan
    exact tokenize_alone hquote hspan

def separated : List Char := ['a', '\\', '\r', 'b', '\\', '\u2028', '\\', '\'']

theorem continued_strings_scan_separated :
    stringValue? (.ofList ('\'' :: (separated ++ ['\'']))) = some "ab'" ∧
      segments separated = [['a'], ['\\', '\r'], ['b'], ['\\', '\u2028'], ['\\', '\'']] ∧
      tokenize (.ofList ('\'' :: (separated ++ ['\'']))) =
        .ok (alone ('\'' :: (separated ++ ['\'']))) := by
  have hvalue : stringValue? (.ofList ('\'' :: (separated ++ ['\'']))) = some "ab'" := by decide +kernel
  have hsegments : segments separated =
      [['a'], ['\\', '\r'], ['b'], ['\\', '\u2028'], ['\\', '\'']] := by decide +kernel
  have hscan := continued_strings_scan (.inr rfl) hvalue (by rw [hsegments]; decide)
    (by rw [hsegments]; simp [continuations, Text.EndsLine])
  exact ⟨hvalue, hsegments, hscan.2.mpr (by rw [hsegments]; decide)⟩

/-- A line that is continued by a carriage return and a line feed has a value, but is no token. -/
theorem continued_string_unterminated :
    stringValue? "'a\\\r\nb'" = some "ab" ∧
      segments "a\\\r\nb".toList = [['a'], ['\\', '\r', '\n'], ['b']] ∧
      tokenize "'a\\\r\nb'" = .error ⟨.unterminatedString, .start⟩ := by
  decide +kernel

end Surmise.Token
