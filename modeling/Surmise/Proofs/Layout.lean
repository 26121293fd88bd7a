import Mathlib.Data.List.TakeDrop
import Surmise.Token.Scan

/-! Tokens and the text they come from. The tokens of a source and the gaps before them are the whole
source, in order; a gap is blanks and complete comments; a location counts the text before it. -/
namespace Surmise

/-! ### Locations -/

/-- The place after a text, counted from the text as a whole. -/
def Location.after (cs : List Char) : Location where
  line := 1 + cs.count '\n'
  column := 1 + (cs.reverse.takeWhile (· ≠ '\n')).length
  offset := (String.ofList cs).utf8ByteSize

theorem Location.after_concat (cs : List Char) (c : Char) :
    Location.after (cs ++ [c]) = (Location.after cs).next c := by
  have hsize : (String.ofList (cs ++ [c])).utf8ByteSize =
      (String.ofList cs).utf8ByteSize + c.utf8Size := by
    rw [String.ofList_append, String.utf8ByteSize_append, String.ofList_cons, String.ofList_nil,
      String.append_empty, String.utf8ByteSize_singleton]
  unfold next
  split
  next hc =>
    subst hc
    simp only [after, hsize, List.count_append, List.reverse_append, Location.mk.injEq]
    exact ⟨rfl, rfl, trivial⟩
  next hc =>
    simp only [after, hsize, List.count_append, List.reverse_append, Location.mk.injEq]
    refine ⟨?_, ?_, trivial⟩
    · simp [hc]
    · simp [hc, Nat.add_assoc]

theorem Location.after_advance (before cs : List Char) :
    (Location.after before).advance cs = Location.after (before ++ cs) := by
  induction cs generalizing before with
  | nil => rw [List.append_nil]; rfl
  | cons c cs ih =>
    have hstep := ih (before ++ [c])
    rw [Location.after_concat, List.append_assoc] at hstep
    exact hstep

theorem Location.line_after_le (cs : List Char) : (Location.after cs).line ≤ cs.length + 1 := by
  have hcount : cs.count '\n' ≤ cs.length := List.count_le_length
  change 1 + cs.count '\n' ≤ _
  omega

theorem Location.column_after_le (cs : List Char) : (Location.after cs).column ≤ cs.length + 1 := by
  have htake := (List.takeWhile_sublist (· ≠ '\n') (l := cs.reverse)).length_le
  rw [List.length_reverse] at htake
  change 1 + (cs.reverse.takeWhile _).length ≤ _
  omega

/-- Line and column are numbers of 32 bits. -/
def Location.Small (p : Location) : Prop := p.line < UInt32.size ∧ p.column < UInt32.size

theorem Location.small_after {cs : List Char} (h : cs.length + 1 < UInt32.size) :
    (Location.after cs).Small :=
  ⟨Nat.lt_of_le_of_lt (line_after_le cs) h, Nat.lt_of_le_of_lt (column_after_le cs) h⟩

/-! ### Gaps -/

def Text.IsSpace (c : Char) : Prop :=
  (0x9 ≤ c.toNat ∧ c.toNat ≤ 0xD) ∨ (0x2000 ≤ c.toNat ∧ c.toNat ≤ 0x200A) ∨
    c.toNat ∈ [0x20, 0x85, 0xA0, 0x1680, 0x2028, 0x2029, 0x202F, 0x205F, 0x3000, 0xFEFF]

def Text.EndsLine (c : Char) : Prop := c.toNat ∈ [0xA, 0xD, 0x2028, 0x2029]

/-- What may stand before a text: blanks and complete comments. A line comment runs to a line end or,
if nothing follows, to the end of input; a block comment runs to the first closing mark. -/
inductive Gap.Precedes (following : List Char) : List Char → Prop
  | nothing : Precedes following []
  | blank {c : Char} {gap : List Char} (hc : Text.IsSpace c) (hgap : Precedes following gap) :
      Precedes following (c :: gap)
  | line {body : List Char} {c : Char} {gap : List Char} (hbody : ∀ d ∈ body, ¬ Text.EndsLine d)
      (hc : Text.EndsLine c) (hgap : Precedes following gap) :
      Precedes following ('/' :: '/' :: (body ++ c :: gap))
  | lastLine {body : List Char} (hbody : ∀ d ∈ body, ¬ Text.EndsLine d) (hend : following = []) :
      Precedes following ('/' :: '/' :: body)
  | block {body gap : List Char} (hbody : ¬ ['*', '/'] <:+: body)
      (hgap : Precedes following gap) :
      Precedes following ('/' :: '*' :: (body ++ '*' :: '/' :: gap))

theorem Text.isLineEnd_iff (c : Char) : Text.isLineEnd c = true ↔ Text.EndsLine c := by
  simp only [isLineEnd, EndsLine, Bool.or_eq_true, beq_iff_eq, ← Char.toNat_inj, Char.reduceToNat,
    List.mem_cons, List.not_mem_nil, or_false, or_assoc]

theorem Text.isScriptBlank_iff (c : Char) : Text.isScriptBlank c = true ↔ Text.IsSpace c := by
  simp only [isScriptBlank, isBlank, isSpaceSeparator, isLineEnd_iff, EndsLine, IsSpace,
    Bool.or_eq_true, beq_iff_eq, Bool.and_eq_true, decide_eq_true_eq, ← Char.toNat_inj,
    Char.reduceToNat, List.mem_cons, List.not_mem_nil, or_false]
  omega

namespace Gap

variable {following gap : List Char}

def Mode.Completes (following : List Char) : Mode → List Char → Prop
  | .plain, gap => Precedes following gap
  | .lineComment, gap =>
    (∃ body c rest, gap = body ++ c :: rest ∧ (∀ d ∈ body, ¬ Text.EndsLine d) ∧ Text.EndsLine c ∧
      Precedes following rest) ∨
    following = [] ∧ ∀ d ∈ gap, ¬ Text.EndsLine d
  | .blockComment, gap =>
    ∃ body rest, gap = body ++ '*' :: '/' :: rest ∧ ¬ ['*', '/'] <:+: body ∧
      Precedes following rest

theorem Mode.Completes.line_cons {c : Char} (hc : ¬ Text.EndsLine c)
    (h : Mode.lineComment.Completes following gap) : Mode.lineComment.Completes following (c :: gap) := by
  obtain ⟨body, d, rest, rfl, hbody, hd, hrest⟩ | ⟨hend, hgap⟩ := h
  · exact .inl ⟨c :: body, d, rest, rfl, List.forall_mem_cons.mpr ⟨hc, hbody⟩, hd, hrest⟩
  · exact .inr ⟨hend, List.forall_mem_cons.mpr ⟨hc, hgap⟩⟩

theorem Mode.Completes.block_cons {after : List Char} {c : Char}
    (hc : ∀ cs, ¬ (c = '*' ∧ gap ++ after = '/' :: cs)) (h : Mode.blockComment.Completes following gap) :
    Mode.blockComment.Completes following (c :: gap) := by
  obtain ⟨body, rest, rfl, hbody, hrest⟩ := h
  refine ⟨c :: body, rest, rfl, fun hin => ?_, hrest⟩
  rcases List.infix_cons_iff.mp hin with hpre | htail
  · obtain ⟨tail, htail⟩ := hpre
    obtain ⟨rfl, rfl⟩ := List.cons.inj htail
    exact hc _ ⟨rfl, rfl⟩
  · exact hbody htail

theorem Mode.Completes.line (h : Mode.lineComment.Completes following gap) :
    Precedes following ('/' :: '/' :: gap) := by
  obtain ⟨body, c, rest, rfl, hbody, hc, hrest⟩ | ⟨hend, hgap⟩ := h
  · exact .line hbody hc hrest
  · exact .lastLine hgap hend

theorem Mode.Completes.block (h : Mode.blockComment.Completes following gap) :
    Precedes following ('/' :: '*' :: gap) := by
  obtain ⟨body, rest, rfl, hbody, hrest⟩ := h
  exact .block hbody hrest

theorem Result.prepend_eq_ends {taken : List Char} {r : Result} {rest : List Char}
    (h : r.prepend taken = .ends gap rest) : ∃ tail, r = .ends tail rest ∧ gap = taken ++ tail := by
  cases r with
  | ends tail rest' =>
    cases h
    exact ⟨tail, rfl, rfl⟩
  | unterminated before | openComment => cases h

theorem Result.prepend_ends {taken cs rest : List Char} {r : Result} {P Q : List Char → Prop}
    (h : r.prepend taken = .ends gap rest) (hr : ∀ {tail}, r = .ends tail rest → cs = tail ++ rest ∧ P tail)
    (hP : ∀ tail, cs = tail ++ rest → P tail → Q (taken ++ tail)) : taken ++ cs = gap ++ rest ∧ Q gap := by
  obtain ⟨tail, htail, rfl⟩ := prepend_eq_ends h
  obtain ⟨hcs, hp⟩ := hr htail
  exact ⟨by rw [hcs, List.append_assoc], hP tail hcs hp⟩

/-- The gap is the beginning of the text, and nothing in it is left open. -/
theorem split_ends {mode : Mode} {cs rest : List Char} (h : split mode cs = .ends gap rest) :
    cs = gap ++ rest ∧ mode.Completes rest gap := by
  fun_induction split mode cs generalizing gap with
  | case1 cs ih => exact Result.prepend_ends h ih fun _ _ hc => hc.line
  | case2 cs hopen ih => cases h
  | case3 cs hr ih => exact Result.prepend_ends h ih fun _ _ hc => hc.block
  | case4 c cs h1 h2 hblank ih =>
    exact Result.prepend_ends h ih fun _ _ hc => .blank ((Text.isScriptBlank_iff c).mp hblank) hc
  | case5 c cs h1 h2 hblank =>
    cases h
    exact ⟨rfl, .nothing⟩
  | case6 c cs hend ih =>
    exact Result.prepend_ends h ih fun tail _ hc =>
      .inl ⟨[], c, tail, rfl, nofun, (Text.isLineEnd_iff c).mp hend, hc⟩
  | case7 c cs hend ih =>
    exact Result.prepend_ends h ih fun _ _ hc =>
      hc.line_cons fun he => hend ((Text.isLineEnd_iff c).mpr he)
  | case8 cs ih => exact Result.prepend_ends h ih fun tail _ hc => ⟨[], tail, rfl, by simp, hc⟩
  | case9 c cs hclose ih =>
    exact Result.prepend_ends h ih fun _ hcs hc => hc.block_cons fun cs he => hclose cs he.1 (hcs.trans he.2)
  | case10 => cases h
  | case11 mode hmode =>
    cases h
    refine ⟨rfl, ?_⟩
    cases mode with
    | plain => exact .nothing
    | lineComment => exact .inr ⟨rfl, nofun⟩
    | blockComment => exact absurd rfl hmode

end Gap

/-! ### Characters of names -/

namespace Text

variable [Platform] {c : Char}

theorem isIdentifierPart_of_start (h : isIdentifierStart c = true) : isIdentifierPart c = true :=
  Bool.or_eq_true_iff.mpr ((Bool.or_eq_true_iff.mp h).imp_right (Platform.isXidContinue_of_start c))

theorem isIdentifierStart_ascii (h : c.toNat < 0x80) :
    isIdentifierStart c = (c == '_' || c == '$' || c.isAlpha) := by
  rw [isIdentifierStart, Platform.isXidStart_ascii c h]

theorem isIdentifierPart_ascii (h : c.toNat < 0x80) :
    isIdentifierPart c = (c == '_' || c == '$' || (c.isAlphanum || c == '_')) := by
  rw [isIdentifierPart, Platform.isXidContinue_ascii c h]

end Text

/-! ### Tokens -/

theorem Punctuator.text_ne_nil (p : Punctuator) : p.text.toList ≠ [] := by
  cases p <;> simp [Punctuator.text]

namespace Token

variable {cs before : List Char} {s : Split}

theorem spanDigits_append (radix : Nat) (cs : List Char) :
    (spanDigits radix cs).1 ++ (spanDigits radix cs).2 = cs := by
  unfold spanDigits
  rw [List.span_eq_takeWhile_dropWhile]
  exact List.takeWhile_append_dropWhile

theorem spanFraction_append (cs : List Char) : (spanFraction cs).1 ++ (spanFraction cs).2 = cs := by
  unfold spanFraction
  split
  · exact congrArg ('.' :: ·) (spanDigits_append 10 _)
  · rfl

theorem spanSign_append (cs : List Char) : (spanSign cs).1 ++ (spanSign cs).2 = cs := by
  unfold spanSign
  split <;> rfl

theorem spanExponent?_append (h : spanExponent? cs = some s) : s.1 ++ s.2 = cs := by
  unfold spanExponent? at h
  split at h
  · cases h
    rfl
  next c cs =>
    split at h
    · split at h
      next sign rest hsign =>
        have hs := spanSign_append cs
        have hd := spanDigits_append 10 rest
        rw [hsign] at hs
        split at h
        · cases h
        next digits rest' hne hdigits =>
          rw [hdigits] at hd
          cases h
          simp only [List.cons_append, List.append_assoc] at hs hd ⊢
          rw [hd, hs]
    · cases h
      rfl

theorem spanDecimal?_eq_some (h : spanDecimal? cs = some s) :
    ∃ t, spanExponent? (spanFraction (spanDigits 10 cs).2).2 = some t ∧
      ((spanDigits 10 cs).1 ++ (spanFraction (spanDigits 10 cs).2).1 ++ t.1, t.2) = s :=
  Option.map_eq_some_iff.mp h

theorem spanDecimal?_append (h : spanDecimal? cs = some s) : s.1 ++ s.2 = cs := by
  have hdigits := spanDigits_append 10 cs
  have hfraction := spanFraction_append (spanDigits 10 cs).2
  obtain ⟨t, ht, rfl⟩ := spanDecimal?_eq_some h
  rw [List.append_assoc, spanExponent?_append ht, List.append_assoc, hfraction, hdigits]

theorem spanNumber?_append (h : spanNumber? cs = some s) : s.1 ++ s.2 = cs := by
  unfold spanNumber? at h
  split at h
  next mark cs =>
    split at h
    next radix hradix =>
      unfold spanRadix? at h
      have hd := spanDigits_append radix cs
      split at h
      · cases h
      next digits rest hne hdigits =>
        rw [hdigits] at hd
        cases h
        exact congrArg ('0' :: mark :: ·) hd
    next => exact spanDecimal?_append h
  next => exact spanDecimal?_append h

theorem spanString?_append {quote : Char} (h : spanString? quote cs = some s) : s.1 ++ s.2 = cs := by
  fun_induction spanString? quote cs generalizing s with
  | case1 => cases h
  | case2 c cs ih =>
    obtain ⟨t, ht, rfl⟩ := Option.map_eq_some_iff.mp h
    exact congrArg ('\\' :: c :: ·) (ih ht)
  | case3 => cases h
  | case4 =>
    cases h
    rfl
  | case5 c cs _ _ _ ih =>
    obtain ⟨t, ht, rfl⟩ := Option.map_eq_some_iff.mp h
    exact congrArg (c :: ·) (ih ht)

theorem scanPunctuator?_append {s : Punctuator × List Char} (h : scanPunctuator? cs = some s) :
    s.1.text.toList ++ s.2 = cs := by
  unfold scanPunctuator? at h
  split at h <;> cases h <;> simp [Punctuator.text]

theorem isDigit_of_decimal {c : Char} (h : Numeral.isDigit c = true) : Radix.isDigit 10 c = true := by
  simp only [Numeral.isDigit, Bool.and_eq_true, decide_eq_true_eq] at h
  have hlow : '0'.toNat ≤ c.toNat := h.1
  have hhigh : c.toNat ≤ '9'.toNat := h.2
  have hvalue : c.toNat - '0'.toNat < 10 := by
    simp only [Char.reduceToNat] at hlow hhigh ⊢
    omega
  simp only [Radix.isDigit, Radix.digit?, Radix.digitValue, h, and_self, if_true, Option.filter_some,
    hvalue, decide_true, Option.isSome_some]

theorem spanDecimal?_ne_nil (h : spanDecimal? cs = some s) (hstart : startsNumber cs = true) : s.1 ≠ [] := by
  obtain ⟨t, ht, rfl⟩ := spanDecimal?_eq_some h
  intro hnil
  obtain ⟨hwhole, hfraction⟩ := List.append_eq_nil_iff.mp (List.append_eq_nil_iff.mp hnil).1
  have happend := spanDigits_append 10 cs
  rw [hwhole, List.nil_append] at happend
  rw [happend] at hfraction
  unfold spanDigits at hwhole
  rw [List.span_eq_takeWhile_dropWhile] at hwhole
  cases cs with
  | nil => cases hstart
  | cons c tail =>
    have hc : ¬ Radix.isDigit 10 c = true := fun hd => by simp [hd] at hwhole
    unfold startsNumber at hstart
    split at hstart
    next heq =>
      cases heq
      cases hfraction
    next heq =>
      cases heq
      exact hc (isDigit_of_decimal hstart)
    next heq => cases heq

theorem spanNumber?_ne_nil (h : spanNumber? cs = some s) (hstart : startsNumber cs = true) : s.1 ≠ [] := by
  unfold spanNumber? at h
  split at h
  · split at h
    · unfold spanRadix? at h
      split at h
      · cases h
      · cases h
        exact List.cons_ne_nil _ _
    · exact spanDecimal?_ne_nil h hstart
  · exact spanDecimal?_ne_nil h hstart

theorem orComplain_eq_ok {α : Type} {complaint : Complaint} {o : Option α} {a : α}
    (h : orComplain complaint o = .ok a) : o = some a := by
  cases o with
  | none => cases h
  | some b =>
    cases h
    rfl

theorem kindOfName_ne_eof (text : String) : kindOfName text ≠ .eof := by
  unfold kindOfName
  split <;> nofun

/-- A token is the beginning of the text, and only the end of input has no text. -/
theorem scanOne_ok [Platform] {taken rest : List Char} {kind : Kind}
    (h : scanOne cs = .ok (kind, taken, rest)) :
    taken ++ rest = cs ∧ (kind = .eof ∧ cs = [] ∨ kind ≠ .eof ∧ taken ≠ []) := by
  unfold scanOne at h
  split at h
  next =>
    cases h
    exact ⟨rfl, .inl ⟨rfl, rfl⟩⟩
  next c tail =>
    split at h
    next hname =>
      cases h
      have hpart := Text.isIdentifierPart_of_start hname
      refine ⟨List.takeWhile_append_dropWhile, .inr ⟨kindOfName_ne_eof _, ?_⟩⟩
      rw [List.takeWhile_cons, if_pos hpart]
      exact List.cons_ne_nil _ _
    split at h
    next hnumber =>
      obtain ⟨s, hs, heq⟩ := Option.map_eq_some_iff.mp (orComplain_eq_ok h)
      cases heq
      have hspan := (Option.filter_eq_some_iff.mp hs).1
      exact ⟨spanNumber?_append hspan, .inr ⟨nofun, spanNumber?_ne_nil hspan hnumber⟩⟩
    split at h
    next =>
      obtain ⟨s, hs, heq⟩ := Option.map_eq_some_iff.mp (orComplain_eq_ok h)
      cases heq
      exact ⟨congrArg (c :: ·) (spanString?_append hs), .inr ⟨nofun, List.cons_ne_nil _ _⟩⟩
    next =>
      obtain ⟨s, hs, heq⟩ := Option.map_eq_some_iff.mp (orComplain_eq_ok h)
      cases heq
      exact ⟨scanPunctuator?_append hs, .inr ⟨nofun, s.1.text_ne_nil⟩⟩

structure Follows (before gap after : List Char) (t : Token) : Prop where
  precedes : Gap.Precedes (t.text.toList ++ after) gap
  location : t.location = .after (before ++ gap)
  newline : t.newlineBefore = true ↔ ∃ c ∈ gap, Text.EndsLine c
  eof : t.kind = .eof ↔ t.text = ""
  last : t.kind = .eof → after = []

def stop (t : Token) : Nat := t.location.offset + t.text.utf8ByteSize

theorem Follows.stop {gap after : List Char} {t : Token} (h : Follows before gap after t) :
    t.stop = (String.ofList (before ++ gap ++ t.text.toList)).utf8ByteSize := by
  rw [Token.stop, h.location, String.ofList_append, String.utf8ByteSize_append, String.ofList_toList]
  rfl

/-- A token is taken from behind its gap, and the location moves to where it ends. -/
theorem next_ok [Platform] {rest : List Char} {t : Token} {stop : Location}
    (h : next (.after before) cs = .ok (t, stop, rest)) :
    ∃ gap, cs = gap ++ t.text.toList ++ rest ∧ Follows before gap rest t ∧
      stop = .after (before ++ gap ++ t.text.toList) := by
  unfold next at h
  split at h
  · cases h
  · cases h
  next gap ahead hgap =>
    obtain ⟨rfl, hprecedes⟩ := Gap.split_ends hgap
    simp only [Location.after_advance] at h
    split at h
    · cases h
    next kind taken rest htaken =>
      cases h
      obtain ⟨rfl, hkind⟩ := scanOne_ok htaken
      have htext : (String.ofList taken).toList = taken := String.toList_ofList
      refine ⟨gap, by simp only [htext, List.append_assoc], ⟨?_, rfl, ?_, ?_, ?_⟩, ?_⟩
      · rw [htext]
        exact hprecedes
      · simp only [List.any_eq_true, Text.isLineEnd_iff]
      · rw [← String.ofList_nil, String.ofList_inj]
        obtain ⟨heof, hnil⟩ | ⟨hne, hnil⟩ := hkind
        · exact iff_of_true heof (List.append_eq_nil_iff.mp hnil).1
        · exact iff_of_false hne hnil
      · intro heof
        obtain ⟨_, hnil⟩ | ⟨hne, _⟩ := hkind
        · exact (List.append_eq_nil_iff.mp hnil).2
        · exact absurd heof hne
      · simp only [htext]

/-- The tokens ahead, each after its gap, when some text has been read. -/
inductive Laid : (before ahead : List Char) → List Token → Prop
  | last {before gap : List Char} {t : Token} (ht : Follows before gap [] t) (heof : t.kind = .eof) :
      Laid before gap [t]
  | more {before gap rest : List Char} {t : Token} {tokens : List Token}
      (ht : Follows before gap rest t) (hkind : t.kind ≠ .eof)
      (htokens : Laid (before ++ gap ++ t.text.toList) rest tokens) :
      Laid before (gap ++ t.text.toList ++ rest) (t :: tokens)

theorem scanFrom_laid [Platform] {fuel : Nat} {tokens : List Token}
    (h : scanFrom fuel (.after before) cs = (tokens, none)) : Laid before cs tokens := by
  induction fuel generalizing before cs tokens with
  | zero => cases h
  | succ fuel ih =>
    unfold scanFrom at h
    split at h
    · cases h
    next t stop rest hnext =>
      obtain ⟨gap, rfl, ht, rfl⟩ := next_ok hnext
      split at h
      next heof =>
        cases h
        obtain rfl := ht.last heof
        rw [ht.eof.mp heof, String.toList_empty, List.append_nil, List.append_nil]
        exact .last ht heof
      next hne =>
        split at h
        next tail fault htail =>
          cases h
          exact .more ht hne (ih htail)

theorem tokenize_laid [Platform] {source : String} {tokens : List Token} (h : tokenize source = .ok tokens) :
    Laid [] source.toList tokens := by
  unfold tokenize at h
  split at h
  next hscan =>
    cases h
    exact scanFrom_laid hscan
  next => cases h

namespace Laid
variable {before ahead : List Char} {tokens : List Token}

theorem getLast (h : Laid before ahead tokens) :
    ∃ body t, tokens = body ++ [t] ∧ t.kind = .eof ∧ t.location = .after (before ++ ahead) := by
  induction h with
  | last ht heof => exact ⟨[], _, rfl, heof, ht.location⟩
  | more ht hkind htokens ih =>
    obtain ⟨body, t, rfl, heof, hplace⟩ := ih
    refine ⟨_ :: body, t, rfl, heof, ?_⟩
    rw [hplace]
    simp only [List.append_assoc]

/-- Every token follows, after a gap, on the text of the tokens before it. -/
theorem follows (h : Laid before ahead tokens) {earlier later : List Token} {t : Token}
    (ht : tokens = earlier ++ t :: later) :
    ∃ between gap after, ahead = between ++ gap ++ t.text.toList ++ after ∧
      Follows (before ++ between) gap after t ∧
      (String.ofList (before ++ between)).utf8ByteSize =
        (earlier.getLast?.map stop).getD (String.ofList before).utf8ByteSize ∧
      (t.kind = .eof ↔ later = []) := by
  induction h generalizing earlier with
  | @last before gap u hu heof =>
    cases earlier with
    | nil =>
      cases ht
      refine ⟨[], gap, [], ?_, ?_, ?_, iff_of_true heof rfl⟩
      · rw [hu.eof.mp heof]
        simp
      · rw [List.append_nil]
        exact hu
      · rw [List.append_nil]
        rfl
    | cons e earlier => simp at ht
  | @more before gap rest u tokens hu hkind htokens ih =>
    cases earlier with
    | nil =>
      cases ht
      refine ⟨[], gap, rest, rfl, ?_, ?_, iff_of_false hkind ?_⟩
      · rw [List.append_nil]
        exact hu
      · rw [List.append_nil]
        rfl
      · rintro rfl
        cases htokens
    | cons e earlier =>
      obtain ⟨rfl, htail⟩ := List.cons.inj ht
      obtain ⟨between, gap', after, rfl, hfollows, hsize, hlast⟩ := ih htail
      refine ⟨gap ++ u.text.toList ++ between, gap', after, ?_, ?_, ?_, hlast⟩
      · simp only [List.append_assoc]
      · simpa only [List.append_assoc] using hfollows
      · rw [← hu.stop, Option.getD_map] at hsize
        rw [List.getLast?_cons, ← List.append_assoc, ← List.append_assoc]
        exact hsize

end Laid

/-- The tokens of a source lie in it one after the other, the last at its end. The text of a token is
the slice of the source at its offset, only a gap stands between it and the token before, and its
location and its line flag are those of the source. Lines and columns stay below 2³² in every source that
is shorter than that. -/
theorem tokenize_lossless [Platform] {source : String} {tokens : List Token}
    (h : tokenize source = .ok tokens) :
    (∃ body t, tokens = body ++ [t] ∧ t.kind = .eof ∧ t.location = .after source.toList) ∧
    ∀ earlier t later, tokens = earlier ++ t :: later →
      ∃ before gap after, source.toList = before ++ gap ++ t.text.toList ++ after ∧
        Follows before gap after t ∧
        (String.ofList before).utf8ByteSize = (earlier.getLast?.map stop).getD 0 ∧
        (t.kind = .eof ↔ later = []) ∧
        (source.length + 1 < UInt32.size → t.location.Small) := by
  refine ⟨(tokenize_laid h).getLast, fun earlier t later ht => ?_⟩
  obtain ⟨before, gap, after, hsource, hfollows, hstop, hlast⟩ := (tokenize_laid h).follows ht
  refine ⟨before, gap, after, hsource, hfollows, hstop, hlast, fun hsize => ?_⟩
  rw [hfollows.location]
  refine Location.small_after (Nat.lt_of_le_of_lt ?_ hsize)
  rw [← String.length_toList, hsource]
  simp only [List.nil_append, List.length_append]
  omega

/-- The line end inside the comment counts for the token after it, and the comment that the source
ends in has no line end. -/
theorem tokenize_lossless_comments :
    tokenize "é /* *\n*/= // z" = .ok
      [⟨.identifier, "é", ⟨1, 1, 0⟩, false⟩, ⟨.punctuator .equals, "=", ⟨2, 3, 10⟩, true⟩,
        ⟨.eof, "", ⟨2, 9, 16⟩, false⟩] ∧
    ∃ before gap after, "é /* *\n*/= // z".toList = before ++ gap ++ "=".toList ++ after ∧
      Follows before gap after ⟨.punctuator .equals, "=", ⟨2, 3, 10⟩, true⟩ ∧
      (String.ofList before).utf8ByteSize = 2 := by
  have h : tokenize "é /* *\n*/= // z" = .ok
      [⟨.identifier, "é", ⟨1, 1, 0⟩, false⟩, ⟨.punctuator .equals, "=", ⟨2, 3, 10⟩, true⟩,
        ⟨.eof, "", ⟨2, 9, 16⟩, false⟩] := by decide +kernel
  obtain ⟨before, gap, after, hsource, hfollows, hstop, -⟩ := (tokenize_lossless h).2 [_] _ [_] rfl
  exact ⟨h, before, gap, after, hsource, hfollows, hstop⟩

end Token
end Surmise
