import Mathlib.Data.List.Induction
import Surmise.Proofs.Decoding.Pieces
import Surmise.Proofs.Layout

/-! Strings between quotes. The scanner goes by single characters and takes one more after a backslash,
decoding goes by whole escapes; however each character of a string is written, the token ends at the last
quote and stands for the string. -/
namespace Surmise

open Text.Percent (IsHexDigit digit?_eq_some_iff)

/-! ### Ways to write a character -/

inductive HexNumeral : List Char → Nat → Prop
  | nil : HexNumeral [] 0
  | snoc {ds : List Char} {d : Char} {n k : Nat} (hds : HexNumeral ds n) (hd : IsHexDigit k d) :
      HexNumeral (ds ++ [d]) (16 * n + k)

namespace Token

/-- A text as it may be written between quotes, each of its characters in a way of its own. -/
inductive Spelled (quote : Char) : (written text : List Char) → Prop
  | nil : Spelled quote [] []
  | raw {c : Char} {ws cs : List Char} (hquote : c ≠ quote) (hescape : c ≠ '\\')
      (hline : ¬ Text.EndsLine c) (h : Spelled quote ws cs) : Spelled quote (c :: ws) (c :: cs)
  | named {letter c : Char} {ws cs : List Char}
      (hc : (letter, c) ∈ [('n', '\n'), ('t', '\t'), ('r', '\r'), ('b', '\x08'), ('f', '\x0c'),
        ('v', '\x0b')])
      (h : Spelled quote ws cs) : Spelled quote ('\\' :: letter :: ws) (c :: cs)
  | zero {ws cs : List Char} (hnext : ∀ d ∈ ws.head?, d.isDigit = false) (h : Spelled quote ws cs) :
      Spelled quote ('\\' :: '0' :: ws) ('\x00' :: cs)
  | self {c : Char} {ws cs : List Char} (hletter : c ∉ ['n', 't', 'r', 'b', 'f', 'v', 'x', 'u'])
      (hdigit : c.isDigit = false) (hline : ¬ Text.EndsLine c) (h : Spelled quote ws cs) :
      Spelled quote ('\\' :: c :: ws) (c :: cs)
  | byte {c : Char} {ds ws cs : List Char} (hds : HexNumeral ds c.toNat) (hlength : ds.length = 2)
      (h : Spelled quote ws cs) : Spelled quote ('\\' :: 'x' :: (ds ++ ws)) (c :: cs)
  | unit {c : Char} {ds ws cs : List Char} (hds : HexNumeral ds c.toNat) (hlength : ds.length = 4)
      (h : Spelled quote ws cs) : Spelled quote ('\\' :: 'u' :: (ds ++ ws)) (c :: cs)
  | braced {c : Char} {ds ws cs : List Char} (hds : HexNumeral ds c.toNat) (hne : ds ≠ [])
      (h : Spelled quote ws cs) :
      Spelled quote ('\\' :: 'u' :: '\x7b' :: (ds ++ '\x7d' :: ws)) (c :: cs)
  | pair {c : Char} {high low : Nat} {ds es ws cs : List Char} (hunits : Text.units c = [high, low])
      (hds : HexNumeral ds high) (hdlength : ds.length = 4) (hes : HexNumeral es low)
      (helength : es.length = 4) (h : Spelled quote ws cs) :
      Spelled quote ('\\' :: 'u' :: (ds ++ '\\' :: 'u' :: (es ++ ws))) (c :: cs)

/-! ### What the scanner passes over -/

def Passes (quote : Char) (ws : List Char) : Prop :=
  ∀ rest, spanString? quote (ws ++ rest) = (spanString? quote rest).map fun s => (ws ++ s.1, s.2)

section

variable {quote : Char}

theorem Passes.nil : Passes quote [] := fun rest => by simp

theorem Passes.append {vs ws : List Char} (hv : Passes quote vs) (hw : Passes quote ws) :
    Passes quote (vs ++ ws) := by
  intro rest
  rw [List.append_assoc, hv, hw, Option.map_map]
  simp [Function.comp_def]

theorem isLineEnd_eq_false {c : Char} (h : ¬ Text.EndsLine c) : Text.isLineEnd c = false := by
  rw [← Text.isLineEnd_iff] at h
  simpa using h

theorem Passes.raw {c : Char} (hquote : c ≠ quote) (hescape : c ≠ '\\') (hline : ¬ Text.EndsLine c) :
    Passes quote [c] := by
  intro rest
  simp [spanString?, hquote, hescape, isLineEnd_eq_false hline]

theorem Passes.escaped (c : Char) : Passes quote ['\\', c] := fun rest => by simp [spanString?]

end

def IsQuote (c : Char) : Prop := c = '"' ∨ c = '\''

section

variable {quote : Char} (hquote : IsQuote quote)
include hquote

theorem passes_hexDigit {k : Nat} {d : Char} (hd : IsHexDigit k d) : Passes quote [d] := by
  have hdigits : ∀ k : Fin 16, [Radix.hexDigit k, Radix.hexDigitUpper k].all (fun d =>
      d ≠ '"' ∧ d ≠ '\'' ∧ d ≠ '\\' ∧ Text.isLineEnd d = false) = true := by decide
  obtain ⟨hk, hd⟩ := hd
  have hd := List.all_eq_true.mp (hdigits ⟨k, hk⟩) d (by simpa using hd)
  obtain ⟨hdouble, hsingle, hescape, hline⟩ := of_decide_eq_true hd
  refine .raw ?_ hescape fun h => ?_
  · rintro rfl
    exact hquote.elim hdouble hsingle
  · rw [(Text.isLineEnd_iff d).mpr h] at hline
    cases hline

theorem passes_hexNumeral {ds : List Char} {n : Nat} (h : HexNumeral ds n) : Passes quote ds := by
  induction h with
  | nil => exact .nil
  | snoc _ hd ih => exact ih.append (passes_hexDigit hquote hd)

theorem passes_brace {c : Char} (hc : c = '\x7b' ∨ c = '\x7d') : Passes quote [c] := by
  refine .raw ?_ ?_ ?_
  · rintro rfl
    obtain rfl | rfl := hc <;> simp [IsQuote] at hquote
  · rintro rfl
    simp at hc
  · rw [← Text.isLineEnd_iff]
    obtain rfl | rfl := hc <;> decide

theorem Spelled.passes {ws cs : List Char} (h : Spelled quote ws cs) : Passes quote ws := by
  induction h with
  | nil => exact .nil
  | raw hne hescape hline _ ih => exact (Passes.raw hne hescape hline).append ih
  | named _ _ ih | zero _ _ ih | self _ _ _ _ ih => exact (Passes.escaped _).append ih
  | byte hds _ _ ih | unit hds _ _ ih =>
    exact (Passes.escaped _).append ((passes_hexNumeral hquote hds).append ih)
  | braced hds _ _ ih =>
    have hclosed := (passes_brace hquote (.inr rfl)).append ih
    have hopen := (passes_brace hquote (.inl rfl)).append ((passes_hexNumeral hquote hds).append hclosed)
    exact (Passes.escaped _).append hopen
  | pair _ hds _ hes _ _ ih =>
    have hlow := (Passes.escaped 'u').append ((passes_hexNumeral hquote hes).append ih)
    exact (Passes.escaped _).append ((passes_hexNumeral hquote hds).append hlow)

/-! ### The only token -/

theorem scanOne_quoted [Platform] (tail : List Char) : scanOne (quote :: tail) =
    orComplain .unterminatedString
      ((spanString? quote tail).map fun s => (.string, quote :: s.1, s.2)) := by
  have hname : Text.isIdentifierStart quote = false := by
    obtain rfl | rfl := hquote <;> exact Text.isIdentifierStart_ascii (by decide)
  have hnumber : startsNumber (quote :: tail) = false := by
    obtain rfl | rfl := hquote <;> rfl
  have hquote : quote = '"' ∨ quote = '\'' := hquote
  simp [scanOne, hname, hnumber, hquote]

theorem next_quoted [Platform] (p : Location) (tail : List Char) : next p (quote :: tail) =
    (spanString? quote tail).elim (.error ⟨.unterminatedString, p⟩) fun s =>
      .ok (⟨.string, .ofList (quote :: s.1), p, false⟩, p.advance (quote :: s.1), s.2) := by
  have hgap : Gap.split .plain (quote :: tail) = .ends [] (quote :: tail) := by
    obtain rfl | rfl := hquote <;> rfl
  unfold next
  rw [hgap]
  dsimp only
  rw [scanOne_quoted hquote]
  cases spanString? quote tail <;> rfl

end

def alone (text : List Char) : List Token :=
  [⟨.string, .ofList text, .start, false⟩, ⟨.eof, "", .after text, false⟩]

theorem scanFrom_nil [Platform] (fuel : Nat) (p : Location) :
    scanFrom (fuel + 1) p [] = ([⟨.eof, "", p, false⟩], none) := rfl

theorem tokenize_alone [Platform] {quote : Char} (hquote : IsQuote quote) {tail : List Char}
    (h : spanString? quote tail = some (tail, [])) :
    tokenize (.ofList (quote :: tail)) = .ok (alone (quote :: tail)) := by
  have hstop : Location.start.advance (quote :: tail) = .after (quote :: tail) :=
    Location.after_advance [] (quote :: tail)
  have hscan : scan (.ofList (quote :: tail)) = (alone (quote :: tail), none) := by
    unfold scan
    rw [String.toList_ofList, List.length_cons, scanFrom, next_quoted hquote, h]
    dsimp only [Option.elim]
    rw [if_neg nofun, scanFrom_nil, hstop]
    rfl
  rw [tokenize, hscan]

/-! ### Decoding -/

variable {ds cs ws : List Char} {n : Nat} {c : Char}

theorem hexNumeral_iff : HexNumeral ds n ↔ (∀ d ∈ ds, Radix.isDigit 16 d = true) ∧ Radix.value 16 ds = n := by
  rw [Radix.value_eq_foldl]
  constructor
  · intro h
    induction h with
    | nil => exact ⟨List.forall_mem_nil _, rfl⟩
    | @snoc ds d n k _ hd ih =>
      have hdigit : Radix.digit? 16 d = some k := digit?_eq_some_iff.mpr hd
      constructor
      · simpa [or_imp, forall_and, Radix.isDigit, hdigit] using ih.1
      · rw [List.foldl_append, ih.2]
        simp [hdigit]
  · rintro ⟨hdigits, rfl⟩
    induction ds using List.reverseRecOn with
    | nil => exact .nil
    | append_singleton ds d ih =>
      simp only [List.mem_append, List.mem_singleton, or_imp, forall_and, forall_eq] at hdigits
      obtain ⟨k, hk⟩ := Option.isSome_iff_exists.mp hdigits.2
      rw [List.foldl_append]
      simpa [hk] using (ih hdigits.1).snoc (digit?_eq_some_iff.mp hk)

theorem takeHex?_append (h : HexNumeral ds n) (rest : List Char) :
    takeHex? ds.length (ds ++ rest) = some (n, rest) := by
  obtain ⟨hdigits, hvalue⟩ := hexNumeral_iff.mp h
  simpa [takeHex?, hvalue] using hdigits

theorem takeBraced?_append (h : HexNumeral ds n) (hne : ds ≠ []) (hn : n ≤ 0x10FFFF) (rest : List Char) :
    takeBraced? (ds ++ '\x7d' :: rest) = some (n, rest) := by
  obtain ⟨hdigits, hvalue⟩ := hexNumeral_iff.mp h
  have hspan : (ds ++ '\x7d' :: rest).span (Radix.isDigit 16) = (ds, '\x7d' :: rest) := by
    have hbrace : Radix.isDigit 16 '\x7d' = false := by decide
    rw [List.span_eq_takeWhile_dropWhile, List.takeWhile_append_of_pos hdigits,
      List.dropWhile_append_of_pos hdigits]
    simp [hbrace]
  unfold takeBraced?
  rw [hspan]
  cases ds with
  | nil => exact absurd rfl hne
  | cons d ds => simp [hvalue, hn]

theorem takeUnicode?_append (h : HexNumeral ds n) (hlength : ds.length = 4) (rest : List Char) :
    takeUnicode? (ds ++ rest) = some (n, rest) := by
  have hhex := takeHex?_append h rest
  rw [hlength] at hhex
  rw [← hhex]
  cases ds with
  | nil => cases hlength
  | cons d ds =>
    have hdigit : Radix.isDigit 16 d = true := (hexNumeral_iff.mp h).1 d (by simp)
    have hd : d ≠ '\x7b' := by
      rintro rfl
      revert hdigit
      decide
    simp [takeUnicode?, hd]

theorem decodeUnicode?_scalar {rest : List Char} (h : takeUnicode? cs = some (c.toNat, rest)) :
    decodeUnicode? cs = some (c, rest) := by
  have hc := Text.not_surrogate c
  have hhigh : ¬ (0xD800 ≤ c.toNat ∧ c.toNat < 0xDC00) := by omega
  have hvalid : c.toNat.isValidChar := c.valid
  unfold decodeUnicode?
  rw [h]
  simp only [hhigh, hvalid, if_true, if_false, Char.ofNat_toNat]

theorem decodeUnicode?_pair {high low : Nat} {es rest : List Char} (hunits : Text.units c = [high, low])
    (hhigh : takeUnicode? cs = some (high, '\\' :: 'u' :: es)) (hlow : takeUnicode? es = some (low, rest)) :
    decodeUnicode? cs = some (c, rest) := by
  have hc := (Text.not_surrogate c).2
  unfold Text.units at hunits
  split at hunits
  · simp at hunits
  next hwide =>
    simp only [List.cons.injEq, and_true] at hunits
    have htaken : takeLowSurrogate? ('\\' :: 'u' :: es) = some (low, rest) := by
      have hrange : 0xDC00 ≤ low ∧ low < 0xE000 := by omega
      simp [takeLowSurrogate?, hlow, hrange]
    have hsum : 0x10000 + (high - 0xD800) * 0x400 + (low - 0xDC00) = c.toNat := by omega
    have hrange : 0xD800 ≤ high ∧ high < 0xDC00 := by omega
    unfold decodeUnicode?
    rw [hhigh]
    simp only [hrange, and_self, if_true, htaken, hsum, Char.ofNat_toNat]

theorem decodeEscape?_self (hletter : c ∉ ['n', 't', 'r', 'b', 'f', 'v', 'x', 'u'])
    (hdigit : c.isDigit = false) (hline : ¬ Text.EndsLine c) (rest : List Char) :
    decodeEscape? (c :: rest) = some ([c], rest) := by
  have hnumeral : Numeral.isDigit c = false := hdigit
  have hend := isLineEnd_eq_false hline
  have hzero : c ≠ '0' := by
    rintro rfl
    cases hdigit
  have hreturn : c ≠ '\r' := by
    rintro rfl
    cases hend
  simp only [List.mem_cons, List.not_mem_nil, or_false, not_or] at hletter
  have hnamed : namedEscape? c = none := by simp [namedEscape?, hletter]
  simp [decodeEscape?, hletter, hreturn, hnamed, hzero, hend, hnumeral]

def Decodes (ws cs : List Char) : Prop := ∀ fuel, ws.length ≤ fuel → decodeString? fuel ws = some cs

theorem Decodes.nil : Decodes [] [] := fun fuel _ => by rw [decodeString?]

theorem Decodes.raw (hc : c ≠ '\\') (h : Decodes ws cs) : Decodes (c :: ws) (c :: cs) := by
  intro fuel hfuel
  obtain _ | fuel := fuel
  · simp at hfuel
  · simp [decodeString?, h fuel (Nat.le_of_succ_le_succ hfuel)]

theorem Decodes.escape {es out : List Char} (hescape : decodeEscape? (es ++ ws) = some (out, ws))
    (h : Decodes ws cs) : Decodes ('\\' :: (es ++ ws)) (out ++ cs) := by
  intro fuel hfuel
  obtain _ | fuel := fuel
  · simp at hfuel
  · have hws := h fuel (by simp at hfuel; omega)
    simp [decodeString?, hescape, hws]

/-- What is written is read, whatever stands next to it. -/
theorem Spelled.decodes {quote : Char} (h : Spelled quote ws cs) : Decodes ws cs := by
  induction h with
  | nil => exact .nil
  | raw _ hescape _ _ ih => exact ih.raw hescape
  | @named letter c ws cs hc _ ih =>
    have hescape : decodeEscape? ([letter] ++ ws) = some ([c], ws) := by
      simp only [List.mem_cons, Prod.mk.injEq, List.not_mem_nil, or_false] at hc
      obtain ⟨rfl, rfl⟩ | ⟨rfl, rfl⟩ | ⟨rfl, rfl⟩ | ⟨rfl, rfl⟩ | ⟨rfl, rfl⟩ | ⟨rfl, rfl⟩ := hc <;> rfl
    exact ih.escape hescape
  | @zero ws cs hnext _ ih =>
    have hdigit : startsWithDigit ws = false := by
      cases ws with
      | nil => rfl
      | cons d ws => exact hnext d rfl
    have hescape : decodeEscape? (['0'] ++ ws) = some (['\x00'], ws) := by
      simp [decodeEscape?, namedEscape?, hdigit]
    exact ih.escape hescape
  | @self c ws cs hletter hdigit hline _ ih =>
    have hescape : decodeEscape? ([c] ++ ws) = some ([c], ws) := decodeEscape?_self hletter hdigit hline ws
    exact ih.escape hescape
  | @byte c ds ws cs hds hlength _ ih =>
    have htaken : takeHex? 2 (ds ++ ws) = some (c.toNat, ws) := hlength ▸ takeHex?_append hds ws
    have hescape : decodeEscape? (('x' :: ds) ++ ws) = some ([c], ws) := by
      simp [decodeEscape?, decodeHex?, htaken, Char.ofNat_toNat]
    exact ih.escape hescape
  | @unit c ds ws cs hds hlength _ ih =>
    have hunit := decodeUnicode?_scalar (takeUnicode?_append hds hlength ws)
    have hescape : decodeEscape? (('u' :: ds) ++ ws) = some ([c], ws) := by
      simp [decodeEscape?, hunit]
    exact ih.escape hescape
  | @braced c ds ws cs hds hne _ ih =>
    have hlimit : c.toNat ≤ 0x10FFFF := Nat.le_of_lt_succ (Text.not_surrogate c).2
    have hunit : decodeUnicode? ('\x7b' :: (ds ++ '\x7d' :: ws)) = some (c, ws) :=
      decodeUnicode?_scalar (takeBraced?_append hds hne hlimit ws)
    have hescape : decodeEscape? (('u' :: '\x7b' :: (ds ++ ['\x7d'])) ++ ws) = some ([c], ws) := by
      simp [decodeEscape?, hunit]
    simpa using ih.escape hescape
  | @pair c high low ds es ws cs hunits hds hdlength hes helength _ ih =>
    have hunit := decodeUnicode?_pair hunits (takeUnicode?_append hds hdlength _)
      (takeUnicode?_append hes helength ws)
    have hescape : decodeEscape? (('u' :: (ds ++ '\\' :: 'u' :: es)) ++ ws) = some ([c], ws) := by
      simp [decodeEscape?, hunit]
    simpa using ih.escape hescape

theorem Decodes.stringValue? (h : Decodes ws cs) (quote : Char) :
    stringValue? (.ofList (quote :: (ws ++ [quote]))) = some (.ofList cs) := by
  have hinner : (quote :: (ws ++ [quote])).tail.dropLast = ws := by simp
  rw [Token.stringValue?, String.toList_ofList, hinner, h ws.length (Nat.le_refl _)]
  rfl

/-- However the characters of a string are written between quotes, the token is the whole text and stands
for the string. -/
theorem spelled_strings_decode [Platform] {quote : Char} (hquote : IsQuote quote) {written : List Char}
    {s : String} (h : Spelled quote written s.toList) :
    tokenize (.ofList (quote :: (written ++ [quote]))) = .ok (alone (quote :: (written ++ [quote]))) ∧
      stringValue? (.ofList (quote :: (written ++ [quote]))) = some s := by
  have hend : spanString? quote [quote] = some ([quote], []) := by
    obtain rfl | rfl := hquote <;> rfl
  have hspan : spanString? quote (written ++ [quote]) = some (written ++ [quote], []) := by
    rw [h.passes hquote, hend]
    rfl
  refine ⟨tokenize_alone hquote hspan, ?_⟩
  rw [h.decodes.stringValue?, String.ofList_toList]

def mixed : List Char :=
  ['1', '\\', 'u', 'D', '8', '3', 'd', '\\', 'u', 'd', 'E', '0', '0', '\\', 'u', '\x7b', '0', '1', 'f', '6',
    '0', '0', '\x7d', '\\', '0', '\\', '"']

theorem spelled_strings_decode_mixed : Spelled '"' mixed "1😀😀\x00\"".toList ∧
    tokenize (.ofList ('"' :: (mixed ++ ['"']))) = .ok (alone ('"' :: (mixed ++ ['"']))) ∧
      stringValue? (.ofList ('"' :: (mixed ++ ['"']))) = some "1😀😀\x00\"" := by
  have hquote : Spelled '"' ['\\', '"'] ['"'] := .self (by decide) rfl (by simp [Text.EndsLine]) .nil
  have hnext : ∀ d ∈ ['\\', '"'].head?, d.isDigit = false := by
    rintro _ ⟨⟩
    rfl
  have hzero : Spelled '"' ['\\', '0', '\\', '"'] ['\x00', '"'] := .zero hnext hquote
  have hnumeral (ds : List Char) (h : ds.all (Radix.isDigit 16) = true) :
      HexNumeral ds (Radix.value 16 ds) :=
    hexNumeral_iff.mpr ⟨List.all_eq_true.mp h, rfl⟩
  have hpoint : HexNumeral ['0', '1', 'f', '6', '0', '0'] '😀'.toNat := hnumeral _ (by decide +kernel)
  have hhigh : HexNumeral ['D', '8', '3', 'd'] 0xD83D := hnumeral _ (by decide +kernel)
  have hlow : HexNumeral ['d', 'E', '0', '0'] 0xDE00 := hnumeral _ (by decide +kernel)
  have h : Spelled '"' mixed "1😀😀\x00\"".toList :=
    .raw (by decide) (by decide) (by simp [Text.EndsLine])
      (.pair (by decide +kernel) hhigh rfl hlow rfl (.braced hpoint (by decide) hzero))
  exact ⟨h, spelled_strings_decode (.inl rfl) h⟩

end Token
end Surmise
