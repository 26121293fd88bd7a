import Surmise.Proofs.Decoding.Pieces

/-! Decoding a text by the bytes of its UTF-8 form comes to the same as decoding its characters: the bytes
that are gathered in the end are always the form of a text. -/
namespace Surmise

namespace Text.Percent

variable {preserve : Char → Bool}

/-! ### The bytes of a text -/

variable {bs rest more out : List UInt8} {b : UInt8} {n : Nat}

def utf8 (cs : List Char) : List UInt8 := cs.flatMap String.utf8EncodeChar

def takeEscape? : List UInt8 → Option (UInt8 × List UInt8)
  | p :: x :: y :: rest =>
    if p = 0x25 then
      (hexByte? (Char.ofNat x.toNat) (Char.ofNat y.toNat)).map fun n => (UInt8.ofNat n, rest)
    else none
  | _ => none

def takeContinuations? : Nat → List UInt8 → Option (List UInt8 × List UInt8)
  | 0, bs => some ([], bs)
  | n + 1, bs =>
    match takeEscape? bs with
    | none => none
    | some (b, rest) =>
      if 0x80 ≤ b.toNat ∧ b.toNat < 0xC0 then
        (takeContinuations? n rest).map fun r => (b :: r.1, r.2)
      else none

def takeEscaped? (preserve : Char → Bool) (bs : List UInt8) : Option (List UInt8 × List UInt8) :=
  match takeEscape? bs with
  | none => none
  | some (lead, rest) =>
    if lead.toNat < 0x80 then
      some (if preserve (Char.ofNat lead.toNat) then bs.take 3 else [lead], rest)
    else
      match Pending.ofLead? lead.toNat with
      | none => none
      | some p =>
        match takeContinuations? p.left rest with
        | none => none
        | some (more, rest) =>
          if (lead :: more).toByteArray.IsValidUTF8 then some (lead :: more, rest) else none

theorem takeEscape?_length (h : takeEscape? bs = some (b, rest)) : rest.length < bs.length := by
  unfold takeEscape? at h
  split at h
  next p x y rest' =>
    obtain ⟨_, hr⟩ := Option.ite_none_right_eq_some.mp h
    obtain ⟨n, _, hn⟩ := Option.map_eq_some_iff.mp hr
    cases hn
    simp only [List.length_cons]
    omega
  next => cases h

theorem takeContinuations?_length (h : takeContinuations? n bs = some (more, rest)) :
    rest.length ≤ bs.length := by
  induction n generalizing bs more with
  | zero =>
    cases h
    exact Nat.le_refl _
  | succ n ih =>
    unfold takeContinuations? at h
    split at h
    next => cases h
    next b rest' he =>
      obtain ⟨_, hr⟩ := Option.ite_none_right_eq_some.mp h
      obtain ⟨r, hmore, hn⟩ := Option.map_eq_some_iff.mp hr
      cases hn
      exact Nat.le_trans (ih hmore) (Nat.le_of_lt (takeEscape?_length he))

theorem takeEscaped?_length (h : takeEscaped? preserve bs = some (out, rest)) : rest.length < bs.length := by
  unfold takeEscaped? at h
  split at h
  next => cases h
  next lead rest' he =>
    have hlt := takeEscape?_length he
    split at h
    next =>
      cases h
      exact hlt
    next =>
      split at h
      next => cases h
      next p _ =>
        split at h
        next => cases h
        next more rest'' hc =>
          obtain ⟨_, hr⟩ := Option.ite_none_right_eq_some.mp h
          cases hr
          exact Nat.lt_of_le_of_lt (takeContinuations?_length hc) hlt

def decodeBytes? (preserve : Char → Bool) : List UInt8 → Option (List UInt8)
  | [] => some []
  | b :: bs =>
    if b = 0x25 then
      match h : takeEscaped? preserve (b :: bs) with
      | none => none
      | some (out, rest) =>
        have : rest.length < (b :: bs).length := takeEscaped?_length h
        (decodeBytes? preserve rest).map (out ++ ·)
    else (decodeBytes? preserve bs).map (b :: ·)
termination_by bs => bs.length
decreasing_by
  · assumption
  · exact Nat.lt_succ_self _

/-! ### Forms of characters -/

variable {c : Char} {cs : List Char}

theorem utf8EncodeChar_ascii (h : c.toNat < 0x80) : String.utf8EncodeChar c = [UInt8.ofNat c.toNat] := by
  rw [utf8EncodeChar_eq, utf8Bytes_ascii h]
  rfl

theorem utf8Bytes_lead (h : 0x80 ≤ c.toNat) :
    ∃ lead more p, utf8Bytes c = lead :: more ∧ Pending.ofLead? lead = some p ∧
      more.length = p.left ∧ ∀ b ∈ more, 0x80 ≤ b ∧ b < 0xC0 := by
  have hmax := toNat_lt c
  unfold utf8Bytes Pending.ofLead?
  generalize c.toNat = n at h hmax
  dsimp only
  rw [if_neg (Nat.not_lt.mpr h)]
  split
  next =>
    refine ⟨_, _, _, rfl, if_pos (by omega), rfl, ?_⟩
    simp only [List.mem_cons, List.not_mem_nil, or_false, forall_eq]
    omega
  split
  next =>
    refine ⟨_, _, _, rfl, (if_neg (by omega)).trans (if_pos (by omega)), rfl, ?_⟩
    simp only [List.mem_cons, List.not_mem_nil, or_false, forall_eq_or_imp, forall_eq]
    omega
  next =>
    refine ⟨_, _, _, rfl, (if_neg (by omega)).trans ((if_neg (by omega)).trans (if_pos (by omega))), rfl, ?_⟩
    simp only [List.mem_cons, List.not_mem_nil, or_false, forall_eq_or_imp, forall_eq]
    omega

theorem utf8EncodeChar_wide (h : 0x80 ≤ c.toNat) :
    ∃ lead more p, String.utf8EncodeChar c = lead :: more ∧ Pending.ofLead? lead.toNat = some p ∧
      more.length = p.left ∧ ∀ b ∈ more, 0x80 ≤ b.toNat ∧ b.toNat < 0xC0 := by
  obtain ⟨lead, more, p, hform, hp, hlen, hmore⟩ := utf8Bytes_lead h
  have hbytes := map_toNat_utf8EncodeChar c
  rw [hform] at hbytes
  obtain ⟨b, bs, hc, rfl, rfl⟩ := List.map_eq_cons_iff.mp hbytes
  exact ⟨b, bs, p, hc, hp, (List.length_map _).symm.trans hlen,
    fun b hb => hmore b.toNat (List.mem_map_of_mem hb)⟩

theorem Pending.lead_le {lead : Nat} {p : Pending} (h : Pending.ofLead? lead = some p) :
    0x80 ≤ lead := by
  unfold Pending.ofLead? at h
  grind

theorem utf8_cons (c : Char) (cs : List Char) : utf8 (c :: cs) = String.utf8EncodeChar c ++ utf8 cs := rfl

theorem utf8_singleton (c : Char) : utf8 [c] = String.utf8EncodeChar c := List.append_nil _

theorem utf8_append (cs ds : List Char) : utf8 (cs ++ ds) = utf8 cs ++ utf8 ds := List.flatMap_append

theorem utf8_cons_ascii (h : c.toNat < 0x80) (cs : List Char) :
    utf8 (c :: cs) = UInt8.ofNat c.toNat :: utf8 cs := by
  rw [utf8_cons, utf8EncodeChar_ascii h]
  rfl

theorem eq_cons_of_utf8 (h : utf8 cs = b :: bs) (hb : b.toNat < 0x80) :
    ∃ cs', cs = Char.ofNat b.toNat :: cs' ∧ utf8 cs' = bs := by
  cases cs with
  | nil => cases h
  | cons c cs =>
    by_cases hc : c.toNat < 0x80
    · rw [utf8_cons_ascii hc] at h
      cases h
      rw [UInt8.toNat_ofNat_of_lt' (show c.toNat < 256 by omega), Char.ofNat_toNat]
      exact ⟨cs, rfl, rfl⟩
    · obtain ⟨lead, more, p, hform, hp, -, -⟩ := utf8EncodeChar_wide (Nat.not_lt.mp hc)
      rw [utf8_cons, hform] at h
      cases h
      exact absurd hb (Nat.not_lt.mpr (Pending.lead_le hp))

/-- A lead byte with as many bytes as it asks for, if valid, is the encoding of one character. -/
theorem exists_char_of_valid {lead : UInt8} {p : Pending} (hp : Pending.ofLead? lead.toNat = some p)
    (hlen : more.length = p.left) (h : (lead :: more).toByteArray.IsValidUTF8) :
    ∃ c : Char, 0x80 ≤ c.toNat ∧ String.utf8EncodeChar c = lead :: more := by
  obtain ⟨m, hm⟩ := h
  have hbytes : lead :: more = utf8 m := by
    have := congrArg (fun b => b.data.toList) hm
    simpa [List.utf8Encode, utf8] using this
  cases m with
  | nil => cases hbytes
  | cons c m =>
    rw [utf8_cons] at hbytes
    have hlead := Pending.lead_le hp
    have hc : 0x80 ≤ c.toNat := by
      by_contra hc
      rw [utf8EncodeChar_ascii (Nat.not_le.mp hc)] at hbytes
      cases hbytes
      rw [UInt8.toNat_ofNat_of_lt' (show c.toNat < 256 by omega)] at hlead
      exact hc hlead
    obtain ⟨lead', more', p', hform, hp', hlen', -⟩ := utf8EncodeChar_wide hc
    rw [hform, List.cons_append] at hbytes
    obtain ⟨rfl, hmore⟩ := List.cons_eq_cons.mp hbytes
    cases hp.symm.trans hp'
    have hnil : utf8 m = [] := by
      have := congrArg List.length hmore
      rw [List.length_append] at this
      exact List.length_eq_zero_iff.mp (by omega)
    rw [hnil, List.append_nil] at hmore
    exact ⟨c, hc, hmore ▸ hform⟩

/-! ### Pieces, byte by byte -/

variable {e : List Char} {bytes : List UInt8}

theorem ascii_of_hexByte? {x y : Char} (h : hexByte? x y = some n) : x.toNat < 0x80 ∧ y.toNat < 0x80 := by
  obtain ⟨-, hx, hy⟩ := hexByte?_eq_some_iff.mp h
  exact ⟨toNat_lt_of_digit? (digit?_eq_some_iff.mpr hx), toNat_lt_of_digit? (digit?_eq_some_iff.mpr hy)⟩

theorem ofNat_toNat_ascii (h : c.toNat < 0x80) : Char.ofNat (UInt8.ofNat c.toNat).toNat = c := by
  rw [UInt8.toNat_ofNat_of_lt' (show c.toNat < 256 by omega), Char.ofNat_toNat]

theorem takeEscape?_of_hexByte? {x y : Char} (h : hexByte? x y = some b.toNat) (cs : List Char)
    (bs : List UInt8) : takeEscape? (utf8 ('%' :: x :: y :: cs) ++ bs) = some (b, utf8 cs ++ bs) := by
  obtain ⟨hx, hy⟩ := ascii_of_hexByte? h
  rw [utf8_cons_ascii (by decide), utf8_cons_ascii hx, utf8_cons_ascii hy]
  simp only [List.cons_append, takeEscape?]
  rw [if_pos (by decide), ofNat_toNat_ascii hx, ofNat_toNat_ascii hy, h, Option.map_some,
    UInt8.ofNat_toNat]

theorem takeEscape?_utf8 (h : takeEscape? (utf8 cs) = some (b, rest)) :
    ∃ x y cs', cs = '%' :: x :: y :: cs' ∧ hexByte? x y = some b.toNat ∧ utf8 cs' = rest := by
  unfold takeEscape? at h
  split at h
  next p x y rest' hcs =>
    obtain ⟨rfl, hr⟩ := Option.ite_none_right_eq_some.mp h
    obtain ⟨n, hread, hn⟩ := Option.map_eq_some_iff.mp hr
    cases hn
    have hbyte {z : UInt8} (hz : (Char.ofNat z.toNat).toNat < 0x80) : z.toNat < 0x80 := by
      rwa [toNat_ofNat (.inl (Nat.lt_trans z.toNat_lt (by decide)))] at hz
    obtain ⟨hx, hy⟩ := ascii_of_hexByte? hread
    obtain ⟨cs₁, rfl, h₁⟩ := eq_cons_of_utf8 hcs (by decide)
    obtain ⟨cs₂, rfl, h₂⟩ := eq_cons_of_utf8 h₁ (hbyte hx)
    obtain ⟨cs₃, rfl, h₃⟩ := eq_cons_of_utf8 h₂ (hbyte hy)
    refine ⟨_, _, cs₃, rfl, ?_, h₃⟩
    rw [UInt8.toNat_ofNat_of_lt' (hexByte?_eq_some_iff.mp hread).1, hread]
  next => cases h

theorem takeContinuations?_escapes (h : Escapes more e) (hmore : ∀ b ∈ more, 0x80 ≤ b.toNat ∧ b.toNat < 0xC0)
    (bs : List UInt8) : takeContinuations? more.length (utf8 e ++ bs) = some (more, bs) := by
  induction h with
  | nil => rfl
  | @cons b more x y e hx hy _ ih =>
    obtain ⟨hb, hmore⟩ := List.forall_mem_cons.mp hmore
    rw [List.length_cons, takeContinuations?, takeEscape?_of_hexByte? (hexByte?_of_escape hx hy)]
    dsimp only
    rw [if_pos hb, ih hmore]
    rfl

theorem takeContinuations?_utf8 (h : takeContinuations? n (utf8 cs) = some (more, rest)) :
    more.length = n ∧ ∃ e cs', cs = e ++ cs' ∧ Escapes more e ∧ utf8 cs' = rest := by
  induction n generalizing cs more with
  | zero =>
    cases h
    exact ⟨rfl, [], cs, rfl, .nil, rfl⟩
  | succ n ih =>
    unfold takeContinuations? at h
    split at h
    next => cases h
    next b rest' he =>
      obtain ⟨x, y, cs', rfl, hread, rfl⟩ := takeEscape?_utf8 he
      obtain ⟨_, hr⟩ := Option.ite_none_right_eq_some.mp h
      obtain ⟨r, hmore, hn⟩ := Option.map_eq_some_iff.mp hr
      cases hn
      obtain ⟨hlen, e, cs'', rfl, hesc, hrest⟩ := ih hmore
      obtain ⟨-, hx, hy⟩ := hexByte?_eq_some_iff.mp hread
      exact ⟨congrArg (· + 1) hlen, '%' :: x :: y :: e, cs'', rfl, .cons hx hy hesc, hrest⟩

theorem decodeBytes?_copied (h : ∀ b ∈ bs, b ≠ 0x25) (rest : List UInt8) :
    decodeBytes? preserve (bs ++ rest) = (decodeBytes? preserve rest).map (bs ++ ·) := by
  induction bs with
  | nil => simp
  | cons b bs ih =>
    obtain ⟨hb, hbs⟩ := List.forall_mem_cons.mp h
    rw [List.cons_append, decodeBytes?, if_neg hb, ih hbs, Option.map_map]
    rfl

theorem takeEscape?_of_ne (h : b ≠ 0x25) (bs : List UInt8) : takeEscape? (b :: bs) = none := by
  unfold takeEscape?
  split
  next heq =>
    cases heq
    exact if_neg h
  next => rfl

theorem decodeBytes?_escaped (h : takeEscaped? preserve bs = some (out, rest)) :
    decodeBytes? preserve bs = (decodeBytes? preserve rest).map (out ++ ·) := by
  cases bs with
  | nil => cases h
  | cons b bs =>
    by_cases hb : b = 0x25
    · rw [decodeBytes?, if_pos hb]
      split
      next hnone => cases hnone.symm.trans h
      next hsome =>
        cases hsome.symm.trans h
        rfl
    · rw [takeEscaped?, takeEscape?_of_ne hb] at h
      cases h

theorem ne_percent_of_mem (h : c ≠ '%') : ∀ b ∈ String.utf8EncodeChar c, b ≠ 0x25 := by
  rintro b hb rfl
  by_cases hc : c.toNat < 0x80
  · rw [utf8EncodeChar_ascii hc, List.mem_singleton] at hb
    exact h (by rw [← ofNat_toNat_ascii hc, ← hb]; decide)
  · have := utf8Bytes_wide (Nat.not_lt.mp hc) _
      (map_toNat_utf8EncodeChar c ▸ List.mem_map_of_mem hb)
    exact absurd this (by decide)

theorem takeEscaped?_ascii {c : Char} (hc : c.toNat < 0x80) {e : List Char}
    (he : Escapes (String.utf8EncodeChar c) e) (bs : List UInt8) :
    takeEscaped? preserve (utf8 e ++ bs) = some (utf8 (if preserve c then e else [c]), bs) := by
  obtain ⟨x, y, rfl, hread⟩ := he.ascii hc
  obtain ⟨hx, hy⟩ := ascii_of_hexByte? hread
  have hb : (UInt8.ofNat c.toNat).toNat = c.toNat :=
    UInt8.toNat_ofNat_of_lt' (show c.toNat < 256 by omega)
  rw [takeEscaped?, takeEscape?_of_hexByte? (hb.symm ▸ hread)]
  dsimp only
  rw [hb, if_pos hc, Char.ofNat_toNat]
  cases preserve c with
  | true =>
    rw [if_pos rfl, if_pos rfl, utf8_cons_ascii (by decide), utf8_cons_ascii hx, utf8_cons_ascii hy]
    rfl
  | false =>
    rw [if_neg (by decide), if_neg (by decide), utf8_singleton, utf8EncodeChar_ascii hc]
    rfl

theorem takeEscaped?_wide (hc : 0x80 ≤ c.toNat) (he : Escapes (String.utf8EncodeChar c) e) (bs : List UInt8) :
    takeEscaped? preserve (utf8 e ++ bs) = some (utf8 [c], bs) := by
  have hvalid := Char.isValidUTF8_toByteArray_utf8EncodeChar (c := c)
  obtain ⟨lead, more, p, hform, hp, hlen, hmore⟩ := utf8EncodeChar_wide hc
  rw [hform] at he hvalid
  cases he with
  | cons hx hy he =>
    rw [takeEscaped?, takeEscape?_of_hexByte? (hexByte?_of_escape hx hy)]
    dsimp only
    rw [if_neg (Nat.not_lt.mpr (Pending.lead_le hp)), hp]
    dsimp only
    rw [← hlen, takeContinuations?_escapes he hmore]
    dsimp only
    rw [if_pos hvalid, utf8_singleton, hform]

theorem decodeBytes?_piece {o : List Char} (h : Piece preserve e o) (bs : List UInt8) :
    decodeBytes? preserve (utf8 e ++ bs) = (decodeBytes? preserve bs).map (utf8 o ++ ·) := by
  cases h with
  | plain hc =>
    rw [utf8_singleton]
    exact decodeBytes?_copied (ne_percent_of_mem hc) bs
  | ascii hc he hp | preserved hc he hp =>
    have htake := @takeEscaped?_ascii preserve _ hc _ he bs
    rw [hp] at htake
    exact decodeBytes?_escaped htake
  | wide hc he => exact decodeBytes?_escaped (takeEscaped?_wide hc he bs)

theorem decodeBytes?_of_decodes {out : List Char} (h : Decodes preserve cs out) :
    decodeBytes? preserve (utf8 cs) = some (utf8 out) := by
  obtain ⟨pieces, hall, rfl, rfl⟩ := h
  induction pieces with
  | nil => rw [List.flatMap_nil, List.flatMap_nil, utf8, List.flatMap_nil, decodeBytes?]
  | cons p pieces ih =>
    obtain ⟨hp, hall⟩ := List.forall_mem_cons.mp hall
    rw [List.flatMap_cons, List.flatMap_cons, utf8_append, utf8_append, decodeBytes?_piece hp, ih hall]
    rfl

/-- What the escapes at the head of a text's form contribute comes from a piece of the text. -/
theorem exists_piece_of_takeEscaped? (h : takeEscaped? preserve (utf8 cs) = some (out, rest)) :
    ∃ e o cs', Piece preserve e o ∧ e ≠ [] ∧ cs = e ++ cs' ∧ out = utf8 o ∧ rest = utf8 cs' := by
  have htaken := h
  unfold takeEscaped? at h
  split at h
  next => cases h
  next lead rest' he =>
    obtain ⟨x, y, cs', rfl, hread, rfl⟩ := takeEscape?_utf8 he
    obtain ⟨-, hx, hy⟩ := hexByte?_eq_some_iff.mp hread
    split at h
    next hascii =>
      have hc : (Char.ofNat lead.toNat).toNat = lead.toNat := toNat_ofNat (.inl (by omega))
      have he : Escapes (String.utf8EncodeChar (Char.ofNat lead.toNat)) ['%', x, y] := by
        rw [utf8EncodeChar_ascii (hc.symm ▸ hascii), hc, UInt8.ofNat_toNat]
        exact .cons hx hy .nil
      have htake := @takeEscaped?_ascii preserve _ (hc.symm ▸ hascii) _ he (utf8 cs')
      rw [← utf8_append] at htake
      cases htake.symm.trans htaken
      cases hkept : preserve (Char.ofNat lead.toNat) with
      | true => exact ⟨['%', x, y], ['%', x, y], cs', .preserved (hc.symm ▸ hascii) he hkept, by simp, rfl,
          rfl, rfl⟩
      | false => exact ⟨['%', x, y], [Char.ofNat lead.toNat], cs', .ascii (hc.symm ▸ hascii) he hkept,
          by simp, rfl, rfl, rfl⟩
    next =>
      split at h
      next => cases h
      next p hp =>
        split at h
        next => cases h
        next more rest'' hc =>
          obtain ⟨hvalid, hr⟩ := Option.ite_none_right_eq_some.mp h
          cases hr
          obtain ⟨hlen, e, cs'', rfl, hesc, rfl⟩ := takeContinuations?_utf8 hc
          obtain ⟨c, hwide, hform⟩ := exists_char_of_valid hp hlen hvalid
          refine ⟨'%' :: x :: y :: e, [c], cs'', .wide hwide (hform ▸ .cons hx hy hesc), by simp, rfl, ?_,
            rfl⟩
          rw [utf8_singleton, hform]

/-- What is decoded byte by byte is decoded character by character. -/
theorem decodes_of_decodeBytes? (h : decodeBytes? preserve (utf8 cs) = some bytes) :
    ∃ out, Decodes preserve cs out ∧ bytes = utf8 out := by
  induction hn : cs.length using Nat.strongRecOn generalizing cs bytes with
  | ind n ih =>
    cases cs with
    | nil =>
      rw [utf8, List.flatMap_nil, decodeBytes?] at h
      cases h
      exact ⟨[], .nil, rfl⟩
    | cons c cs =>
      by_cases hc : c = '%'
      · subst hc
        rw [utf8_cons_ascii (by decide), decodeBytes?, if_pos (by decide)] at h
        split at h
        next => cases h
        next out rest htake =>
          rw [← utf8_cons_ascii (by decide)] at htake
          obtain ⟨e, o, cs', hp, hne, hcs, rfl, rfl⟩ := exists_piece_of_takeEscaped? htake
          obtain ⟨bytes', hrest, rfl⟩ := Option.map_eq_some_iff.mp h
          have hlen : 0 < e.length := List.length_pos_iff.mpr hne
          obtain ⟨out', hd, rfl⟩ := ih cs'.length (by rw [← hn, hcs, List.length_append]; omega) hrest rfl
          rw [hcs]
          exact ⟨o ++ out', .cons hp hd, (utf8_append o out').symm⟩
      · rw [utf8_cons, decodeBytes?_copied (ne_percent_of_mem hc)] at h
        obtain ⟨bytes', hrest, rfl⟩ := Option.map_eq_some_iff.mp h
        obtain ⟨out', hd, rfl⟩ := ih cs.length (by rw [← hn, List.length_cons]; omega) hrest rfl
        exact ⟨c :: out', .cons (.plain hc) hd, (utf8_cons c out').symm⟩

theorem decodeBytes?_eq_some_iff :
    decodeBytes? preserve (utf8 cs) = some bytes ↔ ∃ out, Decodes preserve cs out ∧ bytes = utf8 out := by
  refine ⟨decodes_of_decodeBytes?, ?_⟩
  rintro ⟨out, h, rfl⟩
  exact decodeBytes?_of_decodes h

theorem toList_toByteArray (text : String) : text.toByteArray.data.toList = utf8 text.toList := by
  rw [← String.utf8Encode_toList, List.utf8Encode, List.data_toByteArray]
  rfl

theorem fromUTF8?_eq_some_iff {text : String} :
    String.fromUTF8? bytes.toByteArray = some text ↔ bytes = utf8 text.toList := by
  rw [← toList_toByteArray, String.fromUTF8?]
  constructor
  · intro h
    obtain ⟨_, htext⟩ := Option.dite_none_right_eq_some.mp h
    cases htext
    simp [String.fromUTF8]
  · rintro rfl
    have hbytes : text.toByteArray.data.toList.toByteArray = text.toByteArray :=
      ByteArray.ext (by rw [List.data_toByteArray, Array.toArray_toList])
    rw [hbytes, dif_pos text.isValidUTF8]
    rfl

end Text.Percent

/-! ### The functions of scripts -/

open Text.Percent

theorem run_onText_malformed {f : List Char → Option (List Char)} {text : String}
    (h : f text.toList = none) (s : Session) :
    Builtin.onText f (.string text) s =
      (.failed (.host (.native .uriError "URI malformed")), s) := by
  rw [run_onText_string, h, Option.elim_none]

/-- Decoding has a result exactly for the texts that are put together from pieces, the one put together
from what the pieces contribute, and every other text is a malformed URI. Going by the bytes of the text
comes to the same: what is gathered is always the form of a text, namely of that result. -/
theorem uri_decoding_is_exact (preserve : Char → Bool) (text : String) (s : Session) :
    (∀ out, decode? preserve text.toList = some out ↔ Decodes preserve text.toList out) ∧
      (∀ out : String, Builtin.onText (decode? preserve) (.string text) s = (.done (.string out), s) ↔
        Decodes preserve text.toList out.toList) ∧
      (Builtin.onText (decode? preserve) (.string text) s =
          (.failed (.host (.native .uriError "URI malformed")), s) ↔
        ¬ ∃ out, Decodes preserve text.toList out) ∧
      ∀ bytes, decodeBytes? preserve text.toByteArray.data.toList = some bytes ↔
        ∃ out : String, Decodes preserve text.toList out.toList ∧
          String.fromUTF8? bytes.toByteArray = some out := by
  refine ⟨fun _ => decode?_eq_some_iff, fun out => ?_, ?_, fun bytes => ?_⟩
  · rw [← decode?_eq_some_iff]
    cases h : decode? preserve text.toList with
    | some cs =>
      rw [run_onText h]
      refine ⟨fun hrun => ?_, fun hout => ?_⟩
      · cases hrun
        rw [String.toList_ofList]
      · cases hout
        rw [String.ofList_toList]
    | none =>
      rw [run_onText_malformed h]
      exact ⟨nofun, nofun⟩
  · simp only [← decode?_eq_some_iff]
    cases h : decode? preserve text.toList with
    | some cs =>
      rw [run_onText h]
      exact ⟨nofun, fun hnone => absurd ⟨cs, rfl⟩ hnone⟩
    | none =>
      rw [run_onText_malformed h]
      exact ⟨fun _ => nofun, fun _ => rfl⟩
  · simp only [toList_toByteArray, decodeBytes?_eq_some_iff, fromUTF8?_eq_some_iff]
    refine ⟨?_, ?_⟩
    · rintro ⟨out, hd, rfl⟩
      exact ⟨String.ofList out, by rwa [String.toList_ofList], by rw [String.toList_ofList]⟩
    · rintro ⟨out, hd, rfl⟩
      exact ⟨out.toList, hd, rfl⟩

end Surmise
