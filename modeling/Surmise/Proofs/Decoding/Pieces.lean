import Mathlib.Data.List.Basic
import Surmise.Proofs.Percent

/-! Decoding takes exactly the texts that are made of whole pieces: characters that begin no escape,
escapes of ASCII characters, and all escapes of a longer form one after the other. What it gives is what
the pieces stand for. -/
namespace Surmise

namespace Text.Percent

variable {preserve : Char → Bool}

/-! ### Pieces -/

def IsHexDigit (n : Nat) (c : Char) : Prop :=
  n < 16 ∧ (c = Radix.hexDigit n ∨ c = Radix.hexDigitUpper n)

inductive Escapes : List UInt8 → List Char → Prop
  | nil : Escapes [] []
  | cons {b : UInt8} {bs : List UInt8} {x y : Char} {cs : List Char} :
      IsHexDigit (b.toNat / 16) x → IsHexDigit (b.toNat % 16) y → Escapes bs cs →
        Escapes (b :: bs) ('%' :: x :: y :: cs)

/-- A piece of percent-coded text, and what it contributes to the decoded one. -/
inductive Piece (preserve : Char → Bool) : List Char → List Char → Prop
  | plain {c : Char} : c ≠ '%' → Piece preserve [c] [c]
  | ascii {c : Char} {e : List Char} : c.toNat < 0x80 → Escapes (String.utf8EncodeChar c) e →
      preserve c = false → Piece preserve e [c]
  | preserved {c : Char} {e : List Char} : c.toNat < 0x80 → Escapes (String.utf8EncodeChar c) e →
      preserve c = true → Piece preserve e e
  | wide {c : Char} {e : List Char} : 0x80 ≤ c.toNat → Escapes (String.utf8EncodeChar c) e →
      Piece preserve e [c]

/-- The text is put together from pieces, and `out` from what they contribute. -/
def Decodes (preserve : Char → Bool) (cs out : List Char) : Prop :=
  ∃ pieces : List (List Char × List Char), (∀ p ∈ pieces, Piece preserve p.1 p.2) ∧
    pieces.flatMap Prod.fst = cs ∧ pieces.flatMap Prod.snd = out

theorem Decodes.nil : Decodes preserve [] [] := ⟨[], List.forall_mem_nil _, rfl, rfl⟩

theorem Decodes.cons {e o cs out : List Char} (hp : Piece preserve e o)
    (h : Decodes preserve cs out) : Decodes preserve (e ++ cs) (o ++ out) := by
  obtain ⟨pieces, hall, rfl, rfl⟩ := h
  exact ⟨(e, o) :: pieces, List.forall_mem_cons.mpr ⟨hp, hall⟩, rfl, rfl⟩

/-! ### Digits and bytes -/

variable {n : Nat} {c x y : Char} {cs : List Char}

theorem toNat_lt_of_digit? (h : Radix.digit? 16 c = some n) : c.toNat < 128 := by
  unfold Radix.digit? Radix.digitValue at h
  have hle {a b : Char} (hab : a ≤ b) : a.toNat ≤ b.toNat := hab
  split at h
  next hc => exact Nat.lt_of_le_of_lt (hle hc.2) (by decide)
  split at h
  next hc => exact Nat.lt_of_le_of_lt (hle hc.2) (by decide)
  split at h
  next hc => exact Nat.lt_of_le_of_lt (hle hc.2) (by decide)
  next => cases h

theorem digit?_eq_some_iff : Radix.digit? 16 c = some n ↔ IsHexDigit n c := by
  have hread : ∀ n : Fin 16, Radix.digit? 16 (Radix.hexDigit n) = some n.val ∧
      Radix.digit? 16 (Radix.hexDigitUpper n) = some n.val := by decide
  have hwritten : ∀ k : Fin 128, ∀ n : Fin 16, Radix.digit? 16 (Char.ofNat k) = some n.val →
      Char.ofNat k = Radix.hexDigit n ∨ Char.ofNat k = Radix.hexDigitUpper n := by decide +kernel
  constructor
  · intro h
    have hn : n < 16 := by simpa using (Option.filter_eq_some_iff.mp h).2
    have hc := hwritten ⟨c.toNat, toNat_lt_of_digit? h⟩ ⟨n, hn⟩
    rw [Char.ofNat_toNat] at hc
    exact ⟨hn, hc h⟩
  · rintro ⟨hn, rfl | rfl⟩
    · exact (hread ⟨n, hn⟩).1
    · exact (hread ⟨n, hn⟩).2

theorem hexByte?_eq_some_iff :
    hexByte? x y = some n ↔ n < 256 ∧ IsHexDigit (n / 16) x ∧ IsHexDigit (n % 16) y := by
  rw [← digit?_eq_some_iff, ← digit?_eq_some_iff]
  unfold hexByte?
  constructor
  · intro h
    split at h
    next a b ha hb =>
      cases h
      have hlt := (digit?_eq_some_iff.mp ha).1
      have hlt' := (digit?_eq_some_iff.mp hb).1
      refine ⟨by omega, ha.trans (congrArg some ?_), hb.trans (congrArg some ?_)⟩ <;> omega
    next => cases h
  · rintro ⟨-, hx, hy⟩
    rw [hx, hy]
    exact congrArg some (Nat.div_add_mod n 16)

theorem hexByte?_of_escape {b : UInt8} (hx : IsHexDigit (b.toNat / 16) x) (hy : IsHexDigit (b.toNat % 16) y) :
    hexByte? x y = some b.toNat :=
  hexByte?_eq_some_iff.mpr ⟨b.toNat_lt, hx, hy⟩

theorem Escapes.cons_of_hexByte? (h : hexByte? x y = some n) {bs : List UInt8} (hr : Escapes bs cs) :
    Escapes (UInt8.ofNat n :: bs) ('%' :: x :: y :: cs) := by
  obtain ⟨hn, hx, hy⟩ := hexByte?_eq_some_iff.mp h
  have hb : (UInt8.ofNat n).toNat = n := UInt8.toNat_ofNat_of_lt' hn
  exact .cons (hb.symm ▸ hx) (hb.symm ▸ hy) hr

/-! ### UTF-8 forms -/

variable {p : Pending}

theorem toNat_ofNat (h : n.isValidChar) : (Char.ofNat n).toNat = n := by
  unfold Char.ofNat
  rw [dif_pos h]
  rfl

theorem utf8EncodeChar_eq (c : Char) : String.utf8EncodeChar c = (utf8Bytes c).map UInt8.ofNat := by
  have hmax := toNat_lt c
  unfold String.utf8EncodeChar utf8Bytes
  rw [show c.val.toNat = c.toNat from rfl]
  generalize c.toNat = n at hmax
  dsimp only
  by_cases h₁ : n < 0x80
  · rw [if_pos h₁, if_pos (show n ≤ 127 by omega)]
    rfl
  rw [if_neg h₁, if_neg (show ¬ n ≤ 127 by omega)]
  by_cases h₂ : n < 0x800
  · rw [if_pos h₂, if_pos (show n ≤ 2047 by omega), show n / 64 % 32 + 192 = 0xC0 + n / 64 by omega,
      Nat.add_comm (n % 64)]
    rfl
  rw [if_neg h₂, if_neg (show ¬ n ≤ 2047 by omega)]
  by_cases h₃ : n < 0x10000
  · rw [if_pos h₃, if_pos (show n ≤ 65535 by omega),
      show n / 4096 % 16 + 224 = 0xE0 + n / 4096 by omega, Nat.add_comm (n % 64),
      Nat.add_comm (n / 64 % 64)]
    rfl
  rw [if_neg h₃, if_neg (show ¬ n ≤ 65535 by omega),
    show n / 262144 % 8 + 240 = 0xF0 + n / 262144 by omega, Nat.add_comm (n % 64),
    Nat.add_comm (n / 64 % 64), Nat.add_comm (n / 4096 % 64)]
  rfl

theorem map_toNat_ofNat {bs : List Nat} (h : ∀ b ∈ bs, b < 256) :
    (bs.map UInt8.ofNat).map UInt8.toNat = bs := by
  rw [List.map_map]
  refine (List.map_congr_left fun b hb => ?_).trans bs.map_id
  exact UInt8.toNat_ofNat_of_lt' (h b hb)

theorem utf8Bytes_lt (c : Char) : ∀ b ∈ utf8Bytes c, b < 256 := by
  have hmax := toNat_lt c
  unfold utf8Bytes
  generalize c.toNat = n at hmax
  intro b hb
  grind

theorem map_toNat_utf8EncodeChar (c : Char) :
    (String.utf8EncodeChar c).map UInt8.toNat = utf8Bytes c := by
  rw [utf8EncodeChar_eq, map_toNat_ofNat (utf8Bytes_lt c)]

theorem utf8Bytes_ascii (h : c.toNat < 0x80) : utf8Bytes c = [c.toNat] := if_pos h

theorem utf8Bytes_wide (h : 0x80 ≤ c.toNat) : ∀ b ∈ utf8Bytes c, 0x80 ≤ b := by
  unfold utf8Bytes
  generalize c.toNat = n at h
  intro b hb
  grind

/-- Groups of six bits after a lead byte are the encoding of the character with this code. -/
theorem utf8Bytes_of_form {lead : Nat} (hp : Pending.ofLead? lead = some p) {groups : List Nat}
    (hlen : groups.length = p.left) (hg : ∀ x ∈ groups, x < 0x40) (hl : p.least ≤ joinBits p.code groups)
    (hv : (joinBits p.code groups).isValidChar) :
    utf8Bytes (Char.ofNat (joinBits p.code groups)) = lead :: groups.map (0x80 + ·) := by
  have hmax := toNat_lt (Char.ofNat (joinBits p.code groups))
  unfold utf8Bytes
  rw [toNat_ofNat hv] at hmax ⊢
  generalize hn : joinBits p.code groups = n at hl hmax
  unfold joinBits at hn
  unfold Pending.ofLead? at hp
  dsimp only
  split at hp
  next hlead =>
    cases hp
    obtain ⟨x, rfl⟩ := List.length_eq_one_iff.mp hlen
    have hx := hg x (by simp)
    simp only [List.foldl_cons, List.foldl_nil] at hn hl
    rw [if_neg (by omega), if_pos (by omega), show 0xC0 + n / 0x40 = lead by omega,
      show n % 0x40 = x by omega]
    rfl
  split at hp
  next hlead =>
    cases hp
    obtain ⟨x, y, rfl⟩ := List.length_eq_two.mp hlen
    have hx := hg x (by simp)
    have hy := hg y (by simp)
    simp only [List.foldl_cons, List.foldl_nil] at hn hl
    rw [if_neg (by omega), if_neg (by omega), if_pos (by omega),
      show 0xE0 + n / 0x1000 = lead by omega, show n / 0x40 % 0x40 = x by omega,
      show n % 0x40 = y by omega]
    rfl
  split at hp
  next hlead =>
    cases hp
    obtain ⟨x, y, z, rfl⟩ := List.length_eq_three.mp hlen
    have hx := hg x (by simp)
    have hy := hg y (by simp)
    have hz := hg z (by simp)
    simp only [List.foldl_cons, List.foldl_nil] at hn hl
    rw [if_neg (by omega), if_neg (by omega), if_neg (by omega),
      show 0xF0 + n / 0x40000 = lead by omega, show n / 0x1000 % 0x40 = x by omega,
      show n / 0x40 % 0x40 = y by omega, show n % 0x40 = z by omega]
    rfl
  next => cases hp

/-! ### Pieces are decoded -/

variable {e out : List Char}

theorem decodeFrom_escapes {bs : List UInt8} (h : Escapes bs e) (hb : ∀ b ∈ bs, 0x80 ≤ b.toNat)
    (pending : Option Pending) (cs : List Char) :
    decodeFrom preserve pending (e ++ cs) =
      decodeFrom preserve pending ((bs.map UInt8.toNat).flatMap escapeByte ++ cs) := by
  induction h generalizing pending with
  | nil => rfl
  | @cons b bs x y e hx hy _ ih =>
    have hread := hexByte?_of_escape hx hy
    have hwritten := hexByte?_escape b.toNat_lt
    have hb₀ : ¬ b.toNat < 0x80 := Nat.not_lt.mpr (hb b (by simp))
    have ih := ih fun b hb' => hb b (.tail _ hb')
    cases pending with
    | none => simp [escapeByte, decodeFrom, hread, hwritten, hb₀, ih]
    | some p => simp [escapeByte, decodeFrom, hread, hwritten, ih]

theorem Escapes.ascii (hc : c.toNat < 0x80) (h : Escapes (String.utf8EncodeChar c) e) :
    ∃ x y, e = ['%', x, y] ∧ hexByte? x y = some c.toNat := by
  rw [utf8EncodeChar_eq, utf8Bytes_ascii hc] at h
  cases h with
  | cons hx hy hr =>
    cases hr
    have hread := hexByte?_of_escape hx hy
    rw [UInt8.toNat_ofNat_of_lt' (show c.toNat < 256 by omega)] at hread
    exact ⟨_, _, rfl, hread⟩

theorem decodeFrom_piece (h : Piece preserve e out) (cs : List Char) :
    decodeFrom preserve none (e ++ cs) = (decodeFrom preserve none cs).map (out ++ ·) := by
  cases h with
  | plain hc => exact decodeFrom_kept hc cs
  | ascii hc he hp | preserved hc he hp =>
    obtain ⟨x, y, rfl, hread⟩ := he.ascii hc
    simp [decodeFrom, hread, hc, Char.ofNat_toNat, hp]
  | @wide c e hc he =>
    have hbytes : ∀ b ∈ String.utf8EncodeChar c, 0x80 ≤ b.toNat := fun b hb =>
      utf8Bytes_wide hc _ (map_toNat_utf8EncodeChar c ▸ List.mem_map_of_mem hb)
    rw [decodeFrom_escapes he hbytes, map_toNat_utf8EncodeChar,
      decodeFrom_utf8Bytes fun h => absurd h (Nat.not_lt.mpr hc)]
    rfl

theorem decode?_of_decodes (h : Decodes preserve cs out) : decode? preserve cs = some out := by
  obtain ⟨pieces, hall, rfl, rfl⟩ := h
  unfold decode?
  induction pieces with
  | nil => rfl
  | cons p pieces ih =>
    obtain ⟨hp, hall⟩ := List.forall_mem_cons.mp hall
    rw [List.flatMap_cons, List.flatMap_cons, decodeFrom_piece hp, ih hall]
    rfl

/-! ### What is decoded is made of pieces -/

/-- Inside a sequence the decoder can only go on with an escape of a continuation byte. -/
theorem decodeFrom_some_inv (h : decodeFrom preserve (some p) cs = some out) :
    ∃ x y rest byte, cs = '%' :: x :: y :: rest ∧ hexByte? x y = some byte ∧ 0x80 ≤ byte ∧
      byte < 0xC0 ∧
      if p.left = 1 then
        ∃ c out', p.finish? (0x40 * p.code + (byte - 0x80)) = some c ∧ out = c :: out' ∧
          decodeFrom preserve none rest = some out'
      else
        decodeFrom preserve
          (some { p with left := p.left - 1, code := 0x40 * p.code + (byte - 0x80) }) rest =
            some out := by
  unfold decodeFrom at h
  split at h
  next hnone => cases hnone
  next => cases h
  next x y rest =>
    split at h
    next => cases h
    next hnone => cases hnone
    next byte q hread hq =>
      cases hq
      split at h
      next hbyte =>
        refine ⟨x, y, rest, byte, rfl, hread, hbyte.1, hbyte.2, ?_⟩
        split
        next hleft =>
          rw [if_pos hleft] at h
          split at h
          next => cases h
          next c hc =>
            obtain ⟨out', hrest, rfl⟩ := Option.map_eq_some_iff.mp h
            exact ⟨c, out', hc, rfl, hrest⟩
        next hleft => rwa [if_neg hleft] at h
      next => cases h
  next hnone => cases hnone
  next => cases h

theorem Pending.of_finish? {code : Nat} (h : p.finish? code = some c) :
    p.least ≤ code ∧ code.isValidChar ∧ c = Char.ofNat code := by
  obtain ⟨⟨hl, hv⟩, hc⟩ := Option.ite_none_right_eq_some.mp h
  exact ⟨hl, hv, (Option.some.inj hc).symm⟩

theorem joinBits_nil (code : Nat) : joinBits code [] = code := rfl

theorem joinBits_cons (code x : Nat) (groups : List Nat) :
    joinBits code (x :: groups) = joinBits (0x40 * code + x) groups := rfl

/-- A sequence that was begun is taken to its end before anything else is decoded. -/
theorem decodeFrom_some_groups (hp : p.left = n + 1) (h : decodeFrom preserve (some p) cs = some out) :
    ∃ groups e rest out', groups.length = p.left ∧ (∀ x ∈ groups, x < 0x40) ∧
      p.least ≤ joinBits p.code groups ∧ (joinBits p.code groups).isValidChar ∧
      Escapes ((groups.map (0x80 + ·)).map UInt8.ofNat) e ∧ cs = e ++ rest ∧
      out = Char.ofNat (joinBits p.code groups) :: out' ∧
      decodeFrom preserve none rest = some out' := by
  induction n generalizing p cs with
  | zero =>
    obtain ⟨x, y, rest, byte, rfl, hread, hlow, hhigh, hend⟩ := decodeFrom_some_inv h
    rw [if_pos hp] at hend
    obtain ⟨c, out', hc, rfl, hrest⟩ := hend
    obtain ⟨hl, hv, hc⟩ := Pending.of_finish? hc
    refine ⟨[byte - 0x80], ['%', x, y], rest, out', hp.symm, ?_, ?_⟩
    · exact List.forall_mem_singleton.mpr (by omega)
    · rw [joinBits_cons, joinBits_nil, List.map_singleton, List.map_singleton,
        Nat.add_sub_cancel' hlow]
      exact ⟨hl, hv, .cons_of_hexByte? hread .nil, rfl, congrArg (· :: out') hc, hrest⟩
  | succ n ih =>
    obtain ⟨x, y, rest, byte, rfl, hread, hlow, hhigh, hend⟩ := decodeFrom_some_inv h
    rw [if_neg (by omega)] at hend
    obtain ⟨groups, e, rest, out', hlen, hg, hl, hv, he, rfl, rfl, hrest⟩ :=
      ih (p := { p with left := p.left - 1, code := _ }) (by simp [hp]) hend
    refine ⟨(byte - 0x80) :: groups, '%' :: x :: y :: e, rest, out', ?_, ?_, ?_⟩
    · rw [List.length_cons, hlen]
      dsimp only
      omega
    · exact List.forall_mem_cons.mpr ⟨by omega, hg⟩
    · rw [joinBits_cons, List.map_cons, List.map_cons, Nat.add_sub_cancel' hlow]
      exact ⟨hl, hv, .cons_of_hexByte? hread he, rfl, rfl, hrest⟩

theorem Pending.left_of_ofLead? {lead : Nat} (h : Pending.ofLead? lead = some p) :
    p.left = p.left - 1 + 1 ∧ 0x80 ≤ p.least := by
  unfold Pending.ofLead? at h
  split at h
  next => cases h; exact ⟨rfl, by simp⟩
  split at h
  next => cases h; exact ⟨rfl, by simp⟩
  split at h
  next => cases h; exact ⟨rfl, by simp⟩
  next => cases h

/-- What is decoded begins with a piece, unless nothing is left. -/
theorem exists_piece (h : decodeFrom preserve none cs = some out) :
    (cs = [] ∧ out = []) ∨ ∃ e o rest out', Piece preserve e o ∧ e ≠ [] ∧ cs = e ++ rest ∧
      out = o ++ out' ∧ decodeFrom preserve none rest = some out' := by
  unfold decodeFrom at h
  split at h
  next => exact .inl ⟨rfl, (Option.some.inj h).symm⟩
  next hsome => cases hsome
  next x y rest =>
    right
    split at h
    next => cases h
    next byte hread _ =>
      split at h
      next hascii =>
        obtain ⟨out', hrest, rfl⟩ := Option.map_eq_some_iff.mp h
        have hc := toNat_ofNat (show byte.isValidChar from .inl (by omega))
        have he : Escapes (String.utf8EncodeChar (Char.ofNat byte)) ['%', x, y] := by
          rw [utf8EncodeChar_eq, utf8Bytes_ascii (hc.symm ▸ hascii), hc]
          exact .cons_of_hexByte? hread .nil
        cases hkept : preserve (Char.ofNat byte) with
        | true => exact ⟨['%', x, y], ['%', x, y], rest, out', .preserved (hc.symm ▸ hascii) he hkept,
            by simp, rfl, rfl, hrest⟩
        | false => exact ⟨['%', x, y], [Char.ofNat byte], rest, out', .ascii (hc.symm ▸ hascii) he hkept,
            by simp, rfl, rfl, hrest⟩
      next hwide =>
        split at h
        next => cases h
        next p hp =>
          obtain ⟨groups, e, rest, out', hlen, hg, hl, hv, he, rfl, rfl, hrest⟩ :=
            decodeFrom_some_groups (Pending.left_of_ofLead? hp).1 h
          have hform := utf8Bytes_of_form hp hlen hg hl hv
          refine ⟨'%' :: x :: y :: e, [Char.ofNat (joinBits p.code groups)], rest, out', ?_, by simp, rfl,
            rfl, hrest⟩
          refine .wide ?_ ?_
          · rw [toNat_ofNat hv]
            exact Nat.le_trans (Pending.left_of_ofLead? hp).2 hl
          · rw [utf8EncodeChar_eq, hform]
            exact .cons_of_hexByte? hread he
    next hsome => cases hsome
  next c cs _ _ =>
    right
    split at h
    next => cases h
    next hc =>
      obtain ⟨out', hrest, rfl⟩ := Option.map_eq_some_iff.mp h
      exact ⟨[c], [c], cs, out', .plain hc, by simp, rfl, rfl, hrest⟩
  next hsome => cases hsome

theorem decodes_of_decode? (h : decode? preserve cs = some out) : Decodes preserve cs out := by
  induction hn : cs.length using Nat.strongRecOn generalizing cs out with
  | ind n ih =>
    obtain ⟨rfl, rfl⟩ | ⟨e, o, rest, out', hp, hne, rfl, rfl, hrest⟩ := exists_piece h
    · exact .nil
    · have hlen : 0 < e.length := List.length_pos_iff.mpr hne
      exact .cons hp (ih rest.length (by rw [← hn, List.length_append]; omega) hrest rfl)

theorem decode?_eq_some_iff : decode? preserve cs = some out ↔ Decodes preserve cs out :=
  ⟨decodes_of_decode?, decode?_of_decodes⟩

end Text.Percent
end Surmise
