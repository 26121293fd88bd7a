import Surmise.Proofs.Running

/-! Percent coding loses nothing: what is encoded decodes to what it was, whatever characters are kept
when encoding and preserved when decoding, so long as no kept character begins an escape and no preserved
one is escaped. A character beyond ASCII is followed through the bytes of its form, a lead byte and the
continuation bytes with six bits each. -/
namespace Surmise

namespace Text.Percent

variable {preserve keep : Char → Bool}

/-! ### Escapes of bytes -/

theorem digit?_hexDigitUpper {n : Nat} (h : n < 16) :
    Radix.digit? 16 (Radix.hexDigitUpper n) = some n := by
  have hall : ∀ n : Fin 16, Radix.digit? 16 (Radix.hexDigitUpper n) = some n.val := by decide
  exact hall ⟨n, h⟩

theorem hexByte?_escape {b : Nat} (h : b < 256) :
    hexByte? (Radix.hexDigitUpper (b / 16)) (Radix.hexDigitUpper (b % 16)) = some b := by
  unfold hexByte?
  rw [digit?_hexDigitUpper (by omega), digit?_hexDigitUpper (by omega)]
  exact congrArg some (Nat.div_add_mod b 16)

theorem decodeFrom_ascii {b : Nat} (hb : b < 0x80) (hp : preserve (Char.ofNat b) = false)
    (cs : List Char) :
    decodeFrom preserve none (escapeByte b ++ cs) =
      (decodeFrom preserve none cs).map (Char.ofNat b :: ·) := by
  simp [escapeByte, decodeFrom, hexByte?_escape (show b < 256 by omega), hb, hp]

theorem decodeFrom_lead {b : Nat} {p : Pending} (hb : 0x80 ≤ b) (h : b < 256)
    (hp : Pending.ofLead? b = some p) (cs : List Char) :
    decodeFrom preserve none (escapeByte b ++ cs) = decodeFrom preserve (some p) cs := by
  simp [escapeByte, decodeFrom, hexByte?_escape h, Nat.not_lt.mpr hb, hp]

def joinBits (code : Nat) (groups : List Nat) : Nat := groups.foldl (fun n x => 0x40 * n + x) code

theorem decodeFrom_continuations {groups : List Nat} (hne : groups ≠ [])
    (hg : ∀ x ∈ groups, x < 0x40) (code least : Nat) (hl : least ≤ joinBits code groups)
    (hv : (joinBits code groups).isValidChar) (cs : List Char) :
    decodeFrom preserve (some ⟨groups.length, code, least⟩)
        (groups.flatMap (fun x => escapeByte (0x80 + x)) ++ cs) =
      (decodeFrom preserve none cs).map (Char.ofNat (joinBits code groups) :: ·) := by
  induction groups generalizing code with
  | nil => exact absurd rfl hne
  | cons x groups ih =>
    have hx : x < 0x40 := hg x (by simp)
    have hbyte := hexByte?_escape (show 0x80 + x < 256 by omega)
    have hrange : 0x80 ≤ 0x80 + x ∧ 0x80 + x < 0xC0 := by omega
    rw [List.flatMap_cons, List.append_assoc]
    cases groups with
    | nil =>
      simp only [joinBits, List.foldl_cons, List.foldl_nil] at hl hv ⊢
      simp [escapeByte, decodeFrom, hbyte, hrange, Pending.finish?, hl, hv]
    | cons y groups =>
      have hrest := ih (List.cons_ne_nil y groups) (fun z hz => hg z (.tail _ hz))
        (0x40 * code + x) hl hv
      rw [show joinBits code (x :: y :: groups) = joinBits (0x40 * code + x) (y :: groups) from rfl,
        ← hrest]
      simp [escapeByte, decodeFrom, hbyte, hrange]

/-! ### Characters -/

theorem decodeFrom_form {c : Char} {lead : Nat} (groups : List Nat) (code least : Nat)
    (hb : 0x80 ≤ lead) (h : lead < 256)
    (hp : Pending.ofLead? lead = some ⟨groups.length, code, least⟩) (hne : groups ≠ [])
    (hg : ∀ x ∈ groups, x < 0x40) (hc : joinBits code groups = c.toNat) (hl : least ≤ c.toNat)
    (cs : List Char) :
    decodeFrom preserve none
        ((lead :: groups.map (0x80 + ·)).flatMap escapeByte ++ cs) =
      (decodeFrom preserve none cs).map (c :: ·) := by
  rw [List.flatMap_cons, List.append_assoc, decodeFrom_lead hb h hp, List.flatMap_map,
    decodeFrom_continuations hne hg code least (hc ▸ hl) (hc ▸ c.valid) cs, hc, Char.ofNat_toNat]

theorem toNat_lt (c : Char) : c.toNat < 0x110000 := (not_surrogate c).2

/-- The escapes of the bytes of a character are decoded as the character. -/
theorem decodeFrom_utf8Bytes {c : Char} (hp : c.toNat < 0x80 → preserve c = false)
    (cs : List Char) :
    decodeFrom preserve none ((utf8Bytes c).flatMap escapeByte ++ cs) =
      (decodeFrom preserve none cs).map (c :: ·) := by
  have hmax := toNat_lt c
  unfold utf8Bytes
  generalize hn : c.toNat = n at *
  dsimp only
  split
  next hascii =>
    have hc : Char.ofNat n = c := by rw [← hn, Char.ofNat_toNat]
    rw [List.flatMap_singleton, decodeFrom_ascii hascii (hc ▸ hp hascii), hc]
  split
  next htwo =>
    refine decodeFrom_form [n % 0x40] (n / 0x40) 0x80 (by omega) (by omega) ?_ (by simp) ?_ ?_ ?_ cs
    · unfold Pending.ofLead?
      rw [if_pos (by omega), Nat.add_sub_cancel_left]
      rfl
    · simp; omega
    · rw [hn]; unfold joinBits; simp only [List.foldl_cons, List.foldl_nil]; omega
    · omega
  split
  next hthree =>
    refine decodeFrom_form [n / 0x40 % 0x40, n % 0x40] (n / 0x1000) 0x800 (by omega) (by omega) ?_
      (by simp) ?_ ?_ ?_ cs
    · unfold Pending.ofLead?
      rw [if_neg (by omega), if_pos (by omega), Nat.add_sub_cancel_left]
      rfl
    · simp; omega
    · rw [hn]; unfold joinBits; simp only [List.foldl_cons, List.foldl_nil]; omega
    · omega
  next hfour =>
    refine decodeFrom_form [n / 0x1000 % 0x40, n / 0x40 % 0x40, n % 0x40] (n / 0x40000) 0x10000
      (by omega) (by omega) ?_ (by simp) ?_ ?_ ?_ cs
    · unfold Pending.ofLead?
      rw [if_neg (by omega), if_neg (by omega), if_pos (by omega), Nat.add_sub_cancel_left]
      rfl
    · simp; omega
    · rw [hn]; unfold joinBits; simp only [List.foldl_cons, List.foldl_nil]; omega
    · omega

/-! ### Texts -/

theorem decodeFrom_kept {c : Char} (h : c ≠ '%') (cs : List Char) :
    decodeFrom preserve none (c :: cs) = (decodeFrom preserve none cs).map (c :: ·) := by
  rw [decodeFrom]
  · exact if_neg h
  · rintro a b rest rfl
    exact absurd rfl h

theorem decodeFrom_encode (hk : keep '%' = false)
    (hp : ∀ c : Char, c.toNat < 0x80 → preserve c = true → keep c = true) (cs : List Char) :
    decodeFrom preserve none (encode keep cs) = some cs := by
  induction cs with
  | nil => rfl
  | cons c cs ih =>
    unfold encode at ih ⊢
    rw [List.flatMap_cons]
    split
    next hkept =>
      rw [Bool.and_eq_true, decide_eq_true_eq] at hkept
      have hc : c ≠ '%' := by
        rintro rfl
        rw [hk] at hkept
        exact absurd hkept.2 (by simp)
      rw [List.singleton_append, decodeFrom_kept hc, ih]
      rfl
    next hescaped =>
      have hc : c.toNat < 0x80 → preserve c = false := by
        intro hascii
        rw [Bool.eq_false_iff]
        exact fun hpreserved => hescaped (by simp [hascii, hp c hascii hpreserved])
      rw [decodeFrom_utf8Bytes hc, ih]
      rfl

end Text.Percent

/-! ### The functions of scripts -/

open Text.Percent

/-- A function on texts has what is made of the text as its value, and fails where nothing is made of it. -/
theorem run_onText_string (f : List Char → Option (List Char)) (text : String) (s : Session) :
    Builtin.onText f (.string text) s =
      ((f text.toList).elim (.failed (.host (.native .uriError "URI malformed")))
        fun out => .done (.string (String.ofList out)), s) := by
  have hread : Eval.onHeap (fun h => h.toText? (.string text)) s = (.done (some text), s) := rfl
  unfold Builtin.onText
  rw [Eval.run_bind hread]
  dsimp only
  cases f text.toList <;> rfl

theorem run_onText {f : List Char → Option (List Char)} {text : String} {out : List Char}
    (h : f text.toList = some out) (s : Session) :
    Builtin.onText f (.string text) s = (.done (.string (String.ofList out)), s) := by
  rw [run_onText_string, h, Option.elim_some]

/-- A text is encoded by one function and decoded by the other. -/
theorem run_onText_round_trip (keep preserve : Char → Bool) (hk : keep '%' = false)
    (hp : ∀ c : Char, c.toNat < 0x80 → preserve c = true → keep c = true) (text : String)
    (s : Session) :
    ∃ out, Builtin.onText (fun cs => some (encode keep cs)) (.string text) s =
        (.done (.string out), s) ∧
      Builtin.onText (decode? preserve) (.string out) s = (.done (.string text), s) := by
  have hdecode : decode? preserve (String.ofList (encode keep text.toList)).toList =
      some text.toList := by
    rw [String.toList_ofList]
    exact decodeFrom_encode hk hp text.toList
  have hencode : (fun cs => some (encode keep cs)) text.toList = some (encode keep text.toList) := rfl
  refine ⟨String.ofList (encode keep text.toList), run_onText hencode s, ?_⟩
  rw [run_onText hdecode, String.ofList_toList]

inductive Builtin.Decodes : (encoder decoder : Builtin) → Prop where
  | uri : Decodes .encodeURI .decodeURI
  | component : Decodes .encodeURIComponent .decodeURIComponent

theorem Builtin.Decodes.run [Platform] {encoder decoder : Builtin} (h : encoder.Decodes decoder) (host : Host)
    (inner call : Invoke) (options : CallOptions) (text : String) (s : Session) :
    ∃ out, encoder.run host inner call [.string text] options s = (.done (.string out), s) ∧
      decoder.run host inner call [.string out] options s = (.done (.string text), s) := by
  cases h with
  | uri =>
    exact run_onText_round_trip (fun c => isUnreserved c || isReservedOrHash c) isReservedOrHash
      (by decide) (fun c _ hc => by simp [hc]) text s
  | component =>
    exact run_onText_round_trip isUnreserved (fun _ => false) (by decide) (fun _ _ => nofun) text s

/-- Decoding undoes encoding on every text, for all sets of characters that are kept and preserved, if
the percent sign is not kept and what is preserved in ASCII is kept. So each of the two decoders of
scripts undoes its encoder. -/
theorem uri_round_trip [Platform] :
    (∀ (keep preserve : Char → Bool) (text : String), keep '%' = false →
      (∀ c : Char, c.toNat < 0x80 → preserve c = true → keep c = true) →
      decode? preserve (encode keep text.toList) = some text.toList) ∧
    ∀ (host : Host) (contexts : Nat) (options : CallOptions) (s : Session)
      (receiver encoding decoding : Value) (encoder decoder : Builtin) (text : String),
      encoder.Decodes decoder → receiver.isUnknown = false →
      s.heap.callable? encoding = some (.builtin encoder) →
      s.heap.callable? decoding = some (.builtin decoder) →
      ∃ out,
        invoke host (contexts + 1) encoding receiver [.string text] options s =
          (.done (.string out), s) ∧
        invoke host (contexts + 1) decoding receiver [.string out] options s =
          (.done (.string text), s) := by
  refine ⟨fun keep preserve text hk hp => decodeFrom_encode hk hp text.toList, ?_⟩
  intro host contexts options s receiver encoding decoding encoder decoder text h hr he hd
  obtain ⟨out, hencode, hdecode⟩ := h.run host (invoke host contexts)
    (relay host (invoke host contexts) 16) options text s
  refine ⟨out, ?_, ?_⟩
  · rw [invoke_builtin host contexts receiver [.string text] options he]
    exact run_guarded hr rfl hencode
  · rw [invoke_builtin host contexts receiver [.string out] options hd]
    exact run_guarded hr rfl hdecode

def Session.percent : Session :=
  .ofHeap ⟨#[.ofCallable (.builtin .encodeURI), .ofCallable (.builtin .decodeURI)]⟩

/-- A text with a reserved character, an escape and characters of every width, in code that keeps and
preserves only the slash. -/
theorem uri_round_trip_widths :
    (fun c => c == '/') '%' = false ∧
      (∀ c : Char, c.toNat < 0x80 → (fun c => c == '/') c = true → (fun c => c == '/') c = true) ∧
      decode? (fun c => c == '/') (encode (fun c => c == '/') "/%2Fé€😀".toList) =
        some "/%2Fé€😀".toList ∧
      ∃ out,
        invoke .standard 1 (.object ⟨0⟩) .undefined [.string "/%2Fé€😀"] {} .percent =
          (.done (.string out), .percent) ∧
        invoke .standard 1 (.object ⟨1⟩) .undefined [.string out] {} .percent =
          (.done (.string "/%2Fé€😀"), .percent) :=
  ⟨rfl, fun _ _ h => h, uri_round_trip.1 _ _ _ rfl fun _ _ h => h,
    uri_round_trip.2 .standard 0 {} .percent .undefined (.object ⟨0⟩) (.object ⟨1⟩) _ _ _ .uri rfl rfl
      rfl⟩

end Surmise
