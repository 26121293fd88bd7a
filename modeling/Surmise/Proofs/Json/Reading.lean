import Surmise.Proofs.Json.Document
import Surmise.Proofs.Json.Numerals

/-! Documents are read back from their texts. A value is read in front of whatever closes it, so that
the texts of members can stand side by side. -/
namespace Surmise
namespace Json

/-! ### Strings -/

variable {c : Char} {fuel : Nat}

theorem hex_control : ∀ n < 32,
    ['0', '0', Radix.hexDigit (n / 16), Radix.hexDigit (n % 16)].all (Radix.isDigit 16) = true ∧
      Radix.value 16 ['0', '0', Radix.hexDigit (n / 16), Radix.hexDigit (n % 16)] = n := by
  decide

theorem readUnicode_control (h : c.toNat < 0x20) (rest : List Char) :
    readUnicode ('0' :: '0' :: Radix.hexDigit (c.toNat / 16) :: Radix.hexDigit (c.toNat % 16) :: rest) =
      .ok (c, rest) := by
  obtain ⟨hd, hv⟩ := hex_control c.toNat h
  have hsize (a b : Char) : ¬ Text.byteSize ('0' :: '0' :: a :: b :: rest) < 4 := by
    have ha := a.utf8Size_pos
    have hb := b.utf8Size_pos
    have h0 : '0'.utf8Size = 1 := rfl
    simp only [Text.byteSize, List.foldr_cons]
    omega
  have hhex : readHex ('0' :: '0' :: Radix.hexDigit (c.toNat / 16) ::
      Radix.hexDigit (c.toNat % 16) :: rest) = .ok (c.toNat, rest) := by
    unfold readHex
    rw [if_neg (hsize _ _)]
    simp only [List.take_succ_cons, List.take_zero, hd, if_true, hv, List.drop_succ_cons,
      List.drop_zero]
  have hlow : isLowSurrogate c.toNat = false := by
    unfold isLowSurrogate
    rw [decide_eq_false (by omega), Bool.false_and]
  have hhigh : isHighSurrogate c.toNat = false := by
    unfold isHighSurrogate
    rw [decide_eq_false (by omega), Bool.false_and]
  unfold readUnicode
  rw [hhex]
  simp [Read.andThen, hlow, hhigh]

theorem readChars_quoteChar (fuel : Nat) (acc : List Char) (c : Char) (rest : List Char) :
    readChars (fuel + 1) acc (quoteChar c ++ rest) = readChars fuel (c :: acc) rest := by
  unfold quoteChar
  split
  next => rfl
  next => rfl
  next => rfl
  next => rfl
  next => rfl
  next => rfl
  next => rfl
  next hquote hslash _ _ _ _ _ =>
    split
    next hlt =>
      have he : readEscape ('u' :: '0' :: '0' :: Radix.hexDigit (c.toNat / 16) ::
          Radix.hexDigit (c.toNat % 16) :: rest) = .ok (c, rest) := readUnicode_control hlt rest
      have hu : readChars (fuel + 1) acc (escapeControl c ++ rest) =
          Read.andThen (readEscape ('u' :: '0' :: '0' :: Radix.hexDigit (c.toNat / 16) ::
            Radix.hexDigit (c.toNat % 16) :: rest)) fun e rest => readChars fuel (e :: acc) rest := rfl
      rw [hu, he]
      rfl
    next hge => rw [List.singleton_append, readChars, if_neg hquote, if_neg hslash, if_neg hge]

theorem readChars_quoted (acc cs rest : List Char) (h : cs.length < fuel) :
    readChars fuel acc (cs.flatMap quoteChar ++ '"' :: rest) =
      .ok (String.ofList (acc.reverse ++ cs), rest) := by
  induction cs generalizing fuel acc with
  | nil =>
    obtain ⟨fuel, rfl⟩ := Nat.exists_eq_succ_of_ne_zero (Nat.ne_of_gt h)
    simp [readChars]
  | cons c cs ih =>
    obtain ⟨fuel, rfl⟩ := Nat.exists_eq_succ_of_ne_zero (Nat.ne_of_gt (Nat.zero_lt_of_lt h))
    rw [List.flatMap_cons, List.append_assoc, readChars_quoteChar, ih (c :: acc) (by simpa using h)]
    simp

/-! ### Values -/

variable {cs tail left : List Char} {depth : Nat} {r : Json × List Char}

theorem skipSpace_of_head (h : isSpace c = false) (cs : List Char) : skipSpace (c :: cs) = c :: cs := by
  simp [skipSpace, h]

theorem isSpace_of_skipSpace (h : skipSpace cs = c :: tail) : isSpace c = false := by
  have hn := List.head?_dropWhile_not isSpace cs
  unfold skipSpace at h
  rw [h] at hn
  simpa using hn

theorem Closes.skipSpace_eq (h : Closes cs) : skipSpace cs = cs := by
  cases cs with
  | nil => rfl
  | cons c cs => exact skipSpace_of_head (by rcases h with rfl | rfl | rfl <;> rfl) cs

theorem readValue_begins (h : readValue fuel depth cs = .ok r) :
    ∃ c tail, skipSpace cs = c :: tail ∧ c ≠ ']' ∧ readValue fuel depth (c :: tail) = .ok r := by
  cases fuel with
  | zero => cases h
  | succ fuel =>
    cases hs : skipSpace cs with
    | nil =>
      rw [readValue, hs] at h
      cases h
    | cons c tail =>
      have hc : skipSpace (c :: tail) = c :: tail := skipSpace_of_head (isSpace_of_skipSpace hs) tail
      have he : readValue (fuel + 1) depth (c :: tail) = .ok r := by
        rw [readValue, hs] at h
        rw [readValue, hc]
        exact h
      refine ⟨c, tail, rfl, ?_, he⟩
      rintro rfl
      rw [readValue, hc] at he
      cases he

theorem skipSpace_append (cs rest : List Char) :
    skipSpace (cs ++ rest) =
      if (skipSpace cs).isEmpty then skipSpace rest else skipSpace cs ++ rest :=
  List.dropWhile_append

theorem Read.map_eq_ok {α β : Type} {f : α → β} {r : Read α} {b : β} (h : Read.map f r = .ok (b, left)) :
    ∃ a, r = .ok (a, left) ∧ f a = b := by
  cases r with
  | error p => cases h
  | ok q =>
    cases h
    exact ⟨q.1, rfl, rfl⟩

/-- In front of whatever closes a value, the text of the first document is read as the second one. Space
may be left, since number texts are only known to be read as a whole. -/
def ReadsAs (depth : Nat) (doc doc' : Json) : Prop :=
  ∀ fuel rest, 2 * doc.render.toList.length ≤ fuel → Closes rest →
    ∃ left, readValue (fuel + 1) depth (doc.render.toList ++ rest) = .ok (doc', left) ∧
      skipSpace left = skipSpace rest

theorem readsAs_null (depth : Nat) : ReadsAs depth .null .null :=
  fun _ rest _ _ => ⟨rest, rfl, rfl⟩

theorem readsAs_bool (depth : Nat) (b : Bool) : ReadsAs depth (.bool b) (.bool b) := by
  intro fuel rest _ _
  cases b <;> exact ⟨rest, rfl, rfl⟩

theorem toList_quote (s : String) :
    (Platform.quoteJson s).toList = '"' :: (s.toList.flatMap quoteChar ++ ['"']) := by
  simp [Platform.quoteJson, quote]

theorem quoteChar_ne_nil (c : Char) : quoteChar c ≠ [] := by
  unfold quoteChar
  split <;> first | split <;> simp [escapeControl] | simp

theorem length_lt_quote (s : String) : s.toList.length < (Platform.quoteJson s).toList.length := by
  have hl (cs : List Char) : cs.length ≤ (cs.flatMap quoteChar).length := by
    induction cs with
    | nil => exact Nat.le_refl _
    | cons c cs ih =>
      have hc := List.length_pos_of_ne_nil (quoteChar_ne_nil c)
      rw [List.flatMap_cons, List.length_append, List.length_cons]
      omega
  have h := hl s.toList
  rw [toList_quote]
  simp only [List.length_cons, List.length_append]
  omega

theorem readsAs_string (depth : Nat) (s : String) : ReadsAs depth (.string s) (.string s) := by
  intro fuel rest hf _
  rw [render] at hf ⊢
  have hlt := length_lt_quote s
  have hc : readChars fuel [] (s.toList.flatMap quoteChar ++ '"' :: rest) =
      .ok (String.ofList s.toList, rest) := readChars_quoted [] s.toList rest (by omega)
  have hv : readValue (fuel + 1) depth ((Platform.quoteJson s).toList ++ rest) =
      Read.map .string (readChars fuel [] (s.toList.flatMap quoteChar ++ '"' :: rest)) := by
    rw [toList_quote]
    simp only [List.cons_append, List.append_assoc, List.nil_append]
    rfl
  refine ⟨rest, ?_, rfl⟩
  rw [hv, hc]
  simp [Read.map, Read.andThen]

/-- A value that is a number begins with a digit or a minus sign. -/
theorem number_of_readValue {n : Json.Number} (h : readValue fuel depth cs = .ok (.number n, left)) :
    ∃ c tail, skipSpace cs = c :: tail ∧
      (c = '-' ∧ readNumber true tail = .ok (n, left) ∨
        Numeral.isDigit c = true ∧ readNumber false (c :: tail) = .ok (n, left)) := by
  cases fuel with
  | zero => cases h
  | succ fuel =>
    rw [readValue] at h
    split at h
    next => cases h
    next c tail hs =>
      have hother {α : Type} {f : α → Json} {r : Read α} (hf : ∀ a, f a ≠ .number n) :
          Read.map f r ≠ .ok (.number n, left) := by
        intro hr
        obtain ⟨a, _, ha⟩ := Read.map_eq_ok hr
        exact hf a ha
      have hnumber {negative : Bool} {cs : List Char}
          (hr : Read.map Json.number (readNumber negative cs) = .ok (.number n, left)) :
          readNumber negative cs = .ok (n, left) := by
        obtain ⟨m, hm, he⟩ := Read.map_eq_ok hr
        cases he
        exact hm
      have hpass {p : Prop} [Decidable p] {r r' : Read Json} (hr : r ≠ .ok (.number n, left))
          (h : (if p then r else r') = .ok (.number n, left)) : r' = .ok (.number n, left) :=
        ((ite_eq_iff.mp h).resolve_left fun hp => hr hp.2).2
      refine ⟨c, tail, hs, ?_⟩
      -- in the order in which the reader tells the kinds of values apart
      replace h := hpass (hother (by simp)) h
      replace h := hpass (hother (by simp)) h
      replace h := hpass (hother (by simp)) h
      replace h := hpass (hother (by simp)) h
      obtain ⟨hc, h⟩ | ⟨-, h⟩ := ite_eq_iff.mp h
      · exact .inl ⟨hc, hnumber h⟩
      obtain ⟨hc, h⟩ | ⟨-, h⟩ := ite_eq_iff.mp h
      · exact .inr ⟨hc, hnumber h⟩
      -- lists and objects, which are refused where they are nested too deep
      replace h := hpass (fun hlist => hother (by simp) (hpass (by simp) hlist)) h
      replace h := hpass (fun hobject => hother (by simp) (hpass (by simp) hobject)) h
      cases h

theorem readValue_minus (fuel depth : Nat) (h : skipSpace cs = '-' :: tail) :
    readValue (fuel + 1) depth cs = Read.map .number (readNumber true tail) := by
  rw [readValue, h]
  rfl

theorem readValue_digit (fuel depth : Nat) (h : skipSpace cs = c :: tail) (hc : Numeral.isDigit c = true) :
    readValue (fuel + 1) depth cs = Read.map .number (readNumber false (c :: tail)) := by
  have hne {d : Char} (hd : Numeral.isDigit d = false) : c ≠ d := by
    rintro rfl
    rw [hc] at hd
    cases hd
  rw [readValue, h]
  dsimp only
  rw [if_neg (hne rfl), if_neg (hne rfl), if_neg (hne rfl), if_neg (hne rfl), if_neg (hne rfl),
    if_pos hc]

theorem readEnd_eq_ok {u : Unit} (h : readEnd cs = .ok u) : skipSpace cs = [] := by
  unfold readEnd at h
  split at h
  next hs => exact hs
  next => cases h

/-- A number that is read back alone is read back in front of anything that closes it. -/
theorem readsAs_number (depth : Nat) {n : Json.Number} (h : Number.Recovered n.toFloat) :
    ∃ n', (n.toFloat == n'.toFloat) = true ∧ ReadsAs depth (.number n) (.number n') := by
  obtain ⟨_, n', hp, he⟩ := h
  refine ⟨n', he, fun fuel rest _ hr => ?_⟩
  rw [render]
  generalize (Number.text n.toFloat).toList = text at hp
  change parse text = _ at hp
  unfold parse at hp
  split at hp
  next => cases hp
  next value left hv =>
    split at hp
    next => cases hp
    next hend =>
      obtain rfl := Except.ok.inj hp
      have hleft : skipSpace (left ++ rest) = skipSpace rest := by
        rw [skipSpace_append, readEnd_eq_ok hend]
        rfl
      obtain ⟨c, tail, hs, hn⟩ := number_of_readValue hv
      have happ : skipSpace (text ++ rest) = c :: (tail ++ rest) := by
        rw [skipSpace_append, hs]
        rfl
      refine ⟨left ++ rest, ?_, hleft⟩
      rcases hn with ⟨rfl, hn⟩ | ⟨hc, hn⟩
      · rw [readValue_minus fuel depth happ, stops_readNumber true hn hr]
        rfl
      · have hn' := stops_readNumber false hn hr
        rw [List.cons_append] at hn'
        rw [readValue_digit fuel depth happ hc, hn']
        rfl

/-! ### Lists and objects -/

variable {doc : Json} {items items' : List Json} {rest : List Char} {members' members : List (String × Json)}

def following (parts : List String) : List Char := parts.flatMap fun p => ',' :: p.toList

theorem following_cons (part : String) (parts : List String) :
    following (part :: parts) = ',' :: (part.toList ++ following parts) := by
  simp [following]

theorem toList_intercalate_cons (part : String) (parts : List String) :
    (",".intercalate (part :: parts)).toList = part.toList ++ following parts := by
  induction parts generalizing part with
  | nil => simp [following]
  | cons next parts ih =>
    rw [String.intercalate_cons_cons, String.toList_append, String.toList_append, ih, following_cons]
    simp

theorem closes_following (parts : List String) (close : Char) (rest : List Char)
    (h : Closes [close]) : Closes (following parts ++ close :: rest) := by
  cases parts with
  | nil => exact h
  | cons part parts =>
    rw [following_cons]
    exact .inl rfl

theorem readListMark_first (h : readValue fuel depth cs = .ok r) :
    ∃ ahead, readListMark true cs = .ok (true, ahead) ∧ readValue fuel depth ahead = .ok r := by
  obtain ⟨c, tail, hs, hc, hv⟩ := readValue_begins h
  refine ⟨c :: tail, ?_, hv⟩
  unfold readListMark
  simp [hs, hc]

theorem readListMark_next (hs : skipSpace cs = ',' :: tail) (h : readValue fuel depth tail = .ok r) :
    ∃ ahead, readListMark false cs = .ok (true, ahead) ∧ readValue fuel depth ahead = .ok r := by
  obtain ⟨c, tail, ht, hc, hv⟩ := readValue_begins h
  refine ⟨c :: tail, ?_, hv⟩
  unfold readListMark
  simp [hs, ht, hc]

theorem readItems_item {acc : List Json} {ahead : List Char}
    (hm : readListMark acc.isEmpty cs = .ok (true, ahead)) (hv : readValue fuel depth ahead = .ok (doc, left)) :
    readItems (fuel + 1) depth acc cs = readItems fuel depth (doc :: acc) left := by
  rw [readItems, hm]
  simp only [Read.andThen, if_true, hv]

theorem readItems_following (h : List.Forall₂ (ReadsAs depth) items items') {acc : List Json} (ha : acc ≠ [])
    (hs : skipSpace cs = following (items.map render) ++ ']' :: rest)
    (hf : 2 * (following (items.map render)).length < fuel) :
    readItems fuel depth acc cs = .ok (acc.reverse ++ items', rest) := by
  have hfirst : acc.isEmpty = false := by simpa using ha
  induction h generalizing fuel acc cs with
  | nil =>
    obtain ⟨fuel, rfl⟩ := Nat.exists_eq_succ_of_ne_zero (Nat.ne_of_gt (Nat.zero_lt_of_lt hf))
    have hmark : readListMark acc.isEmpty cs = .ok (false, ']' :: rest) := by
      unfold readListMark
      rw [hs]
      rfl
    rw [readItems, hmark]
    simp [Read.andThen]
  | @cons item item' items items' hi _ ih =>
    rw [List.map_cons, following_cons] at hs hf
    simp only [List.length_cons, List.length_append] at hf
    obtain ⟨fuel, rfl⟩ : ∃ k, fuel = k + 2 := ⟨fuel - 2, by omega⟩
    have hclose := closes_following (items.map render) ']' rest (.inr (.inl rfl))
    obtain ⟨left, hv, hleft⟩ := hi fuel _ (by omega) hclose
    rw [List.cons_append, List.append_assoc] at hs
    obtain ⟨ahead, hmark, hv⟩ := readListMark_next hs hv
    rw [← hfirst] at hmark
    rw [readItems_item hmark hv, ih (by simp) (hleft.trans hclose.skipSpace_eq) (by omega) rfl]
    simp

theorem readItems_render (h : List.Forall₂ (ReadsAs depth) items items') (fuel : Nat) (rest : List Char)
    (hf : 2 * (",".intercalate (items.map render)).toList.length + 2 ≤ fuel) :
    readItems fuel depth [] ((",".intercalate (items.map render)).toList ++ ']' :: rest) =
      .ok (items', rest) := by
  obtain ⟨fuel, rfl⟩ : ∃ k, fuel = k + 2 := ⟨fuel - 2, by omega⟩
  cases h with
  | nil =>
    simp only [List.map_nil, String.intercalate_nil]
    rfl
  | @cons item item' items items' hi hs =>
    rw [List.map_cons, toList_intercalate_cons] at hf ⊢
    simp only [List.length_append] at hf
    have hclose := closes_following (items.map render) ']' rest (.inr (.inl rfl))
    obtain ⟨left, hv, hleft⟩ := hi fuel _ (by omega) hclose
    obtain ⟨ahead, hmark, hv⟩ := readListMark_first hv
    have hmark : readListMark ([] : List Json).isEmpty _ = .ok (true, ahead) := hmark
    rw [List.append_assoc, readItems_item hmark hv,
      readItems_following hs (by simp) (hleft.trans hclose.skipSpace_eq) (by omega)]
    simp

theorem toList_memberText (m : String × Json) (rest : List Char) :
    (memberText m).toList ++ rest =
      '"' :: (m.1.toList.flatMap quoteChar ++ '"' :: ':' :: (m.2.render.toList ++ rest)) := by
  unfold memberText
  rw [String.toList_append, String.toList_append, toList_quote]
  simp

theorem length_memberText (m : String × Json) :
    m.1.toList.length + m.2.render.toList.length + 1 < (memberText m).toList.length := by
  have h := length_lt_quote m.1
  unfold memberText
  rw [String.toList_append, String.toList_append]
  simp only [List.length_append]
  have hc : ":".toList.length = 1 := rfl
  omega

theorem readMembers_member {acc : Dict Json} {first : Bool} {m : String × Json} {doc' : Json}
    {parts : List String} (hm : readObjectMark first cs = .ok (true, m.1.toList.flatMap quoteChar ++
      '"' :: ':' :: (m.2.render.toList ++ (following parts ++ '\x7d' :: rest)))) (hd : ReadsAs depth m.2 doc')
    (hk : m.1 ∉ acc.keys) (hf : 2 * (memberText m).toList.length ≤ fuel)
    (hrest : ∀ left, skipSpace left = following parts ++ '\x7d' :: rest →
      ∃ d, readMembers (fuel + 1) depth (acc.insert m.1 doc') false left = .ok (d, rest) ∧
        d.entries = (acc.insert m.1 doc').entries ++ members') :
    ∃ d, readMembers (fuel + 2) depth acc first cs = .ok (d, rest) ∧
      d.entries = acc.entries ++ (m.1, doc') :: members' := by
  have hlen := length_memberText m
  have hclose := closes_following parts '\x7d' rest (.inr (.inr rfl))
  obtain ⟨left, hv, hleft⟩ := hd fuel _ (by omega) hclose
  obtain ⟨d, hread, he⟩ := hrest left (hleft.trans hclose.skipSpace_eq)
  have hkey (ahead : List Char) :
      readChars (fuel + 1) [] (m.1.toList.flatMap quoteChar ++ '"' :: ahead) = .ok (m.1, ahead) := by
    rw [readChars_quoted [] m.1.toList ahead (by omega)]
    simp
  have hcolon (ahead : List Char) : readColon (':' :: ahead) = .ok ((), ahead) := rfl
  refine ⟨d, ?_, ?_⟩
  · rw [readMembers, hm]
    simp only [Read.andThen, if_true, hkey, hcolon, hv, hread]
  · rw [he, Dict.entries_insert_new hk]
    simp

theorem nodup_keys_insert (acc : Dict Json) {key : String} {keys : List String}
    (h : (acc.keys ++ key :: keys).Nodup) (doc : Json) :
    key ∉ acc.keys ∧ ((acc.insert key doc).keys ++ keys).Nodup := by
  have hnew : key ∉ acc.keys := by
    rw [List.nodup_append] at h
    exact fun hm => h.2.2 _ hm _ (by simp) rfl
  refine ⟨hnew, ?_⟩
  rw [Dict.keys_insert, if_neg hnew]
  simpa using h

section

variable (h : List.Forall₂ (fun m m' => m'.1 = m.1 ∧ ReadsAs depth m.2 m'.2) members members')
include h

/-- The members after the first are read one by one, each after its comma. -/
theorem readMembers_following
    {acc : Dict Json}
    (hn : (acc.keys ++ members.map Prod.fst).Nodup)
    (hs : skipSpace cs = following (members.map memberText) ++ '\x7d' :: rest)
    (hf : 2 * (following (members.map memberText)).length < fuel) :
    ∃ d, readMembers fuel depth acc false cs = .ok (d, rest) ∧ d.entries = acc.entries ++ members' := by
  induction h generalizing fuel acc cs with
  | nil =>
    obtain ⟨fuel, rfl⟩ := Nat.exists_eq_succ_of_ne_zero (Nat.ne_of_gt (Nat.zero_lt_of_lt hf))
    have hmark : readObjectMark false cs = .ok (false, '\x7d' :: rest) := by
      unfold readObjectMark
      rw [hs]
      rfl
    refine ⟨acc, ?_, by simp⟩
    rw [readMembers, hmark]
    rfl
  | @cons m m' members members' hm _ ih =>
    obtain ⟨key', doc'⟩ := m'
    obtain ⟨rfl, hd⟩ := hm
    rw [List.map_cons, following_cons] at hs hf
    simp only [List.length_cons, List.length_append] at hf
    obtain ⟨fuel, rfl⟩ : ∃ k, fuel = k + 2 := ⟨fuel - 2, by omega⟩
    obtain ⟨hnew, hkeys⟩ := nodup_keys_insert acc hn doc'
    refine readMembers_member ?_ hd hnew (by omega) fun left hl => ih hkeys hl (by omega)
    unfold readObjectMark
    rw [hs, List.cons_append, List.append_assoc, toList_memberText]
    rfl

theorem readMembers_render

    (hn : (members.map Prod.fst).Nodup) (fuel : Nat) (rest : List Char)
    (hf : 2 * (",".intercalate (members.map memberText)).toList.length + 2 ≤ fuel) :
    ∃ d, readMembers fuel depth .empty true
        ((",".intercalate (members.map memberText)).toList ++ '\x7d' :: rest) = .ok (d, rest) ∧
      d.entries = members' := by
  obtain ⟨fuel, rfl⟩ : ∃ k, fuel = k + 2 := ⟨fuel - 2, by omega⟩
  cases h with
  | nil =>
    simp only [List.map_nil, String.intercalate_nil]
    exact ⟨.empty, rfl, rfl⟩
  | @cons m m' members members' hm hs =>
    obtain ⟨key', doc'⟩ := m'
    obtain ⟨rfl, hd⟩ := hm
    rw [List.map_cons, toList_intercalate_cons] at hf ⊢
    simp only [List.length_append] at hf
    obtain ⟨hnew, hkeys⟩ := nodup_keys_insert .empty hn doc'
    rw [List.append_assoc, toList_memberText]
    exact readMembers_member rfl hd hnew (by omega) fun left hl =>
      readMembers_following hs hkeys hl (by omega)

omit h in
theorem readsAs_array (h : List.Forall₂ (ReadsAs depth) items items') (hd : 0 < depth) :
    ReadsAs (depth + 1) (.array items) (.array items') := by
  intro fuel rest hf _
  have htext : (render (.array items)).toList =
      '[' :: ((",".intercalate (items.map render)).toList ++ [']']) := by
    rw [render, renderItems_eq, String.toList_append, String.toList_append]
    rfl
  rw [htext] at hf ⊢
  simp only [List.length_cons, List.length_append] at hf
  have hv : readValue (fuel + 1) (depth + 1)
      ('[' :: ((",".intercalate (items.map render)).toList ++ ']' :: rest)) =
      Read.map .array (readItems fuel depth []
        ((",".intercalate (items.map render)).toList ++ ']' :: rest)) :=
    if_neg (Nat.not_le.mpr (Nat.succ_lt_succ hd))
  refine ⟨rest, ?_, rfl⟩
  rw [List.cons_append, List.append_assoc, List.singleton_append, hv,
    readItems_render h fuel rest (by omega)]
  rfl

theorem readsAs_object (hn : (members.map Prod.fst).Nodup) (hd : 0 < depth) :
    ReadsAs (depth + 1) (.object members) (.object members') := by
  intro fuel rest hf _
  have htext : (render (.object members)).toList =
      '\x7b' :: ((",".intercalate (members.map memberText)).toList ++ ['\x7d']) := by
    rw [render, renderMembers_eq, String.toList_append, String.toList_append]
    rfl
  rw [htext] at hf ⊢
  simp only [List.length_cons, List.length_append] at hf
  have hv : readValue (fuel + 1) (depth + 1)
      ('\x7b' :: ((",".intercalate (members.map memberText)).toList ++ '\x7d' :: rest)) =
      Read.map (fun members => .object members.entries) (readMembers fuel depth .empty true
        ((",".intercalate (members.map memberText)).toList ++ '\x7d' :: rest)) :=
    if_neg (Nat.not_le.mpr (Nat.succ_lt_succ hd))
  obtain ⟨d, hr, he⟩ := readMembers_render h hn fuel rest (by omega)
  refine ⟨rest, ?_, rfl⟩
  rw [List.cons_append, List.append_assoc, List.singleton_append, hv, hr, ← he]
  rfl

end

theorem exists_forall₂ {α β : Type} {R : α → β → Prop} {xs : List α} (h : ∀ x ∈ xs, ∃ y, R x y) :
    ∃ ys, List.Forall₂ R xs ys := by
  induction xs with
  | nil => exact ⟨[], .nil⟩
  | cons x xs ih =>
    obtain ⟨y, hy⟩ := h x (by simp)
    obtain ⟨ys, hys⟩ := ih fun x hx => h x (by simp [hx])
    exact ⟨y :: ys, .cons hy hys⟩

/-- A document is read back from its text, up to the form of its numbers, where the brackets left are
more than it has inside one another. -/
theorem Fits.readsAs {d : Nat} (h : doc.Fits d) (hr : doc.Regular) (hd : d < depth) :
    ∃ doc', doc.Same doc' ∧ ReadsAs depth doc doc' := by
  induction h generalizing depth with
  | null => exact ⟨.null, .null, readsAs_null depth⟩
  | bool b => exact ⟨.bool b, .bool b, readsAs_bool depth b⟩
  | number hn =>
    obtain ⟨n', he, hread⟩ := readsAs_number depth hn
    exact ⟨.number n', .number he, hread⟩
  | string s => exact ⟨.string s, .string s, readsAs_string depth s⟩
  | @array d items _ ih =>
    cases hr with
    | array _ hi =>
      obtain ⟨depth, rfl⟩ : ∃ k, depth = k + 1 := ⟨depth - 1, by omega⟩
      obtain ⟨items', hs⟩ := exists_forall₂ fun item hm =>
        ih item hm (hi item hm) (Nat.lt_of_succ_lt_succ hd)
      have hzip := List.forall₂_iff_zip.mp hs
      exact ⟨.array items', .array hzip.1 fun p hp => (hzip.2 hp).1,
        readsAs_array (hs.imp fun _ _ h => h.2) (by omega)⟩
  | @object d members _ ih =>
    cases hr with
    | object hk hm =>
      obtain ⟨depth, rfl⟩ : ∃ k, depth = k + 1 := ⟨depth - 1, by omega⟩
      have hex : ∀ m ∈ members, ∃ m' : String × Json,
          m'.1 = m.1 ∧ m.2.Same m'.2 ∧ ReadsAs depth m.2 m'.2 := by
        intro m hmem
        obtain ⟨doc', hsame, hread⟩ := ih m hmem (hm m hmem) (Nat.lt_of_succ_lt_succ hd)
        exact ⟨(m.1, doc'), rfl, hsame, hread⟩
      obtain ⟨members', hs⟩ := exists_forall₂ hex
      have hzip := List.forall₂_iff_zip.mp hs
      have hkeys := map_fst_eq_of_forall₂ (R := fun x y => x.Same y ∧ ReadsAs depth x y) hs
      exact ⟨.object members', .object hkeys fun p hp => (hzip.2 hp).2.1,
        readsAs_object (hs.imp fun _ _ h => ⟨h.1, h.2.2⟩) hk (by omega)⟩

theorem Fits.parse_render (h : doc.Fits depth) (hd : depth < nestingLimit) (hr : doc.Regular) :
    ∃ doc', doc.Same doc' ∧ parse doc.render.toList = .ok doc' := by
  obtain ⟨doc', hs, hread⟩ := h.readsAs hr hd
  obtain ⟨left, hv, hl⟩ := hread (2 * doc.render.toList.length + 1) [] (by omega) trivial
  rw [List.append_nil] at hv
  refine ⟨doc', hs, ?_⟩
  unfold parse
  rw [hv]
  unfold readEnd
  simp only [hl]
  rfl

end Json

/-- A document that fits is read back from its text. -/
class Platform.Recovers [Platform] : Prop where
  read_render {doc : Json} {depth : Nat} : doc.Fits depth → depth < Json.nestingLimit → doc.Regular →
    ∃ doc', doc.Same doc' ∧ Platform.readJson doc.render.toList = .ok doc'

instance Platform.recovers_standard : Platform.Recovers := ⟨Json.Fits.parse_render⟩

end Surmise
