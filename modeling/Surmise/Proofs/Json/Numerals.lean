import Surmise.Json.Reader

/-! Readers that look ahead: where the text of a value ends, any of the marks that close a value may
follow, and the value read is the same. -/
namespace Surmise.Json

variable {c : Char} {cs : List Char}

def Closes : List Char → Prop
  | [] => True
  | c :: _ => c = ',' ∨ c = ']' ∨ c = '\x7d'

def Stops {α : Type} (f : List Char → Read α) : Prop :=
  ∀ ⦃cs a left⦄, f cs = .ok (a, left) → ∀ ⦃rest⦄, Closes rest → f (cs ++ rest) = .ok (a, left ++ rest)

theorem Closes.not_digit (h : Closes (c :: cs)) : Numeral.isDigit c = false := by
  rcases h with rfl | rfl | rfl <;> rfl

theorem Closes.not_point (h : Closes (c :: cs)) : c ≠ '.' := by
  rcases h with rfl | rfl | rfl <;> decide

theorem Closes.not_exponentMark (h : Closes (c :: cs)) : isExponentMark c = false := by
  rcases h with rfl | rfl | rfl <;> rfl

theorem dropWhile_digits_append (cs : List Char) {rest : List Char} (h : Closes rest) :
    (cs ++ rest).dropWhile Numeral.isDigit = cs.dropWhile Numeral.isDigit ++ rest := by
  induction cs with
  | nil =>
    cases rest with
    | nil => rfl
    | cons c rest => simp [h.not_digit]
  | cons c cs ih =>
    by_cases hc : Numeral.isDigit c = true
    · simp [hc, ih]
    · simp [hc]

theorem realOf_append {negative : Bool} {significand : Nat} {exponent : Int} {left : List Char}
    {n : Json.Number} (h : realOf negative significand exponent cs = .ok (n, left)) (rest : List Char) :
    realOf negative significand exponent (cs ++ rest) = .ok (n, left ++ rest) := by
  unfold realOf at h ⊢
  split at h
  next =>
    cases h
    rfl
  next => cases h

section

variable (negative : Bool)
include negative

/-- Digits of the exponent are read up to what closes the number. -/
theorem stops_readExponentDigits (significand : Nat) (start : Int) (minus : Bool)
    (exponent : Nat) : Stops (readExponentDigits negative significand start minus exponent) := by
  intro cs n left h rest hr
  induction cs generalizing exponent with
  | nil =>
    cases rest with
    | nil => simpa [readExponentDigits] using h
    | cons c rest =>
      rw [readExponentDigits] at h
      rw [List.nil_append, readExponentDigits, if_neg (by simp [hr.not_digit])]
      exact realOf_append h (c :: rest)
  | cons c cs ih =>
    rw [readExponentDigits] at h
    rw [List.cons_append, readExponentDigits]
    by_cases hc : Numeral.isDigit c = true
    · rw [if_pos hc] at h ⊢
      dsimp only at h ⊢
      split at h
      next hlt =>
        rw [if_pos hlt]
        exact ih _ h
      next hlt =>
        rw [if_neg hlt]
        split at h
        next => cases h
        next hs =>
          rw [if_neg hs, dropWhile_digits_append cs hr]
          cases h
          rfl
    · rw [if_neg hc] at h ⊢
      exact realOf_append h rest

omit negative in
theorem splitSign_append {tail : List Char} {minus : Bool} (h : Numeral.splitSign cs = (minus, c :: tail))
    (rest : List Char) : Numeral.splitSign (cs ++ rest) = (minus, c :: (tail ++ rest)) := by
  unfold Numeral.splitSign at h
  split at h
  next => cases h; rfl
  next => cases h; rfl
  next hm hp =>
    cases h
    unfold Numeral.splitSign
    split
    next he => cases he; exact absurd rfl (hm tail)
    next he => cases he; exact absurd rfl (hp tail)
    next => rfl

theorem stops_readExponent (significand : Nat) (start : Int) :
    Stops (readExponent negative significand start) := by
  intro cs n left h rest hr
  unfold readExponent at h
  split at h
  next => cases h
  next minus c tail hs =>
    unfold readExponent
    rw [splitSign_append hs rest]
    dsimp only
    by_cases hc : Numeral.isDigit c = true
    · rw [if_pos hc] at h ⊢
      exact stops_readExponentDigits negative significand start minus _ h hr
    · rw [if_neg hc] at h
      cases h

theorem stops_readScale (significand : Nat) (exponent : Int) :
    Stops (readScale negative significand exponent) := by
  intro cs n left h rest hr
  cases cs with
  | nil =>
    cases rest with
    | nil => simpa [readScale] using h
    | cons c rest =>
      rw [List.nil_append, readScale, if_neg (by simp [hr.not_exponentMark])]
      exact realOf_append h (c :: rest)
  | cons c cs =>
    rw [readScale] at h
    rw [List.cons_append, readScale]
    by_cases hc : isExponentMark c = true
    · rw [if_pos hc] at h ⊢
      exact stops_readExponent negative significand exponent h hr
    · rw [if_neg hc] at h ⊢
      exact realOf_append h rest

theorem readFraction_cons (significand : Nat) (exponent : Int) (any : Bool)
    (c : Char) (cs : List Char) :
    readFraction negative significand exponent any (c :: cs) =
      if Numeral.isDigit c then
        match pushDigit? significand c with
        | some n => readFraction negative n (exponent - 1) true cs
        | none => readScale negative significand exponent (cs.dropWhile Numeral.isDigit)
      else if any then readScale negative significand exponent (c :: cs)
      else .error (.next .invalidNumber (c :: cs)) := by
  cases any <;> rfl

/-- The fraction, and an exponent after it, are read up to what closes the number. -/
theorem stops_readFraction (significand : Nat) (exponent : Int) (any : Bool) :
    Stops (readFraction negative significand exponent any) := by
  intro cs n left h rest hr
  induction cs generalizing significand exponent any with
  | nil =>
    cases any with
    | false => cases h
    | true =>
      cases rest with
      | nil => simpa using h
      | cons c rest =>
        rw [List.nil_append, readFraction_cons, if_neg (by simp [hr.not_digit]), if_pos rfl]
        exact stops_readScale negative significand exponent h hr
  | cons c cs ih =>
    rw [readFraction_cons] at h
    rw [List.cons_append, readFraction_cons]
    by_cases hc : Numeral.isDigit c = true
    · rw [if_pos hc] at h ⊢
      generalize pushDigit? significand c = pushed at h ⊢
      cases pushed with
      | some n => exact ih n (exponent - 1) true h
      | none =>
        dsimp only
        rw [dropWhile_digits_append cs hr]
        exact stops_readScale negative significand exponent h hr
    · rw [if_neg hc] at h ⊢
      cases any with
      | false => cases h
      | true =>
        rw [if_pos rfl] at h ⊢
        exact stops_readScale negative significand exponent h hr

theorem stops_readAfterInteger (significand : Nat) : Stops (readAfterInteger negative significand) := by
  intro cs n left h rest hr
  cases cs with
  | nil =>
    cases h
    cases rest with
    | nil => rfl
    | cons c rest =>
      rw [List.nil_append, readAfterInteger, if_neg hr.not_point,
        if_neg (by simp [hr.not_exponentMark])]
  | cons c cs =>
    rw [readAfterInteger] at h
    rw [List.cons_append, readAfterInteger]
    by_cases hp : c = '.'
    · rw [if_pos hp] at h ⊢
      exact stops_readFraction negative significand 0 false h hr
    · rw [if_neg hp] at h ⊢
      by_cases he : isExponentMark c = true
      · rw [if_pos he] at h ⊢
        exact stops_readExponent negative significand 0 h hr
      · rw [if_neg he] at h ⊢
        cases h
        rfl

theorem stops_readDropped (significand dropped : Nat) :
    Stops (readDropped negative significand dropped) := by
  intro cs n left h rest hr
  induction cs generalizing dropped with
  | nil =>
    cases rest with
    | nil => simpa [readDropped] using h
    | cons c rest =>
      have hs : readScale negative significand dropped [] = .ok (n, left) := h
      rw [List.nil_append, readDropped, if_neg (by simp [hr.not_digit]), if_neg hr.not_point]
      exact stops_readScale negative significand dropped hs hr
  | cons c cs ih =>
    rw [readDropped] at h
    rw [List.cons_append, readDropped]
    by_cases hc : Numeral.isDigit c = true
    · rw [if_pos hc] at h ⊢
      exact ih (dropped + 1) h
    · rw [if_neg hc] at h ⊢
      by_cases hp : c = '.'
      · rw [if_pos hp] at h ⊢
        exact stops_readFraction negative significand dropped false h hr
      · rw [if_neg hp] at h ⊢
        exact stops_readScale negative significand dropped h hr

theorem readInteger_cons (significand : Nat) (c : Char) (cs : List Char) :
    readInteger negative significand (c :: cs) =
      if Numeral.isDigit c then
        match pushDigit? significand c with
        | some n => readInteger negative n cs
        | none => readDropped negative significand 1 cs
      else readAfterInteger negative significand (c :: cs) := by
  rfl

theorem stops_readInteger (significand : Nat) : Stops (readInteger negative significand) := by
  intro cs n left h rest hr
  induction cs generalizing significand with
  | nil =>
    cases rest with
    | nil => simpa using h
    | cons c rest =>
      rw [List.nil_append, readInteger_cons, if_neg (by simp [hr.not_digit])]
      exact stops_readAfterInteger negative significand h hr
  | cons c cs ih =>
    rw [readInteger_cons] at h
    rw [List.cons_append, readInteger_cons]
    by_cases hc : Numeral.isDigit c = true
    · rw [if_pos hc] at h ⊢
      generalize pushDigit? significand c = pushed at h ⊢
      cases pushed with
      | some n => exact ih n h
      | none => exact stops_readDropped negative significand 1 h hr
    · rw [if_neg hc] at h ⊢
      exact stops_readAfterInteger negative significand h hr

/-- What follows a number does not change how it is read. -/
theorem stops_readNumber : Stops (readNumber negative) := by
  intro cs n left h rest hr
  cases cs with
  | nil => cases h
  | cons c cs =>
    by_cases hz : c = '0'
    · subst hz
      cases cs with
      | nil =>
        cases rest with
        | nil => simpa using h
        | cons c rest =>
          have hn : readAfterInteger negative 0 [] = .ok (n, left) := h
          have hc : readNumber negative ('0' :: c :: rest) = readAfterInteger negative 0 (c :: rest) :=
            if_neg (by simp [hr.not_digit])
          exact hc.trans (stops_readAfterInteger negative 0 hn hr)
      | cons c cs =>
        change (if _ then _ else _) = _ at h
        change (if _ then _ else _) = _
        by_cases hc : Numeral.isDigit c = true
        · rw [if_pos hc] at h
          cases h
        · rw [if_neg hc] at h ⊢
          exact stops_readAfterInteger negative 0 h hr
    · have hread (cs : List Char) : readNumber negative (c :: cs) =
          if Numeral.isDigit c then readInteger negative (c.toNat - '0'.toNat) cs
          else .error (.next .invalidNumber (c :: cs)) := by
        unfold readNumber
        split
        next he => cases he
        next he => cases he; exact absurd rfl hz
        next he => cases he; rfl
      rw [hread] at h
      rw [List.cons_append, hread]
      by_cases hc : Numeral.isDigit c = true
      · rw [if_pos hc] at h ⊢
        exact stops_readInteger negative _ h hr
      · rw [if_neg hc] at h
        cases h

end

end Surmise.Json
