import Mathlib.Tactic.IntervalCases
import Surmise.Proofs.Parsing.Settling
import Surmise.Proofs.Rendering.Lexeme

/-! The levels of the expression parser. A place of each level is read up to a token that cannot go on
at this level or a tighter one. Where operators group to the left, the reader comes to the same state
in its loop whether it has just read a first operand or has already joined several. -/
namespace Surmise

/-! ### Tokens ahead -/

namespace Cursor

def ahead : List Token → Cursor → Cursor
  | [], c => c
  | t :: ts, c => ⟨t, ts ++ c.current :: c.rest⟩

theorem tokens_ahead (ts : List Token) (c : Cursor) :
    (ahead ts c).current :: (ahead ts c).rest = ts ++ c.current :: c.rest := by
  cases ts <;> rfl

theorem ahead_append (ts us : List Token) (c : Cursor) :
    ahead (ts ++ us) c = ahead ts (ahead us c) := by
  cases ts with
  | nil => rfl
  | cons t ts =>
    change Cursor.mk t (ts ++ us ++ _) = ⟨t, ts ++ _⟩
    rw [tokens_ahead, List.append_assoc]

theorem advance_ahead (t : Token) (ts : List Token) (c : Cursor) :
    (ahead (t :: ts) c).advance = ahead ts c := by
  cases ts <;> rfl

end Cursor

open Cursor (ahead)

namespace Parse
variable {α β : Type} {p : Punctuator} {c : Cursor}

theorem run_kind_bind (f : Token.Kind → Parse β) (c : Cursor) :
    (kind >>= f) c = f c.current.kind c := rfl

theorem run_current_bind (f : Token → Parse β) (c : Cursor) :
    (current >>= f) c = f c.current c := rfl

theorem run_location_bind (f : Location → Parse β) (c : Cursor) :
    (location >>= f) c = f c.current.location c := rfl

theorem run_advance (t : Token) (ts : List Token) (c : Cursor) :
    advance (ahead (t :: ts) c) = .ok (t, ahead ts c) := by
  rw [advance, Cursor.advance_ahead]
  rfl

theorem run_expectMark {t : Token} (h : t.kind = .punctuator p) (ts : List Token) (c : Cursor) :
    expectMark p (ahead (t :: ts) c) = .ok (t, ahead ts c) := by
  change (if t.kind = _ then Except.ok (t, (ahead (t :: ts) c).advance) else _) = _
  rw [if_pos h, Cursor.advance_ahead]

theorem run_consumeMark {t : Token} (h : t.kind = .punctuator p) (ts : List Token) (c : Cursor) :
    consumeMark p (ahead (t :: ts) c) = .ok (true, ahead ts c) := by
  change (if t.kind = _ then Except.ok (true, (ahead (t :: ts) c).advance) else _) = _
  rw [if_pos h, Cursor.advance_ahead]

theorem run_consumeMark_ne (h : c.current.kind ≠ .punctuator p) : consumeMark p c = .ok (false, c) := by
  change (if c.current.kind = _ then _ else _) = _
  rw [if_neg h]

theorem run_atMark (h : c.current.kind = .punctuator p) : atMark p c = .ok (true, c) := by
  rw [atMark, decide_eq_true h]

theorem run_atMark_ne (h : c.current.kind ≠ .punctuator p) : atMark p c = .ok (false, c) := by
  rw [atMark, decide_eq_false h]

end Parse

namespace Spells
variable {ls ls' : List Lexeme} {l : Lexeme} {ts : List Token}

theorem cons_left (h : Spells (l :: ls) ts) : ∃ t us, ts = t :: us ∧ l.Fits t ∧ Spells ls us := by
  cases h with
  | cons ht hts => exact ⟨_, _, rfl, ht, hts⟩

theorem append_left (h : Spells (ls ++ ls') ts) :
    ∃ us vs, ts = us ++ vs ∧ Spells ls us ∧ Spells ls' vs := by
  induction ls generalizing ts with
  | nil => exact ⟨[], ts, rfl, .nil, h⟩
  | cons l ls ih =>
    obtain ⟨t, us, rfl, ht, hus⟩ := cons_left h
    obtain ⟨us, vs, rfl, hu, hv⟩ := ih hus
    exact ⟨t :: us, vs, rfl, .cons ht hu, hv⟩

end Spells

namespace Grammar
open Parse

/-! ### Levels -/

def joinAt : Nat → Token.Kind → Option (Expr → Expr → Expr)
  | 3, k => (orOp? k).map Expr.logical
  | 4, k => (andOp? k).map Expr.logical
  | 5, k => (equalityOp? k).map Expr.binary
  | 6, k => (relationalOp? k).map Expr.binary
  | 7, k => (additiveOp? k).map Expr.binary
  | 8, k => (multiplicativeOp? k).map Expr.binary
  | _, _ => none

section
variable (r : Rules) (mode : Mode) (n : Nat)

def parseAt : Nat → Parse Expr
  | 0 => sequence r mode n
  | 1 => assignment r mode n
  | 2 => conditional r mode n
  | 3 => logicalOr r mode n
  | 4 => logicalAnd r mode n
  | 5 => equality r mode n
  | 6 => relational r mode n
  | 7 => additive r mode n
  | 8 => multiplicative r mode n
  | 9 => unary r mode n
  | _ => callMember r mode n

def tailAt (k i : Nat) (e : Expr) : Parse Expr :=
  if k = 10 then callTail r mode i e
  else leftAssoc (joinAt k) id (parseAt r mode n (k + 1)) i e

theorem leftAssoc_map {Op : Type} (op? : Token.Kind → Option Op) (join : Op → Expr → Expr → Expr)
    (operand : Parse Expr) (i : Nat) (e : Expr) :
    leftAssoc op? join operand i e = leftAssoc (fun k => (op? k).map join) id operand i e := by
  induction i generalizing e with
  | zero => rfl
  | succ i ih =>
    simp only [leftAssoc]
    congr 1
    funext k
    cases op? k with
    | none => rfl
    | some op =>
      simp only [Option.map_some, ih]
      rfl

theorem parseAt_eq {k : Nat} (hlow : 3 ≤ k) (hhigh : k ≤ 8) :
    parseAt r mode n k = (parseAt r mode n (k + 1) >>= fun e => tailAt r mode n k n e) := by
  interval_cases k <;>
  · simp only [parseAt, tailAt, logicalOr, logicalAnd, equality, relational, additive, multiplicative,
      level]
    congr 1
    funext e
    rw [leftAssoc_map]
    rfl

end

variable {l i : Nat}

/-- Whether a token may follow an expression of a level and make it longer. -/
def continues : Nat → Token.Kind → Bool
  | 0, k => k = .punctuator .comma
  | 1, k => (assignOp? k).isSome
  | 2, k => k = .punctuator .question
  | 10, k => k = .punctuator .dot ∨ k = .punctuator .leftBracket ∨ k = .punctuator .leftParen
  | l, k => (joinAt l k).isSome

def stops (l : Nat) (k : Token.Kind) : Bool :=
  (List.range 11).all fun i => i < l || !continues i k

theorem continues_of_stops {k : Token.Kind} (h : stops l k = true) (hl : l ≤ i) (hi : i ≤ 10) :
    continues i k = false := by
  have hall := List.all_eq_true.mp h i (List.mem_range.mpr (by omega))
  simpa [Nat.not_lt.mpr hl] using hall

theorem stops_mono {k : Token.Kind} (h : stops l k = true) (hl : l ≤ i) : stops i k = true := by
  refine List.all_eq_true.mpr fun j hj => ?_
  by_cases hji : j < i
  · simp [hji]
  · rw [continues_of_stops h (by omega) (Nat.lt_succ_iff.mp (List.mem_range.mp hj))]
    simp

theorem tailAt_stops (r : Rules) (mode : Mode) (n i : Nat) {k : Nat} (hk : 3 ≤ k ∧ k ≤ 8 ∨ k = 10)
    (e : Expr) {c : Cursor} (h : stops k c.current.kind = true) :
    tailAt r mode n k (i + 1) e c = .ok (e, c) := by
  have hc := continues_of_stops h (Nat.le_refl k) (by omega)
  rcases hk with ⟨hlow, hhigh⟩ | rfl
  · have hjoin : joinAt k c.current.kind = none := by
      interval_cases k <;> simpa [continues] using hc
    rw [tailAt, if_neg (by omega), leftAssoc, run_kind_bind, hjoin]
    rfl
  · simp only [continues, Bool.decide_or, Bool.or_eq_false_iff, decide_eq_false_iff_not] at hc
    rw [tailAt, if_pos rfl, callTail]
    rw [run_location_bind, run_kind_bind]
    generalize c.current.kind = k at hc
    split
    next => exact absurd rfl hc.1
    next => exact absurd rfl hc.2.1
    next => exact absurd rfl hc.2.2
    next => rfl

/-! ### First tokens -/

def closing : Token.Kind → Bool
  | .punctuator .rightParen | .punctuator .rightBracket | .punctuator .comma => true
  | _ => false

def NeedsAt {α : Type} (p : Parse α) (Q : Cursor → Prop) : Prop := ∀ c a c', p c = .ok (a, c') → Q c

theorem needsAt_first {α β : Type} {p : Parse α} {f : α → Parse β} {Q : Cursor → Prop}
    (hp : NeedsAt p Q) : NeedsAt (p >>= f) Q := by
  intro c b d h
  cases hrun : p c with
  | error e =>
    rw [run_bind_error hrun] at h
    cases h
  | ok x => exact hp c x.1 x.2 hrun

theorem opens_primary (r : Rules) (mode : Mode) (n : Nat) :
    NeedsAt (primary r mode n) fun c =>
      closing c.current.kind = false ∧ unaryOp? c.current.kind = none := by
  intro c e d h
  unfold primary at h
  rw [run_current_bind] at h
  generalize c.current.kind = k at h
  cases k with
  | keyword w => cases w <;> first | exact ⟨rfl, rfl⟩ | cases h
  | punctuator p => cases p <;> first | exact ⟨rfl, rfl⟩ | cases h
  | number | string | identifier | eof => exact ⟨rfl, rfl⟩

theorem opens_unary (r : Rules) (mode : Mode) (n : Nat) :
    NeedsAt (unary r mode n) fun c => closing c.current.kind = false := by
  intro c e d h
  unfold unary at h
  rw [run_kind_bind] at h
  cases hop : unaryOp? c.current.kind with
  | some op =>
    generalize c.current.kind = k at hop
    cases k with
    | keyword w => rfl
    | punctuator p => cases p <;> first | rfl | cases hop
    | number | string | identifier | eof => rfl
  | none =>
    rw [hop] at h
    exact needsAt_first (fun c e d h => (opens_primary r mode n c e d h).1) c e d h

theorem opens_parseAt (r : Rules) (mode : Mode) (n : Nat) (hi : i ≤ 6) :
    NeedsAt (parseAt r mode n (9 - i)) fun c => closing c.current.kind = false := by
  induction i with
  | zero => exact opens_unary r mode n
  | succ i ih =>
    have hnext : 9 - (i + 1) + 1 = 9 - i := by omega
    rw [parseAt_eq r mode n (by omega) (by omega), hnext]
    exact needsAt_first (ih (by omega))

theorem opens_assignment (r : Rules) (mode : Mode) (n : Nat) :
    NeedsAt (assignment r mode n) fun c => closing c.current.kind = false := by
  have hconditional : NeedsAt (conditional r mode n) fun c => closing c.current.kind = false :=
    needsAt_first (opens_parseAt r mode n (Nat.le_refl 6))
  intro c e d h
  unfold assignment at h
  rw [run_location_bind] at h
  exact needsAt_first hconditional c e d h

/-! ### Places -/

/-- The lexemes are read as the expression in a place of the level, up to a token that stops there. -/
def ReadAt (k : Nat) (e : Expr) (ls : List Lexeme) : Prop :=
  ∀ (m : Nat) (mode : Mode) (c : Cursor) ⦃ts : List Token⦄, Spells ls ts → ts.length ≤ m →
    stops k c.current.kind = true →
    ∃ e', parseAt (rules m) mode (m + 1) k (ahead ts c) = .ok (e', c) ∧ e'.bare = e.bare

def LoopAt (k : Nat) (e : Expr) (ls : List Lexeme) : Prop :=
  ∀ (m : Nat) (mode : Mode) (c : Cursor) ⦃ts : List Token⦄, Spells ls ts → ts.length ≤ m →
    stops (k + 1) c.current.kind = true →
    ∃ e' i, i ≤ ts.length ∧ parseAt (rules m) mode (m + 1) k (ahead ts c) =
      tailAt (rules m) mode (m + 1) k (m + 1 - i) e' c ∧ e'.bare = e.bare

variable {k : Nat} {e : Expr} {ls : List Lexeme}

theorem LoopAt.readAt (h : LoopAt k e ls) (hk : 3 ≤ k ∧ k ≤ 8 ∨ k = 10) : ReadAt k e ls := by
  intro m mode c ts hts hm hc
  obtain ⟨e', i, hi, hrun, hbare⟩ := h m mode c hts hm (stops_mono hc (Nat.le_succ k))
  obtain ⟨j, hj⟩ : ∃ j, m + 1 - i = j + 1 := ⟨m - i, by omega⟩
  refine ⟨e', ?_, hbare⟩
  rw [hrun, hj]
  exact tailAt_stops _ _ _ j hk e' hc

theorem ReadAt.loopAt (h : ReadAt (k + 1) e ls) (hlow : 3 ≤ k) (hhigh : k ≤ 8) : LoopAt k e ls := by
  intro m mode c ts hts hm hc
  obtain ⟨e', hrun, hbare⟩ := h m mode c hts hm hc
  refine ⟨e', 0, Nat.zero_le _, ?_, hbare⟩
  rw [parseAt_eq _ _ _ hlow hhigh, run_bind hrun]
  rfl

theorem ReadAt.unary (h : ReadAt 10 e ls) : ReadAt 9 e ls := by
  intro m mode c ts hts hm hc
  obtain ⟨e', hrun, hbare⟩ := h m mode c hts hm (stops_mono hc (by omega))
  have hop : unaryOp? (ahead ts c).current.kind = none :=
    (needsAt_first (opens_primary (rules m) mode (m + 1)) _ _ _ hrun).2
  refine ⟨e', ?_, hbare⟩
  change Grammar.unary (rules m) mode (m + 1) (ahead ts c) = _
  rw [Grammar.unary, run_kind_bind, hop]
  exact hrun

/-- What is read before a question mark or anything looser is read as a conditional. -/
theorem ReadAt.conditional (h : ReadAt 3 e ls) : ReadAt 2 e ls := by
  intro m mode c ts hts hm hc
  obtain ⟨e', hrun, hbare⟩ := h m mode c hts hm (stops_mono hc (by omega))
  have hquestion : c.current.kind ≠ .punctuator .question := by
    simpa [continues] using continues_of_stops hc (Nat.le_refl 2) (by omega)
  change logicalOr (rules m) mode (m + 1) (ahead ts c) = _ at hrun
  refine ⟨e', ?_, hbare⟩
  change Grammar.conditional (rules m) mode (m + 1) (ahead ts c) = _
  rw [Grammar.conditional, run_bind hrun, run_bind (run_consumeMark_ne hquestion)]
  rfl

theorem ReadAt.assignment (h : ReadAt 2 e ls) : ReadAt 1 e ls := by
  intro m mode c ts hts hm hc
  obtain ⟨e', hrun, hbare⟩ := h m mode c hts hm (stops_mono hc (by omega))
  have hop : assignOp? c.current.kind = none := by
    simpa [continues] using continues_of_stops hc (Nat.le_refl 1) (by omega)
  change Grammar.conditional (rules m) mode (m + 1) (ahead ts c) = _ at hrun
  refine ⟨e', ?_, hbare⟩
  change Grammar.assignment (rules m) mode (m + 1) (ahead ts c) = _
  rw [Grammar.assignment, run_location_bind, run_bind hrun, run_kind_bind, hop]
  rfl

theorem ReadAt.sequence (h : ReadAt 1 e ls) : ReadAt 0 e ls := by
  intro m mode c ts hts hm hc
  obtain ⟨e', hrun, hbare⟩ := h m mode c hts hm (stops_mono hc (by omega))
  have hcomma : c.current.kind ≠ .punctuator .comma := by
    simpa [continues] using continues_of_stops hc (Nat.le_refl 0) (by omega)
  have htail : commaTail (rules m) mode (m + 1) c = .ok ([], c) := by
    rw [commaTail, run_bind (run_consumeMark_ne hcomma)]
    rfl
  change Grammar.assignment (rules m) mode (m + 1) (ahead ts c) = _ at hrun
  refine ⟨e', ?_, hbare⟩
  change Grammar.sequence (rules m) mode (m + 1) (ahead ts c) = _
  rw [Grammar.sequence, run_bind hrun, run_bind htail]
  rfl

/-- What is known of an expression at its own level. A conditional takes in an assignment that follows
it, so that it is only read where none can follow. -/
def Rung : Nat → Expr → List Lexeme → Prop
  | 0 => ReadAt 0
  | 1 | 2 => ReadAt 1
  | 9 => ReadAt 9
  | k => LoopAt k

theorem rung_eq_loopAt (hk : 3 ≤ k ∧ k ≤ 8 ∨ k = 10) : Rung k = LoopAt k := by
  obtain ⟨hlow, hhigh⟩ | rfl := hk
  · interval_cases k <;> rfl
  · rfl

theorem Rung.step (hk : k < 10) (h : Rung (k + 1) e ls) : Rung k e ls := by
  obtain rfl | rfl | rfl | hloop | rfl | rfl :
      k = 0 ∨ k = 1 ∨ k = 2 ∨ (3 ≤ k ∧ k ≤ 7) ∨ k = 8 ∨ k = 9 := by omega
  · exact ReadAt.sequence h
  · exact h
  · exact ((LoopAt.readAt h (by omega)).conditional).assignment
  · rw [rung_eq_loopAt (by omega)] at h ⊢
    exact (h.readAt (by omega)).loopAt (by omega) (by omega)
  · exact ReadAt.loopAt h (by omega) (by omega)
  · exact (LoopAt.readAt h (by omega)).unary

theorem Rung.descend (hl : l ≤ 10) (hk : k ≤ l) (h : Rung l e ls) : Rung k e ls := by
  induction l with
  | zero =>
    obtain rfl : k = 0 := by omega
    exact h
  | succ l ih =>
    by_cases hlast : k = l + 1
    · rw [hlast]
      exact h
    · exact ih (by omega) (by omega) (h.step (by omega))

theorem Rung.readAt (hk : k ≤ 10) (hne : k ≠ 2) (h : Rung k e ls) : ReadAt k e ls := by
  obtain rfl | rfl | rfl | hloop : k = 0 ∨ k = 1 ∨ k = 9 ∨ (3 ≤ k ∧ k ≤ 8 ∨ k = 10) := by omega
  · exact h
  · exact h
  · exact h
  · rw [rung_eq_loopAt hloop] at h
    exact h.readAt hloop

end Grammar
end Surmise
