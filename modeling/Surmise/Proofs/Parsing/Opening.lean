import Surmise.Proofs.Parsing.Settling

/-! Statements that begin with a string token. Either such a statement is the token alone, and it ends there
or at a semicolon, or an operator or an access stands behind the token. The parsers for what lies deeper do
not matter. -/
namespace Surmise

/-! ### What parsers ensure -/

namespace Parse

variable {α β : Type}

def Ensures (p : Parse α) (c : Cursor) (Q : α → Cursor → Prop) : Prop :=
  ∀ a c', p c = .ok (a, c') → Q a c'

variable {p : Parse α} {f : α → Parse β} {c : Cursor} {Q : β → Cursor → Prop}

theorem ensures_pure {b : β} (h : Q b c) : Ensures (pure b) c Q := by
  intro _ _ hrun
  cases hrun
  exact h

theorem ensures_reject (complaint : Complaint) (location : Location) :
    Ensures (reject complaint location) c Q := by
  intro _ _ hrun
  cases hrun

theorem ensures_outOfSteps : Ensures Grammar.outOfSteps c Q := by
  intro _ _ hrun
  cases hrun

namespace Ensures

theorem bind {P : α → Cursor → Prop} (hp : Ensures p c P)
    (hf : ∀ a c', P a c' → Ensures (f a) c' Q) : Ensures (p >>= f) c Q := by
  intro b c'' hrun
  change (p c >>= fun x => f x.1 x.2) = .ok (b, c'') at hrun
  cases hx : p c with
  | error e =>
    rw [hx] at hrun
    cases hrun
  | ok x =>
    rw [hx] at hrun
    exact hf x.1 x.2 (hp x.1 x.2 hx) b c'' hrun

theorem after (hf : ∀ a c', Ensures (f a) c' Q) : Ensures (p >>= f) c Q :=
  bind (P := fun _ _ => True) (fun _ _ _ => trivial) fun a c' _ => hf a c'

theorem look {a : α} (hp : p c = .ok (a, c)) (hf : Ensures (f a) c Q) : Ensures (p >>= f) c Q := by
  intro b c'' hrun
  rw [run_bind hp] at hrun
  exact hf b c'' hrun

theorem consume {k : Token.Kind} {f : Bool → Parse β}
    (htaken : c.current.kind = k → ∀ c', Ensures (f true) c' Q) (hleft : Ensures (f false) c Q) :
    Ensures (Parse.consume k >>= f) c Q := by
  by_cases hkind : c.current.kind = k
  · intro b c'' hrun
    rw [run_bind (if_pos hkind)] at hrun
    exact htaken hkind _ b c'' hrun
  · exact look (if_neg hkind) hleft

end Ensures
end Parse

/-! ### Texts -/

def Expr.isText : Expr → Bool
  | .literal (.string _) => true
  | _ => false

def Stmt.isText : Stmt → Bool
  | .expression e => e.isText
  | _ => false

def Token.Kind.stops : List Token.Kind := [.punctuator .semicolon, .punctuator .rightBrace, .eof]

def Token.pastSemicolon : List Token → List Token
  | [] => []
  | t :: ts => if t.kind = .punctuator .semicolon then ts else t :: ts

namespace Grammar

open Parse

/-! ### Expressions -/

def Spans (c : Cursor) (e : Expr) (c' : Cursor) : Prop :=
  e.isText = true ∧ c' = c.advance ∨ e.isText = false ∧ c.advance.current.kind ∉ Token.Kind.stops

variable {c c' : Cursor} {e : Expr}

theorem Spans.proceed (h : Spans c e c') (hkind : c'.current.kind ∉ Token.Kind.stops) {e' : Expr}
    (he : e'.isText = false) (c'' : Cursor) : Spans c e' c'' := by
  obtain ⟨-, rfl⟩ | ⟨-, hstops⟩ := h
  · exact .inr ⟨he, hkind⟩
  · exact .inr ⟨he, hstops⟩

theorem not_mem_stops {Op : Type} {op? : Token.Kind → Option Op}
    (hop : ∀ kind ∈ Token.Kind.stops, op? kind = none) {kind : Token.Kind} {op : Op}
    (h : op? kind = some op) : kind ∉ Token.Kind.stops := by
  intro hmem
  rw [hop kind hmem] at h
  cases h

section

variable {r : Rules} {mode : Mode} {n : Nat}
variable {Op : Type} {operand : Parse Expr} {op? : Token.Kind → Option Op} {join : Op → Expr → Expr → Expr}

theorem spans_callTail (he : Spans c e c') : Ensures (callTail r mode n e) c' (Spans c) := by
  induction n generalizing e c' with
  | zero => exact ensures_outOfSteps
  | succ n ih =>
    have hproceed {kind : Token.Kind} {e' : Expr} (hkind : c'.current.kind = kind)
        (hstops : kind ∉ Token.Kind.stops) (he' : e'.isText = false) (c'' : Cursor) :
        Ensures (callTail r mode n e') c'' (Spans c) :=
      ih (he.proceed (hkind ▸ hstops) he' c'')
    refine .look rfl (.look rfl ?_)
    split
    next hkind => exact .after fun _ _ => .after fun _ _ => .look rfl (hproceed hkind (by decide) rfl _)
    iterate 2
      next hkind =>
        exact .after fun _ _ => .after fun _ _ => .after fun _ _ =>
          .look rfl (hproceed hkind (by decide) rfl _)
    next => exact ensures_pure he

theorem spans_leftAssoc (hop : ∀ kind ∈ Token.Kind.stops, op? kind = none)
    (hjoin : ∀ op l e, (join op l e).isText = false) (he : Spans c e c') :
    Ensures (leftAssoc op? join operand n e) c' (Spans c) := by
  induction n generalizing e c' with
  | zero => exact ensures_outOfSteps
  | succ n ih =>
    refine .look rfl ?_
    split
    next op hsome =>
      exact .after fun _ _ => .after fun _ c'' =>
        ih (he.proceed (not_mem_stops hop hsome) (hjoin _ _ _) c'')
    next => exact ensures_pure he

theorem spans_level (hoperand : Ensures operand c (Spans c))
    (hop : ∀ kind ∈ Token.Kind.stops, op? kind = none) (hjoin : ∀ op l e, (join op l e).isText = false) :
    Ensures (level op? join operand n) c (Spans c) :=
  hoperand.bind fun _ _ he => spans_leftAssoc hop hjoin he

variable (hstring : c.current.kind = .string)
include hstring

theorem spans_primary : Ensures (primary r mode n) c (Spans c) := by
  refine .look rfl ?_
  rw [hstring]
  have hhere : Ensures (stringHere c.current) c fun _ c' => c' = c := by
    unfold stringHere
    split
    · exact ensures_pure rfl
    · exact ensures_reject _ _
  refine hhere.bind fun s c' hc' => ?_
  intro e c'' hrun
  cases hrun
  exact .inl ⟨rfl, by rw [hc']⟩

theorem spans_unary : Ensures (unary r mode n) c (Spans c) := by
  refine .look rfl ?_
  rw [hstring]
  exact (spans_primary hstring).bind fun _ _ he => spans_callTail he

theorem spans_logicalOr : Ensures (logicalOr r mode n) c (Spans c) := by
  have hmultiplicative : Ensures (multiplicative r mode n) c (Spans c) :=
    spans_level (spans_unary hstring) (by decide) fun _ _ _ => rfl
  have hadditive : Ensures (additive r mode n) c (Spans c) :=
    spans_level hmultiplicative (by decide) fun _ _ _ => rfl
  have hrelational : Ensures (relational r mode n) c (Spans c) :=
    spans_level hadditive (by decide) fun _ _ _ => rfl
  have hequality : Ensures (equality r mode n) c (Spans c) :=
    spans_level hrelational (by decide) fun _ _ _ => rfl
  have hlogicalAnd : Ensures (logicalAnd r mode n) c (Spans c) :=
    spans_level hequality (by decide) fun _ _ _ => rfl
  exact spans_level hlogicalAnd (by decide) fun _ _ _ => rfl

theorem spans_conditional : Ensures (conditional r mode n) c (Spans c) := by
  refine (spans_logicalOr hstring).bind fun test c' htest => .consume (fun hkind c'' => ?_) ?_
  · have hkind : c'.current.kind ∉ Token.Kind.stops := by
      rw [hkind]
      decide
    exact .after fun _ _ => .after fun _ _ => .after fun _ c'' =>
      ensures_pure (htest.proceed hkind rfl c'')
  · exact ensures_pure htest

theorem spans_assignment : Ensures (assignment r mode n) c (Spans c) := by
  refine .look rfl ((spans_conditional hstring).bind fun left c' hleft => .look rfl ?_)
  split
  next => exact ensures_pure hleft
  next op hop =>
    split
    · exact ensures_reject _ _
    · exact .after fun _ _ => .after fun _ c'' =>
        ensures_pure (hleft.proceed (not_mem_stops (by decide) hop) rfl c'')

omit hstring in
theorem ensures_commaTail : Ensures (commaTail r mode n) c fun es c' =>
    es = [] ∧ c' = c ∨ es ≠ [] ∧ c.current.kind = .punctuator .comma := by
  cases n with
  | zero => exact ensures_outOfSteps
  | succ n =>
    refine .consume (fun hkind _ => ?_) (ensures_pure (.inl ⟨rfl, rfl⟩))
    exact .after fun _ _ => .after fun _ _ => ensures_pure (.inr ⟨List.cons_ne_nil _ _, hkind⟩)

theorem spans_sequence : Ensures (sequence r mode n) c (Spans c) := by
  refine (spans_assignment hstring).bind fun first c' hfirst => ?_
  refine ensures_commaTail.bind fun more c'' hmore => ?_
  obtain ⟨rfl, rfl⟩ | ⟨hne, hkind⟩ := hmore
  · exact ensures_pure hfirst
  · have hkind : c'.current.kind ∉ Token.Kind.stops := by
      rw [hkind]
      decide
    split
    · exact absurd rfl hne
    · exact ensures_pure (hfirst.proceed hkind rfl c'')

/-! ### Statements -/

variable {tokens : List Token}

/-- What was read from a string token at `c` up to `c'`: the token and a semicolon that may be left out
there, or a statement that goes on behind the token. -/
structure Concludes (c : Cursor) (t : Stmt) (c' : Cursor) : Prop where
  text : t.isText = true → c'.tokens = Token.pastSemicolon c.rest ∧ c.rest.head?.all endsDirective = true
  longer : t.isText = false → ∃ u us, c.rest = u :: us ∧ u.kind ∉ Token.Kind.stops

omit hstring in
theorem ensures_semicolon (hc : c.Within tokens) : Ensures semicolon c fun _ c' =>
    c'.tokens = Token.pastSemicolon c.tokens ∧ endsDirective c.current = true := by
  intro _ c' hrun
  unfold semicolon at hrun
  split at hrun
  next hmark =>
    cases hrun
    refine ⟨?_, by simp [endsDirective, hmark]⟩
    rw [hc.tokens_advance (by rw [hmark]; nofun)]
    exact (if_pos hmark).symm
  next hmark =>
    split at hrun
    next hends =>
      cases hrun
      exact ⟨(if_neg hmark).symm, by simp [endsDirective, hends]⟩
    next => cases hrun

theorem concludes_statement (hc : c.Within tokens) : Ensures (statement r mode n) c (Concludes c) := by
  have heof : c.current.kind ≠ .eof := by
    rw [hstring]
    nofun
  obtain ⟨u, us, hrest⟩ := hc.rest_ne_nil heof
  have hadvance : c.advance = ⟨u, us⟩ := by rw [Cursor.advance, hrest]
  have hnext : c.advance.Within tokens := hc.of_suffix (hc.steps heof).suffix
  refine .look rfl ?_
  rw [hstring]
  refine (spans_sequence hstring).bind fun e c' he => ?_
  obtain ⟨htext, rfl⟩ | ⟨htext, hstops⟩ := he
  · refine (ensures_semicolon hnext).bind fun _ c'' hends => ensures_pure ?_
    rw [hc.tokens_advance heof, hadvance] at hends
    refine ⟨fun _ => ⟨hends.1, by rw [hrest]; exact hends.2⟩, fun h => ?_⟩
    cases htext.symm.trans h
  · rw [hadvance] at hstops
    refine .after fun _ _ => ensures_pure ⟨fun h => ?_, fun _ => ⟨u, us, hrest, hstops⟩⟩
    cases htext.symm.trans h

end

end Grammar
end Surmise
