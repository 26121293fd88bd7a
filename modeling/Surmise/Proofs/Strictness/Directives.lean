import Mathlib.Logic.Relation
import Surmise.Proofs.Parsing.Productions
import Surmise.Proofs.Parts

/-! Which code is strict. By the directives at its head, each of them a statement that is just a string, or
because the code around it is strict; but a statement that begins with a string and goes on in the next line
is taken for a directive as well. -/
namespace Surmise

/-! ### Functions in code -/

def Expr.function? : Expr → Option Function
  | .function f => some f
  | _ => none

mutual

def Stmt.declarations : Stmt → List Function
  | .function f => [f]
  | .block body => Stmt.allDeclarations body
  | .branch _ c none => Stmt.declarations c
  | .branch _ c (some a) => Stmt.declarations c ++ Stmt.declarations a
  | .attempt body handler finalizer =>
    Stmt.allDeclarations body ++
      ((match handler with
        | some (.mk _ body) => Stmt.allDeclarations body
        | none => []) ++
      (match finalizer with
        | some body => Stmt.allDeclarations body
        | none => []))
  | .empty | .expression _ | .declare _ _ | .ret _ | .throw _ => []

def Stmt.allDeclarations : List Stmt → List Function
  | [] => []
  | t :: ts => Stmt.declarations t ++ Stmt.allDeclarations ts

end

def Stmt.inner (t : Stmt) : List Function := t.declarations ++ t.parts.filterMap Expr.function?

theorem Expr.function?_eq_some {e : Expr} {f : Function} : e.function? = some f ↔ e = .function f := by
  cases e <;> simp [function?]

theorem Stmt.mem_inner {t : Stmt} {f : Function} :
    f ∈ t.inner ↔ f ∈ t.declarations ∨ .function f ∈ t.parts := by
  simp [inner, Expr.function?_eq_some]

section

variable {x : Expr}

theorem Expr.exists_of_mem_allParts {es : List Expr} (h : x ∈ Expr.allParts es) :
    ∃ e ∈ es, x ∈ e.parts := by
  induction es with
  | nil => cases h
  | cons e es ih =>
    obtain h | h := List.mem_append.mp h
    · exact ⟨e, List.mem_cons_self, h⟩
    · obtain ⟨e', he', h⟩ := ih h
      exact ⟨e', List.mem_cons_of_mem e he', h⟩

theorem Element.exists_of_mem_allParts {es : List Element} (h : x ∈ Element.allParts es) :
    ∃ e, .item e ∈ es ∧ x ∈ e.parts := by
  induction es with
  | nil => cases h
  | cons e es ih =>
    cases e with
    | hole =>
      obtain ⟨e', he', h⟩ := ih h
      exact ⟨e', List.mem_cons_of_mem _ he', h⟩
    | item e =>
      obtain h | h := List.mem_append.mp h
      · exact ⟨e, List.mem_cons_self, h⟩
      · obtain ⟨e', he', h⟩ := ih h
        exact ⟨e', List.mem_cons_of_mem _ he', h⟩

theorem Entry.exists_of_mem_allParts {ps : List Entry} (h : x ∈ Entry.allParts ps) :
    ∃ key e, .mk key e ∈ ps ∧ x ∈ e.parts := by
  induction ps with
  | nil => cases h
  | cons p ps ih =>
    obtain ⟨key, e⟩ := p
    obtain h | h := List.mem_append.mp h
    · exact ⟨key, e, List.mem_cons_self, h⟩
    · obtain ⟨key', e', he', h⟩ := ih h
      exact ⟨key', e', List.mem_cons_of_mem _ he', h⟩

theorem Declarator.exists_of_mem_allParts {ds : List Declarator} (h : x ∈ Declarator.allParts ds) :
    ∃ id e, .mk id (some e) ∈ ds ∧ x ∈ e.parts := by
  induction ds with
  | nil => cases h
  | cons d ds ih =>
    obtain ⟨id, _ | e⟩ := d
    · obtain ⟨id', e', he', h⟩ := ih h
      exact ⟨id', e', List.mem_cons_of_mem _ he', h⟩
    · obtain h | h := List.mem_append.mp h
      · exact ⟨id, e, List.mem_cons_self, h⟩
      · obtain ⟨id', e', he', h⟩ := ih h
        exact ⟨id', e', List.mem_cons_of_mem _ he', h⟩

theorem Stmt.exists_of_mem_all {f : Function} {ts : List Stmt}
    (h : f ∈ Stmt.allDeclarations ts ∨ .function f ∈ Stmt.allParts ts) : ∃ t ∈ ts, f ∈ t.inner := by
  induction ts with
  | nil => obtain h | h := h <;> cases h
  | cons t ts ih =>
    have htail (h : f ∈ Stmt.allDeclarations ts ∨ .function f ∈ Stmt.allParts ts) :
        ∃ u ∈ t :: ts, f ∈ u.inner := by
      obtain ⟨u, hu, h⟩ := ih h
      exact ⟨u, List.mem_cons_of_mem t hu, h⟩
    obtain h | h := h <;> obtain h | h := List.mem_append.mp h
    · exact ⟨t, List.mem_cons_self, Stmt.mem_inner.mpr (.inl h)⟩
    · exact htail (.inl h)
    · exact ⟨t, List.mem_cons_self, Stmt.mem_inner.mpr (.inr h)⟩
    · exact htail (.inr h)

theorem Stmt.exists_of_mem_attempt {f : Function} {ts : List Stmt} {handler : Option Handler}
    {finalizer : Option (List Stmt)} (h : f ∈ (Stmt.attempt ts handler finalizer).inner) :
    (∃ t ∈ ts, f ∈ t.inner) ∨
      (∃ param us, handler = some (.mk param us) ∧ ∃ t ∈ us, f ∈ t.inner) ∨
      ∃ us, finalizer = some us ∧ ∃ t ∈ us, f ∈ t.inner := by
  have hparts (us vs : List Stmt)
      (h : f ∈ Stmt.allDeclarations ts ++ (Stmt.allDeclarations us ++ Stmt.allDeclarations vs) ∨
        .function f ∈ Stmt.allParts ts ++ (Stmt.allParts us ++ Stmt.allParts vs)) :
      (∃ t ∈ ts, f ∈ t.inner) ∨ (∃ t ∈ us, f ∈ t.inner) ∨ ∃ t ∈ vs, f ∈ t.inner := by
    simp only [List.mem_append] at h
    obtain (h | h | h) | h | h | h := h
    · exact .inl (Stmt.exists_of_mem_all (.inl h))
    · exact .inr (.inl (Stmt.exists_of_mem_all (.inl h)))
    · exact .inr (.inr (Stmt.exists_of_mem_all (.inl h)))
    · exact .inl (Stmt.exists_of_mem_all (.inr h))
    · exact .inr (.inl (Stmt.exists_of_mem_all (.inr h)))
    · exact .inr (.inr (Stmt.exists_of_mem_all (.inr h)))
  -- A clause that is missing is like an empty one.
  obtain _ | ⟨param, us⟩ := handler <;> obtain _ | vs := finalizer
  · exact (hparts [] [] (Stmt.mem_inner.mp h)).imp_right (by simp)
  · exact (hparts [] vs (Stmt.mem_inner.mp h)).imp_right (by simp)
  · exact (hparts us [] (Stmt.mem_inner.mp h)).imp_right (by simp)
  · exact (hparts us vs (Stmt.mem_inner.mp h)).imp_right (by simp)

end

/-! ### Code and its directives -/

/-- The code of a program or of a function: the tokens from its first statement on, its statements, and
whether it is strict. -/
structure Code where
  tokens : List Token
  body : List Stmt
  strict : Bool

def Program.code (tokens : List Token) (p : Program) : Code := ⟨tokens, p.body, p.strict⟩

def Function.code (tokens : List Token) (f : Function) : Code :=
  ⟨Token.pastBrace (tokens.dropWhile fun t => t.location ≠ f.span.start), f.body, f.strict⟩

def Token.splitTexts : List Token → List Stmt → List Token × List Token
  | t :: tokens, s :: body =>
    if t.kind = .string ∧ s.isText = true then
      let (texts, rest) := splitTexts (pastSemicolon tokens) body
      (t :: texts, rest)
    else ([], t :: tokens)
  | tokens, _ => ([], tokens)

def Token.goesOn : List Token → Bool
  | t :: u :: _ => t.kind = .string && u.newlineBefore
  | _ => false

namespace Code

def functions (k : Code) : List Function := k.body.flatMap Stmt.inner

/-- One of the statements at the head that are just strings is the directive for strict code. -/
def directs (k : Code) : Bool := (Token.splitTexts k.tokens k.body).1.any Grammar.isStrictDirective

/-- The first statement that is not just a string begins with one, and goes on in the next line. -/
def overruns (k : Code) : Bool := Token.goesOn (Token.splitTexts k.tokens k.body).2

def misdirects (k : Code) : Bool :=
  k.overruns && (Token.splitTexts k.tokens k.body).2.head?.any Grammar.isStrictDirective

def Encloses (tokens : List Token) (outer inner : Code) : Prop :=
  ∃ f ∈ outer.functions, inner = f.code tokens

/-- What decides whether code is strict that is read in strict code or not. -/
structure Heeds (outer : Bool) (k : Code) : Prop where
  inherited : outer = true → k.strict = true
  directed : (k.directs || k.misdirects) = true → k.strict = true
  decided : k.overruns = false → k.strict = true → outer = true ∨ k.directs = true

def Passes (outer inner : Code) : Prop :=
  ∃ strict, inner.Heeds strict ∧ (strict = true → outer.strict = true) ∧
    (outer.overruns = false → strict = outer.strict)

/-- The code heeds directives, and all code inside of it does, and passes strictness on. -/
def Governed (tokens : List Token) (outer : Bool) (k : Code) : Prop :=
  k.Heeds outer ∧ ∀ k₁ k₂, Relation.ReflTransGen (Encloses tokens) k k₁ → Encloses tokens k₁ k₂ →
    k₁.Passes k₂

theorem Governed.of_encloses {tokens : List Token} {outer : Bool} {k : Code} (hk : k.Heeds outer)
    (h : ∀ inner, Encloses tokens k inner → ∃ strict, Governed tokens strict inner ∧
      (strict = true → k.strict = true) ∧ (k.overruns = false → strict = k.strict)) :
    Governed tokens outer k := by
  refine ⟨hk, fun k₁ k₂ hreach hin => ?_⟩
  obtain rfl | ⟨inner, hinner, hreach⟩ := Relation.ReflTransGen.cases_head hreach
  · obtain ⟨strict, hgoverned, hpass⟩ := h k₂ hin
    exact ⟨strict, hgoverned.1, hpass⟩
  · obtain ⟨strict, hgoverned, -⟩ := h inner hinner
    exact hgoverned.2 k₁ k₂ hreach hin

end Code

/-! ### The head of a body -/

namespace Grammar

variable {S : Mode → Cursor → Stmt → Prop} {mode : Mode} {c c' : Cursor}
variable {t : Stmt} {ts : List Stmt} {before after : Bool}

theorem splitTexts_text (hc : c.current.kind = .string) (ht : t.isText = true) (hend : Concludes c t c')
    (ts : List Stmt) : Token.splitTexts c.tokens (t :: ts) =
      (c.current :: (Token.splitTexts c'.tokens ts).1, (Token.splitTexts c'.tokens ts).2) := by
  rw [(hend.text ht).1]
  exact if_pos ⟨hc, ht⟩

theorem splitTexts_other (h : ∀ t ∈ ts.head?, c.current.kind = .string → t.isText = false) :
    Token.splitTexts c.tokens ts = ([], c.tokens) := by
  cases ts with
  | nil => rfl
  | cons t ts =>
    refine if_neg ?_
    rintro ⟨hc, ht⟩
    cases (h t rfl hc).symm.trans ht

theorem splitTexts_stop (hstop : ¬ (c.current.kind = .string ∧ c.rest.head?.all endsDirective = true))
    (hnext : ∀ t ∈ ts.head?, c.current.kind = .string → ∃ c', Concludes c t c') :
    Token.splitTexts c.tokens ts = ([], c.tokens) ∧ Token.goesOn c.tokens = false := by
  refine ⟨splitTexts_other fun t ht hc => ?_, ?_⟩
  · obtain ⟨c', hend⟩ := hnext t ht hc
    rw [Bool.eq_false_iff]
    exact fun htext => hstop ⟨hc, (hend.text htext).2⟩
  · rw [Bool.eq_false_iff]
    intro hgoes
    obtain ⟨t, _ | ⟨u, us⟩⟩ := c
    · cases hgoes
    · obtain ⟨hkind, hnewline⟩ := Bool.and_eq_true_iff.mp hgoes
      exact hstop ⟨of_decide_eq_true hkind, by simp [endsDirective, Parse.endsStatement, hnewline]⟩

theorem goesOn_of_longer (hc : c.current.kind = .string) (hnext : c.rest.head?.all endsDirective = true)
    (hend : Concludes c t c') (ht : t.isText = false) : Token.goesOn c.tokens = true := by
  obtain ⟨u, us, hrest, hstops⟩ := hend.longer ht
  rw [hrest] at hnext
  simp only [Token.Kind.stops, List.mem_cons, List.not_mem_nil, or_false, not_or] at hstops
  have hnewline : u.newlineBefore = true := by
    simpa [endsDirective, Parse.endsStatement, hstops] using hnext
  simp [Cursor.tokens, hrest, Token.goesOn, hc, hnewline]

/-- A statement that is just a string is a directive or it is not; the rest decides the rest. -/
theorem heeds_text (hc : c.current.kind = .string) (ht : t.isText = true) (hend : Concludes c t c')
    (h : Code.Heeds (before || isStrictDirective c.current) ⟨c'.tokens, ts, after⟩) :
    Code.Heeds before ⟨c.tokens, t :: ts, after⟩ := by
  have hsplit := splitTexts_text hc ht hend ts
  have hdirects : Code.directs ⟨c.tokens, t :: ts, after⟩ =
      (isStrictDirective c.current || Code.directs ⟨c'.tokens, ts, after⟩) := by
    simp only [Code.directs, hsplit, List.any_cons]
  have hoverruns : Code.overruns ⟨c.tokens, t :: ts, after⟩ = Code.overruns ⟨c'.tokens, ts, after⟩ := by
    simp only [Code.overruns, hsplit]
  have hmisdirects : Code.misdirects ⟨c.tokens, t :: ts, after⟩ =
      Code.misdirects ⟨c'.tokens, ts, after⟩ := by
    simp only [Code.misdirects, hoverruns, hsplit]
  refine ⟨fun hbefore => h.inherited (by rw [hbefore]; rfl), ?_, ?_⟩
  · rw [hdirects, hmisdirects, Bool.or_assoc, Bool.or_eq_true_iff]
    rintro (hstrict | hrest)
    · exact h.inherited (by rw [hstrict, Bool.or_true])
    · exact h.directed hrest
  · rw [hdirects, hoverruns]
    intro hoverruns hafter
    obtain hbefore | hrest := h.decided hoverruns hafter
    · obtain hbefore | hstrict := Bool.or_eq_true_iff.mp hbefore
      · exact .inl hbefore
      · exact .inr (by rw [hstrict, Bool.true_or])
    · exact .inr (by rw [hrest, Bool.or_true])

theorem Leading.inherits {ds : List Stmt} (h : Leading S mode c c' before after ds) (hbefore : before = true) :
    after = true := by
  induction h with
  | nil => exact hbefore
  | cons _ _ _ _ _ ih => exact ih (by rw [hbefore, Bool.true_or])

/-- The leading statements decide whether the body is strict. As long as it does not overrun, they are all
just strings. -/
theorem Leading.heeds {ds : List Stmt} (h : Leading S mode c c' before after ds)
    (hnext : ∀ t ∈ ts.head?, c'.current.kind = .string → ∃ c'', Concludes c' t c'') :
    Code.Heeds before ⟨c.tokens, ds ++ ts, after⟩ ∧
      (Code.overruns ⟨c.tokens, ds ++ ts, after⟩ = false → ∀ d ∈ ds, d.isText = true) := by
  induction h with
  | @nil c strict hstop =>
    obtain ⟨hsplit, hgoes⟩ := splitTexts_stop hstop hnext
    refine ⟨⟨id, ?_, fun _ h => .inl h⟩, fun _ => List.forall_mem_nil _⟩
    simp [Code.directs, Code.misdirects, Code.overruns, hsplit, hgoes]
  | @cons c c₁ c' t before after ds hc hdirective hend _ hds ih =>
    obtain ⟨hheeds, htexts⟩ := ih hnext
    by_cases ht : t.isText = true
    · refine ⟨heeds_text hc ht hend hheeds, fun hoverruns => List.forall_mem_cons.mpr ⟨ht, htexts ?_⟩⟩
      rw [← hoverruns]
      simp only [Code.overruns, List.cons_append, splitTexts_text hc ht hend]
    -- Here the statement goes on, and its first token counts as a directive all the same.
    · have ht : t.isText = false := by simpa using ht
      have hsplit : Token.splitTexts c.tokens (t :: ds ++ ts) = ([], c.tokens) := by
        refine splitTexts_other ?_
        rintro _ ⟨⟩ _
        exact ht
      have hoverruns : Code.overruns ⟨c.tokens, t :: ds ++ ts, after⟩ = true := by
        simp only [Code.overruns, hsplit]
        exact goesOn_of_longer hc hdirective hend ht
      refine ⟨⟨fun hbefore => hds.inherits (by rw [hbefore]; rfl), fun h => hds.inherits ?_, ?_⟩, ?_⟩
      · simp only [Code.directs, Code.misdirects, hoverruns, hsplit] at h
        have hstrict : isStrictDirective c.current = true := by simpa [Cursor.tokens] using h
        rw [hstrict, Bool.or_true]
      · intro h
        cases hoverruns.symm.trans h
      · intro h
        cases hoverruns.symm.trans h

end Grammar

/-! ### Places of functions -/

variable {tokens : List Token}

theorem Token.Laid.offset_ge {before ahead : List Char} (h : Laid before ahead tokens) {t : Token}
    (ht : t ∈ tokens) : (String.ofList before).utf8ByteSize ≤ t.location.offset := by
  obtain ⟨earlier, later, rfl⟩ := List.append_of_mem ht
  obtain ⟨between, gap, after, -, hfollows, -⟩ := h.follows rfl
  rw [hfollows.location, Location.after, List.append_assoc, String.ofList_append,
    String.utf8ByteSize_append]
  exact Nat.le_add_right _ _

theorem Token.Laid.pairwise_location {before ahead : List Char} (h : Laid before ahead tokens) :
    tokens.Pairwise fun t u => t.location ≠ u.location := by
  induction h with
  | last => exact List.pairwise_singleton _ _
  | @more before gap rest t tokens ht hkind htokens ih =>
    refine List.pairwise_cons.mpr ⟨fun u hu heq => ?_, ih⟩
    have hle := htokens.offset_ge hu
    rw [← ht.stop, ← heq, Token.stop] at hle
    have hempty : t.text.utf8ByteSize = 0 := by omega
    exact hkind (ht.eof.mpr (String.utf8ByteSize_eq_zero_iff.mp hempty))

theorem Cursor.Within.dropWhile_location {c : Cursor} (hc : c.Within tokens)
    (hplaces : tokens.Pairwise fun t u => t.location ≠ u.location) :
    tokens.dropWhile (fun t => t.location ≠ c.current.location) = c.tokens := by
  obtain ⟨earlier, rfl⟩ := hc.suffix
  have hearlier := (List.pairwise_append.mp hplaces).2.2
  rw [List.dropWhile_append_of_pos fun t ht => decide_eq_true (hearlier t ht c.current List.mem_cons_self)]
  simp [Cursor.tokens]

theorem Grammar.Heads.code {tokens : List Token} {c c₁ : Cursor} {f : Function} (h : Heads c c₁ f)
    (hc : c.Within tokens) (hplaces : tokens.Pairwise fun t u => t.location ≠ u.location) :
    f.code tokens = ⟨c₁.tokens, f.body, f.strict⟩ := by
  rw [Function.code, h.start, hc.dropWhile_location hplaces, h.body]

/-! ### What is read -/

def Expr.Governed (tokens : List Token) (strict : Bool) (e : Expr) : Prop :=
  ∀ f, .function f ∈ e.parts → (f.code tokens).Governed tokens strict

def Stmt.Governed (tokens : List Token) (strict : Bool) (t : Stmt) : Prop :=
  ∀ f ∈ t.inner, (f.code tokens).Governed tokens strict

theorem Stmt.inner_of_isText {t : Stmt} (h : t.isText = true) : t.inner = [] := by
  cases t with
  | expression e =>
    change e.isText = true at h
    unfold Expr.isText at h
    split at h
    · rfl
    · cases h
  | _ => cases h

namespace Grammar

variable {tokens : List Token} {mode : Mode}

theorem Body.governed {c : Cursor} {strict : Bool} {ts : List Stmt}
    (h : Body (fun mode _ t => t.Governed tokens mode.strict) mode c strict ts) :
    Code.Governed tokens mode.strict ⟨c.tokens, ts, strict⟩ := by
  obtain ⟨hds, hnext, hts⟩ := h
  obtain ⟨hheeds, htexts⟩ := hds.heeds hnext
  refine .of_encloses hheeds ?_
  rintro _ ⟨f, hf, rfl⟩
  obtain ⟨t, ht, hf⟩ := List.mem_flatMap.mp hf
  obtain ht | ht := List.mem_append.mp ht
  · obtain ⟨_, hgoverned⟩ := hds.forall_mem t ht
    refine ⟨mode.strict, hgoverned f hf, hds.inherits, fun hoverruns => ?_⟩
    rw [Stmt.inner_of_isText (htexts hoverruns t ht)] at hf
    cases hf
  · obtain ⟨_, hgoverned⟩ := hts t ht
    exact ⟨_, hgoverned f hf, id, fun _ => rfl⟩

theorem Body.function_governed {c c₁ : Cursor} {f : Function} (hc : c.Within tokens)
    (hplaces : tokens.Pairwise fun t u => t.location ≠ u.location) (hheads : Heads c c₁ f)
    (h : Body (fun mode _ t => t.Governed tokens mode.strict) { mode with inFunction := true } c₁ f.strict
      f.body) : (f.code tokens).Governed tokens mode.strict := by
  rw [hheads.code hc hplaces]
  exact h.governed

/-- Each production hands its mode on to its parts, and a body turns strict at its directive. -/
theorem compositional_governed (hplaces : tokens.Pairwise fun t u => t.location ≠ u.location) :
    Compositional tokens (fun mode _ e => e.Governed tokens mode.strict)
      fun mode _ t => t.Governed tokens mode.strict where
  identifier _ f hf := by simp [Expr.parts] at hf
  literal _ f hf := by simp [Expr.parts] at hf
  text _ f hf := by simp [Expr.parts] at hf
  this _ f hf := by simp [Expr.parts] at hf
  functionExpr _ hc hheads h f hf := by
    obtain rfl : f = _ := by simpa [Expr.parts] using hf
    exact h.function_governed hc hplaces hheads
  group _ h := h
  array _ h f hf := by
    obtain ⟨e, he, hf⟩ := Element.exists_of_mem_allParts (by simpa [Expr.parts] using hf)
    obtain ⟨_, h⟩ := h e he
    exact h f hf
  object _ h f hf := by
    obtain ⟨key, e, he, hf⟩ := Entry.exists_of_mem_allParts (by simpa [Expr.parts] using hf)
    obtain ⟨_, h⟩ := h key e he
    exact h f hf
  dot h f hf := h f (by simpa [Expr.parts, Member.parts] using hf)
  index h hkey f hf := by
    obtain hf | hf : .function f ∈ Expr.parts _ ∨ .function f ∈ Expr.parts _ := by
      simpa [Expr.parts, Member.parts] using hf
    · exact h f hf
    · exact hkey f hf
  call h hargs f hf := by
    obtain hf | hf : .function f ∈ Expr.parts _ ∨ .function f ∈ Expr.allParts _ := by
      simpa [Expr.parts] using hf
    · exact h f hf
    · obtain ⟨e, he, hf⟩ := Expr.exists_of_mem_allParts hf
      obtain ⟨_, h⟩ := hargs e he
      exact h f hf
  unary _ h f hf := h f (by simpa [Expr.parts] using hf)
  binary hl hr f hf := by
    obtain hf | hf : .function f ∈ Expr.parts _ ∨ .function f ∈ Expr.parts _ := by
      simpa [Expr.parts] using hf
    · exact hl f hf
    · exact hr f hf
  logical hl hr f hf := by
    obtain hf | hf : .function f ∈ Expr.parts _ ∨ .function f ∈ Expr.parts _ := by
      simpa [Expr.parts] using hf
    · exact hl f hf
    · exact hr f hf
  conditional ht hc ha f hf := by
    obtain hf | hf | hf : .function f ∈ Expr.parts _ ∨ .function f ∈ Expr.parts _ ∨
        .function f ∈ Expr.parts _ := by
      simpa [Expr.parts] using hf
    · exact ht f hf
    · exact hc f hf
    · exact ha f hf
  assign h htarget hv f hf := by
    obtain hf | hf : .function f ∈ Target.parts _ ∨ .function f ∈ Expr.parts _ := by
      simpa [Expr.parts] using hf
    · unfold target? at htarget
      split at htarget <;> cases htarget
      · cases hf
      · exact h f (List.mem_cons_of_mem _ hf)
    · exact hv f hf
  sequence h _ hes f hf := by
    obtain hf | hf : .function f ∈ Expr.parts _ ∨ .function f ∈ Expr.allParts _ := by
      simpa [Expr.parts, Expr.allParts] using hf
    · exact h f hf
    · obtain ⟨e, he, hf⟩ := Expr.exists_of_mem_allParts hf
      obtain ⟨_, h⟩ := hes e he
      exact h f hf
  block _ h f hf := by
    obtain ⟨t, ht, hf⟩ := Stmt.exists_of_mem_all (Stmt.mem_inner.mp hf)
    obtain ⟨_, h⟩ := h t ht
    exact h f hf
  empty _ f hf := by cases hf
  declare _ _ h f hf := by
    obtain hf | hf := Stmt.mem_inner.mp hf
    · cases hf
    · obtain ⟨id, e, he, hf⟩ := Declarator.exists_of_mem_allParts hf
      obtain ⟨_, h⟩ := h id e he
      exact h f hf
  functionStmt _ _ hc hheads h f hf := by
    obtain rfl := List.mem_singleton.mp hf
    exact h.function_governed hc hplaces hheads
  branch := fun {_ _ _ _ test t alternate} _ htest ht halternate f hf => by
    have hpart (h : f ∈ t.declarations ∨ .function f ∈ t.parts) := ht f (Stmt.mem_inner.mpr h)
    rw [Stmt.mem_inner] at hf
    cases alternate with
    | none =>
      change f ∈ t.declarations ∨ .function f ∈ test.parts ++ t.parts at hf
      rw [List.mem_append] at hf
      obtain hf | hf | hf := hf
      · exact hpart (.inl hf)
      · exact htest f hf
      · exact hpart (.inr hf)
    | some u =>
      obtain ⟨_, hu⟩ := halternate u rfl
      have hother (h : f ∈ u.declarations ∨ .function f ∈ u.parts) := hu f (Stmt.mem_inner.mpr h)
      change f ∈ t.declarations ++ u.declarations ∨
        .function f ∈ test.parts ++ (t.parts ++ u.parts) at hf
      simp only [List.mem_append] at hf
      obtain (hf | hf) | hf | hf | hf := hf
      · exact hpart (.inl hf)
      · exact hother (.inl hf)
      · exact htest f hf
      · exact hpart (.inr hf)
      · exact hother (.inr hf)
  ret := fun {_ _ argument} _ _ h f hf => by
    cases argument with
    | none => cases hf
    | some e =>
      obtain ⟨_, h⟩ := h e rfl
      exact h f ((Stmt.mem_inner.mp hf).resolve_left List.not_mem_nil)
  throw _ h f hf := h f ((Stmt.mem_inner.mp hf).resolve_left List.not_mem_nil)
  attempt _ _ hts hhandler hfinalizer f hf := by
    obtain ⟨t, ht, hf⟩ | ⟨param, us, rfl, t, ht, hf⟩ | ⟨us, rfl, t, ht, hf⟩ :=
      Stmt.exists_of_mem_attempt hf
    · obtain ⟨_, h⟩ := hts t ht
      exact h f hf
    · obtain ⟨_, h⟩ := hhandler param us rfl t ht
      exact h f hf
    · obtain ⟨_, h⟩ := hfinalizer us rfl t ht
      exact h f hf
  expression h f hf := h f ((Stmt.mem_inner.mp hf).resolve_left List.not_mem_nil)

end Grammar

theorem Program.governed_of_parse [Platform] {source : String} {p : Program} (h : parse source = .ok p) :
    ∃ tokens, Token.tokenize source = .ok tokens ∧ (p.code tokens).Governed tokens false :=
  Grammar.of_onSource (Q := fun tokens p => (p.code tokens).Governed tokens false)
    (fun _ _ htokens hc hn => (Grammar.settles_program
      (Grammar.compositional_governed (Token.tokenize_laid htokens).pairwise_location) hc.within hn hn).imp
        fun _ _ h => h.2.governed) h

/-- Directives make code strict. Let a program be read from the tokens of a source, and take the program and
all functions in it. Code is strict if one of the statements at its head that are just strings is the
directive for strict code, and also if the directive is the first token of the statement behind them and the
statement goes on in the next line. As long as no statement behind the strings goes on in this way, a
program is strict exactly by a directive. A function is strict exactly if the code around it is or by a
directive of its own: the one half of this as long as the function does not go on in this way, the other as
long as the code around it does not. -/
theorem strict_iff_directed [Platform] {source : String} {p : Program} (h : Program.parse source = .ok p) :
    ∃ tokens, Token.tokenize source = .ok tokens ∧
      (∀ k, Relation.ReflTransGen (Code.Encloses tokens) (p.code tokens) k →
        k.directs = true ∨ k.misdirects = true → k.strict = true) ∧
      ((p.code tokens).overruns = false → (p.strict = true ↔ (p.code tokens).directs = true)) ∧
      ∀ outer inner, Relation.ReflTransGen (Code.Encloses tokens) (p.code tokens) outer →
        Code.Encloses tokens outer inner →
          (inner.overruns = false → inner.strict = true →
            outer.strict = true ∨ inner.directs = true) ∧
          (outer.overruns = false → outer.strict = true ∨ inner.directs = true →
            inner.strict = true) := by
  obtain ⟨tokens, htokens, hprogram, hinside⟩ := Program.governed_of_parse h
  refine ⟨tokens, htokens, fun k hk hdirects => ?_,
    fun hoverruns => ⟨fun hstrict => ?_, fun hdirects => ?_⟩, fun outer inner hreach hin => ?_⟩
  · rw [← Bool.or_eq_true_iff] at hdirects
    obtain rfl | ⟨outer, hreach, hin⟩ := Relation.ReflTransGen.cases_tail hk
    · exact hprogram.directed hdirects
    · obtain ⟨_, hheeds, -⟩ := hinside outer k hreach hin
      exact hheeds.directed hdirects
  · exact (hprogram.decided hoverruns hstrict).resolve_left Bool.false_ne_true
  · exact hprogram.directed (by rw [hdirects, Bool.true_or])
  · obtain ⟨strict, hheeds, hread, hpassed⟩ := hinside outer inner hreach hin
    refine ⟨fun hinner hstrict => (hheeds.decided hinner hstrict).imp_left hread, fun houter => ?_⟩
    obtain rfl := hpassed houter
    rintro (hstrict | hdirects)
    · exact hheeds.inherited hstrict
    · exact hheeds.directed (by rw [hdirects, Bool.true_or])

def Program.directing : String :=
  "(function () \x7b 'a'\n\"use strict\"; return function () \x7b ('use strict') \x7d \x7d)"

theorem strict_iff_directed_second : ∃ tokens p, Token.tokenize Program.directing = .ok tokens ∧
    Program.parse Program.directing = .ok p ∧ p.strict = false ∧
      ∃ f ∈ (p.code tokens).functions, f.strict = true ∧ (f.code tokens).directs = true := by
  have hflags : ((Token.tokenize Program.directing).toOption.bind fun tokens =>
      (Program.parse Program.directing).toOption.map fun p => ((p.code tokens).overruns, p.strict,
        (p.code tokens).functions.map fun f => ((f.code tokens).overruns, f.strict))) =
      some (false, false, [(false, true)]) := by decide +kernel
  cases hp : Program.parse Program.directing with
  | error e =>
    rw [hp] at hflags
    cases htokens : Token.tokenize Program.directing <;> rw [htokens] at hflags <;> cases hflags
  | ok p =>
    obtain ⟨tokens, htokens, -, -, hinner⟩ := strict_iff_directed hp
    rw [hp, htokens] at hflags
    simp only [Except.toOption, Option.bind_some, Option.map_some, Option.some.injEq,
      Prod.mk.injEq] at hflags
    obtain ⟨-, hstrict, hfunctions⟩ := hflags
    obtain ⟨f, hf, hflags⟩ := List.map_eq_singleton_iff.mp hfunctions
    obtain ⟨hinnerOver, hinnerStrict⟩ := Prod.mk.inj hflags
    have hmem : f ∈ (p.code tokens).functions := by rw [hf]; exact List.mem_singleton_self f
    have hdecides := (hinner _ _ .refl ⟨f, hmem, rfl⟩).1 hinnerOver hinnerStrict
    refine ⟨tokens, p, htokens, rfl, hstrict, f, hmem, hinnerStrict, ?_⟩
    exact hdecides.resolve_left (Bool.eq_false_iff.mp hstrict)

def Program.agrees? (source : String) : Option Bool := do
  let tokens ← (Token.tokenize source).toOption
  let p ← (Program.parse source).toOption
  return p.strict == (p.code tokens).directs &&
    (p.code tokens).functions.all fun f => f.strict == (p.strict || (f.code tokens).directs)

/-- A sum and an access, each begun in the line of the directive, make code strict. -/
theorem strict_by_overrunning :
    ["'use strict'\n+ 1", "function f() \x7b 'use strict'\n.length \x7d"].all
      (fun source => Program.agrees? source == some false) = true := by
  decide +kernel

end Surmise
