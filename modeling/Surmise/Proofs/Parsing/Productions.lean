import Surmise.Proofs.Parsing.Opening

/-! The grammar gone through once. All its parsers settle at every place that is nearer to the end of input
than there are levels and steps, every phrase takes a token, and whatever holds of a phrase as soon as it
holds of its parts holds of all that is read. -/
namespace Surmise

def Token.pastBrace (tokens : List Token) : List Token :=
  (tokens.dropWhile fun t => t.kind ≠ .punctuator .leftBrace).tail

@[elab_as_elim]
theorem Cursor.steps {motive : (c : Cursor) → (n m : Nat) → c.remaining < n → c.remaining < m → Prop}
    (step : ∀ c n m hn hm, (∀ c₁ hn₁ hm₁, motive c₁ n m hn₁ hm₁) → motive c (n + 1) (m + 1) hn hm)
    (c : Cursor) (n m : Nat) (hn : c.remaining < n) (hm : c.remaining < m) : motive c n m hn hm := by
  induction n generalizing m c with
  | zero => exact absurd hn (Nat.not_lt_zero _)
  | succ n ih =>
    obtain _ | m := m
    · exact absurd hm (Nat.not_lt_zero _)
    exact step c n m hn hm fun c₁ hn₁ hm₁ => ih c₁ m hn₁ hm₁

namespace Grammar

/-! ### What is read -/

section

variable (S : Mode → Cursor → Stmt → Prop) (mode : Mode) {ts : List Stmt}

/-- The statements at the head of a body that begin with a string token which seems to be all of the
statement, from one place to another, and whether code is strict before and after them. -/
inductive Leading : Cursor → Cursor → Bool → Bool → List Stmt → Prop
  | nil {c : Cursor} (strict : Bool)
      (hstop : ¬ (c.current.kind = .string ∧ c.rest.head?.all endsDirective = true)) :
      Leading c c strict strict []
  | cons {c c₁ c' : Cursor} {t : Stmt} {before after : Bool} {ts : List Stmt}
      (hc : c.current.kind = .string) (hnext : c.rest.head?.all endsDirective = true)
      (hend : Concludes c t c₁) (ht : S mode c t)
      (hts : Leading c₁ c' (before || isStrictDirective c.current) after ts) :
      Leading c c' before after (t :: ts)

inductive Body (c : Cursor) (strict : Bool) : List Stmt → Prop
  | mk {c' : Cursor} {ds ts : List Stmt} (hds : Leading S mode c c' mode.strict strict ds)
      (hnext : ∀ t ∈ ts.head?, c'.current.kind = .string → ∃ c'', Concludes c' t c'')
      (hts : ∀ t ∈ ts, ∃ c, S { mode with strict } c t) : Body c strict (ds ++ ts)

variable {S mode} {c c' : Cursor}

theorem Leading.forall_mem {before after : Bool} (h : Leading S mode c c' before after ts) :
    ∀ t ∈ ts, ∃ c, S mode c t := by
  induction h with
  | nil => exact nofun
  | cons _ _ _ ht _ ih => exact List.forall_mem_cons.mpr ⟨⟨_, ht⟩, ih⟩

theorem Body.forall_mem {strict : Bool} (h : Body S mode c strict ts) :
    ∀ t ∈ ts, ∃ strict c, S { mode with strict } c t := by
  obtain ⟨hds, -, hts⟩ := h
  refine List.forall_mem_append.mpr ⟨fun t ht => ⟨mode.strict, hds.forall_mem t ht⟩, fun t ht => ?_⟩
  exact ⟨strict, hts t ht⟩

end

structure Heads (c c₁ : Cursor) (f : Function) : Prop where
  start : f.span.start = c.current.location
  body : c₁.tokens = Token.pastBrace c.tokens

/-- What holds of expressions and statements that are read from a place as soon as it holds of their
parts. Of the place where a phrase begins it matters whether there is a string token, and where a function
and its body begin. -/
structure Compositional (tokens : List Token) (E : Mode → Cursor → Expr → Prop)
    (S : Mode → Cursor → Stmt → Prop) : Prop where
  identifier : ∀ {mode c id}, c.current.kind ≠ .string → E mode c (.identifier id)
  literal : ∀ {mode c l}, c.current.kind ≠ .string → E mode c (.literal l)
  text : ∀ {mode c s}, Token.stringValue? c.current.text = some s → E mode c (.literal (.string s))
  this : ∀ {mode c span}, c.current.kind ≠ .string → E mode c (.this span)
  functionExpr : ∀ {mode c c₁ f}, c.current.kind ≠ .string → c.Within tokens → Heads c c₁ f →
    Body S { mode with inFunction := true } c₁ f.strict f.body → E mode c (.function f)
  group : ∀ {mode c c₁ e}, c.current.kind ≠ .string → E mode c₁ e → E mode c e
  array : ∀ {mode c es}, c.current.kind ≠ .string → (∀ e, .item e ∈ es → ∃ c₁, E mode c₁ e) →
    E mode c (.array es)
  object : ∀ {mode c ps}, c.current.kind ≠ .string →
    (∀ key e, .mk key e ∈ ps → ∃ c₁, E mode c₁ e) → E mode c (.object ps)
  dot : ∀ {mode c e name span}, E mode c e → E mode c (.member (.dot e name span))
  index : ∀ {mode c c₁ e key span}, E mode c e → E mode c₁ key → E mode c (.member (.index e key span))
  call : ∀ {mode c e args span}, E mode c e → (∀ a ∈ args, ∃ c₁, E mode c₁ a) →
    E mode c (.call e args span)
  unary : ∀ {mode c c₁ op e}, c.current.kind ≠ .string → E mode c₁ e → E mode c (.unary op e)
  binary : ∀ {mode c c₁ op l e}, E mode c l → E mode c₁ e → E mode c (.binary op l e)
  logical : ∀ {mode c c₁ op l e}, E mode c l → E mode c₁ e → E mode c (.logical op l e)
  conditional : ∀ {mode c c₁ c₂ test e₁ e₂}, E mode c test → E mode c₁ e₁ → E mode c₂ e₂ →
    E mode c (.conditional test e₁ e₂)
  assign : ∀ {mode c c₁ op left target e}, E mode c left → target? left = some target →
    E mode c₁ e → E mode c (.assign op target e)
  sequence : ∀ {mode c e es}, E mode c e → es ≠ [] → (∀ e ∈ es, ∃ c₁, E mode c₁ e) →
    E mode c (.sequence (e :: es))
  block : ∀ {mode c ts}, c.current.kind ≠ .string → (∀ t ∈ ts, ∃ c₁, S mode c₁ t) →
    S mode c (.block ts)
  empty : ∀ {mode c}, c.current.kind ≠ .string → S mode c .empty
  declare : ∀ {mode c kind ds}, c.current.kind ≠ .string →
    (∀ id, .mk id none ∈ ds → kind ≠ .constant) →
    (∀ id e, .mk id (some e) ∈ ds → ∃ c₁, E mode c₁ e) → S mode c (.declare kind ds)
  functionStmt : ∀ {mode c c₁ f}, c.current.kind ≠ .string → f.name.isSome = true →
    c.Within tokens → Heads c c₁ f → Body S { mode with inFunction := true } c₁ f.strict f.body →
    S mode c (.function f)
  branch : ∀ {mode c c₁ c₂ test t alternate}, c.current.kind ≠ .string → E mode c₁ test →
    S mode c₂ t → (∀ u, alternate = some u → ∃ c₃, S mode c₃ u) →
    S mode c (.branch test t alternate)
  ret : ∀ {mode c argument}, c.current.kind ≠ .string → mode.inFunction = true →
    (∀ e, argument = some e → ∃ c₁, E mode c₁ e) → S mode c (.ret argument)
  throw : ∀ {mode c c₁ e}, c.current.kind ≠ .string → E mode c₁ e → S mode c (.throw e)
  attempt : ∀ {mode c ts handler finalizer}, c.current.kind ≠ .string →
    (handler.isNone && finalizer.isNone) = false → (∀ t ∈ ts, ∃ c₁, S mode c₁ t) →
    (∀ param us, handler = some (.mk param us) → ∀ t ∈ us, ∃ c₁, S mode c₁ t) →
    (∀ us, finalizer = some us → ∀ t ∈ us, ∃ c₁, S mode c₁ t) →
    S mode c (.attempt ts handler finalizer)
  expression : ∀ {mode c e}, E mode c e → S mode c (.expression e)

abbrev Phrase {α : Type} (P : Mode → Cursor → α → Prop) (mode : Mode) (p q : Parse α) (c : Cursor) : Prop :=
  Parse.Settles p q c fun a c' => c'.remaining < c.remaining ∧ P mode c a

/-- The parsers settle where fewer than `k` tokens remain, each phrase takes a token and is as it should
be. -/
structure Settling (tokens : List Token) (E : Mode → Cursor → Expr → Prop)
    (S : Mode → Cursor → Stmt → Prop) (k : Nat) (r r' : Rules) : Prop where
  sequence : ∀ mode c, c.Within tokens → c.remaining < k →
    Phrase E mode (r.sequence mode) (r'.sequence mode) c
  assignment : ∀ mode c, c.Within tokens → c.remaining < k →
    Phrase E mode (r.assignment mode) (r'.assignment mode) c
  unary : ∀ mode c, c.Within tokens → c.remaining < k →
    Phrase E mode (r.unary mode) (r'.unary mode) c
  statement : ∀ mode c, c.Within tokens → c.remaining < k →
    Parse.Settles (r.statement mode) (r'.statement mode) c fun t c' =>
      c'.remaining < c.remaining ∧ S mode c t ∧ (c.current.kind = .string → Concludes c t c')

open Parse

variable {tokens : List Token} {E : Mode → Cursor → Expr → Prop} {S : Mode → Cursor → Stmt → Prop}
  {c : Cursor}

/-! ### Parsers that do not go deeper -/

variable {n m : Nat}

section

variable (hc : c.Within tokens)
include hc

theorem settles_identifier : Settles identifier identifier c fun _ c' =>
    c'.remaining < c.remaining ∧ c.current.kind = .identifier ∧ c' = c.advance :=
  .bind hc (.expected hc nofun) fun _ _ _ _ h => settles_pure ⟨h.1.2.1, h.2, h.1.2.2⟩

omit hc in
theorem settles_stringHere (t : Token) : Settles (stringHere t) (stringHere t) c fun s c' =>
    Token.stringValue? t.text = some s ∧ c' = c := by
  unfold stringHere
  split
  next hs => exact settles_pure ⟨hs, rfl⟩
  · exact settles_reject .invalidEscape nofun _

theorem settles_leaf (hk : c.current.kind ≠ .eof) (e : Expr) :
    Settles (leaf e) (leaf e) c fun e' c' => c'.remaining < c.remaining ∧ e' = e :=
  .advance hc hk fun _ _ hlt => settles_pure ⟨hlt, rfl⟩

theorem settles_propertyKey :
    Settles propertyKey propertyKey c fun _ c' => c'.remaining < c.remaining := by
  refine .current ?_
  split
  iterate 2 next hk => exact .advance hc (by rw [hk]; nofun) fun _ _ hlt => settles_pure hlt
  next hk =>
    refine .bind hc (settles_stringHere _) fun s c₁ _ _ hs => ?_
    rw [hs.2]
    exact .advance hc (by rw [hk]; nofun) fun _ _ hlt => settles_pure hlt
  next hk => exact .advance hc (by rw [hk]; nofun) fun _ _ hlt => settles_pure hlt
  · exact settles_unexpected

theorem settles_memberName :
    Settles memberName memberName c fun _ c' => c'.remaining < c.remaining := by
  refine .current ?_
  split
  iterate 2 next hk => exact .advance hc (by rw [hk]; nofun) fun _ _ hlt => settles_pure hlt
  · exact settles_unexpected

theorem pastBrace_advance {kind : Token.Kind} (hk : c.current.kind = kind)
    (heof : kind ≠ .eof) (hbrace : kind ≠ .punctuator .leftBrace) :
    Token.pastBrace c.advance.tokens = Token.pastBrace c.tokens := by
  subst hk
  rw [hc.tokens_advance heof]
  simp [Token.pastBrace, Cursor.tokens, hbrace]

theorem settles_parameters (hn : c.remaining < n) (hm : c.remaining < m) :
    Settles (parameters n) (parameters m) c fun _ c' =>
      Token.pastBrace c'.tokens = Token.pastBrace c.tokens := by
  induction c, n, m, hn, hm using Cursor.steps with
  | step c n m hn hm ih =>
    refine .atMark ?_
    split
    · exact settles_pure rfl
    refine .bind hc (settles_identifier hc) fun id c₁ hc₁ _ hid => ?_
    obtain ⟨hlt₁, hkind₁, rfl⟩ := hid
    have hpast₁ := pastBrace_advance hc hkind₁ nofun nofun
    refine .bind hc₁ (.consumed hc₁ nofun) fun b c₂ hc₂ hle₂ hb => ?_
    obtain ⟨⟨rfl, -, rfl⟩, hkind₂⟩ | ⟨rfl, rfl⟩ := hb
    · have hpast₂ := pastBrace_advance hc₁ hkind₂ nofun nofun
      exact .bind hc₂ (ih _ (by omega) (by omega) hc₂) fun _ _ _ _ h =>
        settles_pure (h.trans (hpast₂.trans hpast₁))
    · exact settles_pure hpast₁

theorem settles_functionName (isDeclaration : Bool) :
    Settles (functionName isDeclaration) (functionName isDeclaration) c fun name c' =>
      (isDeclaration = true → name.isSome = true) ∧
        Token.pastBrace c'.tokens = Token.pastBrace c.tokens := by
  refine .kind ?_
  split
  · refine .bind hc (settles_identifier hc) fun id c₁ _ _ hid => settles_pure ⟨fun _ => rfl, ?_⟩
    obtain ⟨-, hkind, rfl⟩ := hid
    exact pastBrace_advance hc hkind nofun nofun
  split
  · exact .rejected settles_unexpected
  next h => exact settles_pure ⟨fun h' => absurd h' h, rfl⟩

theorem settles_catchParameter : Settles catchParameter catchParameter c fun _ _ => True := by
  refine .consume hc nofun (fun c₁ hc₁ _ => ?_) (settles_pure trivial)
  exact .bind hc₁ (settles_identifier hc₁) fun _ c₂ hc₂ _ _ =>
    .expect hc₂ nofun fun _ _ _ _ => settles_pure trivial

end

/-! ### Expressions -/

variable {Op : Type} {operand operand' : Parse Expr} {mode : Mode} {k : Nat} {op? : Token.Kind → Option Op}
  {join : Op → Expr → Expr → Expr}

theorem settles_leftAssoc (heof : op? .eof = none)
    (hoperand : ∀ c, c.Within tokens → c.remaining ≤ k → Phrase E mode operand operand' c)
    (hjoin : ∀ op l e c c₁, E mode c l → E mode c₁ e → E mode c (join op l e)) {c₀ : Cursor} {left : Expr}
    (hleft : E mode c₀ left) (hc : c.Within tokens) (hk : c.remaining ≤ k) (hn : c.remaining < n)
    (hm : c.remaining < m) :
    Settles (leftAssoc op? join operand n left) (leftAssoc op? join operand' m left) c fun e _ =>
      E mode c₀ e := by
  induction c, n, m, hn, hm using Cursor.steps generalizing left with
  | step c n m hn hm ih =>
    refine .kind ?_
    split
    next op hop =>
      have hne : c.current.kind ≠ .eof := by
        intro hk
        rw [hk, heof] at hop
        cases hop
      refine .advance hc hne fun c₁ hc₁ hlt₁ => ?_
      refine .bind hc₁ (hoperand c₁ hc₁ (by omega)) fun right c₂ hc₂ hle₂ hright => ?_
      exact ih c₂ (by omega) (by omega) (hjoin op _ _ _ _ hleft hright.2) hc₂ (by omega)
    next => exact settles_pure hleft

theorem settles_level (heof : op? .eof = none)
    (hjoin : ∀ op l e c c₁, E mode c l → E mode c₁ e → E mode c (join op l e))
    (hoperand : ∀ c, c.Within tokens → c.remaining ≤ k → Phrase E mode operand operand' c) (hkn : k < n)
    (hkm : k < m) (c : Cursor) (hc : c.Within tokens) (hk : c.remaining ≤ k) :
    Phrase E mode (level op? join operand n) (level op? join operand' m) c := by
  refine .bind hc (hoperand c hc hk) fun left c₁ hc₁ hle₁ hleft => ?_
  have hlt := hleft.1
  have htail := settles_leftAssoc heof hoperand hjoin hleft.2 hc₁ (by omega) (n := n) (m := m)
    (by omega) (by omega)
  exact htail.onward.imp fun e c₂ h => ⟨by omega, h.2⟩

section Phrases

variable (hES : Compositional tokens E S) {r r' : Rules} {k : Nat} (hr : Settling tokens E S k r r')
  (mode : Mode) {n m : Nat}

section

variable (hc : c.Within tokens) (hk : c.remaining < k) (hn : c.remaining < n) (hm : c.remaining < m)
include hr hc hk hn hm

omit hr hc hk hn hm in
theorem first_concludes {t : Stmt} {c₁ : Cursor} (ht : c.current.kind = .string → Concludes c t c₁)
    (ts : List Stmt) : ∀ u ∈ (t :: ts).head?, c.current.kind = .string → ∃ c₁, Concludes c u c₁ := by
  rintro _ ⟨⟩ hstring
  exact ⟨c₁, ht hstring⟩

-- The loops below go by steps, of which each takes a token; so the steps outlast the tokens.

theorem settles_elements : Settles (elements r mode n) (elements r' mode m) c fun es _ =>
    ∀ x ∈ es, ∀ e, x = .item e → ∃ c₁, E mode c₁ e := by
  induction c, n, m, hn, hm using Cursor.steps with
  | step c n m hn hm ih =>
    refine .atMark ?_
    split
    · exact settles_pure nofun
    refine .consume hc nofun (fun c₁ hc₁ hlt₁ => ?_) ?_
    · exact .bind hc₁ (ih c₁ (by omega) (by omega) hc₁ (by omega)) fun es _ _ _ hes =>
        settles_pure (List.forall_mem_cons.mpr ⟨nofun, hes⟩)
    refine .bind hc (hr.assignment mode c hc hk) fun e c₁ hc₁ _ he => ?_
    have hlt := he.1
    have hitem : ∀ e', Element.item e = .item e' → ∃ c₁, E mode c₁ e' := by
      rintro _ ⟨⟩
      exact ⟨c, he.2⟩
    refine .consume hc₁ nofun (fun c₂ hc₂ hlt₂ => ?_) ?_
    · exact .bind hc₂ (ih c₂ (by omega) (by omega) hc₂ (by omega)) fun es _ _ _ hes =>
        settles_pure (List.forall_mem_cons.mpr ⟨hitem, hes⟩)
    · exact settles_pure (List.forall_mem_singleton.mpr hitem)

theorem settles_entries : Settles (entries r mode n) (entries r' mode m) c fun ps _ =>
    ∀ x ∈ ps, ∀ key e, x = .mk key e → ∃ c₁, E mode c₁ e := by
  induction c, n, m, hn, hm using Cursor.steps with
  | step c n m hn hm ih =>
    refine .atMark ?_
    split
    · exact settles_pure nofun
    refine .bind hc (settles_propertyKey hc) fun key c₁ hc₁ _ hlt₁ => ?_
    refine .expect hc₁ nofun fun c₂ hc₂ hlt₂ _ => ?_
    refine .bind hc₂ (hr.assignment mode c₂ hc₂ (by omega)) fun e c₃ hc₃ hle₃ he => ?_
    have hentry : ∀ key' e', Entry.mk key e = .mk key' e' → ∃ c₁, E mode c₁ e' := by
      rintro _ _ ⟨⟩
      exact ⟨c₂, he.2⟩
    refine .consume hc₃ nofun (fun c₄ hc₄ hlt₄ => ?_) ?_
    · exact .bind hc₄ (ih c₄ (by omega) (by omega) hc₄ (by omega)) fun ps _ _ _ hps =>
        settles_pure (List.forall_mem_cons.mpr ⟨hentry, hps⟩)
    · exact settles_pure (List.forall_mem_singleton.mpr hentry)

theorem settles_arguments : Settles (arguments r mode n) (arguments r' mode m) c fun es _ =>
    ∀ e ∈ es, ∃ c₁, E mode c₁ e := by
  induction c, n, m, hn, hm using Cursor.steps with
  | step c n m hn hm ih =>
    refine .atMark ?_
    split
    · exact settles_pure nofun
    refine .bind hc (hr.assignment mode c hc hk) fun e c₁ hc₁ _ he => ?_
    have hlt := he.1
    refine .consume hc₁ nofun (fun c₂ hc₂ hlt₂ => ?_) ?_
    · exact .bind hc₂ (ih c₂ (by omega) (by omega) hc₂ (by omega)) fun es _ _ _ hes =>
        settles_pure (List.forall_mem_cons.mpr ⟨⟨c, he.2⟩, hes⟩)
    · exact settles_pure (List.forall_mem_singleton.mpr ⟨c, he.2⟩)

theorem settles_commaTail : Settles (commaTail r mode n) (commaTail r' mode m) c fun es _ =>
    ∀ e ∈ es, ∃ c₁, E mode c₁ e := by
  induction c, n, m, hn, hm using Cursor.steps with
  | step c n m hn hm ih =>
    refine .consume hc nofun (fun c₁ hc₁ hlt₁ => ?_) (settles_pure nofun)
    refine .bind hc₁ (hr.assignment mode c₁ hc₁ (by omega)) fun e c₂ hc₂ hle₂ he => ?_
    exact .bind hc₂ (ih c₂ (by omega) (by omega) hc₂ (by omega)) fun es _ _ _ hes =>
      settles_pure (List.forall_mem_cons.mpr ⟨⟨c₁, he.2⟩, hes⟩)

/-! ### Functions -/

theorem settles_statements : Settles (statements r mode n) (statements r' mode m) c fun ts _ =>
    (∀ t ∈ ts, ∃ c₁, S mode c₁ t) ∧
      ∀ t ∈ ts.head?, c.current.kind = .string → ∃ c₁, Concludes c t c₁ := by
  induction c, n, m, hn, hm using Cursor.steps with
  | step c n m hn hm ih =>
    refine .consume hc nofun (fun _ _ _ => settles_pure ⟨nofun, nofun⟩) ?_
    refine .atEnd ?_
    split
    · exact .rejected settles_unexpected
    refine .bind hc (hr.statement mode c hc hk) fun t c₁ hc₁ _ ht => ?_
    have hlt := ht.1
    refine .bind hc₁ (ih c₁ (by omega) (by omega) hc₁ (by omega)) fun ts _ _ _ hts => ?_
    exact settles_pure ⟨List.forall_mem_cons.mpr ⟨⟨c, ht.2.1⟩, hts.1⟩, first_concludes ht.2.2 ts⟩

/-- Reading the head of a body gives the statements that lead it. -/
theorem settles_prologue (strict : Bool) :
    Settles (prologue r mode n strict) (prologue r' mode m strict) c fun x c' =>
      Leading S mode c c' strict x.1 x.2 := by
  induction c, n, m, hn, hm using Cursor.steps generalizing strict with
  | step c n m hn hm ih =>
    refine .current ?_
    by_cases hstring : c.current.kind = .string
    · obtain ⟨u, us, hrest⟩ := hc.rest_ne_nil (by rw [hstring]; nofun)
      refine .look (a := c.rest.head?.all endsDirective) (fun tail => ?_) ?_
      · rw [nextSatisfies, Cursor.followedBy, hrest]
        rfl
      split
      next hdirective =>
        refine .bind hc (hr.statement mode c hc hk) fun t c₁ hc₁ _ ht => ?_
        have hlt := ht.1
        refine .bind hc₁ (ih c₁ (by omega) (by omega) hc₁ (by omega) _) fun x _ _ _ hx => ?_
        have hnext := (Bool.and_eq_true_iff.mp hdirective).2
        exact settles_pure (.cons hstring hnext (ht.2.2 hstring) ht.2.1 hx)
      next hdirective =>
        exact settles_pure (.nil strict fun h => hdirective (by rw [h.2, hstring]; rfl))
    -- What comes after another token is looked at as well, but it does not matter.
    · have hother (b : Bool) : ¬ (decide (c.current.kind = .string) && b) = true := by
        rw [decide_eq_false hstring, Bool.false_and]
        exact Bool.false_ne_true
      exact .gives (strict, []) c List.suffix_rfl
        (fun _ => (run_bind rfl).trans (congrFun (if_neg (hother _)) _))
        (fun _ => (run_bind rfl).trans (congrFun (if_neg (hother _)) _))
        (.nil strict fun h => hstring h.1)

theorem settles_functionBody :
    Settles (functionBody r mode n) (functionBody r' mode m) c fun x _ =>
      Body S { mode with inFunction := true } c x.1 x.2 := by
  refine .bind hc (settles_prologue hr { mode with inFunction := true } hc hk hn hm mode.strict)
    fun x c₁ hc₁ hle₁ hds => ?_
  refine .bind hc₁ (settles_statements hr _ hc₁ (by omega) (by omega) (by omega))
    fun ts _ _ _ hts => ?_
  exact settles_pure (.mk hds hts.2 hts.1)

end

section

variable (hkn : k < n) (hkm : k < m) (hc : c.Within tokens) (hk : c.remaining ≤ k)
include hr hkn hkm hc hk

theorem settles_function (hkind : c.current.kind = .keyword .kwFunction) (isDeclaration : Bool) :
    Settles (function r mode n isDeclaration) (function r' mode m isDeclaration) c fun f c' =>
      c'.remaining < c.remaining ∧ (isDeclaration = true → f.name.isSome = true) ∧
        ∃ c₁, Heads c c₁ f ∧ Body S { mode with inFunction := true } c₁ f.strict f.body := by
  have hsteps := hc.steps (hkind ▸ nofun)
  refine .location (.bind hc (.taken hsteps fun _ => rfl) fun _ c₁ hc₁ _ h₁ => ?_)
  obtain ⟨-, hlt₁, rfl⟩ := h₁
  have hpast₁ := pastBrace_advance hc hkind nofun nofun
  refine .bind hc₁ (settles_functionName hc₁ isDeclaration) fun name c₂ hc₂ hle₂ hname => ?_
  refine .bind hc₂ (.expected hc₂ nofun) fun _ c₃ hc₃ _ h₃ => ?_
  obtain ⟨⟨-, hlt₃, rfl⟩, hkind₂⟩ := h₃
  have hpast₃ := pastBrace_advance hc₂ hkind₂ nofun nofun
  refine .bind hc₃ (settles_parameters hc₃ (by omega) (by omega)) fun params c₄ hc₄ hle₄ hpast₄ => ?_
  refine .bind hc₄ (.expected hc₄ nofun) fun _ c₅ hc₅ _ h₅ => ?_
  obtain ⟨⟨-, hlt₅, rfl⟩, hkind₄⟩ := h₅
  have hpast₅ := pastBrace_advance hc₄ hkind₄ nofun nofun
  refine .bind hc₅ (.expected hc₅ nofun) fun _ c₆ hc₆ _ h₆ => ?_
  obtain ⟨⟨-, hlt₆, rfl⟩, hbrace⟩ := h₆
  have hpast : c₄.advance.advance.tokens = Token.pastBrace c.tokens := by
    rw [← hpast₁, ← hname.2, ← hpast₃, ← hpast₄, ← hpast₅, hc₅.tokens_advance (hbrace ▸ nofun)]
    simp [Token.pastBrace, Cursor.tokens, hbrace]
  refine .bind hc₆ (settles_functionBody hr mode hc₆ (by omega) (by omega) (by omega))
    fun x c₇ _ hle₇ hbody => ?_
  exact .location (settles_pure ⟨by omega, hname.1, _, ⟨rfl, hpast⟩, hbody⟩)

include hES

/-- There is a case for each token that a primary expression can begin with. -/
theorem settles_primary : Phrase E mode (primary r mode n) (primary r' mode m) c := by
  have hleaf {e : Expr} (hkind : c.current.kind ≠ .eof) (he : E mode c e) :
      Phrase E mode (leaf e) (leaf e) c :=
    (settles_leaf hc hkind e).imp fun _ _ h => ⟨h.1, h.2 ▸ he⟩
  refine .current ?_
  split
  next h =>
    refine .bind hc (settles_identifier hc) fun id c₁ _ _ hid => ?_
    exact settles_pure ⟨hid.1, hES.identifier (by rw [h]; nofun)⟩
  next h => exact hleaf (by rw [h]; nofun) (hES.literal (by rw [h]; nofun))
  next h =>
    refine .bind hc (settles_stringHere _) fun s c₁ _ _ hs => ?_
    rw [hs.2]
    exact hleaf (by rw [h]; nofun) (hES.text hs.1)
  iterate 3 next h => exact hleaf (by rw [h]; nofun) (hES.literal (by rw [h]; nofun))
  next h => exact hleaf (by rw [h]; nofun) (hES.this (by rw [h]; nofun))
  next h =>
    refine .bind hc (settles_function hr mode hkn hkm hc hk h false) fun f c₁ _ _ hf => ?_
    obtain ⟨hlt, -, c₂, hheads, hbody⟩ := hf
    exact settles_pure ⟨hlt, hES.functionExpr (by rw [h]; nofun) hc hheads hbody⟩
  next h =>
    refine .advance hc (by rw [h]; nofun) fun c₁ hc₁ hlt₁ => ?_
    refine .bind hc₁ (hr.sequence mode c₁ hc₁ (by omega)) fun e c₂ hc₂ hle₂ he => ?_
    exact .expect hc₂ nofun fun c₃ _ hlt₃ _ =>
      settles_pure ⟨by omega, hES.group (by rw [h]; nofun) he.2⟩
  next h =>
    refine .advance hc (by rw [h]; nofun) fun c₁ hc₁ hlt₁ => ?_
    refine .bind hc₁ (settles_elements hr mode hc₁ (by omega) (by omega) (by omega))
      fun es c₂ hc₂ hle₂ hes => ?_
    exact .expect hc₂ nofun fun c₃ _ hlt₃ _ =>
      settles_pure ⟨by omega, hES.array (by rw [h]; nofun) fun e he => hes _ he e rfl⟩
  next h =>
    refine .advance hc (by rw [h]; nofun) fun c₁ hc₁ hlt₁ => ?_
    refine .bind hc₁ (settles_entries hr mode hc₁ (by omega) (by omega) (by omega))
      fun ps c₂ hc₂ hle₂ hps => ?_
    exact .expect hc₂ nofun fun c₃ _ hlt₃ _ =>
      settles_pure ⟨by omega, hES.object (by rw [h]; nofun) fun _ e he => hps _ he _ e rfl⟩
  · exact settles_unexpected

omit hkn hkm in
theorem settles_callTail {c₀ : Cursor} {e : Expr} (he : E mode c₀ e) (hn : c.remaining < n)
    (hm : c.remaining < m) :
    Settles (callTail r mode n e) (callTail r' mode m e) c fun e' _ => E mode c₀ e' := by
  induction c, n, m, hn, hm using Cursor.steps generalizing e with
  | step c n m hn hm ih =>
    refine .location (.kind ?_)
    split
    next h =>
      refine .advance hc (by rw [h]; nofun) fun c₁ hc₁ hlt₁ => ?_
      refine .bind hc₁ (settles_memberName hc₁) fun name c₂ hc₂ _ hlt₂ => .location ?_
      exact ih c₂ (by omega) (by omega) hc₂ (by omega) (hES.dot he)
    next h =>
      refine .advance hc (by rw [h]; nofun) fun c₁ hc₁ hlt₁ => ?_
      refine .bind hc₁ (hr.sequence mode c₁ hc₁ (by omega)) fun key c₂ hc₂ hle₂ hkey => ?_
      refine .expect hc₂ nofun fun c₃ hc₃ hlt₃ _ => .location ?_
      exact ih c₃ (by omega) (by omega) hc₃ (by omega) (hES.index he hkey.2)
    next h =>
      refine .advance hc (by rw [h]; nofun) fun c₁ hc₁ hlt₁ => ?_
      refine .bind hc₁ (settles_arguments hr mode hc₁ (by omega) (by omega) (by omega))
        fun args c₂ hc₂ hle₂ hargs => ?_
      refine .expect hc₂ nofun fun c₃ hc₃ hlt₃ _ => .location ?_
      exact ih c₃ (by omega) (by omega) hc₃ (by omega) (hES.call he hargs)
    · exact settles_pure he

theorem settles_callMember : Phrase E mode (callMember r mode n) (callMember r' mode m) c := by
  refine .bind hc (settles_primary hES hr mode hkn hkm hc hk) fun e c₁ hc₁ _ he => ?_
  have hlt := he.1
  have htail := settles_callTail hES hr mode hc₁ (by omega) he.2 (n := n) (m := m) (by omega)
    (by omega)
  exact htail.onward.imp fun _ _ h => ⟨by omega, h.2⟩

theorem settles_unary : Phrase E mode (unary r mode n) (unary r' mode m) c := by
  refine .kind ?_
  split
  next op h =>
    -- Neither the end of input nor a string is an operator.
    have hne {kind : Token.Kind} (hnone : unaryOp? kind = none) : c.current.kind ≠ kind := by
      intro hkind
      rw [hkind, hnone] at h
      cases h
    refine .advance hc (hne rfl) fun c₁ hc₁ hlt₁ => ?_
    refine .bind hc₁ (hr.unary mode c₁ hc₁ (by omega)) fun e c₂ _ hle₂ he => ?_
    exact settles_pure ⟨by omega, hES.unary (hne rfl) he.2⟩
  · exact settles_callMember hES hr mode hkn hkm hc hk

end

section

variable (hkn : k < n) (hkm : k < m) (c : Cursor) (hc : c.Within tokens) (hk : c.remaining ≤ k)
include hES hr hkn hkm hc hk

theorem settles_multiplicative : Phrase E mode (multiplicative r mode n) (multiplicative r' mode m) c :=
  settles_level rfl (fun _ _ _ _ _ => hES.binary)
    (fun _ hc hk => settles_unary hES hr mode hkn hkm hc hk) hkn hkm c hc hk

theorem settles_additive : Phrase E mode (additive r mode n) (additive r' mode m) c :=
  settles_level rfl (fun _ _ _ _ _ => hES.binary) (settles_multiplicative hES hr mode hkn hkm) hkn hkm
    c hc hk

theorem settles_relational : Phrase E mode (relational r mode n) (relational r' mode m) c :=
  settles_level rfl (fun _ _ _ _ _ => hES.binary) (settles_additive hES hr mode hkn hkm) hkn hkm
    c hc hk

theorem settles_equality : Phrase E mode (equality r mode n) (equality r' mode m) c :=
  settles_level rfl (fun _ _ _ _ _ => hES.binary) (settles_relational hES hr mode hkn hkm) hkn hkm
    c hc hk

theorem settles_logicalAnd : Phrase E mode (logicalAnd r mode n) (logicalAnd r' mode m) c :=
  settles_level rfl (fun _ _ _ _ _ => hES.logical) (settles_equality hES hr mode hkn hkm) hkn hkm
    c hc hk

theorem settles_logicalOr : Phrase E mode (logicalOr r mode n) (logicalOr r' mode m) c :=
  settles_level rfl (fun _ _ _ _ _ => hES.logical) (settles_logicalAnd hES hr mode hkn hkm) hkn hkm
    c hc hk

theorem settles_conditional : Phrase E mode (conditional r mode n) (conditional r' mode m) c := by
  refine .bind hc (settles_logicalOr hES hr mode hkn hkm c hc hk) fun test c₁ hc₁ _ htest => ?_
  have hlt := htest.1
  refine .consume hc₁ nofun (fun c₂ hc₂ hlt₂ => ?_) (settles_pure htest)
  refine .bind hc₂ (hr.assignment mode c₂ hc₂ (by omega)) fun e₁ c₃ hc₃ hle₃ he₁ => ?_
  refine .expect hc₃ nofun fun c₄ hc₄ hlt₄ _ => ?_
  refine .bind hc₄ (hr.assignment mode c₄ hc₄ (by omega)) fun e₂ c₅ _ hle₅ he₂ => ?_
  exact settles_pure ⟨by omega, hES.conditional htest.2 he₁.2 he₂.2⟩

theorem settles_assignment : Phrase E mode (assignment r mode n) (assignment r' mode m) c := by
  refine .location (.bind hc (settles_conditional hES hr mode hkn hkm c hc hk)
    fun left c₁ hc₁ _ hleft => .kind ?_)
  have hlt := hleft.1
  split
  · exact settles_pure hleft
  next op hop =>
    split
    · exact settles_reject .invalidTarget nofun _
    next target htarget =>
      have hne : c₁.current.kind ≠ .eof := by
        intro heof
        rw [heof] at hop
        cases hop
      refine .advance hc₁ hne fun c₂ hc₂ hlt₂ => ?_
      refine .bind hc₂ (hr.assignment mode c₂ hc₂ (by omega)) fun e c₃ _ hle₃ he => ?_
      exact settles_pure ⟨by omega, hES.assign hleft.2 htarget he.2⟩

theorem settles_sequence : Phrase E mode (sequence r mode n) (sequence r' mode m) c := by
  refine .bind hc (settles_assignment hES hr mode hkn hkm c hc hk) fun first c₁ hc₁ _ hfirst => ?_
  have hlt := hfirst.1
  refine .bind hc₁ (settles_commaTail hr mode hc₁ (by omega) (by omega) (by omega))
    fun more c₂ _ hle₂ hmore => ?_
  cases more with
  | nil => exact settles_pure ⟨by omega, hfirst.2⟩
  | cons e es => exact settles_pure ⟨by omega, hES.sequence hfirst.2 nofun hmore⟩

/-! ### Statements -/

omit hES

theorem settles_block : Settles (block r mode n) (block r' mode m) c fun ts c' =>
    c'.remaining < c.remaining ∧ ∀ t ∈ ts, ∃ c₁, S mode c₁ t := by
  refine .expect hc nofun fun c₁ hc₁ hlt₁ _ => ?_
  have hts := settles_statements hr mode hc₁ (n := n) (m := m) (by omega) (by omega) (by omega)
  exact hts.onward.imp fun _ _ h => ⟨by omega, h.2.1⟩

theorem settles_handler : Settles (handler r mode n) (handler r' mode m) c fun h _ =>
    ∀ param us, h = some (.mk param us) → ∀ t ∈ us, ∃ c₁, S mode c₁ t := by
  refine .consume hc nofun (fun c₁ hc₁ hlt₁ => ?_) (settles_pure nofun)
  refine .bind hc₁ (settles_catchParameter hc₁) fun param c₂ hc₂ hle₂ _ => ?_
  refine .bind hc₂ (settles_block hr mode hkn hkm c₂ hc₂ (by omega)) fun ts _ _ _ hts => ?_
  refine settles_pure fun _ _ h => ?_
  cases h
  exact hts.2

theorem settles_finalizer : Settles (finalizer r mode n) (finalizer r' mode m) c fun f _ =>
    ∀ us, f = some us → ∀ t ∈ us, ∃ c₁, S mode c₁ t := by
  refine .consume hc nofun (fun c₁ hc₁ hlt₁ => ?_) (settles_pure nofun)
  refine .bind hc₁ (settles_block hr mode hkn hkm c₁ hc₁ (by omega)) fun ts _ _ _ hts => ?_
  refine settles_pure fun _ h => ?_
  cases h
  exact hts.2

end

section

variable (hc : c.Within tokens) (hk : c.remaining < k) (hn : c.remaining < n) (hm : c.remaining < m)
include hr hc hk

theorem settles_initializer (declKind : DeclKind) :
    Settles (initializer r mode declKind) (initializer r' mode declKind) c fun init _ =>
      (init = none → declKind ≠ .constant) ∧ ∀ e, init = some e → ∃ c₁, E mode c₁ e := by
  refine .consume hc nofun (fun c₁ hc₁ hlt₁ => ?_) ?_
  · refine .bind hc₁ (hr.assignment mode c₁ hc₁ (by omega)) fun e _ _ _ he => ?_
    refine settles_pure ⟨nofun, fun _ h => ?_⟩
    cases h
    exact ⟨c₁, he.2⟩
  · dsimp only
    rw [if_neg Bool.false_ne_true, if_neg Bool.false_ne_true]
    split
    · exact .rejected (settles_rejectHere .missingInitializer nofun)
    next hkind => exact settles_pure ⟨fun _ => hkind, nofun⟩

include hn hm

theorem settles_declarators (declKind : DeclKind) :
    Settles (declarators r mode declKind n) (declarators r' mode declKind m) c fun ds _ =>
      ∀ id init, .mk id init ∈ ds →
        (init = none → declKind ≠ .constant) ∧ ∀ e, init = some e → ∃ c₁, E mode c₁ e := by
  induction c, n, m, hn, hm using Cursor.steps with
  | step c n m hn hm ih =>
    refine .bind hc (settles_identifier hc) fun id c₁ hc₁ _ hid => ?_
    have hlt := hid.1
    refine .bind hc₁ (settles_initializer hr mode hc₁ (by omega) declKind)
      fun init c₂ hc₂ hle₂ hinit => ?_
    refine .consume hc₂ nofun (fun c₃ hc₃ hlt₃ => ?_) ?_
    · refine .bind hc₃ (ih c₃ (by omega) (by omega) hc₃ (by omega)) fun ds _ _ _ hds => ?_
      refine settles_pure fun id' init' hmem => ?_
      obtain hmem | hmem := List.mem_cons.mp hmem
      · cases hmem
        exact hinit
      · exact hds id' init' hmem
    · refine settles_pure fun id' init' hmem => ?_
      cases List.mem_singleton.mp hmem
      exact hinit

end

section

variable (hkn : k < n) (hkm : k < m) (hc : c.Within tokens) (hk : c.remaining ≤ k)
  {kind : Token.Kind} (hkind : c.current.kind = kind) (heof : kind ≠ .eof) (hstring : kind ≠ .string)
include hES hr hc hk hkind heof hstring

theorem settles_branch : Phrase S mode (branch r mode) (branch r' mode) c := by
  refine .advance hc (hkind ▸ heof) fun c₁ hc₁ hlt₁ => .expect hc₁ nofun fun c₂ hc₂ hlt₂ _ => ?_
  refine .bind hc₂ (hr.sequence mode c₂ hc₂ (by omega)) fun test c₃ hc₃ hle₃ htest => ?_
  refine .expect hc₃ nofun fun c₄ hc₄ hlt₄ _ => ?_
  refine .bind hc₄ (hr.statement mode c₄ hc₄ (by omega)) fun t c₅ hc₅ hle₅ ht => ?_
  refine .consume hc₅ nofun (fun c₆ hc₆ hlt₆ => ?_) ?_
  · refine .bind hc₆ (hr.statement mode c₆ hc₆ (by omega)) fun u c₇ _ hle₇ hu => ?_
    refine settles_pure ⟨by omega, hES.branch (hkind ▸ hstring) htest.2 ht.2.1 fun _ h => ?_⟩
    cases h
    exact ⟨c₆, hu.2.1⟩
  · exact settles_pure ⟨by omega, hES.branch (hkind ▸ hstring) htest.2 ht.2.1 nofun⟩

theorem settles_returnStatement : Phrase S mode (returnStatement r mode) (returnStatement r' mode) c := by
  unfold returnStatement
  split
  · exact .rejected (settles_rejectHere .illegalReturn nofun)
  next hmode =>
    have hmode : mode.inFunction = true := by simpa using hmode
    refine .advance hc (hkind ▸ heof) fun c₁ hc₁ hlt₁ => .current ?_
    split
    · exact .semicolon hc₁ fun c₂ _ hle₂ =>
        settles_pure ⟨by omega, hES.ret (hkind ▸ hstring) hmode nofun⟩
    refine .bind hc₁ (hr.sequence mode c₁ hc₁ (by omega)) fun e c₂ hc₂ hle₂ he => ?_
    refine .semicolon hc₂ fun c₃ _ hle₃ => ?_
    refine settles_pure ⟨by omega, hES.ret (hkind ▸ hstring) hmode fun _ h => ?_⟩
    cases h
    exact ⟨c₁, he.2⟩

theorem settles_throwStatement : Phrase S mode (throwStatement r mode) (throwStatement r' mode) c := by
  refine .advance hc (hkind ▸ heof) fun c₁ hc₁ hlt₁ => .current ?_
  split
  · exact .rejected (settles_rejectHere .newlineAfterThrow nofun)
  refine .bind hc₁ (hr.sequence mode c₁ hc₁ (by omega)) fun e c₂ hc₂ hle₂ he => ?_
  exact .semicolon hc₂ fun c₃ _ hle₃ =>
    settles_pure ⟨by omega, hES.throw (hkind ▸ hstring) he.2⟩

include hkn hkm

theorem settles_declaration (declKind : DeclKind) :
    Phrase S mode (declaration r mode n declKind) (declaration r' mode m declKind) c := by
  refine .advance hc (hkind ▸ heof) fun c₁ hc₁ hlt₁ => ?_
  refine .bind hc₁ (settles_declarators hr mode hc₁ (by omega) (by omega) (by omega) declKind)
    fun ds c₂ hc₂ hle₂ hds => .semicolon hc₂ fun c₃ _ hle₃ => ?_
  exact settles_pure ⟨by omega, hES.declare (hkind ▸ hstring)
    (fun id hmem => (hds id none hmem).1 rfl) fun id e hmem => (hds id (some e) hmem).2 e rfl⟩

theorem settles_attempt : Phrase S mode (attempt r mode n) (attempt r' mode m) c := by
  refine .advance hc (hkind ▸ heof) fun c₁ hc₁ hlt₁ => ?_
  refine .bind hc₁ (settles_block hr mode hkn hkm c₁ hc₁ (by omega)) fun ts c₂ hc₂ _ hts => ?_
  have hlt := hts.1
  refine .bind hc₂ (settles_handler hr mode hkn hkm c₂ hc₂ (by omega))
    fun handler c₃ hc₃ hle₃ hhandler => ?_
  refine .bind hc₃ (settles_finalizer hr mode hkn hkm c₃ hc₃ (by omega))
    fun finalizer c₄ _ hle₄ hfinalizer => ?_
  split
  · exact .rejected (settles_rejectHere .missingHandler nofun)
  next hsome =>
    exact settles_pure ⟨by omega, hES.attempt (hkind ▸ hstring) (Bool.eq_false_iff.mpr hsome) hts.2
      hhandler hfinalizer⟩

end

section

variable (hkn : k < n) (hkm : k < m) (c : Cursor) (hc : c.Within tokens) (hk : c.remaining ≤ k)
include hES hr hkn hkm hc hk

theorem settles_expressionStatement :
    Phrase S mode (expressionStatement r mode n) (expressionStatement r' mode m) c := by
  refine .bind hc (settles_sequence hES hr mode hkn hkm c hc hk) fun e c₁ hc₁ _ he => ?_
  have hlt := he.1
  exact .semicolon hc₁ fun c₂ _ hle₂ => settles_pure ⟨by omega, hES.expression he.2⟩

theorem settles_statement : Phrase S mode (statement r mode n) (statement r' mode m) c := by
  refine .kind ?_
  split
  next h =>
    refine .bind hc (settles_block hr mode hkn hkm c hc hk) fun ts c₁ _ _ hts => ?_
    exact settles_pure ⟨hts.1, hES.block (by rw [h]; nofun) hts.2⟩
  next h =>
    exact .advance hc (by rw [h]; nofun) fun c₁ _ hlt₁ =>
      settles_pure ⟨hlt₁, hES.empty (by rw [h]; nofun)⟩
  next h => exact settles_declaration hES hr mode hkn hkm hc hk h nofun nofun .variable
  next h => exact settles_declaration hES hr mode hkn hkm hc hk h nofun nofun .lexical
  next h => exact settles_declaration hES hr mode hkn hkm hc hk h nofun nofun .constant
  next h =>
    refine .bind hc (settles_function hr mode hkn hkm hc hk h true) fun f c₁ _ _ hf => ?_
    obtain ⟨hlt, hname, c₂, hheads, hbody⟩ := hf
    exact settles_pure ⟨hlt, hES.functionStmt (by rw [h]; nofun) (hname rfl) hc hheads hbody⟩
  next h => exact settles_branch hES hr mode hc hk h nofun nofun
  next h => exact settles_returnStatement hES hr mode hc hk h nofun nofun
  next h => exact settles_throwStatement hES hr mode hc hk h nofun nofun
  next h => exact settles_attempt hES hr mode hkn hkm hc hk h nofun nofun
  · exact settles_expressionStatement hES hr mode hkn hkm c hc hk

theorem settles_concluded : Settles (statement r mode n) (statement r' mode m) c fun t c' =>
    c'.remaining < c.remaining ∧ S mode c t ∧ (c.current.kind = .string → Concludes c t c') :=
  (settles_statement hES hr mode hkn hkm c hc hk).outcome.imp fun t c' h =>
    ⟨h.2.1, h.2.2, fun hstring => concludes_statement hstring hc t c' h.1⟩

end

end Phrases

/-! ### Programs -/

section

variable (hES : Compositional tokens E S)
include hES

variable {n m : Nat}

/-- As many levels as tokens remain are enough. -/
theorem settling_rules (k : Nat) (hn : k ≤ n) (hm : k ≤ m) : Settling tokens E S k (rules n) (rules m) := by
  induction k generalizing n m with
  | zero =>
    exact ⟨fun _ _ _ h => absurd h (Nat.not_lt_zero _), fun _ _ _ h => absurd h (Nat.not_lt_zero _),
      fun _ _ _ h => absurd h (Nat.not_lt_zero _), fun _ _ _ h => absurd h (Nat.not_lt_zero _)⟩
  | succ k ih =>
    obtain _ | n := n
    · exact absurd hn (Nat.not_succ_le_zero _)
    obtain _ | m := m
    · exact absurd hm (Nat.not_succ_le_zero _)
    -- The rules for what lies deeper come into play after a token has been taken: one token less
    -- remains, and there is one level less.
    have hr := ih (Nat.le_of_succ_le_succ hn) (Nat.le_of_succ_le_succ hm)
    exact
      { sequence := fun mode c hc hk =>
          settles_sequence hES hr mode hn hm c hc (Nat.le_of_lt_succ hk)
        assignment := fun mode c hc hk =>
          settles_assignment hES hr mode hn hm c hc (Nat.le_of_lt_succ hk)
        unary := fun mode c hc hk =>
          settles_unary hES hr mode hn hm hc (Nat.le_of_lt_succ hk)
        statement := fun mode c hc hk =>
          settles_concluded hES hr mode hn hm c hc (Nat.le_of_lt_succ hk) }

omit hES in
theorem settles_topLevel {r r' : Rules} {k : Nat} (hr : Settling tokens E S k r r') (mode : Mode)
    (hc : c.Within tokens) (hk : c.remaining < k) (hn : c.remaining < n) (hm : c.remaining < m) :
    Settles (topLevel r mode n) (topLevel r' mode m) c fun ts c' =>
      c'.current.kind = .eof ∧ (∀ t ∈ ts, ∃ c₁, S mode c₁ t) ∧
        ∀ t ∈ ts.head?, c.current.kind = .string → ∃ c₁, Concludes c t c₁ := by
  induction c, n, m, hn, hm using Cursor.steps with
  | step c n m hn hm ih =>
    refine .atEnd ?_
    split
    next h => exact settles_pure ⟨of_decide_eq_true h, nofun, nofun⟩
    refine .bind hc (hr.statement mode c hc hk) fun t c₁ hc₁ _ ht => ?_
    have hlt := ht.1
    refine .bind hc₁ (ih c₁ (by omega) (by omega) hc₁ (by omega)) fun ts _ _ _ hts => ?_
    exact settles_pure ⟨hts.1, List.forall_mem_cons.mpr ⟨⟨c, ht.2.1⟩, hts.2.1⟩,
      first_concludes ht.2.2 ts⟩

theorem settles_program (hc : c.Within tokens) (hn : c.remaining < n) (hm : c.remaining < m) :
    Settles (program n) (program m) c fun p c' =>
      c'.current.kind = .eof ∧ Body S ⟨false, false⟩ c p.strict p.body := by
  have hr := settling_rules hES (c.remaining + 1) hn hm
  have hk := Nat.lt_succ_self c.remaining
  refine .location (.bind hc (settles_prologue hr ⟨false, false⟩ hc hk hn hm false)
    fun x c₁ hc₁ hle₁ hds => ?_)
  refine .bind hc₁ (settles_topLevel hr ⟨x.1, false⟩ hc₁ (by omega) (by omega) (by omega))
    fun ts c₂ _ _ hts => ?_
  exact .location (settles_pure ⟨hts.1, .mk hds hts.2.2 hts.2.1⟩)

theorem settles_wholeExpression (hc : c.Within tokens) (hn : c.remaining < n) (hm : c.remaining < m) :
    Settles (wholeExpression n) (wholeExpression m) c fun e c' =>
      c'.current.kind = .eof ∧ E ⟨false, false⟩ c e := by
  have hr := settling_rules hES (c.remaining + 1) hn hm
  refine .bind hc (hr.sequence ⟨false, false⟩ c hc (Nat.lt_succ_self _)) fun e c₁ _ _ he => .atEnd ?_
  split
  · exact .rejected settles_unexpected
  next h => exact settles_pure ⟨by simpa using h, he.2⟩

end

/-! ### Sources -/

section

variable [Platform] {α : Type} {p : Nat → Parse α} {Q : List Token → α → Prop} {source : String}
  (hp : ∀ c n, Token.tokenize source = .ok c.tokens → c.Sealed → c.remaining < n →
    Settles (p n) (p n) c fun a _ => Q c.tokens a)
include hp

theorem onSource_settles {tokens : List Token} (htokens : Token.tokenize source = .ok tokens) :
    (∃ a, onSource p source = .ok a ∧ Q tokens a) ∨
      ∃ e : Rejection, e.complaint ≠ .outOfSteps ∧ onSource p source = .error (e.toError source) := by
  have hsealed := (Token.tokenize_laid htokens).sealed
  obtain _ | ⟨t, ts⟩ := tokens
  · cases hsealed
  unfold onSource onTokens
  rw [htokens]
  dsimp only [Cursor.ofTokens?]
  cases hp ⟨t, ts⟩ ((t :: ts).length + 1) htokens hsealed (Nat.lt_succ_of_lt (Nat.lt_succ_self _)) with
  | rejects e he hrun _ =>
    have hrun := Cursor.followedBy_nil _ ▸ hrun []
    rw [hrun]
    exact .inr ⟨e, he, rfl⟩
  | gives a c' _ hrun _ ha =>
    have hrun := Cursor.followedBy_nil _ ▸ hrun []
    rw [hrun]
    exact .inl ⟨a, rfl, ha⟩

theorem of_onSource {a : α} (h : onSource p source = .ok a) :
    ∃ tokens, Token.tokenize source = .ok tokens ∧ Q tokens a := by
  cases htokens : Token.tokenize source with
  | error e =>
    rw [onSource, htokens] at h
    cases h
  | ok tokens =>
    obtain ⟨b, hb, hQ⟩ | ⟨e, _, he⟩ := onSource_settles hp htokens
    · cases h.symm.trans hb
      exact ⟨tokens, rfl, hQ⟩
    · cases h.symm.trans he

end

end Grammar
end Surmise
