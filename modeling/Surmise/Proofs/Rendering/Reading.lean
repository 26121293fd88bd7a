import Surmise.Proofs.Rendering.Levels

/-! Rendered expressions are read back. What each construct is made of is legible in its places, so the
construct is legible at its own level, whatever tokens spell it. -/
namespace Surmise

open Cursor (ahead)

namespace Grammar
open Parse

variable {k : Nat} {e : Expr} {ls : List Lexeme}

/-! ### Deeper places -/

section Rules
variable {m : Nat} (mode : Mode) {ts : List Token} (c : Cursor)

theorem ReadAt.run_sequence (h : ReadAt 0 e ls) (hts : Spells ls ts) (hm : ts.length < m)
    (hc : stops 0 c.current.kind = true) :
    ∃ e', (rules m).sequence mode (ahead ts c) = .ok (e', c) ∧ e'.bare = e.bare := by
  obtain ⟨m, rfl⟩ : ∃ i, m = i + 1 := ⟨m - 1, by omega⟩
  exact h m mode c hts (by omega) hc

theorem closing_of_run_assignment {mode : Mode} {c : Cursor} {x : Expr × Cursor}
    (h : (rules m).assignment mode c = .ok x) : closing c.current.kind = false := by
  cases m with
  | zero => cases h
  | succ m => exact opens_assignment (rules m) mode (m + 1) c x.1 x.2 h

end Rules

def PrimaryAt (e : Expr) (ls : List Lexeme) : Prop :=
  ∀ (m : Nat) (mode : Mode) (c : Cursor) ⦃ts : List Token⦄, Spells ls ts → ts.length ≤ m →
    ∃ e', primary (rules m) mode (m + 1) (ahead ts c) = .ok (e', c) ∧ e'.bare = e.bare

theorem PrimaryAt.rung (h : PrimaryAt e ls) : Rung 10 e ls := by
  intro m mode c ts hts hm _
  obtain ⟨e', hrun, hbare⟩ := h m mode c hts hm
  refine ⟨e', 0, Nat.zero_le _, ?_, hbare⟩
  change callMember (rules m) mode (m + 1) (ahead ts c) = _
  rw [callMember, run_bind hrun]
  rfl

theorem Spells.between {l r : Lexeme} {ts : List Token} (h : Spells (l :: ls ++ [r]) ts) :
    ∃ t us u, ts = t :: (us ++ [u]) ∧ l.Fits t ∧ Spells ls us ∧ r.Fits u := by
  obtain ⟨t, us, rfl, ht, hus⟩ := Spells.cons_left h
  obtain ⟨us, vs, rfl, hu, hv⟩ := Spells.append_left hus
  obtain ⟨u, _, rfl, hr, hnil⟩ := Spells.cons_left hv
  cases hnil
  exact ⟨t, us, u, rfl, ht, hu, hr⟩

theorem stops_of_fits {p : Punctuator} {t : Token} (h : (Lexeme.mark p).Fits t) {l : Nat}
    (hp : stops l (.punctuator p) = true) (ts : List Token) (c : Cursor) :
    stops l (ahead (t :: ts) c).current.kind = true := by
  have hkind : (ahead (t :: ts) c).current.kind = .punctuator p := h
  rw [hkind, hp]

/-- A single token is read as the expression if every reader of primaries takes it so. -/
theorem primaryAt_token {l : Lexeme} (h : ∀ r mode n c, l.Fits c.current →
      ∃ e', primary r mode n c = .ok (e', c.advance) ∧ e'.bare = e.bare) : PrimaryAt e [l] := by
  intro m mode c ts hts _
  obtain ⟨t, _, rfl, ht, hnil⟩ := Spells.cons_left hts
  cases hnil
  have hrun := h (rules m) mode (m + 1) (ahead [t] c) ht
  rwa [Cursor.advance_ahead] at hrun

/-- What stands between two marks is read by a reader of its own, and something is made of it. -/
theorem primaryAt_between {α : Type} {left right : Punctuator} (inner : Rules → Mode → Nat → Parse α)
    (make : α → Expr)
    (hprimary : ∀ r mode n c, c.current.kind = .punctuator left → primary r mode n c = (do
        let _ ← advance
        let a ← inner r mode n
        let _ ← expectMark right
        return make a : Parse Expr) c)
    (hinner : ∀ m mode c ts, Spells ls ts → ts.length < m → c.current.kind = .punctuator right →
      ∃ a, inner (rules m) mode (m + 1) (ahead ts c) = .ok (a, c) ∧ (make a).bare = e.bare) :
    PrimaryAt e (.mark left :: ls ++ [.mark right]) := by
  intro m mode c ts hts hm
  obtain ⟨t, us, u, rfl, ht, hus, hu⟩ := Spells.between hts
  simp only [List.length_cons, List.length_append, List.length_nil] at hm
  obtain ⟨a, hrun, hbare⟩ := hinner m mode (ahead [u] c) us hus (by omega) hu
  refine ⟨make a, ?_, hbare⟩
  rw [hprimary _ _ _ (ahead (t :: (us ++ [u])) c) ht, run_bind (run_advance t _ c), Cursor.ahead_append, run_bind hrun]
  exact run_bind (run_expectMark hu [] c)

theorem ReadAt.parens (h : ReadAt 0 e ls) :
    PrimaryAt e (.mark .leftParen :: ls ++ [.mark .rightParen]) := by
  refine primaryAt_between (fun r mode _ => r.sequence mode) id
    (fun r mode n c hc => by rw [primary, run_current_bind, hc]; rfl) fun m mode c ts hts hm hc => ?_
  exact h.run_sequence mode c hts hm (by rw [hc]; rfl)

end Grammar

open Grammar

/-! ### Legible expressions -/

variable {e : Expr} {k : Nat}

def Expr.Legible (e : Expr) : Prop := Rung e.level e e.spell

theorem BinaryOp.level_bounds (op : BinaryOp) : 3 ≤ op.level ∧ op.level ≤ 8 := by
  cases op <;> decide

theorem LogicalOp.level_bounds (op : LogicalOp) : 3 ≤ op.level ∧ op.level ≤ 8 := by
  cases op <;> decide

theorem Expr.level_le (e : Expr) : e.level ≤ 10 := by
  cases e with
  | binary op l r | logical op l r => exact Nat.le_trans op.level_bounds.2 (by omega)
  | _ => simp only [Expr.level]; omega

/-- A legible expression is read back in every place, in parentheses if need be. -/
theorem Expr.Legible.rung (h : e.Legible) (hk : k ≤ 10) : Rung k e (e.render k) := by
  unfold Expr.render Lexeme.within
  split
  · have hloosest := (Rung.descend e.level_le (Nat.zero_le _) h).readAt (by omega) (by omega)
    exact hloosest.parens.rung.descend (Nat.le_refl 10) hk
  · exact Rung.descend e.level_le (by omega) h

theorem Expr.Legible.readAt (h : e.Legible) (hk : k ≤ 10) (hne : k ≠ 2) : ReadAt k e (e.render k) :=
  (h.rung hk).readAt hk hne

theorem Expr.Legible.run_assignment (h : e.Legible) {m : Nat} (mode : Mode) {ts : List Token} (c : Cursor)
    (hts : Spells (e.render 1) ts) (hm : ts.length < m) (hc : stops 1 c.current.kind = true) :
    ∃ e', (rules m).assignment mode (ahead ts c) = .ok (e', c) ∧ e'.bare = e.bare := by
  obtain ⟨m, rfl⟩ : ∃ i, m = i + 1 := ⟨m - 1, by omega⟩
  exact h.readAt (k := 1) (by omega) (by omega) m mode c hts (by omega) hc

namespace Grammar
open Parse

theorem spells_more {α : Type} {es : List α} {ls : List Lexeme} {ts : List Token}
    (h : Spells (Lexeme.more es ls) ts) :
    es = [] ∧ ts = [] ∨
      es ≠ [] ∧ ∃ t us, ts = t :: us ∧ (Lexeme.mark .comma).Fits t ∧ Spells ls us := by
  cases es with
  | nil =>
    cases h
    exact .inl ⟨rfl, rfl⟩
  | cons e es => exact .inr ⟨List.cons_ne_nil _ _, Spells.cons_left h⟩

section Lists
variable {m : Nat} (mode : Mode) {ts : List Token} {c : Cursor} {es : List Expr} {n : Nat}

theorem run_item {α : Type} {e : Expr} (h : e.Legible) {es : List α} {ls : List Lexeme}
    (hts : Spells (e.render 1 ++ Lexeme.more es ls) ts) (hm : ts.length < m)
    (hc : stops 0 c.current.kind = true) :
    closing (ahead ts c).current.kind = false ∧
      ∃ e' d, (rules m).assignment mode (ahead ts c) = .ok (e', d) ∧ e'.bare = e.bare ∧
        (es = [] ∧ d = c ∧ consumeMark .comma d = .ok (false, c) ∨
          es ≠ [] ∧ ∃ us, us.length < ts.length ∧ Spells ls us ∧
            consumeMark .comma d = .ok (true, ahead us c)) := by
  obtain ⟨us, vs, rfl, hus, hvs⟩ := Spells.append_left hts
  rw [List.length_append] at hm
  rw [Cursor.ahead_append]
  obtain ⟨rfl, rfl⟩ | ⟨hes, t, ws, rfl, ht, hws⟩ := spells_more hvs
  · have hcomma : c.current.kind ≠ .punctuator .comma := by
      simpa [continues] using continues_of_stops hc (Nat.le_refl 0) (by omega)
    obtain ⟨e', hrun, hbare⟩ := h.run_assignment (m := m) mode c hus (by omega) (stops_mono hc (by omega))
    exact ⟨closing_of_run_assignment hrun, e', c, hrun, hbare,
      .inl ⟨rfl, rfl, run_consumeMark_ne hcomma⟩⟩
  · obtain ⟨e', hrun, hbare⟩ :=
      h.run_assignment (m := m) mode _ hus (by omega) (stops_of_fits ht rfl ws c)
    refine ⟨closing_of_run_assignment hrun, e', _, hrun, hbare,
      .inr ⟨hes, ws, ?_, hws, run_consumeMark ht ws c⟩⟩
    simp only [List.length_append, List.length_cons]
    omega

theorem ne_of_closing {k k' : Token.Kind} (hk : closing k = false) (hk' : closing k' = true) : k ≠ k' :=
  ne_of_apply_ne closing (by rw [hk, hk']; exact Bool.false_ne_true)

/-- Arguments are read back up to the bracket that closes them. -/
theorem run_arguments (h : ∀ e ∈ es, e.Legible) (hts : Spells (Expr.spellAll es) ts) (hm : ts.length < m)
    (hn : ts.length < n) (hc : c.current.kind = .punctuator .rightParen) :
    ∃ es', arguments (rules m) mode n (ahead ts c) = .ok (es', c) ∧
      Expr.bareAll es' = Expr.bareAll es := by
  obtain ⟨n, rfl⟩ : ∃ i, n = i + 1 := ⟨n - 1, by omega⟩
  induction es generalizing n ts with
  | nil =>
    cases hts
    refine ⟨[], ?_, rfl⟩
    rw [arguments]
    exact run_bind (run_atMark hc)
  | cons e es ih =>
    rw [List.forall_mem_cons] at h
    have hstop : stops 0 c.current.kind = true := by
      rw [hc]
      rfl
    obtain ⟨hopen, e', d, hrun, hbare, hrest⟩ := run_item mode h.1 hts hm hstop
    have hparen : (ahead ts c).current.kind ≠ .punctuator .rightParen := ne_of_closing hopen rfl
    obtain ⟨rfl, rfl, hcomma⟩ | ⟨_, us, hlen, hus, hcomma⟩ := hrest
    · refine ⟨[e'], ?_, by simp only [Expr.bareAll, hbare]⟩
      rw [arguments, run_bind (run_atMark_ne hparen)]
      exact (run_bind hrun).trans (run_bind hcomma)
    · obtain ⟨n, rfl⟩ : ∃ i, n = i + 1 := ⟨n - 1, by omega⟩
      obtain ⟨es', hmore, hbares⟩ := ih h.2 hus (by omega) n (by omega)
      refine ⟨e' :: es', ?_, by simp only [Expr.bareAll, hbare, hbares]⟩
      rw [arguments, run_bind (run_atMark_ne hparen)]
      exact (run_bind hrun).trans ((run_bind hcomma).trans (run_bind hmore))

/-- Elements are read back with the holes between them. -/
theorem run_elements {es : List Element} (h : ∀ e, Element.item e ∈ es → e.Legible)
    (hts : Spells (Element.spellAll es) ts) (hm : ts.length < m) (hn : ts.length < n)
    (hc : c.current.kind = .punctuator .rightBracket) :
    ∃ es', elements (rules m) mode n (ahead ts c) = .ok (es', c) ∧
      Element.bareAll es' = Element.bareAll es := by
  obtain ⟨n, rfl⟩ : ∃ i, n = i + 1 := ⟨n - 1, by omega⟩
  induction es generalizing n ts with
  | nil =>
    cases hts
    refine ⟨[], ?_, rfl⟩
    rw [elements]
    exact run_bind (run_atMark hc)
  | cons element es ih =>
    have hes : ∀ e, Element.item e ∈ es → e.Legible := fun e he => h e (.tail _ he)
    cases element with
    | hole =>
      obtain ⟨t, us, rfl, ht, hus⟩ := Spells.cons_left hts
      rw [List.length_cons] at hm hn
      have hbracket : (ahead (t :: us) c).current.kind ≠ .punctuator .rightBracket := fun hk => by
        cases hk.symm.trans ht
      obtain ⟨n, rfl⟩ : ∃ i, n = i + 1 := ⟨n - 1, by omega⟩
      obtain ⟨es', hmore, hbares⟩ := ih hes hus (by omega) n (by omega)
      refine ⟨.hole :: es', ?_, by simp only [Element.bareAll, hbares]⟩
      rw [elements, run_bind (run_atMark_ne hbracket)]
      exact (run_bind (run_consumeMark ht us c)).trans (run_bind hmore)
    | item e =>
      have hstop : stops 0 c.current.kind = true := by
        rw [hc]
        rfl
      obtain ⟨hopen, e', d, hrun, hbare, hrest⟩ := run_item mode (h e (.head _)) hts hm hstop
      have hbracket : (ahead ts c).current.kind ≠ .punctuator .rightBracket := ne_of_closing hopen rfl
      have hhole : (ahead ts c).current.kind ≠ .punctuator .comma := ne_of_closing hopen rfl
      obtain ⟨rfl, rfl, hcomma⟩ | ⟨_, us, hlen, hus, hcomma⟩ := hrest
      · refine ⟨[.item e'], ?_, by simp only [Element.bareAll, hbare]⟩
        rw [elements, run_bind (run_atMark_ne hbracket)]
        exact (run_bind (run_consumeMark_ne hhole)).trans ((run_bind hrun).trans (run_bind hcomma))
      · obtain ⟨n, rfl⟩ : ∃ i, n = i + 1 := ⟨n - 1, by omega⟩
        obtain ⟨es', hmore, hbares⟩ := ih hes hus (by omega) n (by omega)
        refine ⟨.item e' :: es', ?_, by simp only [Element.bareAll, hbare, hbares]⟩
        rw [elements, run_bind (run_atMark_ne hbracket)]
        exact (run_bind (run_consumeMark_ne hhole)).trans
          ((run_bind hrun).trans ((run_bind hcomma).trans (run_bind hmore)))

theorem run_propertyKey {key : String} {t : Token} (h : (Lexeme.key key).Fits t) (ts : List Token)
    (c : Cursor) :
    propertyKey (ahead (t :: ts) c) = .ok (key, ahead ts c) ∧ t.kind ≠ .punctuator .rightBrace := by
  have hcurrent : (ahead (t :: ts) c).current = t := rfl
  rw [propertyKey, run_current_bind, hcurrent]
  obtain ⟨hkind | ⟨k, hkind⟩, rfl⟩ | ⟨hkind, hs⟩ | ⟨hkind, rfl⟩ := h
  · rw [hkind]
    exact ⟨run_bind (run_advance t ts c), nofun⟩
  · rw [hkind]
    exact ⟨run_bind (run_advance t ts c), nofun⟩
  · have hhere : stringHere t (ahead (t :: ts) c) = .ok (key, ahead (t :: ts) c) := by
      rw [stringHere, hs]
      rfl
    rw [hkind]
    exact ⟨(run_bind hhere).trans (run_bind (run_advance t ts c)), nofun⟩
  · rw [hkind]
    exact ⟨run_bind (run_advance t ts c), nofun⟩

/-- The members of an object literal are read back with their keys. -/
theorem run_entries {ps : List Entry} (h : ∀ key e, Entry.mk key e ∈ ps → e.Legible)
    (hts : Spells (Entry.spellAll ps) ts) (hm : ts.length < m) (hn : ts.length < n)
    (hc : c.current.kind = .punctuator .rightBrace) :
    ∃ ps', entries (rules m) mode n (ahead ts c) = .ok (ps', c) ∧
      Entry.bareAll ps' = Entry.bareAll ps := by
  obtain ⟨n, rfl⟩ : ∃ i, n = i + 1 := ⟨n - 1, by omega⟩
  induction ps generalizing n ts with
  | nil =>
    cases hts
    refine ⟨[], ?_, rfl⟩
    rw [entries]
    exact run_bind (run_atMark hc)
  | cons entry ps ih =>
    obtain ⟨key, e⟩ := entry
    have hps : ∀ key e, Entry.mk key e ∈ ps → e.Legible := fun key e he => h key e (.tail _ he)
    obtain ⟨t, us, rfl, ht, hus⟩ := Spells.cons_left hts
    obtain ⟨u, us, rfl, hu, hus⟩ := Spells.cons_left hus
    simp only [List.length_cons] at hm hn
    have hstop : stops 0 c.current.kind = true := by
      rw [hc]
      rfl
    obtain ⟨hkey, hbrace⟩ := run_propertyKey ht (u :: us) c
    have hcolon := run_expectMark hu us c
    obtain ⟨_, e', d, hrun, hbare, hrest⟩ :=
      run_item (m := m) mode (h key e (.head _)) hus (by omega) hstop
    obtain ⟨rfl, rfl, hcomma⟩ | ⟨_, vs, hlen, hvs, hcomma⟩ := hrest
    · refine ⟨[.mk key e'], ?_, by simp only [Entry.bareAll, hbare]⟩
      rw [entries, run_bind (run_atMark_ne hbrace)]
      exact (run_bind hkey).trans ((run_bind hcolon).trans ((run_bind hrun).trans (run_bind hcomma)))
    · obtain ⟨n, rfl⟩ : ∃ i, n = i + 1 := ⟨n - 1, by omega⟩
      obtain ⟨ps', hmore, hbares⟩ := ih hps hvs (by omega) n (by omega)
      refine ⟨.mk key e' :: ps', ?_, by simp only [Entry.bareAll, hbare, hbares]⟩
      rw [entries, run_bind (run_atMark_ne hbrace)]
      exact (run_bind hkey).trans ((run_bind hcolon).trans
        ((run_bind hrun).trans ((run_bind hcomma).trans (run_bind hmore))))

/-- What follows the first expression of a sequence is read back. -/
theorem run_commaTail (h : ∀ e ∈ es, e.Legible) (hts : Spells (Lexeme.more es (Expr.spellAll es)) ts)
    (hm : ts.length ≤ m) (hn : ts.length < n) (hc : stops 0 c.current.kind = true) :
    ∃ es', commaTail (rules m) mode n (ahead ts c) = .ok (es', c) ∧
      Expr.bareAll es' = Expr.bareAll es := by
  obtain ⟨n, rfl⟩ : ∃ i, n = i + 1 := ⟨n - 1, by omega⟩
  have hend : c.current.kind ≠ .punctuator .comma := by
    simpa [continues] using continues_of_stops hc (Nat.le_refl 0) (by omega)
  induction es generalizing n ts with
  | nil =>
    cases hts
    refine ⟨[], ?_, rfl⟩
    rw [commaTail]
    exact run_bind (run_consumeMark_ne hend)
  | cons e es ih =>
    rw [List.forall_mem_cons] at h
    obtain ⟨t, us, rfl, ht, hus⟩ := Spells.cons_left hts
    obtain ⟨us, vs, rfl, hus, hvs⟩ := Spells.append_left hus
    simp only [List.length_cons, List.length_append] at hm hn
    have hstop : stops 1 (ahead vs c).current.kind = true := by
      obtain ⟨_, rfl⟩ | ⟨_, u, ws, rfl, hu, _⟩ := spells_more hvs
      · exact stops_mono hc (by omega)
      · exact stops_of_fits hu rfl ws c
    obtain ⟨e', hrun, hbare⟩ := h.1.run_assignment (m := m) mode (ahead vs c) hus (by omega) hstop
    obtain ⟨n, rfl⟩ : ∃ i, n = i + 1 := ⟨n - 1, by omega⟩
    obtain ⟨es', hmore, hbares⟩ := ih h.2 hvs (by omega) n (by omega)
    refine ⟨e' :: es', ?_, by simp only [Expr.bareAll, hbare, hbares]⟩
    rw [commaTail, run_bind (run_consumeMark ht _ c), Cursor.ahead_append]
    exact (run_bind hrun).trans (run_bind hmore)

end Lists

/-! ### One level of each kind -/

section Constructs
variable {e l r f : Expr} {p : Punctuator} {t : Target} {op : AssignOp}

theorem primaryAt_identifier (id : Identifier) : PrimaryAt (.identifier id) [.name id.name] := by
  refine primaryAt_token fun r mode n c ⟨hkind, htext⟩ =>
    ⟨.identifier ⟨c.current.text, ⟨c.current.location, c.current.location⟩⟩, ?_, ?_⟩
  · have hexpect : expect .identifier c = .ok (c.current, c.advance) := if_pos hkind
    rw [primary, run_current_bind, hkind]
    exact run_bind (run_bind hexpect)
  · simp only [Expr.bare, htext]

/-- A literal is one token, and is read from it. -/
theorem primaryAt_literal (l : Literal) : PrimaryAt (.literal l) [l.lexeme] := by
  refine primaryAt_token fun r mode n c hfits => ⟨.literal l, ?_, rfl⟩
  rw [primary, run_current_bind]
  cases l with
  | null =>
    rw [show c.current.kind = .keyword .kwNull from hfits]
    rfl
  | boolean b =>
    cases b with
    | true =>
      rw [show c.current.kind = .keyword .kwTrue from hfits]
      rfl
    | false =>
      rw [show c.current.kind = .keyword .kwFalse from hfits]
      rfl
  | number x =>
    obtain ⟨hkind, rfl⟩ : c.current.kind = .number ∧ Token.numberValue c.current.text = x := hfits
    rw [hkind]
    rfl
  | string s =>
    obtain ⟨hkind, hs⟩ : c.current.kind = .string ∧ Token.stringValue? c.current.text = some s := hfits
    have hhere : stringHere c.current c = .ok (s, c) := by
      rw [stringHere, hs]
      rfl
    rw [hkind]
    exact run_bind hhere

theorem primaryAt_this (span : Span) : PrimaryAt (.this span) [.word .kwThis] := by
  refine primaryAt_token fun r mode n c hfits =>
    ⟨.this ⟨c.current.location, c.current.location⟩, ?_, rfl⟩
  rw [primary, run_current_bind, show c.current.kind = .keyword .kwThis from hfits]
  rfl

theorem primaryAt_array {es : List Element} (h : ∀ e, Element.item e ∈ es → e.Legible) :
    PrimaryAt (.array es) (Expr.spell (.array es)) := by
  refine primaryAt_between elements .array
    (fun r mode n c hc => by rw [primary, run_current_bind, hc]) fun m mode c ts hts hm hc => ?_
  obtain ⟨es', hrun, hbare⟩ := run_elements (n := m + 1) mode h hts hm (by omega) hc
  exact ⟨es', hrun, by simp only [Expr.bare, hbare]⟩

theorem primaryAt_object {ps : List Entry} (h : ∀ key e, Entry.mk key e ∈ ps → e.Legible) :
    PrimaryAt (.object ps) (Expr.spell (.object ps)) := by
  refine primaryAt_between entries .object
    (fun r mode n c hc => by rw [primary, run_current_bind, hc]) fun m mode c ts hts hm hc => ?_
  obtain ⟨ps', hrun, hbare⟩ := run_entries (n := m + 1) mode h hts hm (by omega) hc
  exact ⟨ps', hrun, by simp only [Expr.bare, hbare]⟩

theorem stops_all (k : Token.Kind) : stops 11 k = true := by
  refine List.all_eq_true.mpr fun i hi => ?_
  simp [List.mem_range.mp hi]

/-- What an access or a call makes of the expression before it. The steps that are left are enough for
the tokens that are left. -/
theorem loopAt_postfix (make : Expr → Expr) {ls : List Lexeme} (hne : ls ≠ []) (h : e.Legible)
    (hstep : ∀ m mode c n ts e', Spells ls ts → ts.length ≤ m → ts.length ≤ n + 1 →
      e'.bare = e.bare → ∃ e'',
        callTail (rules m) mode (n + 1) e' (ahead ts c) = callTail (rules m) mode n e'' c ∧
          e''.bare = (make e).bare) :
    LoopAt 10 (make e) (e.render 10 ++ ls) := by
  intro m mode c ts hts hm _
  obtain ⟨us, vs, rfl, hus, hvs⟩ := Spells.append_left hts
  rw [List.length_append] at hm
  have hloop : LoopAt 10 e (e.render 10) := h.rung (Nat.le_refl 10)
  obtain ⟨e', i, hi, hrun, hbare⟩ :=
    hloop m mode (ahead vs c) hus (by omega) (stops_all _)
  have hpos : 0 < vs.length := by
    rw [← hvs.length_eq]
    exact List.length_pos_of_ne_nil hne
  obtain ⟨n, hn⟩ : ∃ n, m + 1 - i = n + 1 := ⟨m - i, by omega⟩
  obtain ⟨e'', hmore, hbare'⟩ := hstep m mode c n vs e' hvs (by omega) (by omega) hbare
  refine ⟨e'', i + 1, by rw [List.length_append]; omega, ?_, hbare'⟩
  have hn' : m + 1 - (i + 1) = n := by omega
  rw [Cursor.ahead_append, hrun, hn, hn']
  exact hmore

theorem loopAt_dot (h : e.Legible) (name : String) (span : Span) :
    LoopAt 10 (.member (.dot e name span)) (Expr.spell (.member (.dot e name span))) := by
  refine loopAt_postfix (fun e => .member (.dot e name span)) (List.cons_ne_nil _ _) h ?_
  intro m mode c n ts e' hts _ _ hbare
  obtain ⟨t, us, rfl, ht, hus⟩ := Spells.cons_left hts
  obtain ⟨u, _, rfl, ⟨hname, rfl⟩, hnil⟩ := Spells.cons_left hus
  cases hnil
  have hkind : (ahead [t, u] c).current.kind = .punctuator .dot := ht
  have hcurrent : (ahead [u] c).current = u := rfl
  have hmember : memberName (ahead [u] c) = .ok (u.text, c) := by
    rw [memberName, run_current_bind, hcurrent]
    obtain hk | ⟨k, hk⟩ := hname
    · rw [hk]
      exact run_bind (run_advance u [] c)
    · rw [hk]
      exact run_bind (run_advance u [] c)
  refine ⟨.member (.dot e' u.text ⟨t.location, c.current.location⟩), ?_, ?_⟩
  · rw [callTail, run_location_bind, run_kind_bind, hkind]
    exact (run_bind (run_advance t [u] c)).trans (run_bind hmember)
  · simp only [Expr.bare, Member.bare, hbare]

theorem loopAt_index (h : e.Legible) {key : Expr} (hkey : key.Legible) (span : Span) :
    LoopAt 10 (.member (.index e key span)) (Expr.spell (.member (.index e key span))) := by
  change LoopAt 10 _
    (e.render 10 ++ Lexeme.mark .leftBracket :: key.render 0 ++ [Lexeme.mark .rightBracket])
  rw [List.append_assoc]
  refine loopAt_postfix (fun e => .member (.index e key span)) (List.cons_ne_nil _ _) h ?_
  intro m mode c n ts e' hts hm _ hbare
  obtain ⟨t, us, u, rfl, ht, hus, hu⟩ := Spells.between hts
  simp only [List.length_cons, List.length_append, List.length_nil] at hm
  have hkind : (ahead (t :: (us ++ [u])) c).current.kind = .punctuator .leftBracket := ht
  obtain ⟨key', hrun, hbare'⟩ := (hkey.readAt (k := 0) (by omega) (by omega)).run_sequence (m := m)
    mode (ahead [u] c) hus (by omega) (stops_of_fits hu rfl [] c)
  refine ⟨.member (.index e' key' ⟨t.location, c.current.location⟩), ?_, ?_⟩
  · rw [callTail, run_location_bind, run_kind_bind, hkind]
    refine (run_bind (run_advance t _ c)).trans ?_
    rw [Cursor.ahead_append]
    exact (run_bind hrun).trans (run_bind (run_expectMark hu [] c))
  · simp only [Expr.bare, Member.bare, hbare, hbare']

theorem loopAt_call (h : f.Legible) {args : List Expr} (hargs : ∀ e ∈ args, e.Legible) (span : Span) :
    LoopAt 10 (.call f args span) (Expr.spell (.call f args span)) := by
  change LoopAt 10 _
    (f.render 10 ++ Lexeme.mark .leftParen :: Expr.spellAll args ++ [Lexeme.mark .rightParen])
  rw [List.append_assoc]
  refine loopAt_postfix (fun f => .call f args span) (List.cons_ne_nil _ _) h ?_
  intro m mode c n ts f' hts hm hn hbare
  obtain ⟨t, us, u, rfl, ht, hus, hu⟩ := Spells.between hts
  simp only [List.length_cons, List.length_append, List.length_nil] at hm hn
  have hkind : (ahead (t :: (us ++ [u])) c).current.kind = .punctuator .leftParen := ht
  obtain ⟨args', hrun, hbare'⟩ := run_arguments (m := m) (n := n) (c := ahead [u] c) mode hargs hus
    (by omega) (by omega) hu
  refine ⟨.call f' args' ⟨t.location, c.current.location⟩, ?_, ?_⟩
  · rw [callTail, run_location_bind, run_kind_bind, hkind]
    refine (run_bind (run_advance t _ c)).trans ?_
    rw [Cursor.ahead_append]
    exact (run_bind hrun).trans (run_bind (run_expectMark hu [] c))
  · simp only [Expr.bare, hbare, hbare']

theorem unaryOp?_of_fits {op : UnaryOp} {t : Token} (h : op.lexeme.Fits t) :
    unaryOp? t.kind = some op := by
  cases op with
  | _ =>
    rw [show t.kind = _ from h]
    rfl

theorem readAt_unary (h : e.Legible) (op : UnaryOp) :
    ReadAt 9 (.unary op e) (Expr.spell (.unary op e)) := by
  intro m mode c ts hts hm hc
  obtain ⟨t, us, rfl, ht, hus⟩ := Spells.cons_left hts
  rw [List.length_cons] at hm
  have hop : unaryOp? (ahead (t :: us) c).current.kind = some op := unaryOp?_of_fits ht
  obtain ⟨m, rfl⟩ : ∃ i, m = i + 1 := ⟨m - 1, by omega⟩
  obtain ⟨e', hrun, hbare⟩ := h.readAt (k := 9) (by omega) (by omega) m mode c hus (by omega) hc
  refine ⟨.unary op e', ?_, by simp only [Expr.bare, hbare]⟩
  change unary (rules (m + 1)) mode (m + 2) (ahead (t :: us) c) = _
  rw [unary, run_kind_bind, hop]
  exact (run_bind (run_advance t us c)).trans (run_bind hrun)

theorem loopAt_join (hl : l.Legible) (hr : r.Legible) {k : Nat} (hlow : 3 ≤ k) (hhigh : k ≤ 8)
    {join : Expr → Expr → Expr} (hjoin : joinAt k (.punctuator p) = some join)
    (hstop : stops (k + 1) (.punctuator p) = true)
    (hbare : ∀ l' r' : Expr, l'.bare = l.bare → r'.bare = r.bare → (join l' r').bare = (join l r).bare) :
    LoopAt k (join l r) (l.render k ++ .mark p :: r.render (k + 1)) := by
  intro m mode c ts hts hm hc
  obtain ⟨us, vs, rfl, hus, hvs⟩ := Spells.append_left hts
  obtain ⟨t, vs, rfl, ht, hvs⟩ := Spells.cons_left hvs
  simp only [List.length_append, List.length_cons] at hm ⊢
  have hloop : LoopAt k l (l.render k) := by
    have hrung := hl.rung (k := k) (by omega)
    interval_cases k <;> exact hrung
  have hread := hr.readAt (k := k + 1) (by omega) (by omega)
  obtain ⟨l', i, hi, hrun, hbl⟩ :=
    hloop m mode (ahead (t :: vs) c) hus (by omega) (stops_of_fits ht hstop vs c)
  obtain ⟨r', hrun', hbr⟩ := hread m mode c hvs (by omega) hc
  refine ⟨join l' r', i + 1, by omega, ?_, hbare l' r' hbl hbr⟩
  have hkind : (ahead (t :: vs) c).current.kind = .punctuator p := ht
  have hi' : m + 1 - i = (m + 1 - (i + 1)) + 1 := by omega
  have hten : k ≠ 10 := by omega
  rw [Cursor.ahead_append, hrun, tailAt, tailAt, if_neg hten, if_neg hten, hi', leftAssoc,
    run_kind_bind, hkind, hjoin]
  exact (run_bind (run_advance t vs c)).trans (run_bind hrun')

/-- A conditional is read back, whatever level its parts have. -/
theorem readAt_conditional {t a b : Expr} (ht : t.Legible) (ha : a.Legible) (hb : b.Legible) :
    ReadAt 1 (.conditional t a b) (Expr.spell (.conditional t a b)) := by
  intro m mode c ts hts hm hc
  obtain ⟨left, right, rfl, hleft, hright⟩ := Spells.append_left hts
  obtain ⟨us, rest, rfl, hus, hrest⟩ := Spells.append_left hleft
  obtain ⟨q, vs, rfl, hq, hvs⟩ := Spells.cons_left hrest
  obtain ⟨o, ws, rfl, ho, hws⟩ := Spells.cons_left hright
  simp only [List.length_append, List.length_cons] at hm
  obtain ⟨t', hrunt, hbt⟩ := (ht.readAt (k := 3) (by omega) (by omega)) m mode
    (ahead (q :: (vs ++ o :: ws)) c) hus (by omega) (stops_of_fits hq rfl _ c)
  obtain ⟨a', hruna, hba⟩ := ha.run_assignment (m := m) mode (ahead (o :: ws) c) hvs (by omega)
    (stops_of_fits ho rfl ws c)
  obtain ⟨b', hrunb, hbb⟩ := hb.run_assignment (m := m) mode c hws (by omega) hc
  change logicalOr (rules m) mode (m + 1) _ = _ at hrunt
  have hop : assignOp? c.current.kind = none := by
    simpa [continues] using continues_of_stops hc (Nat.le_refl 1) (by omega)
  have hrun : conditional (rules m) mode (m + 1) (ahead (us ++ q :: (vs ++ o :: ws)) c) =
      .ok (.conditional t' a' b', c) := by
    rw [conditional, Cursor.ahead_append, run_bind hrunt, run_bind (run_consumeMark hq _ c),
      Cursor.ahead_append]
    exact (run_bind hruna).trans ((run_bind (run_expectMark ho ws c)).trans (run_bind hrunb))
  refine ⟨.conditional t' a' b', ?_, by simp only [Expr.bare, hbt, hba, hbb]⟩
  change assignment (rules m) mode (m + 1) _ = _
  rw [List.append_assoc, List.cons_append, assignment, run_location_bind, run_bind hrun, run_kind_bind,
    hop]
  rfl

theorem spell_target (t : Target) : t.expr.spell = t.spell := by
  cases t <;> simp only [Target.expr, Expr.spell, Target.spell]

theorem target?_of_bare {e : Expr} (h : e.bare = t.expr.bare) :
    ∃ t', target? e = some t' ∧ t'.bare = t.bare := by
  cases t with
  | name id =>
    cases e with
    | identifier id' =>
      refine ⟨.name id', rfl, ?_⟩
      simpa only [Target.expr, Expr.bare, Target.bare, Expr.identifier.injEq, Target.name.injEq] using h
    | _ => simp [Target.expr, Expr.bare] at h
  | member m =>
    cases e with
    | member m' =>
      refine ⟨.member m', rfl, ?_⟩
      simpa only [Target.expr, Expr.bare, Target.bare, Expr.member.injEq, Target.member.injEq] using h
    | _ => simp [Target.expr, Expr.bare] at h

theorem assignOp?_mark (h : op.mark? = some p) :
    assignOp? (.punctuator p) = some op ∧ stops 2 (.punctuator p) = true := by
  cases op with
  | assign =>
    cases h
    exact ⟨rfl, rfl⟩
  | compound op => cases op <;> cases h <;> exact ⟨rfl, rfl⟩

/-- An assignment is read back, with its target in front of the operator. -/
theorem readAt_assign (hop : op.mark?.isSome = true) (ht : t.expr.Legible) {v : Expr} (hv : v.Legible) :
    ReadAt 1 (.assign op t v) (Expr.spell (.assign op t v)) := by
  intro m mode c ts hts hm hc
  obtain ⟨p, hp⟩ := Option.isSome_iff_exists.mp hop
  obtain ⟨hassign, hstop⟩ := assignOp?_mark hp
  rw [Expr.spell, hp, ← spell_target] at hts
  obtain ⟨left, vs, rfl, hleft, hvs⟩ := Spells.append_left hts
  obtain ⟨us, mark, rfl, hus, hmark⟩ := Spells.append_left hleft
  obtain ⟨o, _, rfl, ho, hnil⟩ := Spells.cons_left hmark
  cases hnil
  simp only [List.length_append, List.length_cons, List.length_nil] at hm
  have hread : ReadAt 2 t.expr t.expr.spell := by
    have hthree := (ht.readAt (k := 3) (by omega) (by omega)).conditional
    cases t <;> exact hthree
  obtain ⟨e', hrun, hbare⟩ := hread m mode (ahead (o :: vs) c) hus (by omega)
    (stops_of_fits ho hstop vs c)
  obtain ⟨t', ht', hbt⟩ := target?_of_bare hbare
  obtain ⟨v', hrunv, hbv⟩ := hv.run_assignment (m := m) mode c hvs (by omega) hc
  change conditional (rules m) mode (m + 1) _ = _ at hrun
  have hkind : (ahead (o :: vs) c).current.kind = .punctuator p := ho
  refine ⟨.assign op t' v', ?_, by simp only [Expr.bare, hbt, hbv]⟩
  change assignment (rules m) mode (m + 1) _ = _
  rw [List.append_assoc, List.cons_append, List.nil_append, assignment, run_location_bind,
    Cursor.ahead_append, run_bind hrun, run_kind_bind, hkind, hassign]
  dsimp only
  rw [ht']
  exact (run_bind (run_advance o vs c)).trans (run_bind hrunv)

theorem readAt_sequence {es : List Expr} (h : ∀ e ∈ es, e.Legible) (hlen : 2 ≤ es.length) :
    ReadAt 0 (.sequence es) (Expr.spell (.sequence es)) := by
  intro m mode c ts hts hm hc
  obtain ⟨e, es, rfl⟩ := List.exists_cons_of_length_pos (Nat.lt_of_lt_of_le Nat.two_pos hlen)
  rw [List.forall_mem_cons] at h
  rw [Expr.spell, Expr.spellAll] at hts
  obtain ⟨us, vs, rfl, hus, hvs⟩ := Spells.append_left hts
  rw [List.length_append] at hm
  have hstop : stops 1 (ahead vs c).current.kind = true := by
    obtain ⟨_, rfl⟩ | ⟨_, u, ws, rfl, hu, _⟩ := spells_more hvs
    · exact stops_mono hc (by omega)
    · exact stops_of_fits hu rfl ws c
  obtain ⟨e', hrun, hbare⟩ := (h.1.readAt (k := 1) (by omega) (by omega)) m mode
    (ahead vs c) hus (by omega) hstop
  obtain ⟨es', hmore, hbares⟩ := run_commaTail (m := m) (n := m + 1) mode h.2 hvs (by omega) (by omega) hc
  change assignment (rules m) mode (m + 1) _ = _ at hrun
  refine ⟨.sequence (e' :: es'), ?_, by simp only [Expr.bare, Expr.bareAll, hbare, hbares]⟩
  change sequence (rules m) mode (m + 1) _ = _
  rw [sequence, Cursor.ahead_append, run_bind hrun, run_bind hmore]
  cases es' with
  | nil =>
    cases es with
    | nil => simp at hlen
    | cons f es => cases hbares
  | cons f es' => rfl

end Constructs
end Grammar

/-! ### All levels -/

open Grammar

mutual

theorem Expr.legible (e : Expr) (h : e.Plain) : e.Legible := by
  cases e with
  | identifier id => exact (primaryAt_identifier id).rung
  | literal l => exact (primaryAt_literal l).rung
  | array es => exact (primaryAt_array (Element.legible_all es h)).rung
  | object ps => exact (primaryAt_object (Entry.legible_all ps h)).rung
  | function f => exact h.elim
  | this span => exact (primaryAt_this span).rung
  | member m => exact Member.legible m h
  | call f args span => exact loopAt_call (Expr.legible f h.1) (Expr.legible_all args h.2) span
  | unary op e => exact readAt_unary (Expr.legible e h) op
  | binary op l r | logical op l r =>
    have hl := Expr.legible l h.1
    have hr := Expr.legible r h.2
    cases op <;> exact loopAt_join hl hr (by decide) (by decide) rfl rfl fun l' r' hbl hbr => by
      simp only [Expr.bare, hbl, hbr]
  | conditional t a b =>
    exact readAt_conditional (Expr.legible t h.1) (Expr.legible a h.2.1) (Expr.legible b h.2.2)
  | assign op t v => exact readAt_assign h.1 (Target.legible t h.2.1) (Expr.legible v h.2.2)
  | sequence es => exact readAt_sequence (Expr.legible_all es h.2) h.1

theorem Expr.legible_all (es : List Expr) (h : Expr.AllPlain es) : ∀ e ∈ es, e.Legible := by
  cases es with
  | nil => exact fun _ => nofun
  | cons e es =>
    exact List.forall_mem_cons.mpr ⟨Expr.legible e h.1, Expr.legible_all es h.2⟩

theorem Element.legible_all (es : List Element) (h : Element.AllPlain es) :
    ∀ e, Element.item e ∈ es → e.Legible := by
  cases es with
  | nil => exact fun _ => nofun
  | cons element es =>
    cases element with
    | hole =>
      intro e he
      cases he with
      | tail _ he => exact Element.legible_all es h e he
    | item f =>
      intro e he
      cases he with
      | head => exact Expr.legible f h.1
      | tail _ he => exact Element.legible_all es h.2 e he

theorem Entry.legible_all (ps : List Entry) (h : Entry.AllPlain ps) :
    ∀ key e, Entry.mk key e ∈ ps → e.Legible := by
  cases ps with
  | nil => exact fun _ _ => nofun
  | cons entry ps =>
    cases entry with
    | mk name f =>
      intro key e he
      cases he with
      | head => exact Expr.legible f h.1
      | tail _ he => exact Entry.legible_all ps h.2 key e he

theorem Member.legible (m : Member) (h : m.Plain) : (Expr.member m).Legible := by
  cases m with
  | dot e name span => exact loopAt_dot (Expr.legible e h) name span
  | index e key span => exact loopAt_index (Expr.legible e h.1) (Expr.legible key h.2) span

theorem Target.legible (t : Target) (h : t.Plain) : t.expr.Legible := by
  cases t with
  | name id => exact (primaryAt_identifier id).rung
  | member m => exact Member.legible m h

end

/-- A rendered expression, in whatever tokens it is spelled, is parsed as the expression. -/
theorem Expr.parse_spelled (h : e.Plain) {tokens : List Token} (ht : Spells (e.render 0 ++ [.eof]) tokens) :
    ∃ e', onTokens wholeExpression tokens = .ok e' ∧ e'.bare = e.bare := by
  obtain ⟨ts, us, rfl, hts, hus⟩ := Spells.append_left ht
  obtain ⟨t, _, rfl, heof, hnil⟩ := Spells.cons_left hus
  cases hnil
  have hcursor : Cursor.ofTokens? (ts ++ [t]) = some (ahead ts ⟨t, []⟩) := by
    cases ts <;> rfl
  have hkind : (⟨t, []⟩ : Cursor).current.kind = .eof := heof
  have hstop : stops 0 (⟨t, []⟩ : Cursor).current.kind = true := by
    rw [hkind]
    rfl
  obtain ⟨e', hrun, hbare⟩ := ((Expr.legible e h).readAt (k := 0) (by omega) (by omega)).run_sequence
    (m := (ts ++ [t]).length + 1) ⟨false, false⟩ ⟨t, []⟩ hts (by rw [List.length_append]; omega) hstop
  have hend : Parse.atEnd ⟨t, []⟩ = .ok (true, ⟨t, []⟩) := by
    rw [Parse.atEnd, decide_eq_true hkind]
  have hwhole : wholeExpression ((ts ++ [t]).length + 1) (ahead ts ⟨t, []⟩) = .ok (e', ⟨t, []⟩) := by
    rw [wholeExpression, Parse.run_bind hrun]
    exact Parse.run_bind hend
  refine ⟨e', ?_, hbare⟩
  rw [onTokens, hcursor]
  dsimp only
  rw [hwhole]

end Surmise
