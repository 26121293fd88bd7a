import Surmise.Proofs.Parsing.Productions
import Surmise.Proofs.Observation.Site

/-! What the parser makes of strict code. Functions in strict code are read as strict, except in the
statements that begin with a text and stand where the directive for strict code is looked for: these are
read before the directive takes effect. -/
namespace Surmise

/-! ### Functions in strict code -/

def Function.IsStrict (_ : Site) (f : Function) : Prop := f.strict = true

/-- The function is strict, and so are all functions inside of it, wherever they stand. -/
def Function.WhollyStrict (f : Function) : Prop := f.All True Function.IsStrict (.declared true)

theorem Function.WhollyStrict.strict {f : Function} (h : f.WhollyStrict) : f.strict = true :=
  (Function.all_iff.mp h).1

/-- Where code is strict its functions are wholly strict, unless it is leading. -/
def Function.Inherits (i : Site) (f : Function) : Prop :=
  i.strict = true → i.leading = false → f.WhollyStrict

/-- What can be required, at a site, of the functions in code that is read as strict, or not. -/
inductive Site.Requires (strict : Bool) : (Site → Function → Prop) → Site → Prop where
  | inherits {i : Site} (h : i.strict = true → i.leading = false → strict = true) :
    Requires strict Function.Inherits i
  | wholly {i : Site} (h : strict = true) : Requires strict Function.IsStrict i

variable {p : Site → Function → Prop} {i : Site} {strict : Bool}

theorem Site.Requires.around (h : i.Requires strict p) (hl : i.leading = false) (leading : Bool) :
    Site.Requires strict p ⟨i.strict, leading⟩ := by
  cases h with
  | inherits h => exact .inherits fun hs _ => h hs hl
  | wholly h => exact .wholly h

def Cursor.Opens (c : Cursor) (text? : Option String) : Prop :=
  c.current.kind = .string → ∃ s, Token.stringValue? c.current.text = some s ∧ text? = some s

/-- What may be read in code that is known to be strict, or is not: all its functions are as required, and
it begins with the text at hand. -/
structure Expr.Fits (strict : Bool) (c : Cursor) (e : Expr) : Prop where
  all : ∀ {p : Site → Function → Prop} {i : Site}, i.Requires strict p → e.All True p i
  opens : c.Opens e.opening?

structure Stmt.Fits (strict : Bool) (c : Cursor) (t : Stmt) : Prop where
  all : ∀ {p : Site → Function → Prop} {i : Site}, i.Requires strict p →
    (i.leading = true → t.opening?.isSome = true) → t.All True p i
  opens : c.Opens t.opening?

theorem Cursor.opens_of_ne {c : Cursor} (h : c.current.kind ≠ .string) (text? : Option String) :
    c.Opens text? :=
  fun hc => absurd hc h

structure Stmt.Compound (strict : Bool) (t : Stmt) : Prop where
  opening : t.opening? = none
  all : ∀ {p : Site → Function → Prop} {i : Site}, i.Requires strict p → i.leading = false →
    t.All True p i

theorem Stmt.Compound.fits {c : Cursor} {t : Stmt} (h : t.Compound strict)
    (hc : c.current.kind ≠ .string) : t.Fits strict c where
  all hi hl := by
    rw [h.opening] at hl
    exact h.all hi (by simpa using hl)
  opens := Cursor.opens_of_ne hc _

namespace Stmt

abbrev AllFit (strict : Bool) (ts : List Stmt) : Prop := ∀ t ∈ ts, ∃ c, t.Fits strict c

variable {strict' : Bool} {ds ts : List Stmt}

theorem AllFit.allIn (h : AllFit strict ts) (hi : ∀ leading, Site.Requires strict p ⟨i.strict, leading⟩) :
    AllIn True p i ts := by
  induction ts generalizing i with
  | nil => trivial
  | cons t ts ih =>
    obtain ⟨c, ht⟩ := h t List.mem_cons_self
    refine ⟨ht.all (hi _) fun hl => (Bool.and_eq_true_iff.mp hl).1, ih (fun u hu => h u ?_) hi⟩
    exact List.mem_cons_of_mem t hu

theorem Site.on_of_opening {t : Stmt} (ht : t.opening?.isSome = true) : i.on t = i := by
  cases i
  simp [Site.on, ht]

theorem allIn_append (hds : ∀ d ∈ ds, d.opening?.isSome = true) (hd : ∀ d ∈ ds, d.All True p i)
    (hts : AllIn True p i ts) : AllIn True p i (ds ++ ts) := by
  induction ds with
  | nil => exact hts
  | cons d ds ih =>
    rw [List.forall_mem_cons] at hds hd
    refine ⟨?_, ?_⟩
    · rw [Site.on_of_opening hds.1]
      exact hd.1
    · rw [Site.on_of_opening hds.1]
      exact ih hds.2 hd.2

theorem directs_append (hds : ∀ d ∈ ds, d.opening?.isSome = true)
    (h : ∃ d ∈ ds, d.opening? = some "use strict") : directs (ds ++ ts) = true := by
  obtain ⟨d, hd, ho⟩ := h
  unfold directs
  rw [List.takeWhile_append_of_pos hds, List.any_append, Bool.or_eq_true]
  exact .inl (List.any_eq_true.mpr ⟨d, hd, by rw [ho]; rfl⟩)

end Stmt

/-- The head of a body, read as strict or not: statements that begin with a text, after which the body
is strict if it was before or if one of the texts is the directive. -/
structure Stmt.Prologue (strict before after : Bool) (ds : List Stmt) : Prop where
  inherited : before = true → after = true
  directed : after = true → before = true ∨ ∃ d ∈ ds, d.opening? = some "use strict"
  fits : AllFit strict ds
  opens : ∀ d ∈ ds, d.opening?.isSome = true

theorem Stmt.Prologue.allIn {strict' : Bool} {ds ts : List Stmt}
    (h : Prologue strict strict strict' ds) (hts : AllFit strict' ts) (hi : i.Requires strict p) :
    AllIn True p (.head strict' (ds ++ ts)) (ds ++ ts) := by
  cases hi with
  | wholly hs =>
    refine allIn_append h.opens (fun d hd => ?_) (hts.allIn fun _ => .wholly (h.inherited hs))
    obtain ⟨c, hc⟩ := h.fits d hd
    exact hc.all (.wholly hs) fun _ => h.opens d hd
  | inherits =>
    refine allIn_append h.opens (fun d hd => ?_) (hts.allIn fun _ => .inherits fun hs _ => hs)
    obtain ⟨c, hc⟩ := h.fits d hd
    refine hc.all (.inherits fun hs hl => ?_) fun _ => h.opens d hd
    obtain hs | ho := h.directed hs
    · exact hs
    · cases hl.symm.trans (directs_append h.opens ho)

/-! ### What is read -/

section

variable (hi : i.Requires strict p)
include hi

theorem Expr.allIn_of_fits {es : List Expr} (h : ∀ e ∈ es, ∃ c, e.Fits strict c) :
    AllIn True p i es := by
  induction es with
  | nil => trivial
  | cons e es ih =>
    rw [List.forall_mem_cons] at h
    obtain ⟨⟨c, he⟩, hes⟩ := h
    exact ⟨he.all hi, ih hes⟩

theorem Element.allIn_of_fits {es : List Element} (h : ∀ e, .item e ∈ es → ∃ c, e.Fits strict c) :
    AllIn True p i es := by
  induction es with
  | nil => trivial
  | cons e es ih =>
    have hes := ih fun e he => h e (.tail _ he)
    cases e with
    | hole => exact hes
    | item e =>
      obtain ⟨c, he⟩ := h e (.head _)
      exact ⟨he.all hi, hes⟩

theorem Entry.allIn_of_fits {ps : List Entry} (h : ∀ key e, .mk key e ∈ ps → ∃ c, e.Fits strict c) :
    AllIn True p i ps := by
  induction ps with
  | nil => trivial
  | cons entry ps ih =>
    obtain ⟨key, e⟩ := entry
    obtain ⟨c, he⟩ := h key e (.head _)
    exact ⟨he.all hi, ih fun key e he => h key e (.tail _ he)⟩

theorem Declarator.allIn_of_fits {ds : List Declarator}
    (h : ∀ id e, .mk id (some e) ∈ ds → ∃ c, e.Fits strict c) : AllIn True p i ds := by
  induction ds with
  | nil => trivial
  | cons d ds ih =>
    have hds := ih fun id e he => h id e (.tail _ he)
    obtain ⟨id, _ | e⟩ := d
    · exact hds
    · obtain ⟨c, he⟩ := h id e (.head _)
      exact ⟨he.all hi, hds⟩

end

namespace Grammar

theorem isStrictDirective_value {t : Token} (h : isStrictDirective t = true) :
    Token.stringValue? t.text = some "use strict" := by
  obtain h | h := Bool.or_eq_true_iff.mp h <;> rw [eq_of_beq h] <;> decide +kernel

variable {mode : Mode} {c c' : Cursor}

theorem Leading.prologue {before after : Bool} {ds : List Stmt}
    (h : Leading (fun mode c t => t.Fits mode.strict c) mode c c' before after ds) :
    Stmt.Prologue mode.strict before after ds := by
  induction h with
  | nil strict _ => exact ⟨id, .inl, nofun, nofun⟩
  | @cons c _ _ t before after ds hc _ _ ht _ ih =>
    obtain ⟨s, hs, ho⟩ := ht.opens hc
    exact
      { inherited h := ih.inherited (by rw [h]; rfl)
        directed h := by
          obtain h | ⟨d, hd, h⟩ := ih.directed h
          · obtain h | h := Bool.or_eq_true_iff.mp h
            · exact .inl h
            · cases hs.symm.trans (isStrictDirective_value h)
              exact .inr ⟨t, List.mem_cons_self, ho⟩
          · exact .inr ⟨d, List.mem_cons_of_mem t hd, h⟩
        fits := List.forall_mem_cons.mpr ⟨⟨c, ht⟩, ih.fits⟩
        opens := List.forall_mem_cons.mpr ⟨by rw [ho]; rfl, ih.opens⟩ }

theorem Body.all {strict : Bool} {ts : List Stmt}
    (h : Body (fun mode c t => t.Fits mode.strict c) mode c strict ts) :
    (mode.strict = true → strict = true) ∧
      (∀ {p i}, Site.Requires mode.strict p i → Stmt.AllIn True p (.head strict ts) ts) := by
  obtain ⟨hds, -, hts⟩ := h
  exact ⟨hds.prologue.inherited, fun hi => hds.prologue.allIn hts hi⟩

theorem Body.function {f : Function} (h : Body (fun mode c t => t.Fits mode.strict c)
    { mode with inFunction := true } c f.strict f.body) (hi : i.Requires mode.strict p) :
    f.All True p i := by
  obtain ⟨hstrict, hbody⟩ := h.all
  refine Function.all_iff.mpr ⟨?_, hbody hi⟩
  cases hi with
  | wholly hs => exact hstrict hs
  | inherits hi =>
    intro hs hl
    exact Function.all_iff.mpr ⟨hstrict (hi hs hl), hbody (i := .declared true) (.wholly (hi hs hl))⟩

/-- Each production makes functions that inherit the mode of the code around them. -/
theorem compositional_fits (tokens : List Token) : Compositional tokens
    (fun mode c e => e.Fits mode.strict c) fun mode c t => t.Fits mode.strict c where
  identifier hc := ⟨fun _ => trivial, Cursor.opens_of_ne hc _⟩
  literal hc := ⟨fun _ => trivial, Cursor.opens_of_ne hc _⟩
  text hs := ⟨fun _ => trivial, fun _ => ⟨_, hs, rfl⟩⟩
  this hc := ⟨fun _ => trivial, Cursor.opens_of_ne hc _⟩
  functionExpr hc _ _ h := ⟨fun hi => h.function hi, Cursor.opens_of_ne hc _⟩
  group hc h := ⟨h.all, Cursor.opens_of_ne hc _⟩
  array hc h := ⟨fun hi => Element.allIn_of_fits hi h, Cursor.opens_of_ne hc _⟩
  object hc h := ⟨fun hi => Entry.allIn_of_fits hi h, Cursor.opens_of_ne hc _⟩
  dot h := ⟨h.all, h.opens⟩
  index h hkey := ⟨fun hi => ⟨h.all hi, hkey.all hi⟩, h.opens⟩
  call h hargs := ⟨fun hi => ⟨h.all hi, Expr.allIn_of_fits hi hargs⟩, h.opens⟩
  unary hc h := ⟨h.all, Cursor.opens_of_ne hc _⟩
  binary hl hr := ⟨fun hi => ⟨hl.all hi, hr.all hi⟩, hl.opens⟩
  logical hl hr := ⟨fun hi => ⟨hl.all hi, hr.all hi⟩, hl.opens⟩
  conditional ht hc ha := ⟨fun hi => ⟨ht.all hi, hc.all hi, ha.all hi⟩, ht.opens⟩
  assign h htarget hv := by
    unfold target? at htarget
    split at htarget <;> cases htarget
    · exact ⟨fun hi => ⟨trivial, hv.all hi⟩, h.opens⟩
    · exact ⟨fun hi => ⟨h.all hi, hv.all hi⟩, h.opens⟩
  sequence h _ hes := ⟨fun hi => ⟨h.all hi, Expr.allIn_of_fits hi hes⟩, h.opens⟩
  block hc hts := Stmt.Compound.fits ⟨rfl, fun hi hl => Stmt.AllFit.allIn hts (hi.around hl)⟩ hc
  empty hc := Stmt.Compound.fits ⟨rfl, fun _ _ => trivial⟩ hc
  declare hc _ hds := Stmt.Compound.fits ⟨rfl, fun hi _ => Declarator.allIn_of_fits hi hds⟩ hc
  functionStmt hc _ _ _ h := Stmt.Compound.fits ⟨rfl, fun hi _ => h.function hi⟩ hc
  branch := fun {mode _ _ _ _ _ alternate} hc htest ht halternate => by
    have hpart {c : Cursor} {t : Stmt} {p : Site → Function → Prop} {i : Site}
        (ht : t.Fits mode.strict c) (hi : i.Requires mode.strict p) (hl : i.leading = false) :
        t.All True p i :=
      ht.all hi fun h => by cases hl.symm.trans h
    cases alternate with
    | none => exact Stmt.Compound.fits ⟨rfl, fun hi hl => ⟨htest.all hi, hpart ht hi hl⟩⟩ hc
    | some u =>
      obtain ⟨_, hu⟩ := halternate u rfl
      exact Stmt.Compound.fits
        ⟨rfl, fun hi hl => ⟨htest.all hi, hpart ht hi hl, hpart hu hi hl⟩⟩ hc
  ret := fun {_ _ argument} hc _ hargument => by
    cases argument with
    | none => exact Stmt.Compound.fits ⟨rfl, fun _ _ => trivial⟩ hc
    | some e =>
      obtain ⟨_, he⟩ := hargument e rfl
      exact Stmt.Compound.fits ⟨rfl, fun hi _ => he.all hi⟩ hc
  throw hc h := Stmt.Compound.fits ⟨rfl, fun hi _ => h.all hi⟩ hc
  attempt := fun {_ _ _ handler finalizer} hc _ hts hhandler hfinalizer => by
    refine Stmt.Compound.fits ⟨rfl, fun hi hl => ?_⟩ hc
    have hall := hi.around hl
    have hbody := Stmt.AllFit.allIn hts hall
    obtain _ | ⟨param, caught⟩ := handler <;> obtain _ | last := finalizer
    · exact ⟨hbody, trivial, trivial⟩
    · exact ⟨hbody, trivial, Stmt.AllFit.allIn (hfinalizer last rfl) hall⟩
    · exact ⟨hbody, ⟨trivial, Stmt.AllFit.allIn (hhandler param caught rfl) hall⟩, trivial⟩
    · exact ⟨hbody, ⟨trivial, Stmt.AllFit.allIn (hhandler param caught rfl) hall⟩,
        Stmt.AllFit.allIn (hfinalizer last rfl) hall⟩
  expression h := ⟨fun hi _ => h.all hi, h.opens⟩

end Grammar

theorem Program.inherits_parse [Platform] {source : String} {p : Program} (h : parse source = .ok p) :
    Stmt.AllIn True Function.Inherits (.head p.strict p.body) p.body := by
  obtain ⟨_, -, h⟩ := Grammar.of_onSource
    (Q := fun _ p => Stmt.AllIn True Function.Inherits (.head p.strict p.body) p.body)
    (fun c n _ hc hn => (Grammar.settles_program (Grammar.compositional_fits _) hc.within hn hn).imp
      fun _ _ h => h.2.all.2 (i := .declared false) (.inherits fun hs _ => hs)) h
  exact h

end Surmise
