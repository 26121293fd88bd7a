import Surmise.Proofs.Json.Cycle
import Surmise.Proofs.Json.Grammar

/-! Indentation adds blanks only. What is written with a gap of spaces and what is written on one line
differ by spaces and line feeds outside of string literals, part by part, and writing halts with the one
exactly where it halts with the other. -/
namespace Surmise

open Eval

namespace Json

/-! ### Blanks outside of string literals -/

inductive Spot where
  | outside
  | inside
  | escaped
deriving DecidableEq, Repr

namespace Spot

def next : Spot → Char → Spot
  | outside, c => if c = '"' then inside else outside
  | inside, c => if c = '"' then outside else if c = '\\' then escaped else inside
  | escaped, _ => inside

def drops : Spot → Char → Bool
  | outside, c => c = ' ' || c = '\n'
  | inside, _ | escaped, _ => false

def strip : Spot → List Char → List Char
  | _, [] => []
  | spot, c :: cs =>
    if spot.drops c then strip (spot.next c) cs else c :: strip (spot.next c) cs

end Spot

variable {cs : List Char}

/-- A text without the spaces and line feeds outside of string literals. -/
def condensed (text : String) : String := String.ofList (Spot.outside.strip text.toList)

def Condenses (cs ds : List Char) : Prop :=
  ∀ rest, Spot.outside.strip (cs ++ rest) = ds ++ Spot.outside.strip rest

theorem Condenses.eq {ds : List Char} (h : Condenses cs ds) : Spot.outside.strip cs = ds := by
  have hnil := h []
  rwa [List.append_nil, Spot.strip, List.append_nil] at hnil

theorem Condenses.append {ds cs' ds' : List Char} (h : Condenses cs ds) (h' : Condenses cs' ds') :
    Condenses (cs ++ cs') (ds ++ ds') := by
  intro rest
  rw [List.append_assoc, h, h', List.append_assoc]

theorem condenses_blank (h : ∀ c ∈ cs, c = ' ' ∨ c = '\n') : Condenses cs [] := by
  intro rest
  induction cs with
  | nil => rfl
  | cons c cs ih =>
    rw [List.forall_mem_cons] at h
    obtain ⟨rfl | rfl, hcs⟩ := h
    · exact ih hcs
    · exact ih hcs

theorem condenses_plain (h : ∀ c ∈ cs, c ≠ ' ' ∧ c ≠ '\n' ∧ c ≠ '"') : Condenses cs cs := by
  intro rest
  induction cs with
  | nil => rfl
  | cons c cs ih =>
    rw [List.forall_mem_cons] at h
    obtain ⟨⟨hspace, hline, hquote⟩, hcs⟩ := h
    have hstep : Spot.outside.next c = .outside := if_neg hquote
    have hkeep : Spot.outside.drops c = false := by simp [Spot.drops, hspace, hline]
    rw [List.cons_append, Spot.strip, hkeep, hstep, ih hcs]
    rfl

/-- Inside a string nothing is dropped, up to the quote that ends it. -/
theorem strip_characters (h : Phrase.Characters cs) (rest : List Char) :
    Spot.inside.strip (cs ++ '"' :: rest) = cs ++ '"' :: Spot.outside.strip rest := by
  have hescape {c : Char} {cs : List Char}
      (ih : Spot.inside.strip (cs ++ '"' :: rest) = cs ++ '"' :: Spot.outside.strip rest) :
      Spot.inside.strip ('\\' :: c :: cs ++ '"' :: rest) =
        '\\' :: c :: cs ++ '"' :: Spot.outside.strip rest := by
    change '\\' :: c :: Spot.inside.strip (cs ++ '"' :: rest) = _
    rw [ih]
    rfl
  have hplain {c : Char} {cs : List Char} (hquote : c ≠ '"') (hslash : c ≠ '\\')
      (ih : Spot.inside.strip (cs ++ '"' :: rest) = cs ++ '"' :: Spot.outside.strip rest) :
      Spot.inside.strip (c :: cs ++ '"' :: rest) = c :: cs ++ '"' :: Spot.outside.strip rest := by
    have hstep : Spot.inside.next c = .inside := by simp [Spot.next, hquote, hslash]
    rw [List.cons_append, Spot.strip, hstep, ih]
    rfl
  induction h with
  | nil => rfl
  | plain _ hquote hslash _ ih => exact hplain hquote hslash ih
  | escape _ _ ih => exact hescape ih
  | @code a b c d cs hcode _ ih =>
    have hdigit {x : Char} (hx : x ∈ [a, b, c, d]) : x ≠ '"' ∧ x ≠ '\\' := by
      constructor <;> rintro rfl <;> exact absurd (hcode _ hx) (by decide)
    have ha := hdigit (x := a) (by simp)
    have hb := hdigit (x := b) (by simp)
    have hc := hdigit (x := c) (by simp)
    have hd := hdigit (x := d) (by simp)
    exact hescape (hplain ha.1 ha.2 (hplain hb.1 hb.2 (hplain hc.1 hc.2 (hplain hd.1 hd.2 ih))))

theorem condenses_quoted (h : Phrase.Quoted cs) : Condenses cs cs := by
  obtain ⟨hcs⟩ := h
  intro rest
  have hinside := strip_characters hcs rest
  rw [List.append_assoc, List.append_assoc, List.singleton_append, List.singleton_append,
    List.cons_append, List.cons_append, ← hinside]
  rfl

/-- A number has no blanks to drop. -/
theorem condenses_numeral (h : Phrase.Numeral cs) : Condenses cs cs := by
  have hdigits {ds : List Char} (hds : Phrase.Digits ds) : Condenses ds ds := by
    refine condenses_plain fun c hc => ?_
    have hdigit := hds.2 c hc
    refine ⟨?_, ?_, ?_⟩ <;> rintro rfl <;> exact absurd hdigit (by decide)
  have hmark {c : Char} (hc : c ∈ ['.', 'e', 'E', '+', '-']) : Condenses [c] [c] := by
    refine condenses_plain (List.forall_mem_singleton.mpr ?_)
    refine ⟨?_, ?_, ?_⟩ <;> rintro rfl <;> exact absurd hc (by decide)
  have hunsigned {ds : List Char} (hds : Phrase.Unsigned ds) : Condenses ds ds := by
    obtain ⟨hwhole, hfraction, hexponent⟩ := hds
    refine ((hdigits hwhole.1).append ?_).append ?_
    · cases hfraction with
      | none => exact fun _ => rfl
      | some hds => exact (hmark (by decide)).append (hdigits hds)
    · cases hexponent with
      | none => exact fun _ => rfl
      | @some e sign ds he hsign hds =>
        have hfirst : Condenses [e] [e] := hmark (by obtain rfl | rfl := he <;> decide)
        have hsecond : Condenses sign sign := by
          obtain rfl | rfl | rfl := hsign
          · exact fun _ => rfl
          · exact hmark (by decide)
          · exact hmark (by decide)
        exact (hfirst.append hsecond).append (hdigits hds)
  cases h with
  | plus h => exact hunsigned h
  | minus h => exact (hmark (by decide)).append (hunsigned h)

/-! ### Texts and parts of texts -/

variable {s t : String}

def Tightens (text tight : String) : Prop := Condenses text.toList tight.toList

theorem Tightens.append {s' t' : String} (h : Tightens s t) (h' : Tightens s' t') :
    Tightens (s ++ s') (t ++ t') := by
  unfold Tightens
  rw [String.toList_append, String.toList_append]
  exact Condenses.append h h'

theorem Tightens.condensed_eq (h : Tightens s t) : condensed s = t := by
  rw [condensed, Condenses.eq h, String.ofList_toList]

theorem Tightens.intercalate {separator separator' : String} (hs : Tightens separator separator')
    {parts parts' : List String} (h : List.Forall₂ Tightens parts parts') :
    Tightens (separator.intercalate parts) (separator'.intercalate parts') := by
  induction h with
  | nil => exact fun _ => rfl
  | @cons part part' parts parts' hpart hparts ih =>
    cases hparts with
    | nil => simpa using hpart
    | cons _ _ =>
      rw [String.intercalate_cons_cons, String.intercalate_cons_cons]
      exact (hpart.append hs).append ih

def Blanks (s : String) : Prop := ∀ c ∈ s.toList, c = ' ' ∨ c = '\n'

theorem Blanks.append (hs : Blanks s) (ht : Blanks t) : Blanks (s ++ t) := by
  intro c hc
  rw [String.toList_append] at hc
  exact (List.mem_append.mp hc).elim (hs c) (ht c)

theorem blanks_line : Blanks "\n" := List.forall_mem_singleton.mpr (.inr rfl)

theorem Tightens.blanks {blanks : String} (h : Tightens s t) (hb : Blanks blanks) :
    Tightens (s ++ blanks) t := by
  have hall := Condenses.append h (condenses_blank hb)
  rw [List.append_nil, ← String.toList_append] at hall
  exact hall

def Style.onLine (style : Style) : Style := { style with gap := "" }

theorem tightens_mark {mark : String} (h : mark ∈ ["[", "]", "\x7b", "\x7d", ",", ":"]) :
    Tightens mark mark := by
  refine condenses_plain fun c hc => ?_
  simp only [List.mem_cons, List.not_mem_nil, or_false] at h
  obtain rfl | rfl | rfl | rfl | rfl | rfl := h <;>
    · obtain rfl := List.mem_singleton.mp hc
      decide

section Styles

variable {style : Style} (hgap : Blanks style.gap)
include hgap

theorem tightens_enclose {indent indent' left right : String} (hindent : Blanks indent)
    (hl : Tightens left left) (hr : Tightens right right) {parts parts' : List String}
    (h : List.Forall₂ Tightens parts parts') :
    Tightens (style.enclose indent left right parts)
      (style.onLine.enclose indent' left right parts') := by
  have hcomma : Tightens "," "," := tightens_mark (by simp)
  unfold Style.enclose
  cases h with
  | nil => exact hl.append hr
  | @cons part part' parts parts' hpart hparts =>
    have hall := List.Forall₂.cons hpart hparts
    rw [if_neg (show ¬ (part :: parts).isEmpty = true from nofun),
      if_neg (show ¬ (part' :: parts').isEmpty = true from nofun),
      if_pos (show style.onLine.gap = "" from rfl)]
    split
    · exact (hl.append (hcomma.intercalate hall)).append hr
    · have hinner : Blanks (indent ++ style.gap) := hindent.append hgap
      have hline : Tightens ",\n" "," := fun _ => rfl
      have hopen := (hl.blanks blanks_line).blanks hinner
      have hparts := hopen.append ((hline.blanks hinner).intercalate hall)
      exact ((hparts.blanks blanks_line).blanks hindent).append hr

omit hgap in
theorem tightens_member [Platform] [Platform.Quotes] (style : Style) (key : String) {text text' : String}
    (h : Tightens text text') :
    Tightens (style.member key text) (style.onLine.member key text') := by
  have hkey : Tightens (Platform.quoteJson key) (Platform.quoteJson key) :=
    condenses_quoted (Platform.Quotes.quoted key)
  have hcolon : Tightens ":" ":" := tightens_mark (by simp)
  have hspace : Tightens ": " ":" := fun _ => rfl
  unfold Style.member
  rw [if_pos (show style.onLine.gap = "" from rfl)]
  split
  · exact (hkey.append hcolon).append h
  · exact (hkey.append hspace).append h

end Styles

theorem tightens_primitive [Platform] [Platform.Quotes] {v : Value} {text : String}
    (h : primitivePiece v = .text text) : Tightens text text := by
  have hword {word : String} (hw : word ∈ ["null", "true", "false"]) : Tightens word word := by
    simp only [List.mem_cons, List.not_mem_nil, or_false] at hw
    obtain rfl | rfl | rfl := hw <;> exact fun _ => rfl
  cases v with
  | null =>
    cases h
    exact hword (by simp)
  | boolean b => cases b <;> cases h <;> exact hword (by simp)
  | string s =>
    cases h
    exact condenses_quoted (Platform.Quotes.quoted s)
  | number x =>
    change (if x.isFinite then Piece.text (Number.text x) else .text "null") = _ at h
    split at h
    next hx =>
      cases h
      exact condenses_numeral (Phrase.numeral_text hx)
    next =>
      cases h
      exact hword (by simp)
  | undefined | object _ | unknown => cases h

/-! ### Writing in two styles -/

/-- Both halt for the same reason, or both give something, and what they give is related. -/
inductive Alike {α β : Type} (R : α → β → Prop) : Writing α → Writing β → Prop
  | halted (e : Halt) : Alike R (.error e) (.error e)
  | given {a : α} {b : β} (h : R a b) : Alike R (.ok a) (.ok b)

namespace Alike

variable {α β γ δ ι : Type} {R : α → β → Prop} {S : γ → δ → Prop}

theorem bind {x : Writing α} {y : Writing β} {f : α → Writing γ} {g : β → Writing δ}
    (h : Alike R x y) (hf : ∀ a b, R a b → Alike S (f a) (g b)) : Alike S (x >>= f) (y >>= g) := by
  cases h with
  | halted e => exact .halted e
  | given hab => exact hf _ _ hab

theorem map {x : Writing α} {y : Writing β} {f : α → γ} {g : β → δ} (h : Alike R x y)
    (hf : ∀ a b, R a b → S (f a) (g b)) :
    Alike S (do let a ← x; return f a) (do let b ← y; return g b) :=
  h.bind fun a b hab => .given (hf a b hab)

theorem mapM {f : ι → Writing α} {g : ι → Writing β} (h : ∀ i, Alike R (f i) (g i)) (is : List ι) :
    Alike (List.Forall₂ R) (is.mapM f) (is.mapM g) := by
  induction is with
  | nil => exact .given .nil
  | cons i is ih =>
    rw [List.mapM_cons, List.mapM_cons]
    exact (h i).bind fun a b hab => ih.map fun as bs hall => .cons hab hall

end Alike

abbrev TightensPart : Option String → Option String → Prop := Option.Rel Tightens

theorem forall₂_filterMap {texts texts' : List (Option String)}
    (h : List.Forall₂ TightensPart texts texts') :
    List.Forall₂ Tightens (texts.filterMap id) (texts'.filterMap id) := by
  induction h with
  | nil => exact .nil
  | cons hpart _ ih =>
    cases hpart with
    | none => exact ih
    | some hpart => exact .cons hpart ih

section Writing

variable [Platform] [Platform.Quotes] {style : Style} (hgap : Blanks style.gap)
include hgap

/-- The style of lines does not matter to one object if it does not matter to its members. -/
theorem alike_writeObject {indent indent' : String} (hindent : Blanks indent) (r : Record)
    {inner inner' : String → Writing (Option String)}
    (h : ∀ key, Alike TightensPart (inner key) (inner' key)) :
    Alike TightensPart (writeObject style indent r inner)
      (writeObject style.onLine indent' r inner') := by
  have hnull : Tightens "null" "null" := fun _ => rfl
  unfold writeObject
  split
  · split
    · exact .halted _
    · exact .halted _
    next n _ =>
      have htexts : Alike (List.Forall₂ Tightens)
          (elementTexts (fun i => inner (indexKey i)) (List.range n))
          (elementTexts (fun i => inner' (indexKey i)) (List.range n)) := by
        refine .mapM (fun i => (h (indexKey i)).map fun text text' ht => ?_) _
        cases ht with
        | none => exact hnull
        | some ht => exact ht
      exact htexts.map fun _ _ hall => .some (tightens_enclose hgap hindent
        (tightens_mark (by simp)) (tightens_mark (by simp)) hall)
  · have htexts : Alike (List.Forall₂ Tightens)
        (memberTexts style inner (style.keys.getD r.enumerableKeys))
        (memberTexts style.onLine inner' (style.keys.getD r.enumerableKeys)) := by
      refine Alike.map (Alike.mapM (fun key => (h key).map fun text text' ht => ?_) _)
        fun _ _ => forall₂_filterMap
      cases ht with
      | none => exact .none
      | some ht => exact .some (tightens_member style key ht)
    exact htexts.map fun _ _ hall => .some (tightens_enclose hgap hindent
      (tightens_mark (by simp)) (tightens_mark (by simp)) hall)

/-- Written on several lines or on one, a value gives texts that differ by blanks only. -/
theorem alike_write (h : Heap) (fuel : Nat) {indent : String} (indent' : String)
    (hindent : Blanks indent) (path : List ObjectId) (v : Value) :
    Alike TightensPart (write h style fuel indent path v)
      (write h style.onLine fuel indent' path v) := by
  induction fuel generalizing indent indent' path v with
  | zero => exact .halted _
  | succ fuel ih =>
    rw [write, write]
    have hhook : Alike (fun _ _ : Unit => True) (unhooked h v) (unhooked h v) := by
      cases unhooked h v with
      | error e => exact .halted e
      | ok _ => exact .given trivial
    refine hhook.bind fun _ _ _ => ?_
    generalize unwrapped h v = w
    by_cases hw : ∀ id, w ≠ .object id
    · rw [writeUnwrapped_primitive _ _ _ _ _ hw, writeUnwrapped_primitive _ _ _ _ _ hw,
        writePrimitive]
      cases ht : primitivePiece w with
      | text text => exact .given (.some (tightens_primitive ht))
      | omitted => exact .given .none
      | unknown => exact .halted _
    · obtain ⟨id, rfl⟩ : ∃ id, w = .object id := by simpa using hw
      rw [writeUnwrapped, writeUnwrapped]
      split
      · exact .given .none
      split
      · exact .halted _
      · exact alike_writeObject hgap hindent _ fun key => ih _ (hindent.append hgap) _ _

end Writing

/-! ### Writing comes to an end -/

variable {h : Heap}

/-- The objects on the path are all different, so there are not more of them than there is room for. An
object that is not in the heap has nothing inside it. -/
theorem write_ne_exhausted [Platform] (style : Style) {fuel : Nat} (indent : String) {path : List ObjectId}
    (v : Value) (hpath : path.Nodup) (hin : ∀ a ∈ path, a.index < h.size)
    (hfuel : h.size + 1 < fuel + path.length) :
    write h style fuel indent path v ≠ .error .exhausted := by
  have hlength := h.length_le_of_nodup hpath hin
  induction fuel generalizing indent path v with
  | zero => omega
  | succ fuel ih =>
    intro he
    obtain he | ⟨_, -, he⟩ := bind_eq_error.mp he
    · obtain ⟨id, -, ⟨-, he⟩ | ⟨-, he⟩⟩ := error_of_unhooked_error he <;> cases he
    obtain ⟨-, he⟩ | ⟨id, -, -, ⟨-, he⟩ | ⟨hnew, he⟩⟩ := error_of_writeUnwrapped_error he
    · cases he
    · cases he
    obtain ⟨-, -, he⟩ | ⟨-, n, -, he⟩ | ⟨key, -, he⟩ := error_of_writeObject_error he
    · cases he
    · cases he
    by_cases hid : id.index < h.size
    · have hin' : ∀ a ∈ id :: path, a.index < h.size := List.forall_mem_cons.mpr ⟨hid, hin⟩
      have hnodup : (id :: path).Nodup := List.nodup_cons.mpr ⟨hnew, hpath⟩
      refine ih _ _ hnodup hin' ?_ (h.length_le_of_nodup hnodup hin') he
      rw [List.length_cons]
      omega
    · have habsent : h.get id key = .undefined := by
        unfold Heap.get
        rw [Heap.record_of_size_le (Nat.not_lt.mp hid)]
        rfl
      obtain ⟨fuel, rfl⟩ : ∃ k, fuel = k + 1 := ⟨fuel - 1, by omega⟩
      rw [habsent] at he
      cases he

theorem rootText_ne_exhausted [Platform] (h : Heap) (v replacer space : Value) :
    rootText h v replacer space ≠ .error .exhausted := by
  unfold rootText
  split
  · exact nofun
  · refine write_ne_exhausted _ _ _ .nil (fun _ => nofun) ?_
    rw [Heap.size_allocate]
    unfold hookBudget
    exact Nat.add_lt_add_left (by decide) _

/-! ### The function of scripts -/

theorem style?_number {replacer : Value} (hc : h.isCallable replacer = false) (x : Float) :
    style? h replacer .undefined = (style? h replacer (.number x)).map Style.onLine := by
  unfold style?
  rw [hc]
  cases onlyKeys? h replacer <;> rfl

theorem alike_rootText [Platform] [Platform.Quotes] {replacer : Value}
    (hc : h.isCallable replacer = false) (v : Value) (x : Float) :
    Alike TightensPart (rootText h v replacer (.number x)) (rootText h v replacer .undefined) := by
  unfold rootText
  rw [style?_number hc x]
  cases hs : style? h replacer (.number x) with
  | none => exact .halted _
  | some style =>
    have hnone : Blanks "" := List.forall_mem_nil _
    refine alike_write ?_ _ _ "" hnone [] v
    have hgap : some (String.ofList (List.replicate (gapWidth x) ' ')) = some style.gap :=
      (style?_of_not_callable hc hs).2.2
    rw [← Option.some.inj hgap]
    intro c hc
    rw [String.toList_ofList] at hc
    exact .inl (List.eq_of_mem_replicate hc)

inductive Loosens : Outcome Value × Session → Outcome Value × Session → Prop
  | text (text : String) (t : Session) :
      Loosens (.done (.string text), t) (.done (.string (condensed text)), t)
  | nothing (t : Session) : Loosens (.done .undefined, t) (.done .undefined, t)
  | unknown (t : Session) : Loosens (.done .unknown, t) (.done .unknown, t)
  | thrown (error : Value) (t : Session) :
      Loosens (.failed (.thrown error), t) (.failed (.thrown error), t)

theorem loosens_perform {x y : Writing (Option String)} (h : Alike TightensPart x y)
    (hh : x ≠ .error .hooked) (he : x ≠ .error .exhausted) (s : Session) :
    Loosens (perform textValue .unknown x s) (perform textValue .unknown y s) := by
  cases h with
  | given h =>
    cases h with
    | none => exact .nothing s
    | some h =>
      rw [← h.condensed_eq]
      exact .text _ s
  | halted e =>
    cases e with
    | unknown => exact .unknown s
    | hooked => exact absurd rfl hh
    | exhausted => exact absurd rfl he
    | fault kind message =>
      rw [perform]
      cases hs : s.recovers with
      | true =>
        rw [run_bind (run_route hs kind message)]
        exact .unknown _
      | false =>
        rw [run_bind_failed (run_route_thrown hs kind message)]
        exact .thrown _ _

theorem Loosens.guarded {body body' : Eval Value} {s : Session} (h : Loosens (body s) (body' s))
    (receiver : Value) {args args' : List Value}
    (ha : args.any Value.isUnknown = args'.any Value.isUnknown) :
    Loosens (guarded receiver args body s) (guarded receiver args' body' s) := by
  unfold Eval.guarded
  rw [ha]
  split
  · exact .unknown s
  generalize hrun : body s = run, hrun' : body' s = run' at h
  cases h with
  | text text t =>
    rw [run_observe_done hrun, run_observe_done hrun']
    exact .text text t
  | nothing t =>
    rw [run_observe_done hrun, run_observe_done hrun']
    exact .nothing t
  | unknown t =>
    rw [run_observe_done hrun, run_observe_done hrun']
    exact .unknown t
  | thrown error t =>
    rw [run_observe_failed hrun, run_observe_failed hrun']
    exact .thrown error t

end Json

/-- Indentation adds blanks only. In a heap without hooks, `JSON.stringify` with a number for the gap
completes as it does without one and leaves the same session. If it gives a text, that is the text on one
line once the spaces and line feeds outside of string literals are deleted. -/
theorem stringify_indents_by_blanks [Platform] [Platform.Quotes] (host : Host) (inner call : Invoke)
    (receiver v replacer : Value) (x : Float) (options : CallOptions) {s : Session}
    (hr : s.heap.isCallable replacer = false)
    (hh : ∀ id, s.heap.isCallable (s.heap.get id "toJSON") = false) :
    Json.Loosens
      (Callable.run host inner call receiver [v, replacer, .number x] options
        (.builtin .jsonStringify) s)
      (Callable.run host inner call receiver [v, replacer] options (.builtin .jsonStringify) s) := by
  have hunhooked := Json.rootText_ne_hooked hh v replacer
  have hstore : Json.holding s.store v (Json.style? s.heap replacer .undefined) =
      Json.holding s.store v (Json.style? s.heap replacer (.number x)) := by
    rw [Json.style?_number hr x]
    cases Json.style? s.heap replacer (.number x) <;> rfl
  refine Json.Loosens.guarded ?_ receiver (by simp [Value.isUnknown])
  change Json.Loosens (Json.stringify call v replacer (.number x) s)
    (Json.stringify call v replacer .undefined s)
  rw [Json.run_stringify call v (.number x) hr (hunhooked _),
    Json.run_stringify call v .undefined hr (hunhooked _), hstore]
  exact Json.loosens_perform (Json.alike_rootText hr v x) (hunhooked _)
    (Json.rootText_ne_exhausted _ _ _ _) _

def Heap.spaced : Heap :=
  ⟨#[.ofEntries [("a b", .null)], .ofList [.string " \"\n ", .object ⟨0⟩, .undefined]]⟩

def Heap.writeSpaced (gap : List Value) : Outcome Value × Session :=
  Callable.run .standard (fun _ _ _ _ => exhausted) (fun _ _ _ _ => exhausted) .undefined
    (.object ⟨1⟩ :: .null :: gap) {} (.builtin .jsonStringify) (.ofHeap .spaced)

/-- Blanks in texts and in keys stay. -/
theorem stringify_indents_by_blanks_spaced :
    Json.Loosens (Heap.writeSpaced [.number 1]) (Heap.writeSpaced []) ∧
      (Heap.writeSpaced [.number 1]).1.text? =
        some "[\n \" \\\"\\n \",\n \x7b\n  \"a b\": null\n \x7d,\n null\n]" ∧
      (Heap.writeSpaced []).1.text? = some "[\" \\\"\\n \",\x7b\"a b\":null\x7d,null]" := by
  have hhook (id : ObjectId) : Heap.spaced.isCallable (Heap.spaced.get id "toJSON") = false := by
    obtain ⟨_ | _ | n⟩ := id
    · decide +kernel
    · decide +kernel
    · rfl
  exact ⟨stringify_indents_by_blanks (s := .ofHeap .spaced) .standard _ _ .undefined _ .null 1 {} rfl
    hhook, by decide +kernel, by decide +kernel⟩

end Surmise
