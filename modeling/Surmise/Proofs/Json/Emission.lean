import Surmise.Proofs.Json.Grammar
import Surmise.Proofs.Yielding

/-! What is written is JSON. Hooks may do anything between the parts of a text: each part is JSON by
itself, whatever value it was written from, and the parts are put together by the grammar. -/
namespace Surmise

open Eval

namespace Json
open Phrase

/-! ### Parts put together -/

variable {parts : List String} {style : Style}

def Loose (P : List Char → Prop) : Prop :=
  ∀ ⦃left cs right⦄, Blank left → P cs → Blank right → P (left ++ cs ++ right)

theorem loose_element : Loose Phrase.Element := by
  rintro left _ right hl ⟨hl', h, hr'⟩ hr
  have hlong := Phrase.Element.mk (hl.append hl') h (hr'.append hr)
  simpa only [List.append_assoc] using hlong

theorem loose_member : Loose Phrase.Member := by
  rintro left _ right hl ⟨hl', hname, hm, h⟩ hr
  have hlong := Phrase.Member.mk (hl.append hl') hname hm (loose_element (List.forall_mem_nil _) h hr)
  simpa only [List.append_assoc, List.cons_append, List.nil_append] using hlong

theorem listed_intercalate {P : List Char → Prop} (hP : Loose P) {before after : List Char}
    (hb : Blank before) (ha : Blank after) {separator : String} (hs : separator.toList = ',' :: before)
    {part : String} (h : ∀ p ∈ part :: parts, P p.toList) :
    Listed P (before ++ (separator.intercalate (part :: parts)).toList ++ after) := by
  induction parts generalizing part with
  | nil => exact .one (hP hb (h part (by simp)) ha)
  | cons next parts ih =>
    have hpart : P (before ++ part.toList ++ []) := hP hb (h part (by simp)) (List.forall_mem_nil _)
    have hrest := ih fun p hp => h p (.tail _ hp)
    have hlist := Listed.more hpart hrest
    rw [String.intercalate_cons_cons, String.toList_append, String.toList_append, hs]
    simpa only [List.append_assoc, List.cons_append, List.nil_append, List.append_nil] using hlist

theorem toList_enclose {P : List Char → Prop} (hP : Loose P) {indent : String} (hgap : Blank style.gap.toList)
    (hindent : Blank indent.toList) (left right : String) (h : ∀ p ∈ parts, P p.toList) :
    ∃ cs, (style.enclose indent left right parts).toList = left.toList ++ cs ++ right.toList ∧
      (cs = [] ∨ Listed P cs) := by
  unfold Style.enclose
  cases parts with
  | nil => exact ⟨[], by simp, .inl rfl⟩
  | cons part parts =>
    rw [if_neg (by simp)]
    have hline : Blank ['\n'] := List.forall_mem_singleton.mpr (by decide)
    split
    · have hlist := listed_intercalate hP (List.forall_mem_nil _) (List.forall_mem_nil _)
        (show ",".toList = [','] from rfl) h
      exact ⟨_, by simp, .inr hlist⟩
    · have hinner : Blank ('\n' :: (indent.toList ++ style.gap.toList)) :=
        hline.append (hindent.append hgap)
      have houter : Blank ('\n' :: indent.toList) := hline.append hindent
      have hseparator : (",\n" ++ (indent ++ style.gap)).toList =
          ',' :: '\n' :: (indent.toList ++ style.gap.toList) := by simp
      exact ⟨_, by simp, .inr (listed_intercalate hP hinner houter hseparator h)⟩

/-! ### Values -/

def Piece.Sound : Piece → Prop
  | .text s => Phrase.Value s.toList
  | .omitted | .unknown => True

theorem Piece.sound_primitive [Platform] [Platform.Quotes] (v : Value) : (primitivePiece v).Sound := by
  cases v with
  | null => exact .null
  | boolean b =>
    cases b with
    | true => exact .true
    | false => exact .false
  | string s => exact .quoted (Platform.Quotes.quoted s)
  | number x =>
    change (if x.isFinite then Piece.text (Number.text x) else .text "null").Sound
    split
    next hx => exact .numeral (numeral_text hx)
    next => exact .null
  | undefined | object _ | unknown => trivial

theorem element_of_value {cs : List Char} (h : Phrase.Value cs) : Phrase.Element cs := by
  have hpadded := Phrase.Element.mk (List.forall_mem_nil _) h (List.forall_mem_nil _)
  rwa [List.append_nil] at hpadded

theorem member_of_value [Platform] [Platform.Quotes] (style : Style) (key : String) {text : String}
    (h : Phrase.Value text.toList) : Phrase.Member (style.member key text).toList := by
  have hspace : Blank [' '] := List.forall_mem_singleton.mpr (by decide)
  have hname := Platform.Quotes.quoted key
  unfold Style.member
  split
  · have hmember := Phrase.Member.mk (List.forall_mem_nil _) hname (List.forall_mem_nil _)
      (element_of_value h)
    simpa using hmember
  · have hmember := Phrase.Member.mk (List.forall_mem_nil _) hname (List.forall_mem_nil _)
      (.mk hspace h (List.forall_mem_nil _))
    simpa using hmember

theorem yields_elementParts {element : Nat → Eval Piece} (h : ∀ i, Yields (element i) Piece.Sound) (n i : Nat)
    (hparts : ∀ p ∈ parts, Phrase.Element p.toList) :
    Yields (elementParts element n i parts) fun r =>
      ∀ parts, r = some parts → ∀ p ∈ parts, Phrase.Element p.toList := by
  induction n generalizing i parts with
  | zero =>
    refine .pure ?_
    rintro _ ⟨⟩ p hp
    exact hparts p (List.mem_reverse.mp hp)
  | succ n ih =>
    refine .bind (h i) fun piece hpiece => ?_
    cases piece with
    | text s => exact ih _ (List.forall_mem_cons.mpr ⟨element_of_value hpiece, hparts⟩)
    | omitted => exact ih _ (List.forall_mem_cons.mpr ⟨element_of_value .null, hparts⟩)
    | unknown => exact .pure nofun

theorem yields_memberParts [Platform] [Platform.Quotes] {member : String → Eval Piece}
    (h : ∀ key, Yields (member key) Piece.Sound)
    (keys : List String) (hparts : ∀ p ∈ parts, Phrase.Member p.toList) :
    Yields (memberParts style member keys parts) fun r =>
      ∀ parts, r = some parts → ∀ p ∈ parts, Phrase.Member p.toList := by
  induction keys generalizing parts with
  | nil =>
    refine .pure ?_
    rintro _ ⟨⟩ p hp
    exact hparts p (List.mem_reverse.mp hp)
  | cons key keys ih =>
    refine .bind (h key) fun piece hpiece => ?_
    cases piece with
    | text s => exact ih (List.forall_mem_cons.mpr ⟨member_of_value style key hpiece, hparts⟩)
    | omitted => exact ih hparts
    | unknown => exact .pure nofun

theorem yields_routed (kind : ErrorKind) (message : String) :
    Yields (routed kind message) Piece.Sound :=
  .after fun _ => .pure trivial

section Containers
variable {style : Style} {indent : String} (hgap : Blank style.gap.toList)
  (hindent : Blank indent.toList)
include hgap hindent

theorem yields_arrayPiece (r : Record) {element : Nat → Eval Piece}
    (h : ∀ i, Yields (element i) Piece.Sound) :
    Yields (arrayPiece style indent r element) Piece.Sound := by
  unfold arrayPiece
  split
  · exact .pure trivial
  · exact yields_routed _ _
  next n _ =>
    refine .bind (yields_elementParts h n 0 (List.forall_mem_nil _)) fun parts hparts => .pure ?_
    cases parts with
    | none => trivial
    | some parts =>
      obtain ⟨cs, hcs, hlist⟩ :=
        toList_enclose loose_element hgap hindent "[" "]" (hparts parts rfl)
      change Phrase.Value (style.enclose indent "[" "]" parts).toList
      rw [hcs]
      rcases hlist with rfl | hlist
      · exact .emptyArray (List.forall_mem_nil _)
      · exact .array hlist

theorem yields_objectPiece [Platform] [Platform.Quotes] (r : Record) {member : String → Eval Piece}
    (h : ∀ key, Yields (member key) Piece.Sound) :
    Yields (objectPiece style indent r member) Piece.Sound := by
  refine .bind (yields_memberParts h _ (List.forall_mem_nil _)) fun parts hparts => .pure ?_
  cases parts with
  | none => trivial
  | some parts =>
    obtain ⟨cs, hcs, hlist⟩ :=
      toList_enclose loose_member hgap hindent "\x7b" "\x7d" (hparts parts rfl)
    change Phrase.Value (style.enclose indent "\x7b" "\x7d" parts).toList
    rw [hcs]
    rcases hlist with rfl | hlist
    · exact .emptyObject (List.forall_mem_nil _)
    · exact .object hlist

end Containers

variable {space : Value}

/-- Whatever hooks do, a piece is JSON by itself. -/
theorem yields_serialize [Platform] [Platform.Quotes] (call : Invoke) (hgap : Blank style.gap.toList)
    (fuel : Nat) (indent : String) (hindent : Blank indent.toList) (path : List ObjectId)
    (holder : ObjectId) (key : String) :
    Yields (serialize call style fuel indent path holder key) Piece.Sound := by
  induction fuel generalizing indent path holder key with
  | zero => exact .exhausted
  | succ fuel ih =>
    have hinner : Blank (indent ++ style.gap).toList := by
      rw [String.toList_append]
      exact hindent.append hgap
    refine .after fun _ => .after fun v => ?_
    cases v with
    | none => exact .pure trivial
    | some v =>
      refine .after fun _ => .after fun v => ?_
      cases v with
      | object id =>
        refine .after fun r => ?_
        dsimp only
        split
        · exact .pure trivial
        split
        · exact yields_routed _ _
        split
        · exact yields_arrayPiece hgap hindent r fun i => ih _ hinner _ _ _
        · exact yields_objectPiece hgap hindent r fun key => ih _ hinner _ _ key
      | _ =>
        exact .pure (Piece.sound_primitive _)

theorem blank_gap? {h : Heap} {gap : String} (hspace : space = .undefined ∨ ∃ x, space = .number x)
    (hg : gap? h space = some gap) : Blank gap.toList := by
  obtain rfl | ⟨x, rfl⟩ := hspace
  · cases hg
    exact List.forall_mem_nil _
  · cases hg
    rw [String.toList_ofList]
    exact fun c hc => .inl (List.eq_of_mem_replicate hc)

theorem blank_style? {h : Heap} {replacer : Value} (hspace : space = .undefined ∨ ∃ x, space = .number x)
    (hs : style? h replacer space = some style) : Blank style.gap.toList := by
  unfold style? at hs
  split at hs
  · obtain ⟨gap, hg, rfl⟩ := Option.map_eq_some_iff.mp hs
    exact blank_gap? hspace hg
  · split at hs
    next hg =>
      cases hs
      exact blank_gap? hspace hg
    next => cases hs

def SoundValue (v : Value) : Prop := ∀ text, v = .string text → Phrase.Element text.toList

theorem Piece.Sound.value {piece : Piece} (h : piece.Sound) : SoundValue piece.value := by
  intro text ht
  cases piece with
  | text s =>
    cases ht
    exact element_of_value h
  | omitted | unknown => cases ht

theorem yields_stringify [Platform] [Platform.Quotes] (call : Invoke) (v replacer : Value)
    (hspace : space = .undefined ∨ ∃ x, space = .number x) :
    Yields (stringify call v replacer space) SoundValue := by
  refine .after fun h => ?_
  split
  · exact .pure fun _ => nofun
  next style hs =>
    refine .after fun holder => ?_
    have hpiece := yields_serialize call (blank_style? hspace hs) (h.size + hookBudget)
      "" (List.forall_mem_nil _) [] holder ""
    exact hpiece.bind fun piece hp => .pure hp.value

end Json

/-- Whatever is written by `JSON.stringify` is a JSON text, if the gap is not given as a text. Neither
the heap, nor the value and the replacer, nor what hooks do when they are called makes a difference. -/
theorem stringify_emits_json [Platform] [Platform.Quotes] (host : Host) (inner call : Invoke)
    (receiver : Value) (args : List Value) (options : CallOptions) {s t : Session} {text : String}
    (hspace : argument args 2 = .undefined ∨ ∃ x, argument args 2 = .number x)
    (h : Callable.run host inner call receiver args options (.builtin .jsonStringify) s =
      (.done (.string text), t)) :
    Json.Phrase.Element text.toList :=
  (Eval.Yields.guarded nofun (Json.yields_stringify call _ _ hspace)) s _ t h text rfl

def Json.hooking : Session where
  options := {}
  store := { heap := ⟨#[.ofCallable (.builtin .isNaN),
    .ofEntries [("toJSON", .object ⟨0⟩), ("a", .null)],
    .ofList [.object ⟨1⟩, .number (-1.5e300), .undefined]]⟩ }
  globalObject := ⟨1⟩
  globalContext := ⟨[], [], .undefined, false, false, ""⟩

def Json.writeHooked : Outcome Value × Session :=
  Callable.run .standard (fun _ _ _ _ => exhausted)
    (fun _ _ _ _ => do
      let _ ← put ⟨2⟩ "2" (.boolean true)
      return .string "\n\"")
    .undefined [.object ⟨2⟩, .undefined, .number 1] {} (.builtin .jsonStringify) Json.hooking

theorem stringify_emits_json_hooked :
    ∃ t, Json.writeHooked =
        (.done (.string "[\n \"\\n\\\"\",\n -1.5e+300,\n true\n]"), t) ∧
      Json.Phrase.Element "[\n \"\\n\\\"\",\n -1.5e+300,\n true\n]".toList := by
  have hrun := @Outcome.run_of_text? Json.writeHooked
    "[\n \"\\n\\\"\",\n -1.5e+300,\n true\n]" (by decide +kernel)
  exact ⟨_, hrun, stringify_emits_json .standard _ _ .undefined
    [.object ⟨2⟩, .undefined, .number 1] {} (.inr ⟨1, rfl⟩) hrun⟩

end Surmise
