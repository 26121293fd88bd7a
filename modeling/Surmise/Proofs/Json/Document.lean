import Mathlib.Data.List.Forall2
import Surmise.Json.Reader
import Surmise.Json.Serializer
import Surmise.Proofs.Literal
import Surmise.Proofs.Store

/-! Values that are JSON documents: trees of objects in a heap, without anything that JSON cannot say. A
document is held by a value where the objects below it have exactly its members. -/
namespace Surmise

theorem map_fst_eq_of_forall₂ {α β : Type} {R : α → β → Prop} {xs : List (String × α)}
    {ys : List (String × β)} (h : List.Forall₂ (fun x y => y.1 = x.1 ∧ R x.2 y.2) xs ys) :
    xs.map Prod.fst = ys.map Prod.fst := by
  induction h with
  | nil => rfl
  | cons hx _ ih => rw [List.map_cons, List.map_cons, hx.1, ih]

theorem exists_mem_zip {α β : Type} {xs : List α} {ys : List β} (hl : xs.length = ys.length) {y : β}
    (h : y ∈ ys) : ∃ x ∈ xs, (x, y) ∈ xs.zip ys := by
  obtain ⟨i, hi, rfl⟩ := List.mem_iff_getElem.mp h
  have hx : i < xs.length := hl ▸ hi
  exact ⟨xs[i], List.getElem_mem hx, List.mem_iff_getElem.mpr ⟨i, by simp [hi, hx], List.getElem_zip⟩⟩

/-- A finite number that is read back from its text, up to the sign of zero. -/
def Number.Recovered [Platform] (x : Float) : Prop :=
  x.isFinite = true ∧
    ∃ n, Platform.readJson (Number.text x).toList = .ok (.number n) ∧ (x == n.toFloat) = true

/-- The value is this document. Since documents are finite, no object lies inside itself. -/
inductive Heap.Holds (h : Heap) : Json → Value → Prop where
  | null : Holds h .null .null
  | bool (b : Bool) : Holds h (.bool b) (.boolean b)
  | number (n : Json.Number) : Holds h (.number n) (.number n.toFloat)
  | string (s : String) : Holds h (.string s) (.string s)
  | array {items : List Json} {id : ObjectId} (hid : id.index < h.size)
      (hr : (h.record id).Dense items.length)
      (hi : ∀ i (hi : i < items.length), Holds h items[i] (h.get id (indexKey i))) :
      Holds h (.array items) (.object id)
  | object {members : List (String × Json)} {id : ObjectId} (hid : id.index < h.size)
      (hr : (h.record id).Plain) (hk : (h.record id).keys = members.map Prod.fst)
      (hm : ∀ m ∈ members, Holds h m.2 (h.get id m.1)) : Holds h (.object members) (.object id)

namespace Json

/-- The document has brackets at most `depth` deep, and its numbers are recovered. -/
inductive Fits [Platform] : (depth : Nat) → Json → Prop where
  | null {depth : Nat} : Fits depth .null
  | bool {depth : Nat} (b : Bool) : Fits depth (.bool b)
  | number {depth : Nat} {n : Json.Number} (h : Number.Recovered n.toFloat) : Fits depth (.number n)
  | string {depth : Nat} (s : String) : Fits depth (.string s)
  | array {depth : Nat} {items : List Json} (h : ∀ item ∈ items, Fits depth item) :
      Fits (depth + 1) (.array items)
  | object {depth : Nat} {members : List (String × Json)} (h : ∀ m ∈ members, Fits depth m.2) :
      Fits (depth + 1) (.object members)

/-- The documents are equal but for the form of their numbers: arrays have the same length and objects
the same keys in the same order, and numbers compare as equal, so that both zeros are the same. -/
inductive Same : Json → Json → Prop where
  | null : Same .null .null
  | bool (b : Bool) : Same (.bool b) (.bool b)
  | number {m n : Json.Number} (h : (m.toFloat == n.toFloat) = true) : Same (.number m) (.number n)
  | string (s : String) : Same (.string s) (.string s)
  | array {xs ys : List Json} (hl : xs.length = ys.length) (h : ∀ p ∈ xs.zip ys, Same p.1 p.2) :
      Same (.array xs) (.array ys)
  | object {xs ys : List (String × Json)} (hk : xs.map Prod.fst = ys.map Prod.fst)
      (h : ∀ p ∈ xs.zip ys, Same p.1.2 p.2.2) : Same (.object xs) (.object ys)

inductive Regular : Json → Prop where
  | null : Regular .null
  | bool (b : Bool) : Regular (.bool b)
  | number (n : Json.Number) : Regular (.number n)
  | string (s : String) : Regular (.string s)
  | array {items : List Json} (hl : items.length ≤ maxWalkedLength)
      (h : ∀ item ∈ items, Regular item) : Regular (.array items)
  | object {members : List (String × Json)} (hk : (members.map Prod.fst).Nodup)
      (h : ∀ m ∈ members, Regular m.2) : Regular (.object members)

/-! ### The text of a document -/

theorem length_le_intercalate {part : String} {parts : List String} (h : part ∈ parts) :
    part.length ≤ (",".intercalate parts).length := by
  induction parts with
  | nil => cases h
  | cons p ps ih =>
    cases ps with
    | nil =>
      obtain rfl := List.mem_singleton.mp h
      simp
    | cons q qs =>
      rw [String.intercalate_cons_cons]
      simp only [String.length_append]
      rcases List.mem_cons.mp h with rfl | hm
      · omega
      · have hle := ih hm
        omega

section
variable [Platform]

mutual

def render : Json → String
  | .null => "null"
  | .bool b => if b then "true" else "false"
  | .number n => Number.text n.toFloat
  | .string s => Platform.quoteJson s
  | .array items => "[" ++ ",".intercalate (renderItems items) ++ "]"
  | .object members => "\x7b" ++ ",".intercalate (renderMembers members) ++ "\x7d"

def renderItems : List Json → List String
  | [] => []
  | item :: items => item.render :: renderItems items

def renderMembers : List (String × Json) → List String
  | [] => []
  | (key, item) :: members => (Platform.quoteJson key ++ ":" ++ item.render) :: renderMembers members

end

def memberText (m : String × Json) : String := Platform.quoteJson m.1 ++ ":" ++ m.2.render

theorem renderItems_eq (items : List Json) : renderItems items = items.map render := by
  induction items with
  | nil => rfl
  | cons item items ih => rw [renderItems, ih, List.map_cons]

theorem renderMembers_eq (members : List (String × Json)) :
    renderMembers members = members.map memberText := by
  induction members with
  | nil => rfl
  | cons m members ih => rw [renderMembers, ih, List.map_cons, memberText]

theorem length_render_item {items : List Json} {item : Json} (h : item ∈ items) :
    item.render.length < (render (.array items)).length := by
  have hp : item.render ∈ renderItems items := by
    rw [renderItems_eq]
    exact List.mem_map_of_mem h
  have hl := length_le_intercalate hp
  have h1 : "[".length = 1 := rfl
  rw [render]
  simp only [String.length_append]
  omega

theorem length_render_member {members : List (String × Json)} {m : String × Json} (h : m ∈ members) :
    m.2.render.length < (render (.object members)).length := by
  have hp : memberText m ∈ renderMembers members := by
    rw [renderMembers_eq]
    exact List.mem_map_of_mem h
  have hl := length_le_intercalate hp
  have h1 : "\x7b".length = 1 := rfl
  rw [memberText] at hl
  rw [render]
  simp only [String.length_append] at hl ⊢
  omega

end

theorem Same.regular {doc doc' : Json} (h : doc.Same doc') (hr : doc.Regular) : doc'.Regular := by
  induction h with
  | null => exact .null
  | bool b => exact .bool b
  | number => exact .number _
  | string s => exact .string s
  | array hl _ ih =>
    cases hr with
    | array hn hi =>
      refine .array (hl ▸ hn) fun item hm => ?_
      obtain ⟨x, hx, hp⟩ := exists_mem_zip hl hm
      exact ih _ hp (hi x hx)
  | object hk _ ih =>
    cases hr with
    | object hn hi =>
      have hl := congrArg List.length hk
      simp only [List.length_map] at hl
      refine .object (hk ▸ hn) fun m hm => ?_
      obtain ⟨x, hx, hp⟩ := exists_mem_zip hl hm
      exact ih _ hp (hi x hx)

end Json

structure Heap.Prolongs (h k : Heap) : Prop where
  size : h.size ≤ k.size
  record : ∀ id : ObjectId, id.index < h.size → k.record id = h.record id

namespace Heap

theorem Prolongs.refl (h : Heap) : h.Prolongs h := ⟨Nat.le_refl _, fun _ _ => rfl⟩

theorem Prolongs.trans {h k l : Heap} (h₁ : h.Prolongs k) (h₂ : k.Prolongs l) : h.Prolongs l where
  size := Nat.le_trans h₁.size h₂.size
  record id hid := (h₂.record id (Nat.lt_of_lt_of_le hid h₁.size)).trans (h₁.record id hid)

theorem prolongs_allocate (h : Heap) (r : Record) : h.Prolongs (h.allocate r).1 where
  size := by simp
  record id hid := by rw [record_allocate, if_neg (Nat.ne_of_lt hid)]

namespace Holds

variable {h k : Heap} {doc doc' : Json} {v : Value}

theorem mono (hv : h.Holds doc v) (hk : h.Prolongs k) : k.Holds doc v := by
  induction hv with
  | null => exact .null
  | bool b => exact .bool b
  | number n => exact .number n
  | string s => exact .string s
  | array hid hr _ ih =>
    have he := hk.record _ hid
    refine .array (Nat.lt_of_lt_of_le hid hk.size) (he ▸ hr) fun i hi => ?_
    unfold Heap.get
    rw [he]
    exact ih i hi
  | object hid hr hkeys _ ih =>
    have he := hk.record _ hid
    refine .object (Nat.lt_of_lt_of_le hid hk.size) (he ▸ hr) (he ▸ hkeys) fun m hm => ?_
    unfold Heap.get
    rw [he]
    exact ih m hm

theorem regular (hv : h.Holds doc v) : doc.Regular := by
  induction hv with
  | null => exact .null
  | bool b => exact .bool b
  | number n => exact .number n
  | string s => exact .string s
  | array _ hr _ ih =>
    refine .array hr.walkable fun item hm => ?_
    obtain ⟨i, hi, rfl⟩ := List.mem_iff_getElem.mp hm
    exact ih i hi
  | object _ _ hk _ ih => exact .object (hk ▸ Dict.nodup_keys _) ih

theorem isUnknown (hv : h.Holds doc v) : v.isUnknown = false := by
  cases hv <;> rfl

theorem isCallable (hv : h.Holds doc v) : h.isCallable v = false := by
  cases hv with
  | null | bool _ | number _ | string _ => rfl
  | array _ hr _ | object _ hr _ _ =>
    unfold Heap.isCallable Heap.callable?
    simp [hr.callable]

/-- Documents that one value holds have the same text. -/
theorem render_eq [Platform] (hv : h.Holds doc v) (hv' : h.Holds doc' v) : doc.render = doc'.render := by
  induction hv generalizing doc' with
  | null | bool b => cases hv'; rfl
  | number n =>
    generalize hx : Value.number n.toFloat = v at hv'
    cases hv' with
    | number m =>
      simp only [Value.number.injEq] at hx
      rw [Json.render, Json.render, hx]
    | _ => cases hx
  | string s => cases hv'; rfl
  | array hid hr _ ih =>
    cases hv' with
    | array _ hr' hi' =>
      have hl := hr.length_unique hr'
      rw [Json.render, Json.render, Json.renderItems_eq, Json.renderItems_eq]
      congr 3
      refine List.ext_getElem (by simpa using hl) fun i hx hy => ?_
      simp only [List.length_map] at hx hy
      simpa using ih i hx (hi' i hy)
    | object _ hr' _ _ => cases hr.objectClass.symm.trans hr'.objectClass
  | @object xs id hid hr hk _ ih =>
    cases hv' with
    | array _ hr' _ => cases hr.objectClass.symm.trans hr'.objectClass
    | @object ys _ _ hr' hk' hm' =>
      have hkeys := hk.symm.trans hk'
      have hl := congrArg List.length hkeys
      rw [Json.render, Json.render, Json.renderMembers_eq, Json.renderMembers_eq]
      congr 3
      refine List.ext_getElem (by simpa using hl) fun i hx hy => ?_
      simp only [List.length_map] at hx hy
      have hkey : ys[i].1 = xs[i].1 := by
        have hget := congrArg (fun keys => keys[i]?) hkeys
        simpa [hx, hy] using hget.symm
      have htext := ih xs[i] (List.getElem_mem hx) (hkey ▸ hm' ys[i] (List.getElem_mem hy))
      simp [Json.memberText, hkey, htext]

theorem of_fills {id : ObjectId} {items : List Json} {vs : List Value} (hid : id.index < h.size)
    (hf : (h.record id).Fills vs) (hn : vs.length ≤ maxWalkedLength)
    (hall : List.Forall₂ h.Holds items vs) : h.Holds (.array items) (.object id) := by
  have hlen : items.length = vs.length := hall.length_eq
  refine .array hid (hlen ▸ hf.dense hn) fun i hi => ?_
  have hget : h.get id (indexKey i) = vs[i] := Record.get_of_getOwn? (hf.element i (hlen ▸ hi))
  rw [hget]
  exact (List.forall₂_iff_get.mp hall).2 i hi (hlen ▸ hi)

theorem of_lists {id : ObjectId} {members : List (String × Json)} {es : List (String × Value)}
    (hid : id.index < h.size) (hf : (h.record id).Lists es)
    (hall : List.Forall₂ (fun m e => e.1 = m.1 ∧ h.Holds m.2 e.2) members es) :
    h.Holds (.object members) (.object id) := by
  have hkeys := map_fst_eq_of_forall₂ (R := h.Holds) hall
  refine .object hid hf.plain (hf.keys.trans hkeys.symm) fun m hm => ?_
  obtain ⟨i, hi, rfl⟩ := List.mem_iff_getElem.mp hm
  have hie : i < es.length := hall.length_eq ▸ hi
  obtain ⟨hname, hheld⟩ := (List.forall₂_iff_get.mp hall).2 i hi hie
  have hget : h.get id es[i].1 = es[i].2 :=
    Record.get_of_getOwn? (hf.own es[i] (List.getElem_mem hie))
  have hkey : members[i].1 = es[i].1 := hname.symm
  rw [hkey, hget]
  exact hheld

end Holds
end Heap
end Surmise
