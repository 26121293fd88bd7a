import Surmise.Proofs.Json.Document
import Surmise.Proofs.Json.Unhooked

/-! A value that is a document is written as the text of the document. No hook takes part. -/
namespace Surmise

theorem mapM_ok_of_forall₂ {α β ε : Type} {f : α → Except ε β} {as : List α} {bs : List β}
    (h : List.Forall₂ (fun a b => f a = .ok b) as bs) : as.mapM f = .ok bs := by
  induction h with
  | nil => rfl
  | cons hb _ ih => exact mapM_cons_eq_ok.mpr ⟨_, _, rfl, hb, ih⟩

namespace Json

variable {h : Heap} {id : ObjectId} {path : List ObjectId} {doc : Json} {v : Value}

def Style.compact : Style := ⟨none, none, ""⟩

theorem enclose_compact (indent left right : String) (parts : List String) :
    Style.compact.enclose indent left right parts = left ++ ",".intercalate parts ++ right := by
  unfold Style.enclose
  cases parts with
  | nil => simp
  | cons part parts => rfl

variable {r : Record} {inner : String → Writing (Option String)}

theorem writeObject_array [Platform] (indent : String) {items : List Json} (hr : r.Dense items.length)
    (h : ∀ i (hi : i < items.length), inner (indexKey i) = .ok (some items[i].render)) :
    writeObject .compact indent r inner = .ok (some (render (.array items))) := by
  have htexts : elementTexts (fun i => inner (indexKey i)) (List.range items.length) =
      .ok (items.map render) := by
    refine mapM_ok_of_forall₂ (List.forall₂_iff_get.mpr ⟨by simp, fun i hi hi' => ?_⟩)
    rw [List.length_map] at hi'
    simp only [List.get_eq_getElem, List.getElem_range, List.getElem_map]
    rw [h i hi']
    rfl
  unfold writeObject
  rw [if_pos hr.objectClass, hr.extent_eq]
  dsimp only
  rw [htexts, render, renderItems_eq, ← enclose_compact indent]
  rfl

theorem writeObject_plain [Platform] (indent : String) {members : List (String × Json)} (hr : r.Plain)
    (hk : r.keys = members.map Prod.fst) (h : ∀ m ∈ members, inner m.1 = .ok (some m.2.render)) :
    writeObject .compact indent r inner = .ok (some (render (.object members))) := by
  have hkeys : Style.compact.keys.getD r.enumerableKeys = members.map Prod.fst :=
    hr.enumerableKeys_eq.trans hk
  have htexts : (members.map Prod.fst).mapM
      (fun key => do return (← inner key).map (Style.compact.member key)) =
        (.ok (members.map fun m => some (memberText m)) : Writing (List (Option String))) := by
    refine mapM_ok_of_forall₂ (List.forall₂_map_left_iff.mpr (List.forall₂_map_right_iff.mpr ?_))
    refine List.forall₂_same.mpr fun m hm => ?_
    rw [h m hm]
    rfl
  have hmembers : memberTexts .compact inner (members.map Prod.fst) = .ok (members.map memberText) := by
    unfold memberTexts
    rw [htexts]
    simp [List.filterMap_map]
  unfold writeObject
  rw [if_neg (by simp [hr.objectClass]), hkeys, hmembers, render, renderMembers_eq, ← enclose_compact indent]
  rfl

theorem hook_held {doc : Json} (hv : h.Holds doc (.object id)) :
    (h.get id "toJSON").isUnknown = false ∧ h.isCallable (h.get id "toJSON") = false := by
  have habsent : "toJSON" ∉ (h.record id).keys → h.get id "toJSON" = .undefined :=
    Record.get_of_not_mem
  cases hv with
  | array _ hr _ =>
    have hk : "toJSON" ∉ (h.record id).keys := by
      rw [hr.mem_keys]
      rintro (he | ⟨i, hi, he⟩)
      · exact absurd he (by decide)
      · exact indexKey_ne (hr.lt_maxArrayLength hi) (by decide) he.symm
    rw [habsent hk]
    exact ⟨rfl, rfl⟩
  | object _ _ hk hm =>
    by_cases hmem : "toJSON" ∈ (h.record id).keys
    · rw [hk] at hmem
      obtain ⟨m, hin, he⟩ := List.mem_map.mp hmem
      have hheld := hm m hin
      rw [he] at hheld
      exact ⟨hheld.isUnknown, hheld.isCallable⟩
    · rw [habsent hmem]
      exact ⟨rfl, rfl⟩

theorem unhooked_held (hv : h.Holds doc v) : unhooked h v = .ok () := by
  cases v with
  | object id =>
    obtain ⟨hu, hc⟩ := hook_held hv
    simp [unhooked, hu, hc]
  | _ => rfl

theorem unwrapped_held {doc : Json} {v : Value} (hv : h.Holds doc v) : unwrapped h v = v := by
  cases hv with
  | null | bool _ | number _ | string _ => rfl
  | array _ hr _ | object _ hr _ _ =>
    unfold unwrapped
    simp only [hr.objectClass]

variable [Platform]

theorem write_primitive (style : Style) (fuel : Nat) (indent : String) (path : List ObjectId)
    (hv : h.Holds doc v) (hp : ∀ id, v ≠ .object id) :
    write h style (fuel + 1) indent path v = writePrimitive v := by
  rw [write, unhooked_held hv, unwrapped_held hv]
  exact writeUnwrapped_primitive _ _ _ _ _ hp

theorem write_object (style : Style) (fuel : Nat) (indent : String) (hv : h.Holds doc (.object id))
    (hp : id ∉ path) :
    write h style (fuel + 1) indent path (.object id) = writeObject style indent (h.record id) fun key =>
      write h style fuel (indent ++ style.gap) (id :: path) (h.get id key) := by
  have hcallable : (h.record id).callable.isSome = false := hv.isCallable
  have hpath : path.contains id = false := by simpa using hp
  rw [write, unhooked_held hv, unwrapped_held hv]
  change writeUnwrapped h style indent path (write h style fuel (indent ++ style.gap)) (.object id) = _
  rw [writeUnwrapped, hcallable, hpath]
  rfl

/-- The objects on the path have longer texts than the document, so none of them lies inside itself. -/
def Below (h : Heap) (path : List ObjectId) (doc : Json) : Prop :=
  ∀ a ∈ path, ∀ outer, h.Holds outer (.object a) → doc.render.length < outer.render.length

theorem Below.not_mem (hp : Below h path doc) (hv : h.Holds doc (.object id)) : id ∉ path :=
  fun hm => Nat.lt_irrefl _ (hp id hm doc hv)

theorem Below.cons {inner : Json} (hp : Below h path doc) (hv : h.Holds doc (.object id))
    (hl : inner.render.length < doc.render.length) : Below h (id :: path) inner := by
  intro a ha outer ho
  rcases List.mem_cons.mp ha with rfl | hm
  · rwa [ho.render_eq hv]
  · exact Nat.lt_trans hl (hp a hm outer ho)

/-- A value that is a document is written as the text of the document. -/
theorem write_held (hv : h.Holds doc v) {d fuel : Nat} (hf : doc.Fits d) (hd : d < fuel) (indent : String)
    (hp : Below h path doc) : write h .compact fuel indent path v = .ok (some doc.render) := by
  obtain ⟨fuel, rfl⟩ : ∃ k, fuel = k + 1 := ⟨fuel - 1, by omega⟩
  induction hv generalizing d fuel indent path with
  | null => exact write_primitive _ fuel indent path .null (by simp)
  | bool b =>
    rw [write_primitive _ fuel indent path (.bool b) (by simp)]
    cases b <;> rfl
  | number n =>
    rw [write_primitive _ fuel indent path (.number n) (by simp)]
    cases hf with
    | number hn => simp [writePrimitive, primitivePiece, hn.1, render]
  | string t => exact write_primitive _ fuel indent path (.string t) (by simp)
  | @array items id hid hr hi ih =>
    cases hf with
    | @array d _ hfits =>
      obtain ⟨fuel, rfl⟩ : ∃ k, fuel = k + 1 := ⟨fuel - 1, by omega⟩
      have hheld : h.Holds (.array items) (.object id) := .array hid hr hi
      rw [write_object _ _ indent hheld (hp.not_mem hheld)]
      refine writeObject_array indent hr fun i hlt => ?_
      have hmem : items[i] ∈ items := List.getElem_mem hlt
      exact ih i hlt (hfits _ hmem) _ (hp.cons hheld (length_render_item hmem)) fuel (by omega)
  | @object members id hid hr hk hm ih =>
    cases hf with
    | @object d _ hfits =>
      obtain ⟨fuel, rfl⟩ : ∃ k, fuel = k + 1 := ⟨fuel - 1, by omega⟩
      have hheld : h.Holds (.object members) (.object id) := .object hid hr hk hm
      rw [write_object _ _ indent hheld (hp.not_mem hheld)]
      refine writeObject_plain indent hr hk fun m hmem => ?_
      exact ih m hmem (hfits m hmem) _ (hp.cons hheld (length_render_member hmem)) fuel (by omega)

end Json
end Surmise
