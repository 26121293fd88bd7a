import Surmise.Proofs.Json.Cycle

/-! A list of keys is a projection. What is written of a value with such a list is what is written without
one of the value in which every object that is written by its members has been replaced by an object of the
listed keys that it owns, in the order of the list. -/
namespace Surmise

open Relation Eval

/-! ### Projections -/

theorem Record.arrayLength_congr {r q : Record} (h : q.get "length" = r.get "length") :
    q.arrayLength = r.arrayLength := by
  unfold arrayLength
  rw [h]

theorem Record.extent_congr {r q : Record} (h : q.get "length" = r.get "length") :
    q.extent = r.extent := by
  unfold extent
  rw [arrayLength_congr h, h]

namespace Heap

structure Grows (h k : Heap) : Prop where
  size : h.size ≤ k.size
  record : ∀ id, id.index < h.size → k.record id = h.record id
  callable : ∀ id, h.size ≤ id.index → (k.record id).callable = none

/-- The object is written as a whole: as what it wraps, or not at all. -/
def Closed (h : Heap) (id : ObjectId) : Prop :=
  (h.record id).callable.isSome = true ∨ (h.record id).objectClass.isWrapper = true

/-- The second value, in the second heap, is the first one with the objects in it replaced: an array by an
array of the same length, and any other object that can neither be called nor wraps a value by a plain
object whose properties are, in order, those of the keys that it owns. What is not written is left aside. -/
inductive Projects (h h' : Heap) (keys : List String) : Value → Value → Prop
  | kept {v : Value} (hv : ∀ id, v = .object id → h.Closed id ∧ h'.record id = h.record id) :
      Projects h h' keys v v
  | array {id id' : ObjectId} (hid' : id'.index < h'.size)
      (hclass : (h.record id).objectClass = .array) (hcallable : (h.record id).callable = none)
      (hclass' : (h'.record id').objectClass = .array) (hcallable' : (h'.record id').callable = none)
      (hhook : (h'.get id' "toJSON").isUnknown = false ∧
        h'.isCallable (h'.get id' "toJSON") = false)
      (hlength : h'.get id' "length" = h.get id "length")
      (helements : ∀ i, i < (h.record id).arrayLength →
        Projects h h' keys (h.get id (indexKey i)) (h'.get id' (indexKey i))) :
      Projects h h' keys (.object id) (.object id')
  | object {id id' : ObjectId} (hid : id.index < h.size) (hid' : id'.index < h'.size)
      (hclass : (h.record id).objectClass ≠ .array) (hopen : ¬ h.Closed id)
      (hplain : (h'.record id').Plain) (hkeys : (h'.record id').keys = keys.filter (h.record id).has)
      (hmembers : ∀ key ∈ (h'.record id').keys,
        Projects h h' keys (h.get id key) (h'.get id' key)) :
      Projects h h' keys (.object id) (.object id')

section

variable {h h' k k' : Heap} {keys : List String} {v v' : Value} {id : ObjectId}

theorem Grows.refl (h : Heap) : h.Grows h where
  size := Nat.le_refl _
  record _ _ := rfl
  callable id hid := by
    rw [record_of_size_le hid]
    rfl

theorem Grows.trans (h₁ : h.Grows h') (h₂ : h'.Grows k) : h.Grows k where
  size := Nat.le_trans h₁.size h₂.size
  record id hid := (h₂.record id (Nat.lt_of_lt_of_le hid h₁.size)).trans (h₁.record id hid)
  callable id hid := by
    by_cases hid' : id.index < h'.size
    · rw [h₂.record id hid']
      exact h₁.callable id hid
    · exact h₂.callable id (Nat.not_lt.mp hid')

theorem grows_allocate (h : Heap) {r : Record} (hr : r.callable = none) :
    h.Grows (h.allocate r).1 where
  size := by
    rw [size_allocate]
    exact Nat.le_succ _
  record id hid := record_allocate_of_present r hid
  callable id hid := by
    rw [record_allocate]
    split
    · exact hr
    · rw [record_of_size_le hid]
      rfl

theorem Grows.get (hk : h.Grows k) (hid : id.index < h.size) (key : String) :
    k.get id key = h.get id key := by
  unfold Heap.get
  rw [hk.record id hid]

theorem Grows.isCallable (hk : h.Grows k) (v : Value) : k.isCallable v = h.isCallable v := by
  cases v with
  | object id =>
    unfold Heap.isCallable callable?
    dsimp only
    by_cases hid : id.index < h.size
    · rw [hk.record id hid]
    · rw [hk.callable id (Nat.not_lt.mp hid), record_of_size_le (Nat.not_lt.mp hid)]
      rfl
  | _ => rfl

theorem present_of_ne {id : ObjectId} (hr : h.record id ≠ default) : id.index < h.size := by
  by_contra hid
  exact hr (record_of_size_le (Nat.not_lt.mp hid))

theorem Closed.present (hc : h.Closed id) : id.index < h.size := by
  refine present_of_ne fun hr => ?_
  unfold Closed at hc
  rw [hr] at hc
  obtain hc | hc := hc <;> cases hc

/-- A projection stays one when both heaps grow. -/
theorem Projects.mono (hv : Projects h h' keys v v') (hk : h.Grows k) (hk' : h'.Grows k') :
    Projects k k' keys v v' := by
  induction hv with
  | kept hv =>
    refine .kept fun id hid => ?_
    obtain ⟨hclosed, hsame⟩ := hv id hid
    have hpresent := hclosed.present
    have hpresent' : id.index < h'.size := present_of_ne fun hr => by
      rw [hsame] at hr
      unfold Closed at hclosed
      rw [hr] at hclosed
      obtain hc | hc := hclosed <;> cases hc
    refine ⟨?_, ?_⟩
    · unfold Closed
      rw [hk.record id hpresent]
      exact hclosed
    · rw [hk.record id hpresent, hk'.record id hpresent', hsame]
  | @array id id' hid' hclass hcallable hclass' hcallable' hhook hlength _ ih =>
    have hid : id.index < h.size := present_of_ne fun hr => by
      rw [hr] at hclass
      cases hclass
    refine .array (Nat.lt_of_lt_of_le hid' hk'.size) ?_ ?_ ?_ ?_ ?_ ?_ ?_
    · rwa [hk.record id hid]
    · rwa [hk.record id hid]
    · rwa [hk'.record id' hid']
    · rwa [hk'.record id' hid']
    · rwa [hk'.get hid', hk'.isCallable]
    · rwa [hk'.get hid', hk.get hid]
    · intro i hi
      rw [hk.record id hid] at hi
      rw [hk'.get hid', hk.get hid]
      exact ih i hi
  | @object id id' hid hid' hclass hopen hplain hkeys _ ih =>
    refine .object (Nat.lt_of_lt_of_le hid hk.size) (Nat.lt_of_lt_of_le hid' hk'.size) ?_ ?_ ?_ ?_ ?_
    · rwa [hk.record id hid]
    · unfold Closed
      rwa [hk.record id hid]
    · rwa [hk'.record id' hid']
    · rwa [hk'.record id' hid', hk.record id hid]
    · intro key hkey
      rw [hk'.record id' hid'] at hkey
      rw [hk'.get hid', hk.get hid]
      exact ih key hkey

theorem Projects.isUnknown (hv : Projects h h' keys v v') : v'.isUnknown = v.isUnknown := by
  cases hv <;> rfl

theorem Projects.isCallable (hv : Projects h h' keys v v') : h'.isCallable v' = h.isCallable v := by
  cases hv with
  | kept hv =>
    cases v with
    | object id =>
      unfold Heap.isCallable callable?
      dsimp only
      rw [(hv id rfl).2]
    | _ => rfl
  | array _ _ hcallable _ hcallable' =>
    unfold Heap.isCallable callable?
    dsimp only
    rw [hcallable, hcallable']
  | object _ _ _ hopen hplain =>
    have hcallable : ¬ _ := fun hc => hopen (.inl hc)
    unfold Heap.isCallable callable?
    dsimp only
    rw [hplain.callable, Bool.eq_false_iff.mpr hcallable]
    rfl

/-- What lies inside a projection is a projection too, so it has an end. -/
theorem Projects.acc {id' : ObjectId} (hv : Projects h h' keys v (.object id')) :
    Acc (fun b a => h'.Encloses none a b) id' := by
  generalize hw : Value.object id' = w at hv
  induction hv generalizing id' with
  | kept hv =>
    subst hw
    obtain ⟨hclosed, hsame⟩ := hv id' rfl
    refine .intro _ ?_
    rintro b ⟨key, hkey, -⟩
    unfold Closed at hclosed
    rw [← hsame] at hclosed
    rw [writtenKeys_of_closed hclosed] at hkey
    cases hkey
  | array _ _ _ hclass' hcallable' _ hlength _ ih =>
    cases hw
    refine .intro _ ?_
    rintro b ⟨key, hkey, hb⟩
    rw [writtenKeys_array hclass' hcallable', Record.arrayLength_congr hlength] at hkey
    obtain ⟨i, hi, rfl⟩ := List.mem_map.mp hkey
    exact ih i (List.mem_range.mp hi) hb.symm
  | object _ _ _ _ hplain _ _ ih =>
    cases hw
    refine .intro _ ?_
    rintro b ⟨key, hkey, hb⟩
    rw [writtenKeys_plain hplain] at hkey
    exact ih key hkey hb.symm

end

end Heap

namespace Json

variable {h h' : Heap} {keys : List String}

/-! ### Writing projections -/

/-- A wrapper is unwrapped alike wherever its record is the same. -/
theorem unwrapped_congr {id : ObjectId} (hw : (h.record id).objectClass.isWrapper = true)
    (hp : h.WrapsPrimitives) (hsame : h'.record id = h.record id) :
    unwrapped h' (.object id) = unwrapped h (.object id) ∧
      (unwrapped h (.object id)).isObject = false := by
  have hobject : ((h.record id).primitive.getD .undefined).isObject = false := by
    have hprimitive := hp id hw
    cases hr : (h.record id).primitive with
    | none => rfl
    | some p =>
      cases p with
      | object inner => exact absurd hr (hprimitive inner)
      | _ => rfl
  have hsettled := Heap.settled_wrapper_of_not_object hw hobject
  have hprimitive := Heap.primitiveOf?_wrapper hw
  rw [← hsame] at hw hobject
  have hsettled' := Heap.settled_wrapper_of_not_object hw hobject
  have hprimitive' := Heap.primitiveOf?_wrapper hw
  rw [hsame] at hw hobject hsettled' hprimitive'
  generalize (h.record id).primitive.getD .undefined = p at *
  unfold unwrapped
  dsimp only
  rw [hsame]
  cases hc : (h.record id).objectClass with
  | number =>
    dsimp only
    rw [Heap.toNumber?, Heap.toNumber?, hsettled, hsettled']
    refine ⟨rfl, ?_⟩
    cases p.primitiveNumber? <;> rfl
  | string =>
    dsimp only
    rw [Heap.toText?, Heap.toText?, hsettled, hsettled']
    refine ⟨rfl, ?_⟩
    cases p.primitiveText? <;> rfl
  | boolean =>
    dsimp only
    rw [Heap.toPrimitive, Heap.toPrimitive, hprimitive, hprimitive']
    exact ⟨rfl, hobject⟩
  | _ =>
    rw [hc] at hw
    cases hw

theorem memberTexts_filter [Platform] {style : Style} {inner inner' : String → Writing (Option String)}
    {has : String → Bool} {keys texts : List String}
    (hkept : ∀ key ∈ keys, has key = true → ∀ t, inner key = .ok t → inner' key = .ok t)
    (hleft : ∀ key ∈ keys, has key = false → ∀ t, inner key = .ok t → t = none)
    (ht : memberTexts style inner keys = .ok texts) :
    memberTexts style inner' (keys.filter has) = .ok texts := by
  induction keys generalizing texts with
  | nil => exact ht
  | cons key keys ih =>
    rw [List.forall_mem_cons] at hkept hleft
    rw [memberTexts_cons] at ht
    obtain ⟨text, htext, ht⟩ := bind_eq_ok.mp ht
    obtain ⟨rest, hrest, ht⟩ := bind_eq_ok.mp ht
    have hrest' := ih hkept.2 hleft.2 hrest
    cases hhas : has key with
    | true =>
      rw [List.filter_cons_of_pos hhas, memberTexts_cons]
      exact bind_eq_ok.mpr ⟨text, hkept.1 hhas text htext, bind_eq_ok.mpr ⟨rest, hrest', ht⟩⟩
    | false =>
      rw [List.filter_cons_of_neg (by simp [hhas])]
      rw [hleft.1 hhas text htext] at ht
      cases ht
      exact hrest'

theorem unhooked_object_iff {id : ObjectId} :
    unhooked h (.object id) = .ok () ↔
      (h.get id "toJSON").isUnknown = false ∧ h.isCallable (h.get id "toJSON") = false := by
  unfold unhooked
  dsimp only
  cases (h.get id "toJSON").isUnknown <;> cases h.isCallable (h.get id "toJSON") <;> simp

section Objects

variable [Platform] {style : Style} {fuel : Nat} {indent : String} {path : List ObjectId} {id : ObjectId}

theorem write_open (hhook : unhooked h (.object id) = .ok ()) (hc : (h.record id).callable = none)
    (hw : (h.record id).objectClass.isWrapper = false) (hnew : id ∉ path) :
    write h style (fuel + 1) indent path (.object id) =
      writeObject style indent (h.record id) fun key =>
        write h style fuel (indent ++ style.gap) (id :: path) (h.get id key) := by
  have hpath : path.contains id = false := by simpa using hnew
  rw [write, hhook, unwrapped_of_not_wrapper hw]
  change writeUnwrapped h style indent path _ (.object id) = _
  rw [writeUnwrapped, hc, hpath]
  rfl

theorem writeObject_of_write {text : Option String} (hc : (h.record id).callable = none)
    (hw : (h.record id).objectClass.isWrapper = false)
    (ht : write h style (fuel + 1) indent path (.object id) = .ok text) :
    unhooked h (.object id) = .ok () ∧ (writeObject style indent (h.record id) fun key =>
      write h style fuel (indent ++ style.gap) (id :: path) (h.get id key)) = .ok text := by
  obtain ⟨_, hhook, hrest⟩ := bind_eq_ok.mp ht
  refine ⟨hhook, ?_⟩
  have hnew : id ∉ path := by
    intro hmem
    rw [unwrapped_of_not_wrapper hw, writeUnwrapped, hc, List.contains_iff_mem.mpr hmem] at hrest
    cases hrest
  rwa [write_open hhook hc hw hnew] at ht

end Objects

section Projections

variable [Platform] (hp : h.WrapsPrimitives) (hcall : ∀ v, h'.isCallable v = h.isCallable v)
  {gap indent : String} {path path' : List ObjectId} {v v' : Value} {text : Option String}
include hp hcall

/-- What is written as a whole is written alike with and without the list of keys. -/
theorem write_kept {fuel fuel' : Nat}
    (hv : ∀ id, v = .object id → h.Closed id ∧ h'.record id = h.record id)
    (ht : write h ⟨none, some keys, gap⟩ (fuel + 1) indent path v = .ok text) :
    write h' ⟨none, none, gap⟩ (fuel' + 1) indent path' v = .ok text := by
  obtain ⟨_, hhook, ht⟩ := bind_eq_ok.mp ht
  by_cases hobject : ∀ id, v ≠ .object id
  · cases v with
    | object id => exact absurd rfl (hobject id)
    | _ => exact ht
  obtain ⟨id, rfl⟩ : ∃ id, v = .object id := by simpa using hobject
  obtain ⟨hclosed, hsame⟩ := hv id rfl
  have hhook' : unhooked h' (.object id) = .ok () := by
    unfold unhooked Heap.get at hhook ⊢
    dsimp only at hhook ⊢
    rwa [hsame, hcall]
  refine bind_eq_ok.mpr ⟨(), hhook', ?_⟩
  cases hw : (h.record id).objectClass.isWrapper with
  | true =>
    obtain ⟨hunwrapped, hplain⟩ := unwrapped_congr hw hp hsame
    have hplain' : ∀ inner, unwrapped h (.object id) ≠ .object inner := by
      intro inner hinner
      rw [hinner] at hplain
      cases hplain
    rw [hunwrapped, writeUnwrapped_primitive _ _ _ _ _ hplain']
    rwa [writeUnwrapped_primitive _ _ _ _ _ hplain'] at ht
  | false =>
    have hcallable : (h.record id).callable.isSome = true :=
      hclosed.resolve_right (by simp [hw])
    rw [unwrapped_of_not_wrapper hw, writeUnwrapped, if_pos hcallable] at ht
    rw [unwrapped_of_not_wrapper (by rwa [hsame]), writeUnwrapped, hsame, if_pos hcallable]
    exact ht

/-- What is written of a value with the list is written of its projection without it. -/
theorem write_projects {fuel fuel' : Nat} (hv : h.Projects h' keys v v')
    (hfree : ∀ id', v' = .object id' → ¬ Trapped (h'.Encloses none) path' id')
    (hfuel : fuel ≤ fuel')
    (ht : write h ⟨none, some keys, gap⟩ fuel indent path v = .ok text) :
    write h' ⟨none, none, gap⟩ fuel' indent path' v' = .ok text := by
  induction fuel generalizing fuel' indent path path' v v' text with
  | zero => cases ht
  | succ fuel ih =>
    obtain ⟨fuel', rfl⟩ : ∃ k, fuel' = k + 1 := ⟨fuel' - 1, by omega⟩
    have hfuel : fuel ≤ fuel' := Nat.le_of_succ_le_succ hfuel
    have hinner {id id' : ObjectId} (hid' : v' = .object id') {key : String}
        (hkey : key ∈ h'.writtenKeys none id')
        (hproj : h.Projects h' keys (h.get id key) (h'.get id' key)) (t : Option String)
        (ht : write h ⟨none, some keys, gap⟩ fuel (indent ++ gap) (id :: path) (h.get id key) = .ok t) :
        write h' ⟨none, none, gap⟩ fuel' (indent ++ gap) (id' :: path') (h'.get id' key) = .ok t := by
      refine ih hproj (fun b hb htrapped => hfree id' hid' ?_) hfuel ht
      have hnew : id' ∉ path' := fun hmem => hfree id' hid' (trapped_of_mem hmem)
      exact (trapped_iff hnew).mpr ⟨b, ⟨key, hkey, hb⟩, htrapped⟩
    cases hv with
    | kept hv => exact write_kept hp hcall hv ht
    | @array id id' hid' hclass hcallable hclass' hcallable' hhook' hlength helements =>
      have hnew : id' ∉ path' := fun hmem => hfree id' rfl (trapped_of_mem hmem)
      obtain ⟨-, ht⟩ := writeObject_of_write hcallable (by rw [hclass]; rfl) ht
      rw [write_open (unhooked_object_iff.mpr hhook') hcallable' (by rw [hclass']; rfl) hnew]
      unfold writeObject at ht ⊢
      rw [if_pos hclass] at ht
      rw [if_pos hclass', Record.extent_congr hlength]
      split at ht
      · cases ht
      · cases ht
      next n hn =>
        obtain ⟨texts, htexts, ht⟩ := bind_eq_ok.mp ht
        refine bind_eq_ok.mpr ⟨texts, mapM_ok_of_ok htexts fun i hi b hb => ?_, ht⟩
        rw [← Record.extent_walkable hn] at hi
        have hkey : indexKey i ∈ h'.writtenKeys none id' := by
          rw [Heap.writtenKeys_array hclass' hcallable', Record.arrayLength_congr hlength]
          exact List.mem_map_of_mem hi
        exact map_ok_of_ok (hinner rfl hkey (helements i (List.mem_range.mp hi))) hb
    | @object id id' hid hid' hclass hopen hplain hkeys hmembers =>
      have hnew : id' ∉ path' := fun hmem => hfree id' rfl (trapped_of_mem hmem)
      have hcallable : (h.record id).callable = none := by
        simpa using fun hc => hopen (.inl hc)
      have hwrapper : (h.record id).objectClass.isWrapper = false := by
        simpa using fun hw => hopen (.inr hw)
      obtain ⟨hhook, ht⟩ := writeObject_of_write hcallable hwrapper ht
      have hunhooked : unhooked h' (.object id') = .ok () := by
        rw [unhooked_object_iff] at hhook ⊢
        by_cases hmem : "toJSON" ∈ (h'.record id').keys
        · rwa [(hmembers _ hmem).isUnknown, (hmembers _ hmem).isCallable]
        · have habsent : h'.get id' "toJSON" = .undefined := Record.get_of_not_mem hmem
          rw [habsent]
          exact ⟨rfl, rfl⟩
      rw [write_open hunhooked hplain.callable (by rw [hplain.objectClass]; rfl) hnew]
      unfold writeObject at ht ⊢
      rw [if_neg hclass] at ht
      rw [if_neg (by rw [hplain.objectClass]; nofun)]
      obtain ⟨texts, htexts, ht⟩ := bind_eq_ok.mp ht
      have hkeys' : (h'.record id').enumerableKeys = keys.filter (h.record id).has :=
        hplain.enumerableKeys_eq.trans hkeys
      refine bind_eq_ok.mpr ⟨texts, ?_, ht⟩
      change memberTexts _ _ (h'.record id').enumerableKeys = _
      rw [hkeys']
      refine memberTexts_filter (fun key hkey hhas t htext => ?_) (fun key _ hhas t htext => ?_) htexts
      · have hkey' : key ∈ (h'.record id').keys := by
          rw [hkeys]
          exact List.mem_filter.mpr ⟨hkey, hhas⟩
        exact hinner rfl (by rwa [Heap.writtenKeys_plain hplain]) (hmembers key hkey') t htext
      · have habsent : h.get id key = .undefined :=
          Record.get_of_not_mem fun hmem => by
            cases ((Record.has_iff _ _).mpr hmem).symm.trans hhas
        rw [habsent] at htext
        cases fuel <;> cases htext
        rfl

end Projections

end Json

/-! ### Making projections -/

def Record.elementEntries (length : Value) (n : Nat) (element : Nat → Value) : List (String × Value) :=
  ("length", length) :: (List.range n).map fun i => (indexKey i, element i)

def Record.arrayOf (length : Value) (n : Nat) (element : Nat → Value) : Record :=
  { ofEntries (elementEntries length n element) with objectClass := .array }

theorem Record.map_fst_elementEntries (length : Value) (n : Nat) (element : Nat → Value) :
    (elementEntries length n element).map Prod.fst = "length" :: (List.range n).map indexKey := by
  rw [elementEntries, List.map_cons, List.map_map]
  rfl

theorem Record.lists_elementEntries (length : Value) (n : Nat) (element : Nat → Value) :
    (ofEntries (elementEntries length n element)).Lists (elementEntries length n element) := by
  refine lists_ofEntries ?_
  rw [map_fst_elementEntries, List.nodup_cons]
  refine ⟨fun hmem => ?_, List.nodup_range.map fun i j hij => indexKey_injective hij⟩
  obtain ⟨i, -, hi⟩ := List.mem_map.mp hmem
  exact indexKey_ne_letters (by decide) hi

theorem Record.get_arrayOf (length : Value) (n : Nat) (element : Nat → Value) :
    (arrayOf length n element).get "length" = length ∧
      (∀ i < n, (arrayOf length n element).get (indexKey i) = element i) ∧
      (arrayOf length n element).get "toJSON" = .undefined := by
  have hlists := lists_elementEntries length n element
  refine ⟨get_of_getOwn? (hlists.own _ (.head _)), fun i hi => ?_, get_of_not_mem ?_⟩
  · have hmem : (indexKey i, element i) ∈ elementEntries length n element :=
      .tail _ (List.mem_map.mpr ⟨i, List.mem_range.mpr hi, rfl⟩)
    exact get_of_getOwn? (hlists.own _ hmem)
  · change "toJSON" ∉ (ofEntries _).keys
    rw [hlists.keys, map_fst_elementEntries, List.mem_cons]
    rintro (h | h)
    · exact absurd h (by decide)
    · obtain ⟨i, -, hi⟩ := List.mem_map.mp h
      exact indexKey_ne_letters (by decide) hi

theorem Record.callable_arrayOf (length : Value) (n : Nat) (element : Nat → Value) :
    (arrayOf length n element).callable = none :=
  (lists_elementEntries length n element).plain.callable

namespace Heap

variable {h k : Heap} {keys : List String} {id : ObjectId}

theorem exists_projections {ks : List String}
    (hks : ∀ key ∈ ks, ∀ k, h.Grows k →
      ∃ k' v', k.Grows k' ∧ h.Projects k' keys (h.get id key) v') (hk : h.Grows k) :
    ∃ (k' : Heap) (member : String → Value), k.Grows k' ∧
      ∀ key ∈ ks, h.Projects k' keys (h.get id key) (member key) := by
  induction ks generalizing k with
  | nil => exact ⟨k, fun _ => .undefined, .refl k, List.forall_mem_nil _⟩
  | cons key ks ih =>
    rw [List.forall_mem_cons] at hks
    obtain ⟨k₁, v₁, hk₁, hv₁⟩ := hks.1 k hk
    obtain ⟨k₂, member, hk₂, hmember⟩ := ih hks.2 (hk.trans hk₁)
    refine ⟨k₂, fun x => if x = key then v₁ else member x, hk₁.trans hk₂, fun x hx => ?_⟩
    dsimp only
    split
    next heq =>
      rw [heq]
      exact hv₁.mono (.refl h) hk₂
    next hne => exact hmember x ((List.mem_cons.mp hx).resolve_left hne)

/-- From projections of the elements a projection of the array is made. -/
theorem exists_projection_array (hclass : (h.record id).objectClass = .array)
    (hcallable : (h.record id).callable = none) (member : String → Value)
    (hmember : ∀ i, i < (h.record id).arrayLength →
      h.Projects k keys (h.get id (indexKey i)) (member (indexKey i))) :
    ∃ k' v', k.Grows k' ∧ h.Projects k' keys (.object id) v' := by
  let r := Record.arrayOf (h.get id "length") (h.record id).arrayLength fun i => member (indexKey i)
  have hget := Record.get_arrayOf (h.get id "length") (h.record id).arrayLength
    fun i => member (indexKey i)
  have hr : r.callable = none := Record.callable_arrayOf _ _ _
  have hgrows := k.grows_allocate hr
  have hrecord : (k.allocate r).1.record ⟨k.size⟩ = r := by rw [record_allocate, if_pos rfl]
  refine ⟨(k.allocate r).1, .object ⟨k.size⟩, hgrows, .array ?_ hclass hcallable ?_ ?_ ?_ ?_ ?_⟩
  · rw [size_allocate]
    exact Nat.lt_succ_self _
  · rw [hrecord]
    rfl
  · rwa [hrecord]
  · have habsent : (k.allocate r).1.get ⟨k.size⟩ "toJSON" = .undefined := by
      rw [Heap.get, hrecord]
      exact hget.2.2
    rw [habsent]
    exact ⟨rfl, rfl⟩
  · rw [Heap.get, hrecord]
    exact hget.1
  · intro i hi
    have helement : (k.allocate r).1.get ⟨k.size⟩ (indexKey i) = member (indexKey i) := by
      rw [Heap.get, hrecord]
      exact hget.2.1 i hi
    rw [helement]
    exact (hmember i hi).mono (.refl h) hgrows

/-- From projections of the chosen members a projection of the object is made. -/
theorem exists_projection_object (hnodup : keys.Nodup) (hid : id.index < h.size)
    (hclass : (h.record id).objectClass ≠ .array) (hopen : ¬ h.Closed id) {member : String → Value}
    (hmember : ∀ key ∈ keys, h.Projects k keys (h.get id key) (member key)) :
    ∃ k' v', k.Grows k' ∧ h.Projects k' keys (.object id) v' := by
  let es := (keys.filter (h.record id).has).map fun key => (key, member key)
  have hkeys : es.map Prod.fst = keys.filter (h.record id).has := by
    rw [List.map_map]
    exact List.map_id _
  have hlists : (Record.ofEntries es).Lists es := by
    refine Record.lists_ofEntries ?_
    rw [hkeys]
    exact hnodup.filter _
  have hgrows := k.grows_allocate hlists.plain.callable
  have hrecord : (k.allocate (.ofEntries es)).1.record ⟨k.size⟩ = .ofEntries es := by
    rw [record_allocate, if_pos rfl]
  refine ⟨(k.allocate (.ofEntries es)).1, .object ⟨k.size⟩, hgrows,
    .object hid ?_ hclass hopen ?_ ?_ ?_⟩
  · rw [size_allocate]
    exact Nat.lt_succ_self _
  · rw [hrecord]
    exact hlists.plain
  · rw [hrecord, hlists.keys, hkeys]
  · intro key hkey
    rw [hrecord, hlists.keys, hkeys] at hkey
    have hget : (k.allocate (.ofEntries es)).1.get ⟨k.size⟩ key = member key := by
      rw [Heap.get, hrecord]
      exact Record.get_of_getOwn? (hlists.own (key, member key) (List.mem_map_of_mem hkey))
    rw [hget]
    exact (hmember key (List.mem_filter.mp hkey).1).mono (.refl h) hgrows

/-- What can be written with a list of keys has a projection in a larger heap. -/
theorem exists_projection [Platform] (hnodup : keys.Nodup) {gap indent : String} {fuel : Nat}
    {path : List ObjectId} {v : Value} {text : Option String} (hk : h.Grows k)
    (hpresent : ∀ id, h.Reaches (some keys) v id → id.index < h.size)
    (ht : Json.write h ⟨none, some keys, gap⟩ fuel indent path v = .ok text) :
    ∃ k' v', k.Grows k' ∧ h.Projects k' keys v v' := by
  induction fuel generalizing k indent path v text with
  | zero => cases ht
  | succ fuel ih =>
    by_cases hkept : ∀ id, v = .object id → h.Closed id
    · exact ⟨k, v, .refl k, .kept fun id hid =>
        ⟨hkept id hid, hk.record id (hkept id hid).present⟩⟩
    obtain ⟨id, rfl, hopen⟩ : ∃ id, v = .object id ∧ ¬ h.Closed id := by simpa using hkept
    have hcallable : (h.record id).callable = none := by simpa using fun hc => hopen (.inl hc)
    have hwrapper : (h.record id).objectClass.isWrapper = false := by
      simpa using fun hw => hopen (.inr hw)
    obtain ⟨-, ht⟩ := Json.writeObject_of_write hcallable hwrapper ht
    have hmembers : ∀ key ∈ (h.record id).written (some keys), ∀ k, h.Grows k →
        ∃ k' v', k.Grows k' ∧ h.Projects k' keys (h.get id key) v' := by
      intro key hkey k hk
      obtain ⟨t, ht⟩ := Json.ok_of_writeObject_ok ht key hkey
      refine ih hk ?_ ht
      rintro inner ⟨root, hroot, hreach⟩
      rw [← writtenKeys_of_open hcallable hwrapper] at hkey
      exact hpresent inner ⟨id, rfl, .head ⟨key, hkey, hroot⟩ hreach⟩
    obtain ⟨k', member, hk', hmember⟩ := exists_projections hmembers hk
    have hid : id.index < h.size := hpresent id ⟨id, rfl, .refl⟩
    obtain ⟨k'', v', hk'', hv'⟩ : ∃ k'' v', k'.Grows k'' ∧ h.Projects k'' keys (.object id) v' := by
      unfold Record.written at hmember
      by_cases hclass : (h.record id).objectClass = .array
      · rw [if_pos hclass] at hmember
        refine exists_projection_array hclass hcallable member fun i hi => ?_
        exact hmember _ (List.mem_map_of_mem (List.mem_range.mpr hi))
      · rw [if_neg hclass] at hmember
        exact exists_projection_object hnodup hid hclass hopen hmember
    exact ⟨k'', v', hk'.trans hk'', hv'⟩

theorem nodup_listed (h : Heap) (list : ObjectId) : (h.listed list).Nodup := by
  unfold listed
  generalize (List.filterMap _ _ : List String) = names
  induction hn : names.length using Nat.strongRecOn generalizing names with
  | ind n ih =>
    cases names with
    | nil => exact List.nodup_nil
    | cons name names =>
      rw [List.eraseDups_cons, List.nodup_cons]
      refine ⟨fun hmem => ?_, ih _ ?_ _ rfl⟩
      · simp at hmem
      · rw [← hn, List.length_cons]
        exact Nat.lt_succ_of_le (List.length_filter_le _ _)

theorem exists_projection_of_legible (hp : h.WrapsPrimitives) (hnodup : keys.Nodup) {v : Value}
    (hv : v.isUnknown = false) (hl : ∀ id, h.Reaches (some keys) v id → h.Legible (some keys) id)
    (hcycle : ¬ h.Cyclic (some keys) v) : ∃ k v', h.Grows k ∧ h.Projects k keys v v' := by
  cases ht : Json.write h ⟨none, some keys, ""⟩ (h.size + 1) "" [] v with
  | ok text => exact exists_projection hnodup (.refl h) (fun id hid => (hl id hid).present) ht
  | error e =>
    obtain ⟨-, htrapped⟩ := Json.trapped_of_write_error hp hv hl .nil (List.forall_mem_nil _)
      (by rw [List.length_nil]; omega) ht
    exact absurd (cyclic_iff.mpr htrapped) hcycle

end Heap

/-! ### The function of scripts -/

namespace Json

variable {h h' : Heap}

theorem gap?_grows (hk : h.Grows h') {space : Value}
    (hspace : ∀ id, space = .object id → id.index < h.size) : gap? h' space = gap? h space := by
  have hvalue : gapValue h' space = gapValue h space := by
    cases space with
    | object id =>
      have hsame := hk.record id (hspace id rfl)
      have hprimitive (hw : (h.record id).objectClass.isWrapper = true) :
          h'.toPrimitive (.object id) = h.toPrimitive (.object id) := by
        rw [Heap.toPrimitive, Heap.toPrimitive, Heap.primitiveOf?_wrapper hw,
          Heap.primitiveOf?_wrapper (by rwa [hsame]), hsame]
      unfold gapValue
      dsimp only
      rw [hsame]
      cases hc : (h.record id).objectClass with
      | number | string => exact hprimitive (by rw [hc]; rfl)
      | _ => rfl
    | _ => rfl
  unfold gap?
  rw [hvalue]

theorem isCallable_list {list : ObjectId} (hcallable : (h.record list).callable = none) :
    h.isCallable (.object list) = false := by
  unfold Heap.isCallable Heap.callable?
  dsimp only
  rw [hcallable]
  rfl

theorem exists_perform_done {x : Writing (Option String)}
    (hx : x = .error .unknown ∨ ∃ text, x = .ok text) :
    ∃ w, ∀ s, perform textValue .unknown x s = (.done w, s) := by
  obtain rfl | ⟨text, rfl⟩ := hx
  · exact ⟨_, fun _ => rfl⟩
  · exact ⟨_, fun _ => rfl⟩

/-- The texts of a value and of its projection are the same, unless the gap is unknown. -/
theorem rootText_projects [Platform] {v v' space : Value} {list : ObjectId} (hp : h.WrapsPrimitives)
    (hclass : (h.record list).objectClass = .array) (hcallable : (h.record list).callable = none)
    (hlist : h.ListsKnown (.object list)) (hv : v.isUnknown = false)
    (hl : ∀ id, h.Reaches (some (h.listed list)) v id → h.Legible (some (h.listed list)) id)
    (hcycle : ¬ h.Cyclic (some (h.listed list)) v)
    (hspace : ∀ id, space = .object id → id.index < h.size) (hk : h.Grows h')
    (hproj : h.Projects h' (h.listed list) v v') :
    ∃ x, (x = .error .unknown ∨ ∃ text, x = .ok text) ∧ rootText h v (.object list) space = x ∧
      rootText h' v' .null space = x := by
  have hlisted := onlyKeys?_list hp hclass hlist
  have hfunction := isCallable_list hcallable
  have hgap := gap?_grows hk hspace
  have hstyle : style? h (.object list) space =
      (gap? h space).map fun gap => ⟨none, some (h.listed list), gap⟩ := by
    unfold style?
    rw [hfunction, hlisted]
    cases gap? h space <;> rfl
  have hstyle' : style? h' .null space = (gap? h space).map fun gap => ⟨none, none, gap⟩ := by
    unfold style?
    rw [hgap]
    cases gap? h space <;> rfl
  unfold rootText
  rw [hstyle, hstyle']
  cases gap? h space with
  | none => exact ⟨_, .inl rfl, rfl, rfl⟩
  | some gap =>
    let style : Style := ⟨none, some (h.listed list), gap⟩
    have hl' : ∀ id, h.Reaches style.keys v id → h.Legible style.keys id := hl
    obtain ⟨-, hcyclic⟩ | ⟨text, htext, -⟩ := write_root_cases hp hv hl'
    · exact absurd hcyclic hcycle
    refine ⟨.ok text, .inr ⟨text, rfl⟩, htext, ?_⟩
    have hcall (w : Value) : (h'.allocate (.ofEntries [("", v')])).1.isCallable w =
        (h.allocate (.ofEntries [("", v)])).1.isCallable w := by
      rw [Heap.isCallable_allocate h' (r := .ofEntries [("", v')]) rfl,
        Heap.isCallable_allocate h (r := .ofEntries [("", v)]) rfl, hk.isCallable]
    have hproj' := hproj.mono (h.grows_allocate (r := .ofEntries [("", v)]) rfl)
      (h'.grows_allocate (r := .ofEntries [("", v')]) rfl)
    refine write_projects (hp.allocate rfl) hcall hproj' (fun id' hid' => ?_)
      (Nat.add_le_add_right hk.size _) htext
    subst hid'
    exact not_trapped_of_acc hproj'.acc

end Json

theorem run_guarded_unknown {receiver : Value} {args : List Value} {body : Eval Value} {s : Session}
    (h : (receiver.isUnknown || args.any Value.isUnknown) = true) :
    guarded receiver args body s = (.done .unknown, s) := by
  unfold guarded
  rw [if_pos h]
  rfl

/-- A list of keys is a projection. Let a value without cycles be given of which nothing is unknown that has
to be written, without hooks and without arrays too long to be walked, and an array that lists keys. Then
there is a value in which every object that is written by its members is replaced by an object of the
listed keys that it owns; and `JSON.stringify` gives for the value and the list what it gives for any such
value without the list, with whatever gap. -/
theorem stringify_projects [Platform] (host : Host) (inner call : Invoke) (receiver : Value)
    (options : CallOptions) {s : Session} {v space : Value} {list : ObjectId}
    (hp : s.heap.WrapsPrimitives) (hclass : (s.heap.record list).objectClass = .array)
    (hcallable : (s.heap.record list).callable = none) (hlist : s.heap.ListsKnown (.object list))
    (hv : v.isUnknown = false)
    (hl : ∀ id, s.heap.Reaches (some (s.heap.listed list)) v id →
      s.heap.Legible (some (s.heap.listed list)) id)
    (hcycle : ¬ s.heap.Cyclic (some (s.heap.listed list)) v)
    (hspace : ∀ id, space = .object id → id.index < s.heap.size) :
    (∃ h' v', s.heap.Grows h' ∧ s.heap.Projects h' (s.heap.listed list) v v') ∧
      ∀ (s' : Session) (v' : Value), s.heap.Grows s'.heap →
        s.heap.Projects s'.heap (s.heap.listed list) v v' →
        ∃ w t t',
          Callable.run host inner call receiver [v, .object list, space] options
              (.builtin .jsonStringify) s = (.done w, t) ∧
            Callable.run host inner call receiver [v', .null, space] options
              (.builtin .jsonStringify) s' = (.done w, t') := by
  refine ⟨Heap.exists_projection_of_legible hp (Heap.nodup_listed _ _) hv hl hcycle, ?_⟩
  intro s' v' hk hproj
  obtain ⟨x, hx, htext, htext'⟩ :=
    Json.rootText_projects hp hclass hcallable hlist hv hl hcycle hspace hk hproj
  have hne : x ≠ .error .hooked := by
    obtain rfl | ⟨text, rfl⟩ := hx <;> exact nofun
  obtain ⟨w, hw⟩ := Json.exists_perform_done hx
  have hfunction := Json.isCallable_list hcallable
  have hrun := Json.run_stringify (s := s) call v space hfunction (htext ▸ hne)
  have hrun' := Json.run_stringify (s := s') call v' space
    (rfl : s'.heap.isCallable .null = false) (htext' ▸ hne)
  rw [htext, hw] at hrun
  rw [htext', hw] at hrun'
  have hany : [v, .object list, space].any Value.isUnknown = space.isUnknown := by
    rw [List.any_cons, hv]
    exact Bool.or_false _
  have hany' : [v', .null, space].any Value.isUnknown = space.isUnknown := by
    rw [List.any_cons, hproj.isUnknown, hv]
    exact Bool.or_false _
  cases hblind : receiver.isUnknown || space.isUnknown with
  | true =>
    refine ⟨.unknown, s, s', ?_, ?_⟩
    · exact run_guarded_unknown (by rw [hany, hblind])
    · exact run_guarded_unknown (by rw [hany', hblind])
  | false =>
    rw [Bool.or_eq_false_iff] at hblind
    exact ⟨w, _, _, run_guarded hblind.1 (hany.trans hblind.2) hrun,
      run_guarded hblind.1 (hany'.trans hblind.2) hrun'⟩

def Heap.circling : Heap :=
  ⟨#[.ofEntries [("z", .null), ("a", .object ⟨1⟩), ("b", .string "x")],
    .ofEntries [("back", .object ⟨0⟩), ("a", .boolean true)],
    .ofList [.string "b", .string "a", .null, .string "b"]]⟩

def Heap.unrolled : Heap :=
  ⟨circling.records ++ #[.ofEntries [("b", .string "x"), ("a", .object ⟨4⟩)],
    .ofEntries [("a", .boolean true)]]⟩

section Circling

open Heap

variable {x y : ObjectId}

theorem listed_circling : circling.listed ⟨2⟩ = ["b", "a"] := by decide +kernel

theorem wrapsPrimitives_circling : circling.WrapsPrimitives := by
  intro id hw
  obtain ⟨_ | _ | _ | n⟩ := id
  iterate 2 cases hw
  · exact absurd hw (by decide +kernel)
  · cases hw

theorem listsKnown_circling : circling.ListsKnown (.object ⟨2⟩) := by
  have hlength : (circling.get ⟨2⟩ "length").isUnknown = false ∧
      (circling.record ⟨2⟩).arrayLength = 4 := by decide +kernel
  have hentries : ∀ i < 4, (circling.get ⟨2⟩ (indexKey i)).isUnknown = false ∧
      (circling.get ⟨2⟩ (indexKey i)).isObject = false := by decide +kernel
  rintro id ⟨⟩ -
  refine ⟨hlength.1, fun i _ hi => ?_⟩
  obtain ⟨hknown, hobject⟩ := hentries i (hlength.2 ▸ hi)
  refine ⟨hknown, fun entry hentry => ?_⟩
  rw [hentry] at hobject
  cases hobject

theorem encloses_circling (h : circling.Encloses (some ["b", "a"]) x y) (hx : x = ⟨0⟩ ∨ x = ⟨1⟩) :
    x = ⟨0⟩ ∧ y = ⟨1⟩ := by
  obtain ⟨key, hkey, hget⟩ := h
  obtain rfl | rfl := hx
  · have hkeys : circling.writtenKeys (some ["b", "a"]) ⟨0⟩ = ["b", "a"] := rfl
    rw [hkeys] at hkey
    obtain rfl | rfl : key = "b" ∨ key = "a" := by simpa using hkey
    · cases hget
    · cases hget
      exact ⟨rfl, rfl⟩
  · have hkeys : circling.writtenKeys (some ["b", "a"]) ⟨1⟩ = ["b", "a"] := rfl
    rw [hkeys] at hkey
    obtain rfl | rfl : key = "b" ∨ key = "a" := by simpa using hkey
    · cases hget
    · cases hget

theorem reaches_circling (h : circling.Reaches (some ["b", "a"]) (.object ⟨0⟩) x) :
    x = ⟨0⟩ ∨ x = ⟨1⟩ := by
  obtain ⟨root, hroot, hreach⟩ := h
  cases hroot
  induction hreach with
  | refl => exact .inl rfl
  | tail _ hstep ih => exact .inr (encloses_circling hstep ih).2

theorem legible_circling (h : circling.Reaches (some ["b", "a"]) (.object ⟨0⟩) x) :
    circling.Legible (some ["b", "a"]) x := by
  obtain rfl | rfl := reaches_circling h <;>
    exact ⟨Nat.le_of_ble_eq_true rfl, ⟨rfl, rfl⟩, nofun, nofun,
      List.forall_mem_cons.mpr ⟨rfl, List.forall_mem_singleton.mpr rfl⟩⟩

theorem not_cyclic_circling : ¬ circling.Cyclic (some ["b", "a"]) (.object ⟨0⟩) := by
  rintro ⟨id, hreach, hcycle⟩
  obtain ⟨y, hstep, hback⟩ := TransGen.head'_iff.mp hcycle
  obtain ⟨rfl, rfl⟩ := encloses_circling hstep (reaches_circling hreach)
  obtain h | ⟨z, hz, -⟩ := hback.cases_head
  · cases h
  · cases (encloses_circling hz (.inr rfl)).1

theorem projects_unrolled :
    circling.Projects unrolled ["b", "a"] (.object ⟨0⟩) (.object ⟨3⟩) := by
  have houter : (unrolled.record ⟨3⟩).Lists [("b", .string "x"), ("a", .object ⟨4⟩)] :=
    Record.lists_ofEntries (by simp)
  have hinner : (unrolled.record ⟨4⟩).Lists [("a", .boolean true)] :=
    Record.lists_ofEntries (List.nodup_singleton _)
  refine .object (Nat.le_of_ble_eq_true rfl) (Nat.le_of_ble_eq_true rfl) nofun ?_ houter.plain rfl ?_
  · rintro (h | h) <;> cases h
  rw [houter.keys]
  refine List.forall_mem_cons.mpr ⟨.kept nofun, List.forall_mem_singleton.mpr ?_⟩
  refine .object (Nat.le_of_ble_eq_true rfl) (Nat.le_of_ble_eq_true rfl) nofun ?_ hinner.plain rfl ?_
  · rintro (h | h) <;> cases h
  rw [hinner.keys]
  exact List.forall_mem_singleton.mpr (.kept nofun)

theorem grows_unrolled : circling.Grows unrolled where
  size := Nat.le_of_ble_eq_true rfl
  record := by
    rintro ⟨_ | _ | _ | n⟩ hn
    iterate 3 rfl
    exact absurd hn (Nat.not_lt.mpr (Nat.le_add_left 3 n))
  callable := by
    rintro ⟨_ | _ | _ | _ | _ | n⟩ hn
    iterate 3 exact absurd hn (Nat.not_le.mpr (Nat.le_of_ble_eq_true rfl))
    iterate 3 rfl

end Circling

def Heap.writeUnder (h : Heap) (list : Value) (id : ObjectId) : Outcome Value × Session :=
  Callable.run .standard (fun _ _ _ _ => exhausted) (fun _ _ _ _ => exhausted) .undefined
    [.object id, list, .string "-"] {} (.builtin .jsonStringify) (.ofHeap h)

/-- A cycle through a key that is not listed does not count. -/
theorem stringify_projects_circling :
    (Heap.circling.writeUnder (.object ⟨2⟩) ⟨0⟩).1.text? =
        some "\x7b\n-\"b\": \"x\",\n-\"a\": \x7b\n--\"a\": true\n-\x7d\n\x7d" ∧
      (Heap.unrolled.writeUnder .null ⟨3⟩).1.text? =
        some "\x7b\n-\"b\": \"x\",\n-\"a\": \x7b\n--\"a\": true\n-\x7d\n\x7d" := by
  have hspace (id : ObjectId) (h : Value.string "-" = .object id) :
      id.index < (Session.ofHeap .circling).heap.size := by cases h
  have hsame := (stringify_projects (s := .ofHeap .circling) .standard (fun _ _ _ _ => exhausted)
    (fun _ _ _ _ => exhausted) .undefined {} wrapsPrimitives_circling (by decide +kernel)
    (by decide +kernel) listsKnown_circling rfl (listed_circling.symm ▸ fun _ => legible_circling)
    (listed_circling.symm ▸ not_cyclic_circling) hspace).2 (.ofHeap .unrolled) (.object ⟨3⟩)
    grows_unrolled (listed_circling.symm ▸ projects_unrolled)
  obtain ⟨w, t, t', hlisted, hplain⟩ := hsame
  have htext : (Heap.unrolled.writeUnder .null ⟨3⟩).1.text? =
      some "\x7b\n-\"b\": \"x\",\n-\"a\": \x7b\n--\"a\": true\n-\x7d\n\x7d" := by
    decide +kernel
  refine ⟨?_, htext⟩
  rw [Heap.writeUnder, hplain] at htext
  rw [Heap.writeUnder, hlisted]
  exact htext

end Surmise
