import Mathlib.Logic.Relation
import Surmise.Proofs.ArrayIndex
import Surmise.Proofs.Json.Unhooked
import Surmise.Proofs.Termination.Conversion

/-! Cycles are found exactly. An object is written inside another if it is one of the values that are
written of it; writing goes along these steps and remembers the path it is on. It comes back to the path
just where a cycle can be reached, however often objects are shared. -/
namespace Surmise

open Relation Eval

/-! ### Paths that come back -/

section Paths

variable {α : Type} {step : α → α → Prop} {path : List α} {a b : α}

/-- Steps from `a` lead back to the path, or into a cycle of their own. -/
def Trapped (step : α → α → Prop) (path : List α) (a : α) : Prop :=
  ∃ b, ReflTransGen step a b ∧ (b ∈ path ∨ TransGen step b b)

theorem trapped_nil : Trapped step [] a ↔ ∃ b, ReflTransGen step a b ∧ TransGen step b b := by
  simp [Trapped]

theorem trapped_of_mem (h : a ∈ path) : Trapped step path a := ⟨a, .refl, .inl h⟩

/-- Whoever is not on the path is trapped by one of the next steps, from which the path is longer. -/
theorem trapped_iff (h : a ∉ path) :
    Trapped step path a ↔ ∃ b, step a b ∧ Trapped step (a :: path) b := by
  constructor
  · rintro ⟨c, hc, hend⟩
    rcases ReflTransGen.cases_head hc with rfl | ⟨b, hab, hbc⟩
    · obtain ⟨b, hab, hba⟩ := TransGen.head'_iff.mp (hend.resolve_left h)
      exact ⟨b, hab, a, hba, .inl (.head _)⟩
    · exact ⟨b, hab, c, hbc, hend.imp_left (.tail _)⟩
  · rintro ⟨b, hab, c, hbc, hend⟩
    rcases hend with hmem | hcycle
    · rcases List.mem_cons.mp hmem with rfl | hmem
      · exact ⟨c, .refl, .inr (.head' hab hbc)⟩
      · exact ⟨c, .head hab hbc, .inl hmem⟩
    · exact ⟨c, .head hab hbc, .inr hcycle⟩

theorem not_trapped (h : a ∉ path) (hstep : ∀ b, ¬ step a b) : ¬ Trapped step path a := by
  rw [trapped_iff h]
  exact fun ⟨b, hab, _⟩ => hstep b hab

theorem not_trapped_of_acc (h : Acc (fun b a => step a b) a) : ¬ Trapped step [] a := by
  induction h with
  | intro a _ ih =>
    rw [trapped_nil]
    rintro ⟨b, hab, hcycle⟩
    obtain ⟨c, hac, hc⟩ : ∃ c, step a c ∧ Trapped step [] c := by
      obtain rfl | ⟨c, hac, hcb⟩ := ReflTransGen.cases_head hab
      · obtain ⟨c, hac, hca⟩ := TransGen.head'_iff.mp hcycle
        exact ⟨c, hac, trapped_nil.mpr ⟨a, hca, hcycle⟩⟩
      · exact ⟨c, hac, trapped_nil.mpr ⟨b, hcb, hcycle⟩⟩
    exact ih c hac hc

variable {step' : α → α → Prop}

section

variable (h : ∀ x y, ReflTransGen step a x → step x y → step' x y)
include h

theorem reflTransGen_of_agree (hab : ReflTransGen step a b) : ReflTransGen step' a b := by
  induction hab with
  | refl => exact .refl
  | tail hax hxy ih => exact ih.tail (h _ _ hax hxy)

theorem transGen_of_agree (hab : TransGen step a b) : TransGen step' a b := by
  induction hab with
  | single hab => exact .single (h _ _ .refl hab)
  | tail hax hxy ih => exact ih.tail (h _ _ hax.to_reflTransGen hxy)

theorem Trapped.of_agree (ht : Trapped step path a) : Trapped step' path a := by
  obtain ⟨b, hab, hend⟩ := ht
  refine ⟨b, reflTransGen_of_agree h hab, hend.imp_right fun hbb => ?_⟩
  exact transGen_of_agree (fun x y hbx => h x y (hab.trans hbx)) hbb

end

end Paths

/-! ### Objects inside objects -/

theorem Record.extent_of_known {r : Record} (h : (r.get "length").isUnknown = false) :
    r.extent =
      if maxWalkedLength < r.arrayLength then .tooLong r.arrayLength else .walkable r.arrayLength := by
  unfold extent
  split
  next hu =>
    rw [hu] at h
    cases h
  next => rfl

namespace Heap

def writtenKeys (h : Heap) (keys : Option (List String)) (id : ObjectId) : List String :=
  if (h.record id).callable.isSome || (h.record id).objectClass.isWrapper then []
  else (h.record id).written keys

/-- The second object is written inside the first. -/
def Encloses (h : Heap) (keys : Option (List String)) (outer inner : ObjectId) : Prop :=
  ∃ key ∈ h.writtenKeys keys outer, h.get outer key = .object inner

def Reaches (h : Heap) (keys : Option (List String)) (v : Value) (id : ObjectId) : Prop :=
  ∃ root, v = .object root ∧ ReflTransGen (h.Encloses keys) root id

/-- An object that is written when the value is lies inside itself. -/
def Cyclic (h : Heap) (keys : Option (List String)) (v : Value) : Prop :=
  ∃ id, h.Reaches keys v id ∧ TransGen (h.Encloses keys) id id

/-- The object is in the heap, nothing about it is unknown that has to be known to write it, no hook takes
part, and it is not too long to be walked. -/
structure Legible (h : Heap) (keys : Option (List String)) (id : ObjectId) : Prop where
  present : id.index < h.size
  hook : (h.get id "toJSON").isUnknown = false ∧ h.isCallable (h.get id "toJSON") = false
  wrapped : (h.record id).objectClass.isWrapper = true → (h.record id).primitive ≠ some .unknown
  length : (h.record id).objectClass = .array → (h.record id).callable = none →
    (h.get id "length").isUnknown = false ∧ (h.record id).arrayLength ≤ maxWalkedLength
  members : ∀ key ∈ h.writtenKeys keys id, (h.get id key).isUnknown = false

def WrapsPrimitives (h : Heap) : Prop :=
  ∀ id, (h.record id).objectClass.isWrapper = true →
    ∀ inner, (h.record id).primitive ≠ some (.object inner)

variable {h : Heap} {keys : Option (List String)} {id : ObjectId}

theorem cyclic_iff {v : Value} :
    h.Cyclic keys v ↔ ∃ root, v = .object root ∧ Trapped (h.Encloses keys) [] root := by
  simp only [trapped_nil]
  constructor
  · rintro ⟨id, ⟨root, rfl, hreach⟩, hcycle⟩
    exact ⟨root, rfl, id, hreach, hcycle⟩
  · rintro ⟨root, rfl, id, hreach, hcycle⟩
    exact ⟨id, ⟨root, rfl, hreach⟩, hcycle⟩

theorem writtenKeys_of_closed
    (hc : (h.record id).callable.isSome = true ∨ (h.record id).objectClass.isWrapper = true) :
    h.writtenKeys keys id = [] :=
  if_pos (by simpa using hc)

theorem writtenKeys_of_open (hc : (h.record id).callable = none)
    (hw : (h.record id).objectClass.isWrapper = false) :
    h.writtenKeys keys id = (h.record id).written keys :=
  if_neg (by simp [hc, hw])

theorem writtenKeys_array (hclass : (h.record id).objectClass = .array)
    (hcallable : (h.record id).callable = none) :
    h.writtenKeys keys id = (List.range (h.record id).arrayLength).map indexKey := by
  rw [writtenKeys_of_open hcallable (by rw [hclass]; rfl)]
  exact if_pos hclass

theorem writtenKeys_plain (hplain : (h.record id).Plain) :
    h.writtenKeys none id = (h.record id).keys := by
  have hclass : (h.record id).objectClass = .object := hplain.objectClass
  rw [writtenKeys_of_open hplain.callable (by rw [hclass]; rfl), Record.written, hclass]
  exact hplain.enumerableKeys_eq

theorem extent_of_length (hl : (h.get id "length").isUnknown = false)
    (hn : (h.record id).arrayLength ≤ maxWalkedLength) :
    (h.record id).extent = .walkable (h.record id).arrayLength := by
  rw [Record.extent_of_known hl]
  exact if_neg (Nat.not_lt.mpr hn)

/-! ### Wrappers -/

theorem primitiveOf?_wrapper (hw : (h.record id).objectClass.isWrapper = true) :
    h.primitiveOf? h.conversionDepth [] id = some ((h.record id).primitive.getD .undefined) := by
  obtain ⟨n, hn⟩ : ∃ n, h.conversionDepth = n + 1 :=
    ⟨(h.size + 1) * (h.size + 1) + h.size, by unfold conversionDepth; rw [Nat.mul_succ]; rfl⟩
  rw [hn, primitiveOf?]
  cases hc : (h.record id).objectClass with
  | boolean | number | string => rfl
  | _ =>
    rw [hc] at hw
    cases hw

theorem wrapped_cases (hp : h.WrapsPrimitives) (hw : (h.record id).objectClass.isWrapper = true)
    (hu : (h.record id).primitive ≠ some .unknown) :
    ((h.record id).primitive.getD .undefined).isObject = false ∧
      ((h.record id).primitive.getD .undefined).isUnknown = false := by
  have hobject := hp id hw
  cases hprimitive : (h.record id).primitive with
  | none => exact ⟨rfl, rfl⟩
  | some v =>
    rw [hprimitive] at hobject hu
    cases v with
    | object inner => exact absurd rfl (hobject inner)
    | unknown => exact absurd rfl hu
    | _ => exact ⟨rfl, rfl⟩

theorem settled_wrapper_of_not_object (hw : (h.record id).objectClass.isWrapper = true)
    (ho : ((h.record id).primitive.getD .undefined).isObject = false) :
    h.settled (.object id) = (h.record id).primitive.getD .undefined := by
  unfold settled
  rw [Value.settle, primitiveOf?_wrapper hw]
  dsimp only
  rw [Value.settle_of_not_object ho]
  rfl

theorem settled_wrapper (hp : h.WrapsPrimitives)
    (hw : (h.record id).objectClass.isWrapper = true)
    (hu : (h.record id).primitive ≠ some .unknown) :
    h.settled (.object id) = (h.record id).primitive.getD .undefined :=
  settled_wrapper_of_not_object hw (wrapped_cases hp hw hu).1

end Heap

namespace Json

variable {h : Heap} {style : Style} {id : ObjectId} {v : Value}

theorem unwrapped_of_not_wrapper (hw : (h.record id).objectClass.isWrapper = false) :
    unwrapped h (.object id) = .object id := by
  unfold unwrapped
  dsimp only
  cases hc : (h.record id).objectClass with
  | boolean | number | string =>
    rw [hc] at hw
    cases hw
  | _ => rfl

/-- What a wrapper is unwrapped to is no object, so nothing is written below it. -/
theorem unwrapped_wrapper (hp : h.WrapsPrimitives)
    (hw : (h.record id).objectClass.isWrapper = true)
    (hu : (h.record id).primitive ≠ some .unknown) :
    (unwrapped h (.object id)).isObject = false ∧ (unwrapped h (.object id)).isUnknown = false := by
  have hsettled := Heap.settled_wrapper hp hw hu
  have hprimitive := Heap.primitiveOf?_wrapper hw
  have hcases := Heap.wrapped_cases hp hw hu
  generalize (h.record id).primitive.getD .undefined = p at hsettled hprimitive hcases
  unfold unwrapped
  dsimp only
  cases hc : (h.record id).objectClass with
  | number =>
    dsimp only
    rw [Heap.toNumber?, hsettled]
    cases p with
    | object _ => cases hcases.1
    | unknown => cases hcases.2
    | _ => exact ⟨rfl, rfl⟩
  | string =>
    dsimp only
    rw [Heap.toText?, hsettled]
    cases p with
    | object _ => cases hcases.1
    | unknown => cases hcases.2
    | boolean b => cases b <;> exact ⟨rfl, rfl⟩
    | undefined | null | number _ | string _ => exact ⟨rfl, rfl⟩
  | boolean =>
    dsimp only
    rw [Heap.toPrimitive, hprimitive]
    exact hcases
  | _ =>
    rw [hc] at hw
    cases hw

theorem unwrapped_cases (hp : h.WrapsPrimitives) (hv : v.isUnknown = false)
    (hu : ∀ id, v = .object id → (h.record id).objectClass.isWrapper = true →
      (h.record id).primitive ≠ some .unknown) :
    unwrapped h v ≠ .unknown ∧ ∀ id, unwrapped h v = .object id →
      v = .object id ∧ (h.record id).objectClass.isWrapper = false := by
  cases v with
  | object id =>
    cases hw : (h.record id).objectClass.isWrapper with
    | true =>
      obtain ⟨hplain, hknown⟩ := unwrapped_wrapper hp hw (hu id rfl hw)
      refine ⟨fun he => ?_, fun inner he => ?_⟩
      · rw [he] at hknown
        cases hknown
      · rw [he] at hplain
        cases hplain
    | false =>
      rw [unwrapped_of_not_wrapper hw]
      refine ⟨nofun, ?_⟩
      rintro _ ⟨⟩
      exact ⟨rfl, hw⟩
  | unknown => cases hv
  | _ => exact ⟨nofun, fun _ => nofun⟩

/-! ### Writing goes along the steps -/

variable {fuel : Nat} {indent : String} {path : List ObjectId}

def Opened (h : Heap) (path : List ObjectId) : Prop :=
  ∀ a ∈ path, (h.record a).callable = none ∧ (h.record a).objectClass.isWrapper = false

/-- An object that was written to the end leads neither back to the path nor into a cycle. -/
theorem not_trapped_of_write [Platform] {text : Option String} (hpath : Opened h path)
    (ht : write h style fuel indent path (.object id) = .ok text) :
    ¬ Trapped (h.Encloses style.keys) path id := by
  induction fuel generalizing indent path id text with
  | zero => cases ht
  | succ fuel ih =>
    have hclosed (hc : (h.record id).callable.isSome = true ∨
        (h.record id).objectClass.isWrapper = true) : ¬ Trapped (h.Encloses style.keys) path id := by
      refine not_trapped (fun hm => ?_) ?_
      · obtain ⟨hcallable, hwrapper⟩ := hpath id hm
        rw [hcallable, hwrapper] at hc
        simp at hc
      · rintro inner ⟨key, hkey, -⟩
        rw [Heap.writtenKeys_of_closed hc] at hkey
        cases hkey
    cases hw : (h.record id).objectClass.isWrapper with
    | true => exact hclosed (.inr hw)
    | false =>
      obtain ⟨_, -, ht⟩ := bind_eq_ok.mp ht
      rw [unwrapped_of_not_wrapper hw, writeUnwrapped] at ht
      split at ht
      next hc => exact hclosed (.inl hc)
      next hc =>
        have hcallable : (h.record id).callable = none := by simpa using hc
        split at ht
        · cases ht
        next hp =>
          have hnew : id ∉ path := fun hm => hp (List.contains_iff_mem.mpr hm)
          rw [trapped_iff hnew]
          rintro ⟨inner, ⟨key, hkey, hget⟩, htrapped⟩
          rw [Heap.writtenKeys_of_open hcallable hw] at hkey
          obtain ⟨text, htext⟩ := ok_of_writeObject_ok ht key hkey
          rw [show (h.record id).get key = .object inner from hget] at htext
          have hpath' : Opened h (id :: path) := List.forall_mem_cons.mpr ⟨⟨hcallable, hw⟩, hpath⟩
          exact ih hpath' htext htrapped

/-- Writing a legible value fails only as circular, at an object that is trapped. -/
theorem trapped_of_write_error [Platform] (hp : h.WrapsPrimitives) {e : Halt} (hv : v.isUnknown = false)
    (hl : ∀ id, h.Reaches style.keys v id → h.Legible style.keys id) (hpath : path.Nodup)
    (hin : ∀ a ∈ path, a.index < h.size) (hfuel : h.size < fuel + path.length)
    (he : write h style fuel indent path v = .error e) :
    e = circular ∧ ∃ id, v = .object id ∧ Trapped (h.Encloses style.keys) path id := by
  induction fuel generalizing indent path v with
  | zero =>
    have := h.length_le_of_nodup hpath hin
    omega
  | succ fuel ih =>
    have hwrapped (id : ObjectId) (hid : v = .object id) := (hl id ⟨id, hid, .refl⟩).wrapped
    obtain ⟨hknown, hplain⟩ := unwrapped_cases hp hv hwrapped
    obtain he | ⟨_, -, he⟩ := bind_eq_error.mp he
    · obtain ⟨id, rfl, ⟨hu, -⟩ | ⟨hc, -⟩⟩ := error_of_unhooked_error he
      · cases (hl id ⟨id, rfl, .refl⟩).hook.1.symm.trans hu
      · cases (hl id ⟨id, rfl, .refl⟩).hook.2.symm.trans hc
    obtain ⟨hu, -⟩ | ⟨id, hunwrapped, hcallable, hhalt⟩ := error_of_writeUnwrapped_error he
    · exact absurd hu hknown
    obtain ⟨rfl, hw⟩ := hplain id hunwrapped
    have hid : h.Legible style.keys id := hl id ⟨id, rfl, .refl⟩
    obtain ⟨hmem, rfl⟩ | ⟨hnew, he⟩ := hhalt
    · exact ⟨rfl, id, rfl, trapped_of_mem hmem⟩
    obtain ⟨hc, hextent, -⟩ | ⟨hc, n, hextent, -⟩ | ⟨key, hkey, he⟩ := error_of_writeObject_error he
    · obtain ⟨hlength, hn⟩ := hid.length hc hcallable
      cases hextent.symm.trans (Heap.extent_of_length hlength hn)
    · obtain ⟨hlength, hn⟩ := hid.length hc hcallable
      cases hextent.symm.trans (Heap.extent_of_length hlength hn)
    · rw [← Heap.writtenKeys_of_open hcallable hw] at hkey
      have hin' : ∀ a ∈ id :: path, a.index < h.size := List.forall_mem_cons.mpr ⟨hid.present, hin⟩
      have hfuel' : h.size < fuel + (id :: path).length := by
        rw [List.length_cons]
        omega
      have hl' : ∀ a, h.Reaches style.keys (h.get id key) a → h.Legible style.keys a := by
        rintro a ⟨root, hroot, hreach⟩
        exact hl a ⟨id, rfl, .head ⟨key, hkey, hroot⟩ hreach⟩
      obtain ⟨rfl, inner, hinner, htrapped⟩ := ih (hid.members key hkey) hl'
        (List.nodup_cons.mpr ⟨hnew, hpath⟩) hin' hfuel' he
      exact ⟨rfl, id, rfl, (trapped_iff hnew).mpr ⟨inner, ⟨key, hkey, hinner⟩, htrapped⟩⟩

end Json

/-! ### The holder of the root -/

namespace Heap

variable {h : Heap} {keys : Option (List String)} {r : Record} {v : Value} {id : ObjectId}

theorem record_allocate_of_present (r : Record) (hid : id.index < h.size) :
    (h.allocate r).1.record id = h.record id := by
  rw [record_allocate, if_neg (Nat.ne_of_lt hid)]

theorem writtenKeys_allocate (hid : id.index < h.size) :
    (h.allocate r).1.writtenKeys keys id = h.writtenKeys keys id := by
  unfold writtenKeys
  rw [record_allocate_of_present r hid]

theorem get_allocate (hid : id.index < h.size) (key : String) :
    (h.allocate r).1.get id key = h.get id key := by
  unfold get
  rw [record_allocate_of_present r hid]

theorem encloses_allocate {outer inner : ObjectId} (hid : outer.index < h.size) :
    (h.allocate r).1.Encloses keys outer inner ↔ h.Encloses keys outer inner := by
  unfold Encloses
  simp only [writtenKeys_allocate hid, get_allocate hid]

theorem WrapsPrimitives.allocate (hp : h.WrapsPrimitives) (hr : r.objectClass.isWrapper = false) :
    (h.allocate r).1.WrapsPrimitives := by
  intro id
  rw [record_allocate]
  split
  · intro hw
    cases hr.symm.trans hw
  · exact hp id

theorem Legible.allocate (hl : h.Legible keys id) (hr : r.callable = none) :
    (h.allocate r).1.Legible keys id where
  present := by
    rw [size_allocate]
    exact Nat.lt_succ_of_lt hl.present
  hook := by
    rw [get_allocate hl.present, isCallable_allocate h hr]
    exact hl.hook
  wrapped := by
    rw [record_allocate_of_present r hl.present]
    exact hl.wrapped
  length := by
    rw [record_allocate_of_present r hl.present, get_allocate hl.present]
    exact hl.length
  members key hkey := by
    rw [writtenKeys_allocate hl.present] at hkey
    rw [get_allocate hl.present]
    exact hl.members key hkey

variable (hl : ∀ id, h.Reaches keys v id → id.index < h.size)
include hl

theorem reaches_of_allocate (hreach : (h.allocate r).1.Reaches keys v id) : h.Reaches keys v id := by
  obtain ⟨root, rfl, hsteps⟩ := hreach
  refine ⟨root, rfl, ?_⟩
  induction hsteps with
  | refl => exact .refl
  | tail _ hstep ih => exact ih.tail ((encloses_allocate (hl _ ⟨root, rfl, ih⟩)).mp hstep)

theorem cyclic_allocate : (h.allocate r).1.Cyclic keys v ↔ h.Cyclic keys v := by
  rw [cyclic_iff, cyclic_iff]
  refine exists_congr fun root => and_congr_right fun hroot => ?_
  subst hroot
  constructor
  · refine Trapped.of_agree fun x y hx hstep => ?_
    exact (encloses_allocate (hl x (reaches_of_allocate hl ⟨root, rfl, hx⟩))).mp hstep
  · refine Trapped.of_agree fun x y hx hstep => ?_
    exact (encloses_allocate (hl x ⟨root, rfl, hx⟩)).mpr hstep

end Heap

/-! ### The optional arguments -/

namespace Heap

def entryKey? (h : Heap) : Value → Option String
  | .string s => some s
  | .number x => some (Number.text x)
  | .object id =>
    match (h.record id).objectClass with
    | .number | .string => ((h.record id).primitive.getD .undefined).primitiveText?
    | _ => none
  | _ => none

/-- The keys that an array lists: those of the entries that are there below its length, in the order of
their indexes, each where it occurs first. -/
def listed (h : Heap) (list : ObjectId) : List String :=
  (((List.range (h.record list).arrayLength).filter fun i =>
    (h.record list).has (indexKey i)).filterMap fun i =>
      h.entryKey? (h.get list (indexKey i))).eraseDups

end Heap

def Heap.ListsKnown (h : Heap) (list : Value) : Prop :=
  ∀ id, list = .object id → (h.record id).objectClass = .array →
    (h.get id "length").isUnknown = false ∧
      ∀ i ∈ (h.record id).indexes, i < (h.record id).arrayLength →
        (h.get id (indexKey i)).isUnknown = false ∧
          ∀ entry, h.get id (indexKey i) = .object entry →
            (h.record entry).objectClass.isWrapper = true →
              (h.record entry).primitive ≠ some .unknown

namespace Json

variable {h : Heap} {v : Value} {replacer space : Value}

def allowed (h : Heap) (replacer : Value) : Option (List String) := (onlyKeys? h replacer).join

section

variable (hp : h.WrapsPrimitives)
include hp

theorem listedKey?_eq (hv : v.isUnknown = false)
    (hu : ∀ id, v = .object id → (h.record id).objectClass.isWrapper = true →
      (h.record id).primitive ≠ some .unknown) : listedKey? h v = some (h.entryKey? v) := by
  cases v with
  | object id =>
    have htext (hw : (h.record id).objectClass.isWrapper = true) :
        (h.toText? (.object id)).map some =
          some ((h.record id).primitive.getD .undefined).primitiveText? := by
      have hcases := Heap.wrapped_cases hp hw (hu id rfl hw)
      rw [Heap.toText?, Heap.settled_wrapper hp hw (hu id rfl hw)]
      generalize (h.record id).primitive.getD .undefined = p at hcases ⊢
      cases p with
      | object _ => cases hcases.1
      | unknown => cases hcases.2
      | boolean b => cases b <;> rfl
      | undefined | null | number _ | string _ => rfl
    unfold listedKey? Heap.entryKey?
    dsimp only
    cases hc : (h.record id).objectClass with
    | number | string => exact htext (by rw [hc]; rfl)
    | _ => rfl
  | unknown => cases hv
  | _ => rfl

omit hp in
theorem mapM_eq_some {α β : Type} {f : α → Option β} {g : α → β} {as : List α}
    (h : ∀ a ∈ as, f a = some (g a)) : as.mapM f = some (as.map g) := by
  induction as with
  | nil => rfl
  | cons a as ih =>
    rw [List.mapM_cons, h a (.head _), ih fun a ha => h a (.tail _ ha)]
    rfl

theorem onlyKeys?_list {list : ObjectId}
    (hc : (h.record list).objectClass = .array) (hl : h.ListsKnown (.object list)) :
    onlyKeys? h (.object list) = some (some (h.listed list)) := by
  obtain ⟨hlength, hentries⟩ := hl list rfl hc
  have hkeys : (((h.record list).indexes.filter (· < (h.record list).arrayLength)).mapM fun i =>
      listedKey? h ((h.record list).get (indexKey i))).map
        (fun keys => (keys.filterMap id).eraseDups) = some (h.listed list) := by
    rw [mapM_eq_some (g := fun i => h.entryKey? (h.get list (indexKey i)))]
    · rw [Option.map_some, List.filterMap_map, Heap.listed,
        (h.record list).filter_indexes (h.record list).arrayLength_le]
      rfl
    · intro i hi
      rw [List.mem_filter, decide_eq_true_eq] at hi
      obtain ⟨hknown, hwrapped⟩ := hentries i hi.1 hi.2
      exact listedKey?_eq hp hknown hwrapped
  unfold onlyKeys? listedKeys?
  dsimp only
  rw [if_pos hc, Record.extent_of_known hlength]
  by_cases hn : maxWalkedLength < (h.record list).arrayLength
  · rw [if_pos hn]
    exact congrArg (Option.map some) hkeys
  · rw [if_neg hn]
    exact congrArg (Option.map some) hkeys

theorem isSome_onlyKeys? {list : Value} (hl : h.ListsKnown list) :
    (onlyKeys? h list).isSome = true := by
  cases list with
  | object id =>
    by_cases hc : (h.record id).objectClass = .array
    · rw [onlyKeys?_list hp hc hl]
      rfl
    · unfold onlyKeys?
      dsimp only
      rw [if_neg hc]
      rfl
  | _ => rfl

theorem exists_style (hc : h.isCallable replacer = false) (hl : h.ListsKnown replacer)
    (hs : space = .undefined ∨ (∃ x, space = .number x) ∨ ∃ text, space = .string text) :
    ∃ style, style? h replacer space = some style ∧ style.keys = allowed h replacer := by
  obtain ⟨keys, hkeys⟩ := Option.isSome_iff_exists.mp (isSome_onlyKeys? hp hl)
  obtain ⟨gap, hgap⟩ : ∃ gap, gap? h space = some gap := by
    obtain rfl | ⟨x, rfl⟩ | ⟨text, rfl⟩ := hs <;> exact ⟨_, rfl⟩
  refine ⟨⟨none, keys, gap⟩, ?_, ?_⟩
  · unfold style?
    rw [hc, hkeys, hgap]
    rfl
  · rw [allowed, hkeys]
    rfl

theorem write_root_cases [Platform] {style : Style} (hv : v.isUnknown = false)
    (hl : ∀ id, h.Reaches style.keys v id → h.Legible style.keys id) :
    (write (h.allocate (.ofEntries [("", v)])).1 style (h.size + hookBudget) "" [] v =
        .error circular ∧ h.Cyclic style.keys v) ∨
      ∃ text, write (h.allocate (.ofEntries [("", v)])).1 style (h.size + hookBudget) "" [] v =
        .ok text ∧ ¬ h.Cyclic style.keys v := by
  have hpresent (id : ObjectId) (hid : h.Reaches style.keys v id) := (hl id hid).present
  rw [← Heap.cyclic_allocate (r := .ofEntries [("", v)]) hpresent, Heap.cyclic_iff]
  cases ht : write (h.allocate (.ofEntries [("", v)])).1 style (h.size + hookBudget) "" [] v with
  | ok text =>
    refine .inr ⟨text, rfl, ?_⟩
    rintro ⟨root, rfl, htrapped⟩
    exact not_trapped_of_write (List.forall_mem_nil _) ht htrapped
  | error e =>
    have hl' : ∀ id, (h.allocate (.ofEntries [("", v)])).1.Reaches style.keys v id →
        (h.allocate (.ofEntries [("", v)])).1.Legible style.keys id :=
      fun id hid => (hl id (Heap.reaches_of_allocate hpresent hid)).allocate rfl
    have hfuel : (h.allocate (.ofEntries [("", v)])).1.size <
        h.size + hookBudget + ([] : List ObjectId).length := by
      rw [Heap.size_allocate, List.length_nil]
      unfold hookBudget
      omega
    obtain ⟨rfl, htrapped⟩ := trapped_of_write_error (hp.allocate rfl) hv hl' .nil (fun _ => nofun)
      hfuel ht
    exact .inl ⟨rfl, htrapped⟩

theorem rootText_cases [Platform] (hc : h.isCallable replacer = false) (hlist : h.ListsKnown replacer)
    (hspace : space = .undefined ∨ (∃ x, space = .number x) ∨ ∃ text, space = .string text)
    (hv : v.isUnknown = false)
    (hl : ∀ id, h.Reaches (allowed h replacer) v id → h.Legible (allowed h replacer) id) :
    (rootText h v replacer space = .error circular ∧ h.Cyclic (allowed h replacer) v) ∨
      ∃ text, rootText h v replacer space = .ok text ∧ ¬ h.Cyclic (allowed h replacer) v := by
  obtain ⟨style, hstyle, hkeys⟩ := exists_style hp hc hlist hspace
  rw [← hkeys] at hl ⊢
  unfold rootText
  rw [hstyle]
  exact write_root_cases hp hv hl

end

end Json

/-! ### The function of scripts -/

variable {s : Session}
variable {kind : ErrorKind} {message : String} {store : Store} {receiver : Value} {args : List Value}
  {body : Eval Value}

/-- A fault of this kind has been routed in the session: it was recovered, or an error was thrown, and
one diagnostic says so. -/
inductive Session.Faults (s : Session) (kind : ErrorKind) (message : String) :
    Outcome Value × Session → Prop where
  | recovered {t : Session} (hs : s.recovers = true)
      (hd : t.diagnostics =
        s.diagnostics.push ⟨.fault kind message, s.current.filename, .recovered⟩) :
      Faults s kind message (.done .unknown, t)
  | thrown {t : Session} {e : ObjectId} (hs : s.recovers = false)
      (he : t.heap.record e = .errorNamed kind.name message)
      (hd : t.diagnostics = s.diagnostics.push ⟨.fault kind message, s.current.filename, .thrown⟩) :
      Faults s kind message (.failed (.thrown (.object e)), t)

inductive Session.Writes (s : Session) : Outcome Value × Session → Prop where
  | text {t : Session} (text : String) (hd : t.diagnostics = s.diagnostics) :
      Writes s (.done (.string text), t)
  | nothing {t : Session} (hd : t.diagnostics = s.diagnostics) : Writes s (.done .undefined, t)

theorem Session.Writes.not_faults {result : Outcome Value × Session} (h : s.Writes result) :
    ¬ s.Faults kind message result := by
  intro hf
  cases h <;> cases hf

theorem Session.faults_guarded (hr : receiver.isUnknown = false) (ha : args.any Value.isUnknown = false)
    (hb : body s = (do let _ ← route kind message return .unknown : Eval Value) { s with store }) :
    s.Faults kind message (guarded receiver args body s) := by
  cases hs : s.recovers with
  | true =>
    rw [run_bind (run_route (s := { s with store }) hs kind message)] at hb
    rw [run_guarded hr ha hb]
    exact .recovered hs rfl
  | false =>
    rw [run_bind_failed (run_route_thrown (s := { s with store }) hs kind message)] at hb
    rw [run_guarded_thrown hr ha hb]
    refine .thrown hs ?_ ?_
    · change (store.heap.allocate _).1.record ⟨store.heap.size⟩ = _
      rw [Heap.record_allocate, if_pos rfl]
    · rfl

theorem Session.writes_guarded {text : Option String} (hr : receiver.isUnknown = false)
    (ha : args.any Value.isUnknown = false) (hb : body s = (.done (Json.textValue text), { s with store })) :
    s.Writes (guarded receiver args body s) := by
  rw [run_guarded hr ha hb]
  cases text with
  | some text => exact .text text rfl
  | none => exact .nothing rfl

/-- Cycle detection is exact. For a value of which nothing is unknown that has to be written, without
hooks and without arrays too long to be walked, `JSON.stringify` comes to an end. It reports a circular
structure if and only if a cycle can be reached from the value along what is written, and otherwise gives
a text or nothing, however often objects are shared. -/
theorem stringify_finds_cycles [Platform] (host : Host) (inner call : Invoke) (receiver : Value)
    (args : List Value) (options : CallOptions) {s : Session} (hr : receiver.isUnknown = false)
    (ha : args.any Value.isUnknown = false) (hp : s.heap.WrapsPrimitives)
    (hc : s.heap.isCallable (argument args 1) = false) (hlist : s.heap.ListsKnown (argument args 1))
    (hspace : argument args 2 = .undefined ∨ (∃ x, argument args 2 = .number x) ∨
      ∃ text, argument args 2 = .string text)
    (hl : ∀ id, s.heap.Reaches (Json.allowed s.heap (argument args 1)) (argument args 0) id →
      s.heap.Legible (Json.allowed s.heap (argument args 1)) id) :
    (s.Faults .typeError "Converting circular structure to JSON"
        (Callable.run host inner call receiver args options (.builtin .jsonStringify) s) ↔
      s.heap.Cyclic (Json.allowed s.heap (argument args 1)) (argument args 0)) ∧
    (s.Writes (Callable.run host inner call receiver args options (.builtin .jsonStringify) s) ↔
      ¬ s.heap.Cyclic (Json.allowed s.heap (argument args 1)) (argument args 0)) := by
  have hstringify := Json.stringify_eq (s := s) call (argument args 0) (argument args 2) hc
  rcases Json.rootText_cases hp hc hlist hspace (argument_known ha 0) hl with
    ⟨htext, hcycle⟩ | ⟨text, htext, hcycle⟩
  · rw [htext] at hstringify
    obtain ⟨store, hrun⟩ := hstringify nofun
    have hfaults := Session.faults_guarded hr ha hrun
    exact ⟨iff_of_true hfaults hcycle,
      iff_of_false (fun hw => hw.not_faults hfaults) (not_not.mpr hcycle)⟩
  · rw [htext] at hstringify
    obtain ⟨store, hrun⟩ := hstringify nofun
    have hwrites := Session.writes_guarded hr ha hrun
    exact ⟨iff_of_false hwrites.not_faults hcycle, iff_of_true hwrites hcycle⟩

section Lists

variable {h : Heap} {id : ObjectId} {es : List (String × Value)}

theorem Heap.writtenKeys_of_lists (hl : (h.record id).Lists es) :
    h.writtenKeys none id = es.map Prod.fst := by
  rw [writtenKeys_plain hl.plain, hl.keys]

theorem Heap.get_of_lists (hl : (h.record id).Lists es) {e : String × Value} (he : e ∈ es) :
    h.get id e.1 = e.2 := Record.get_of_getOwn? (hl.own e he)

theorem Heap.mem_of_encloses (hl : (h.record id).Lists es) {inner : ObjectId}
    (hi : h.Encloses none id inner) : .object inner ∈ es.map Prod.snd := by
  obtain ⟨key, hkey, hget⟩ := hi
  rw [writtenKeys_of_lists hl] at hkey
  obtain ⟨e, he, rfl⟩ := List.mem_map.mp hkey
  rw [get_of_lists hl he] at hget
  exact List.mem_map.mpr ⟨e, he, hget⟩

theorem Heap.legible_of_lists (hl : (h.record id).Lists es) (hi : id.index < h.size)
    (hhook : "toJSON" ∉ es.map Prod.fst) (hes : ∀ e ∈ es, e.2.isUnknown = false) :
    h.Legible none id where
  present := hi
  hook := by
    have hget : h.get id "toJSON" = .undefined := Record.get_of_not_mem (hl.keys ▸ hhook)
    rw [hget]
    exact ⟨rfl, rfl⟩
  wrapped hw := by
    rw [hl.plain.objectClass] at hw
    cases hw
  length hc := by
    rw [hl.plain.objectClass] at hc
    cases hc
  members key hkey := by
    rw [writtenKeys_of_lists hl] at hkey
    obtain ⟨e, he, rfl⟩ := List.mem_map.mp hkey
    rw [get_of_lists hl he]
    exact hes e he

end Lists

def Heap.sharing (back : Value) : Heap :=
  ⟨#[.ofEntries [("left", .object ⟨1⟩), ("right", .object ⟨1⟩)], .ofEntries [("back", back)]]⟩

section Sharing

open Heap

variable {back : Value} {x y : ObjectId}

theorem wrapsPrimitives_sharing : (sharing back).WrapsPrimitives := by
  intro id hw
  have hrecord : (((sharing back).record id).objectClass) = .object := by
    obtain ⟨_ | _ | n⟩ := id
    · exact (Record.lists_ofEntries (by decide)).plain.objectClass
    · exact (Record.lists_ofEntries (by simp)).plain.objectClass
    · rfl
  rw [hrecord] at hw
  cases hw

theorem lists_sharing :
    ((sharing back).record ⟨0⟩).Lists [("left", .object ⟨1⟩), ("right", .object ⟨1⟩)] ∧
      ((sharing back).record ⟨1⟩).Lists [("back", back)] :=
  ⟨Record.lists_ofEntries (by decide), Record.lists_ofEntries (List.nodup_singleton _)⟩

theorem encloses_sharing_top (h : (sharing back).Encloses none ⟨0⟩ y) : y = ⟨1⟩ := by
  simpa using mem_of_encloses lists_sharing.1 h

theorem encloses_sharing_bottom (h : (sharing back).Encloses none ⟨1⟩ y) : .object y = back := by
  simpa using mem_of_encloses lists_sharing.2 h

theorem reaches_sharing (hb : back = .null ∨ back = .object ⟨0⟩)
    (h : (sharing back).Reaches none (.object ⟨0⟩) x) : x = ⟨0⟩ ∨ x = ⟨1⟩ := by
  obtain ⟨root, hroot, hreach⟩ := h
  cases hroot
  induction hreach with
  | refl => exact .inl rfl
  | tail _ hstep ih =>
    obtain rfl | rfl := ih
    · exact .inr (encloses_sharing_top hstep)
    · rw [← encloses_sharing_bottom hstep] at hb
      exact .inl (by simpa using hb)

theorem legible_sharing (hb : back = .null ∨ back = .object ⟨0⟩)
    (h : (sharing back).Reaches none (.object ⟨0⟩) x) : (sharing back).Legible none x := by
  obtain rfl | rfl := reaches_sharing hb h
  · exact legible_of_lists lists_sharing.1 Nat.zero_lt_two (by decide) (by simp [Value.isUnknown])
  · refine legible_of_lists lists_sharing.2 Nat.one_lt_two (by simp) ?_
    obtain rfl | rfl := hb <;> simp [Value.isUnknown]

theorem not_cyclic_sharing : ¬ (sharing .null).Cyclic none (.object ⟨0⟩) := by
  have hbottom (y : ObjectId) : ¬ (sharing .null).Encloses none ⟨1⟩ y :=
    fun hstep => nomatch encloses_sharing_bottom hstep
  rintro ⟨id, hreach, hcycle⟩
  obtain ⟨y, hstep, hback⟩ := TransGen.head'_iff.mp hcycle
  obtain rfl | rfl := reaches_sharing (.inl rfl) hreach
  · cases encloses_sharing_top hstep
    obtain h | ⟨z, hz, -⟩ := hback.cases_head
    · cases h
    · exact hbottom z hz
  · exact hbottom y hstep

theorem cyclic_sharing : (sharing (.object ⟨0⟩)).Cyclic none (.object ⟨0⟩) := by
  have hdown : (sharing (.object ⟨0⟩)).Encloses none ⟨0⟩ ⟨1⟩ := by
    refine ⟨"left", ?_, get_of_lists lists_sharing.1 (.head _)⟩
    rw [writtenKeys_of_lists lists_sharing.1]
    exact .head _
  have hup : (sharing (.object ⟨0⟩)).Encloses none ⟨1⟩ ⟨0⟩ := by
    refine ⟨"back", ?_, get_of_lists lists_sharing.2 (.head _)⟩
    rw [writtenKeys_of_lists lists_sharing.2]
    exact .head _
  exact ⟨⟨0⟩, ⟨⟨0⟩, rfl, .refl⟩, .tail (.single hdown) hup⟩

end Sharing

def Heap.writeFirst (h : Heap) : Outcome Value × Session :=
  Callable.run .standard (fun _ _ _ _ => exhausted) (fun _ _ _ _ => exhausted) .undefined
    [.object ⟨0⟩] {} (.builtin .jsonStringify) (.ofHeap h)

/-- An object that is only shared is written twice; one that leads back closes a cycle. -/
theorem stringify_finds_cycles_sharing :
    (Session.ofHeap (.sharing .null)).Writes (Heap.sharing .null).writeFirst ∧
      (Session.ofHeap (.sharing (.object ⟨0⟩))).Faults .typeError
        "Converting circular structure to JSON" (Heap.sharing (.object ⟨0⟩)).writeFirst := by
  have hshared := stringify_finds_cycles (s := .ofHeap (.sharing .null)) .standard
    (fun _ _ _ _ => exhausted) (fun _ _ _ _ => exhausted) .undefined [.object ⟨0⟩] {} rfl rfl
    wrapsPrimitives_sharing rfl nofun (.inl rfl) fun _ => legible_sharing (.inl rfl)
  have hcyclic := stringify_finds_cycles (s := .ofHeap (.sharing (.object ⟨0⟩))) .standard
    (fun _ _ _ _ => exhausted) (fun _ _ _ _ => exhausted) .undefined [.object ⟨0⟩] {} rfl rfl
    wrapsPrimitives_sharing rfl nofun (.inl rfl) fun _ => legible_sharing (.inr rfl)
  exact ⟨hshared.2.mpr not_cyclic_sharing, hcyclic.1.mpr cyclic_sharing⟩

end Surmise
