import Surmise.Proofs.Covering.Conversion
import Surmise.Proofs.Json.Unhooked

/-! Nothing is written over an unknown value: what is written of a heap in which something is unknown is
written as well once all is known. Something unknown that matters halts the writing, wherever it hides: in
a member, the length of an array, a hook, a wrapper, a list of keys or the gap. -/
namespace Surmise

open Eval

variable {r q : Record}

theorem Record.enumerableKeys_eq_filter (r : Record) :
    r.enumerableKeys =
      r.keys.filter fun key => (r.getOwn? key).any fun p => p.attributes.enumerable := by
  unfold enumerableKeys Dict.entries keys getOwn?
  induction r.properties.keys with
  | nil => rfl
  | cons key keys ih =>
    cases hp : r.properties.get? key with
    | none => simpa [hp] using ih
    | some p => cases he : p.attributes.enumerable <;> simpa [hp, he] using ih

theorem Record.Covers.enumerableKeys (h : r.Covers q) : r.enumerableKeys = q.enumerableKeys := by
  rw [enumerableKeys_eq_filter, enumerableKeys_eq_filter, h.keys]
  refine List.filter_congr fun key _ => ?_
  have hown := h.own key
  generalize r.getOwn? key = p?, q.getOwn? key = q? at hown ⊢
  cases hown with
  | none => rfl
  | some hp => exact congrArg Attributes.enumerable hp.2

theorem Record.Covers.indexes (h : r.Covers q) : r.indexes = q.indexes := by
  unfold Record.indexes
  rw [h.keys]

namespace Json

variable {h k : Heap} {v w : Value}

/-! ### Values -/

variable {r q : Record} {style : Style} {indent : String} {text : Option String}

theorem unwrapped_covers (hk : h.Covers k) (v : Value) : (unwrapped h v).Covers (unwrapped k v) := by
  cases v with
  | object id =>
    unfold unwrapped
    dsimp only
    rw [← (hk.record id).objectClass]
    cases (h.record id).objectClass with
    | number => exact Value.covers_ofNumber? (hk.toNumber? (.refl _))
    | string => exact Value.covers_ofString? (hk.toText? (.refl _))
    | boolean => exact hk.toPrimitive (.refl _)
    | _ => exact .refl _
  | _ => exact .refl _

theorem unhooked_covers (hk : h.Covers k) (hv : unhooked h v = .ok ()) : unhooked k v = .ok () := by
  cases v with
  | object id =>
    unfold unhooked at hv ⊢
    dsimp only at hv ⊢
    split at hv
    · cases hv
    next hu =>
      split at hv
      · cases hv
      next hc =>
        have hsame : h.get id "toJSON" = k.get id "toJSON" :=
          ((hk.record id).get "toJSON").eq_of_known (Bool.eq_false_iff.mpr hu)
        rw [← hsame, ← hk.isCallable, if_neg hu, if_neg hc]
  | _ => rfl

theorem writeObject_covers [Platform] (hr : r.Covers q) {inner inner' : String → Writing (Option String)}
    (hi : ∀ key t, inner key = .ok t → inner' key = .ok t) (ht : writeObject style indent r inner = .ok text) :
    writeObject style indent q inner' = .ok text := by
  unfold writeObject at ht ⊢
  rw [← hr.objectClass]
  split at ht
  next hc =>
    rw [if_pos hc]
    split at ht
    · cases ht
    · cases ht
    next n he =>
      have hextent : q.extent = .walkable n := by
        obtain hu | hsame := hr.extent
        · cases hu.symm.trans he
        · exact hsame.symm.trans he
      rw [hextent]
      obtain ⟨texts, htexts, ht⟩ := bind_eq_ok.mp ht
      exact bind_eq_ok.mpr ⟨texts, mapM_ok_of_ok htexts fun i _ b hb => map_ok_of_ok (hi _) hb, ht⟩
  next hc =>
    rw [if_neg hc, ← hr.enumerableKeys]
    obtain ⟨texts, htexts, ht⟩ := bind_eq_ok.mp ht
    obtain ⟨parts, hparts, htexts⟩ := bind_eq_ok.mp htexts
    refine bind_eq_ok.mpr ⟨texts, bind_eq_ok.mpr ⟨parts, ?_, htexts⟩, ht⟩
    exact mapM_ok_of_ok hparts fun key _ b hb => map_ok_of_ok (hi key) hb

theorem write_unknown [Platform] (style : Style) (fuel : Nat) (indent : String) (path : List ObjectId)
    (text : Option String) : write h style fuel indent path .unknown ≠ .ok text := by
  cases fuel with
  | zero => exact nofun
  | succ fuel =>
    intro ht
    cases ht

/-- A text that is written where things are unknown is written wherever they are known. -/
theorem write_covers [Platform] (hk : h.Covers k) {fuel : Nat} {path : List ObjectId} (hv : v.Covers w)
    (ht : write h style fuel indent path v = .ok text) : write k style fuel indent path w = .ok text := by
  obtain rfl | rfl := hv
  · exact absurd ht (write_unknown style fuel indent path text)
  induction fuel generalizing indent path v text with
  | zero => cases ht
  | succ fuel ih =>
    rw [write] at ht ⊢
    obtain ⟨_, hhook, ht⟩ := bind_eq_ok.mp ht
    refine bind_eq_ok.mpr ⟨(), unhooked_covers hk hhook, ?_⟩
    obtain hu | hsame := unwrapped_covers hk v
    · rw [hu] at ht
      cases ht
    rw [← hsame]
    generalize unwrapped h v = u at ht ⊢
    cases u with
    | object id =>
      rw [writeUnwrapped] at ht ⊢
      rw [← (hk.record id).callable]
      split
      next hc =>
        rw [if_pos hc] at ht
        exact ht
      next hc =>
        rw [if_neg hc] at ht
        split at ht
        · cases ht
        next hp =>
          rw [if_neg hp]
          refine writeObject_covers (hk.record id) (fun key t hkey => ?_) ht
          obtain hu | hsame := (hk.record id).get key
          · rw [hu] at hkey
            exact absurd hkey (write_unknown _ _ _ _ _)
          · rw [← hsame]
            exact ih hkey
    | _ => exact ht

/-! ### Styles -/

theorem mapM_some_of_some {α β : Type} {f g : α → Option β} {as : List α} {bs : List β}
    (hs : as.mapM f = some bs) (hfg : ∀ a ∈ as, ∀ b, f a = some b → g a = some b) :
    as.mapM g = some bs := by
  induction as generalizing bs with
  | nil => exact hs
  | cons a as ih =>
    rw [List.mapM_cons] at hs ⊢
    obtain ⟨b, hb, hs⟩ := Option.bind_eq_some_iff.mp hs
    obtain ⟨rest, hrest, hs⟩ := Option.bind_eq_some_iff.mp hs
    have hrest' := ih hrest fun a ha => hfg a (.tail _ ha)
    exact Option.bind_eq_some_iff.mpr ⟨b, hfg a (.head _) b hb,
      Option.bind_eq_some_iff.mpr ⟨rest, hrest', hs⟩⟩

theorem listedKey?_covers (hk : h.Covers k) (hv : v.Covers w) :
    Told (listedKey? h v) (listedKey? k w) := by
  obtain rfl | rfl := hv
  · exact .inl rfl
  cases v with
  | object id =>
    unfold listedKey?
    dsimp only
    rw [← (hk.record id).objectClass]
    cases (h.record id).objectClass with
    | number | string => exact (hk.toText? (.refl _)).map some
    | _ => exact .refl _
  | _ => exact .refl _

theorem listedKeys?_covers (hk : h.Covers k) (hr : r.Covers q) :
    Told (listedKeys? h r) (listedKeys? k q) := by
  unfold listedKeys?
  rw [← hr.indexes]
  obtain hu | hsame := hr.extent
  · rw [hu]
    exact .inl rfl
  rw [hsame]
  have hentries (n : Nat) :
      Told ((r.indexes.filter (· < n)).mapM fun i => listedKey? h (r.get (indexKey i)))
        ((r.indexes.filter (· < n)).mapM fun i => listedKey? k (q.get (indexKey i))) :=
    Told.of_eq_some fun keys hkeys => mapM_some_of_some hkeys fun i _ key hkey =>
      (listedKey?_covers hk (hr.get (indexKey i))).eq_some hkey
  cases q.extent with
  | unknown => exact .refl _
  | walkable n | tooLong n => exact (hentries n).map _

theorem onlyKeys?_covers (hk : h.Covers k) (v : Value) : Told (onlyKeys? h v) (onlyKeys? k v) := by
  cases v with
  | object id =>
    unfold onlyKeys?
    dsimp only
    rw [← (hk.record id).objectClass]
    split
    · exact (listedKeys?_covers hk (hk.record id)).map some
    · exact .refl _
  | _ => exact .refl _

theorem gapValue_covers (hk : h.Covers k) (v : Value) : (gapValue h v).Covers (gapValue k v) := by
  cases v with
  | object id =>
    unfold gapValue
    dsimp only
    rw [← (hk.record id).objectClass]
    cases (h.record id).objectClass with
    | number | string => exact hk.toPrimitive (.refl _)
    | _ => exact .refl _
  | _ => exact .refl _

theorem gap?_covers (hk : h.Covers k) (v : Value) : Told (gap? h v) (gap? k v) := by
  unfold gap?
  obtain hu | hsame := gapValue_covers hk v
  · rw [hu]
    exact .inl rfl
  · rw [hsame]
    exact .refl _

theorem style?_covers (hk : h.Covers k) (replacer space : Value) :
    Told (style? h replacer space) (style? k replacer space) := by
  unfold style?
  rw [← hk.isCallable]
  split
  · exact (gap?_covers hk space).map _
  · obtain hkeys | hkeys := onlyKeys?_covers hk replacer
    · rw [hkeys]
      exact .inl rfl
    obtain hgap | hgap := gap?_covers hk space
    · rw [hgap]
      cases onlyKeys? h replacer <;> exact .inl rfl
    · rw [hkeys, hgap]
      exact .refl _

theorem rootText_covers [Platform] (hk : h.Covers k) {replacer space : Value}
    (ht : rootText h v replacer space = .ok text) : rootText k v replacer space = .ok text := by
  unfold rootText at ht ⊢
  split at ht
  · cases ht
  next style hs =>
    rw [(style?_covers hk replacer space).eq_some hs, ← hk.size]
    exact write_covers (hk.allocate (.refl _)) (.refl v) ht

end Json

/-! ### The function of scripts -/

theorem Json.ok_of_perform {α β : Type} {value : α → β} {unknown b : β} {x : Writing α}
    {s t : Session} (hb : b ≠ unknown) (h : perform value unknown x s = (.done b, t)) :
    ∃ a, x = .ok a ∧ b = value a := by
  cases x with
  | ok a =>
    cases h
    exact ⟨a, rfl, rfl⟩
  | error e =>
    cases e with
    | fault kind message =>
      change (route kind message >>= fun _ => pure unknown) s = (.done b, t) at h
      obtain ⟨_, _, -, h⟩ := run_bind_eq_done h
      cases h
      exact absurd rfl hb
    | unknown =>
      cases h
      exact absurd rfl hb
    | hooked | exhausted => cases h

/-- `JSON.stringify` never prints over an unknown value. If it gives a text or nothing where some
properties and wrapped values are unknown, it gives the same in every heap that these stand for. -/
theorem stringify_covers [Platform] (host : Host) (inner call : Invoke) (receiver : Value) (args : List Value)
    (options : CallOptions) {s s' t : Session} {w : Value} (hk : s.heap.Covers s'.heap)
    (hr : s.heap.isCallable (argument args 1) = false)
    (hh : ∀ id, s.heap.isCallable (s.heap.get id "toJSON") = false)
    (hw : w = .undefined ∨ ∃ text, w = .string text)
    (h : Callable.run host inner call receiver args options (.builtin .jsonStringify) s =
      (.done w, t)) :
    ∃ t', Callable.run host inner call receiver args options (.builtin .jsonStringify) s' =
      (.done w, t') := by
  have hknown : w ≠ .unknown ∧ w.isUnknown = false := by
    obtain rfl | ⟨text, rfl⟩ := hw <;> exact ⟨nofun, rfl⟩
  obtain ⟨hreceiver, hargs, hbody⟩ := done_of_guarded hknown.2 h
  change Json.stringify call _ _ _ s = _ at hbody
  obtain ⟨store, hrun⟩ := Json.stringify_eq call (argument args 0) (argument args 2) hr
    (Json.rootText_ne_hooked hh _ _ _)
  rw [hrun] at hbody
  obtain ⟨text, htext, rfl⟩ := Json.ok_of_perform hknown.1 hbody
  have htext' := Json.rootText_covers hk htext
  obtain ⟨store', hrun'⟩ := Json.stringify_eq call (argument args 0) (argument args 2)
    ((hk.isCallable _).symm.trans hr) (by rw [htext']; exact nofun)
  rw [htext'] at hrun'
  exact ⟨_, run_guarded hreceiver hargs hrun'⟩

def Heap.partlyKnown (b : Value) : Heap :=
  ((Heap.mk #[.ofList [.string "a"]]).allocate
    (((Record.empty .object).setProperty "a" (.data (.string "x"))).setProperty "b" (.data b))).1

def Heap.writeListed (h : Heap) : Outcome Value × Session :=
  Callable.run .standard (fun _ _ _ _ => exhausted) (fun _ _ _ _ => exhausted) .undefined
    [.object ⟨1⟩, .object ⟨0⟩] {} (.builtin .jsonStringify) (.ofHeap h)

theorem Heap.covers_partlyKnown (b : Value) : (partlyKnown .unknown).Covers (partlyKnown b) :=
  Covers.allocate (Covers.refl _) ((Record.Covers.refl _).setProperty "b" ⟨.unknown b, rfl⟩)

/-- What is unknown does not matter where it is not written. -/
theorem stringify_covers_listed :
    (∃ t, (Heap.partlyKnown .unknown).writeListed = (.done (.string "\x7b\"a\":\"x\"\x7d"), t)) ∧
      ∃ t, (Heap.partlyKnown .null).writeListed = (.done (.string "\x7b\"a\":\"x\"\x7d"), t) := by
  have hrun := @Outcome.run_of_text? (Heap.partlyKnown .unknown).writeListed
    "\x7b\"a\":\"x\"\x7d" (by decide +kernel)
  have hhook (id : ObjectId) : (Heap.partlyKnown .unknown).isCallable
      ((Heap.partlyKnown .unknown).get id "toJSON") = false := by
    obtain ⟨_ | _ | n⟩ := id
    · decide +kernel
    · decide +kernel
    · rfl
  exact ⟨⟨_, hrun⟩, stringify_covers (s := .ofHeap (.partlyKnown .unknown)) .standard _ _ .undefined
    [.object ⟨1⟩, .object ⟨0⟩] {} (Heap.covers_partlyKnown .null) (by decide +kernel) hhook
    (.inr ⟨_, rfl⟩) hrun⟩

end Surmise
