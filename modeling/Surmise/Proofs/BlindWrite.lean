import Surmise.Proofs.Forgetting
import Surmise.Proofs.Retention

/-! Writes through a key that is not known. They forget every property of the record, one after the other,
and so cover what a write through any key does to the properties that are there. What they miss is the
length of an array that cannot be written and that an element moves all the same. -/
namespace Surmise
namespace Record

def ElementsWritable (r : Record) : Prop :=
  ∀ k i p, arrayIndex? k = some i → r.getOwn? k = some p → p.attributes.writable = true

def forgetKeys (r : Record) (keys : List String) : Record :=
  keys.foldl (fun r key => (r.put key .unknown).1) r

variable {r : Record} {key : String} {p : Property}

theorem forgetKeys_append (r : Record) (before after : List String) :
    r.forgetKeys (before ++ after) = (r.forgetKeys before).forgetKeys after :=
  List.foldl_append

theorem fades_forgetKeys (r : Record) (keys : List String) : r.Fades (r.forgetKeys keys) := by
  induction keys generalizing r with
  | nil => exact .refl r
  | cons key keys ih => exact (r.fades_put key).trans (ih _)

theorem get_forgetKeys (h : r.getOwn? key = some p) (hw : p.attributes.writable = true)
    {keys : List String} (hkey : key ∈ keys) : (r.forgetKeys keys).get key = .unknown := by
  obtain ⟨before, after, rfl⟩ := List.append_of_mem hkey
  obtain ⟨v, hv, -⟩ := (r.fades_forgetKeys before).kept key p h
  have hput := getOwn?_put_unknown hv hw
  obtain ⟨q, hq, hunknown⟩ := (fades_forgetKeys _ after).unknown hput rfl
  rw [forgetKeys_append]
  exact (get_of_getOwn? hq).trans hunknown

theorem Overruns.of_length {r' : Record} {k : String} (h : r'.Overruns k)
    (hc : r'.objectClass = r.objectClass) (hl : r'.getOwn? "length" = r.getOwn? "length") :
    r.Overruns k := by
  unfold Overruns at h ⊢
  rw [← hc, ← hl]
  exact h

theorem getOwn?_forgetKeys (h : r.getOwn? key = some p) (hw : p.attributes.writable = false)
    {keys : List String} (hover : key = "length" → ∀ k ∈ keys, ¬ r.Overruns k) :
    (r.forgetKeys keys).getOwn? key = some p := by
  induction keys generalizing r with
  | nil => exact h
  | cons k keys ih =>
    have hstep : (r.put k .unknown).1.getOwn? key = some p := by
      obtain hretains | hbreaks := retains_put_or_breaks h k .unknown
      · exact hretains.getOwn?_eq hw
      · obtain ⟨hkey, hk⟩ := hbreaks.of_unknown
        exact absurd hk (hover hkey k (.head _))
    refine ih hstep fun hkey k' hk' hover' => hover hkey k' (.tail _ hk') ?_
    subst hkey
    exact hover'.of_length (objectClass_of_shape (r.shape_put k .unknown)) (hstep.trans h.symm)

theorem length_forgetKeys {x : Float} {a : Attributes}
    (h : r.getOwn? "length" = some ⟨.number x, a⟩) (hw : a.writable = false) (keys : List String) :
    ∃ y, (r.forgetKeys keys).getOwn? "length" = some ⟨.number y, a⟩ := by
  induction keys generalizing r x with
  | nil => exact ⟨x, h⟩
  | cons k keys ih =>
    have hstep : ∃ y, (r.put k .unknown).1.getOwn? "length" = some ⟨.number y, a⟩ := by
      obtain hretains | hbreaks := retains_put_or_breaks h k .unknown
      · exact ⟨x, hretains.getOwn?_eq hw⟩
      · cases hbreaks with
        | moves hover haccepted =>
          obtain ⟨x', y, a', hlen, -, hput, -⟩ := hover.getOwn?_put haccepted
          cases h.symm.trans hlen
          exact ⟨y, hput⟩
    obtain ⟨y, hy⟩ := hstep
    exact ih hy

theorem forget_covers_fixed (hw : r.ElementsWritable) (h : r.getOwn? key = some p)
    (hfixed : p.attributes.writable = false) {k : String} {v : Value}
    (hlength : key = "length" → ¬ r.Breaks k v "length" ∧ ∀ j ∈ r.keys, ¬ r.Overruns j) :
    r.forget.get key = (r.put k v).1.get key := by
  have hforget : r.forget.getOwn? key = some p :=
    getOwn?_forgetKeys h hfixed fun hkey => (hlength hkey).2
  have hput : (r.put k v).1.getOwn? key = some p := by
    obtain hretains | hbreaks := retains_put_or_breaks h k v
    · exact hretains.getOwn?_eq hfixed
    · cases hbreaks with
      | cuts _ _ hi => cases hfixed.symm.trans (hw key _ p hi h)
      | moves hover haccepted => exact absurd (.moves hover haccepted) (hlength rfl).1
  exact (get_of_getOwn? hforget).trans (get_of_getOwn? hput).symm

/-- A length that some write moves against its attributes is not covered for all writes: forgetting leaves
one number, but that write and one that is refused leave two. -/
theorem Breaks.not_covered {k : String} {v : Value} (h : r.Breaks k v "length") :
    ¬ ∀ k v, r.forget.get "length" = .unknown ∨
      r.forget.get "length" = (r.put k v).1.get "length" := by
  intro hcovers
  cases h with
  | cuts _ _ hi => cases arrayIndex?_length.symm.trans hi
  | moves hover haccepted =>
    obtain ⟨x, y, a, hlen, hfixed, hput, hne⟩ := hover.getOwn?_put haccepted
    obtain ⟨z, hz⟩ := length_forgetKeys hlen hfixed r.keys
    have hforget : r.forget.get "length" = .number z := get_of_getOwn? hz
    have hrefused : (r.put "length" .undefined).1 = r := by
      rw [put_length hover.1]
      rfl
    have hzy := hcovers k v
    have hzx := hcovers "length" .undefined
    rw [hforget, get_of_getOwn? hput] at hzy
    rw [hforget, hrefused, get_of_getOwn? hlen] at hzx
    have hknown : Value.number z ≠ .unknown := by
      intro h
      cases h
    cases hzy.resolve_left hknown
    cases hzx.resolve_left hknown
    exact hne rfl

/-- A write through an unknown key covers the writes through all keys: where the elements of a record can be
written, each property that is there is unknown afterwards or as any write would have left it. Only the
length of an array is not covered where that write, or forgetting an element, moves it although it cannot
be written; and if some write does, then not all writes are covered. -/
theorem unknown_write_covers (r : Record) (hw : r.ElementsWritable) (key : String)
    (hkey : key ∈ r.keys) :
    (∀ k v, (key = "length" → ¬ r.Breaks k v "length" ∧ ∀ j ∈ r.keys, ¬ r.Overruns j) →
        r.forget.get key = .unknown ∨ r.forget.get key = (r.put k v).1.get key) ∧
      (key = "length" → (∃ k v, r.Breaks k v "length") →
        ¬ ∀ k v, r.forget.get key = .unknown ∨ r.forget.get key = (r.put k v).1.get key) := by
  obtain ⟨p, hp⟩ := Option.isSome_iff_exists.mp ((mem_keys r key).mp hkey)
  refine ⟨fun k v hlength => ?_, ?_⟩
  · cases hpw : p.attributes.writable with
    | true => exact .inl (get_forgetKeys hp hpw hkey)
    | false => exact .inr (forget_covers_fixed hw hp hpw hlength)
  · rintro rfl ⟨k, v, hbreaks⟩
    exact hbreaks.not_covered

def sealedLength : Record := { withFixedLength with extensible := false }

theorem elementsWritable_of_keys (h : r.keys = ["length"]) : r.ElementsWritable := by
  intro k i p hi hp
  have hk : k ∈ r.keys := (mem_keys r k).mpr (Option.isSome_of_eq_some hp)
  rw [h, List.mem_singleton] at hk
  subst hk
  cases arrayIndex?_length.symm.trans hi

/-- The length cannot be written, and no element is let in that would move it. -/
theorem unknown_write_covers_sealed :
    sealedLength.ElementsWritable ∧ "length" ∈ sealedLength.keys ∧
      ∀ k v, sealedLength.forget.get "length" = .unknown ∨
        sealedLength.forget.get "length" = (sealedLength.put k v).1.get "length" := by
  have hkeys : sealedLength.keys = ["length"] := rfl
  have hw : sealedLength.ElementsWritable := elementsWritable_of_keys hkeys
  have hkey : "length" ∈ sealedLength.keys := by rw [hkeys]; exact .head _
  have hnone : ∀ k, sealedLength.Overruns k → sealedLength.getOwn? k = none := by
    rintro k ⟨-, i, _, _, hi, -⟩
    rw [← Option.not_isSome_iff_eq_none, ← mem_keys, hkeys, List.mem_singleton]
    exact ne_length_of_index hi
  refine ⟨hw, hkey, fun k v => (unknown_write_covers sealedLength hw "length" hkey).1 k v fun _ => ⟨?_, ?_⟩⟩
  · intro hbreaks
    cases hbreaks with
    | cuts _ _ hi => cases arrayIndex?_length.symm.trans hi
    | moves hover haccepted =>
      have hclosed : sealedLength.extensible = false := rfl
      rw [assign, hnone k hover] at haccepted
      simp [hclosed] at haccepted
  · intro j hj hover
    rw [mem_keys, hnone j hover] at hj
    cases hj

/-- After a write through an unknown key the length of an array is 0, where a write through the key `3` makes
it 4. -/
theorem unknown_write_misses_length :
    withFixedLength.ElementsWritable ∧
      withFixedLength.forget.get "length" = .number (Number.ofNat 0) ∧
      (withFixedLength.put "3" .null).1.get "length" = .number (Number.ofNat 4) ∧
      Number.ofNat 0 ≠ Number.ofNat 4 := by
  have hlength : withFixedLength.getOwn? "length" = some ⟨.number (Number.ofNat 0), .fixed⟩ := by
    simp [withFixedLength]
  have hkeys : withFixedLength.keys = ["length"] := rfl
  have hindex : arrayIndex? "3" = some 3 := by decide
  have hle : Number.leNat (Number.ofNat 0) 3 = true := by
    rw [Number.leNat_ofNat (by decide)]
    rfl
  refine ⟨elementsWritable_of_keys hkeys, ?_, ?_, fun h => ?_⟩
  · exact get_of_getOwn? (getOwn?_forgetKeys hlength rfl fun _ k hk hover => by
      rw [hkeys, List.mem_singleton] at hk
      subst hk
      obtain ⟨i, _, _, hi, _⟩ := hover.2
      cases arrayIndex?_length.symm.trans hi)
  · have hc : withFixedLength.objectClass = .array := rfl
    have hopen : withFixedLength.extensible = true := rfl
    have hnew : withFixedLength.getOwn? "3" = none := rfl
    refine get_of_getOwn? (p := ⟨.number (Number.ofNat 4), .fixed⟩) ?_
    simp [put, putIndex, assign, coverIndex, hindex, hc, hopen, hnew, hlength, hle]
  · have h4 := Number.toNat?_ofNat (n := 4) (by decide)
    rw [← h, Number.toNat?_ofNat (by decide)] at h4
    cases h4

end Record
end Surmise
