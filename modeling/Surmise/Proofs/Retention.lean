import Surmise.Proofs.ArrayLength

/-! Properties that are not configurable. They stay through writes, definitions and deletions, and those
that cannot be written keep their value. Two writes to an array do not ask for the attributes of what
they change besides: a shorter length drops elements, and an element behind the length moves it. -/
namespace Surmise
namespace Record

variable {v : Value}

/-- The record has a property with the attributes of `p`, and with its value if that cannot be
written. -/
def Retains (r : Record) (key : String) (p : Property) : Prop :=
  ∃ v, r.getOwn? key = some ⟨v, p.attributes⟩ ∧ (p.attributes.writable = false → v = p.value)

/-- The element `k` of an array lies behind its length, which cannot be written. -/
def Overruns (r : Record) (k : String) : Prop :=
  r.objectClass = .array ∧ ∃ i x a, arrayIndex? k = some i ∧
    r.getOwn? "length" = some ⟨.number x, a⟩ ∧ a.writable = false ∧ Number.leNat x i = true

/-- Writing `v` to the property `k` of an array changes another one against its attributes. -/
inductive Breaks (r : Record) : (k : String) → (v : Value) → (key : String) → Prop
  /-- The length that is written ends at the element `key` or before it. -/
  | cuts {x : Float} {n i : Nat} {key : String} (array : r.objectClass = .array)
      (length : lengthOf? x = some n) (index : arrayIndex? key = some i) (beyond : n ≤ i) :
      Breaks r "length" (.number x) key
  /-- The length is moved behind an element. -/
  | moves {k : String} {v : Value} (overruns : r.Overruns k) (accepted : (r.assign k v).2 = true) :
      Breaks r k v "length"

variable {r : Record} {key : String} {p : Property}

theorem retains_of_getOwn? (h : r.getOwn? key = some p) : r.Retains key p :=
  ⟨p.value, h, fun _ => rfl⟩

theorem Retains.getOwn?_eq (h : r.Retains key p) (hw : p.attributes.writable = false) :
    r.getOwn? key = some p := by
  obtain ⟨v, hv, hfixed⟩ := h
  rw [hv, hfixed hw]

theorem Retains.trans {r' : Record} (h : p.attributes.writable = false → v = p.value)
    (h' : r'.Retains key ⟨v, p.attributes⟩) : r'.Retains key p := by
  obtain ⟨u, hu, hfixed⟩ := h'
  exact ⟨u, hu, fun hw => (hfixed hw).trans (h hw)⟩

/-! ### Writes to the property itself -/

variable {i : Nat}

theorem put_length (hc : r.objectClass = .array) (v : Value) : r.put "length" v = r.putLength v := by
  rw [put, if_pos hc, if_pos rfl]

theorem put_index (hc : r.objectClass = .array) (hi : arrayIndex? key = some i) (v : Value) :
    r.put key v = r.putIndex key i v := by
  rw [put, if_pos hc, if_neg (ne_length_of_index hi), hi]

theorem retains_put_self (h : r.getOwn? key = some p) (v : Value) :
    (r.put key v).1.Retains key p := by
  have ha := answered_put h v
  refine ⟨if (r.put key v).2 then v else p.value, ?_, fun hw => if_neg fun hd => ?_⟩
  · rw [ha.getOwn?_eq]
    split <;> rfl
  · cases hw.symm.trans (ha.writable hd)

/-! ### Writes to other properties -/

variable {k : String}

theorem retains_or_cuts (h : r.getOwn? key = some p) (hc : r.objectClass = .array)
    (hi : arrayIndex? key = some i) (v : Value) :
    (r.putLength v).1.Retains key p ∨ r.Breaks "length" v key := by
  have hl : key ≠ "length" := ne_length_of_index hi
  cases v with
  | unknown => exact .inl (retains_of_getOwn? ((r.getOwn?_writeLength_of_ne hl .unknown).trans h))
  | number x =>
    cases hn : lengthOf? x with
    | none =>
      rw [putLength_refused_number r hn]
      exact .inl (retains_of_getOwn? h)
    | some n =>
      by_cases hin : n ≤ i
      · exact .inr (.cuts hc hn hi hin)
      · have hdrop : (r.dropElements n).getOwn? key = some p := by
          rw [getOwn?_dropElements_eq, h, hi]
          simp [Nat.lt_of_not_le hin]
        rw [putLength_number r hn]
        exact .inl (retains_of_getOwn? ((getOwn?_writeLength_of_ne _ hl _).trans hdrop))
  | _ => exact .inl (retains_of_getOwn? h)

/-- Storing at an index leaves the length as its attributes ask, or moves it against them. -/
theorem retains_or_moves (h : r.getOwn? "length" = some p) (hc : r.objectClass = .array)
    (hi : arrayIndex? k = some i) (v : Value) :
    (r.putIndex k i v).1.Retains "length" p ∨ r.Breaks k v "length" := by
  have ha : (r.assign k v).1.getOwn? "length" = some p :=
    (r.getOwn?_assign_of_ne (ne_length_of_index hi) v).trans h
  unfold putIndex
  split
  next r' heq =>
    rw [heq] at ha
    obtain ⟨len, a⟩ := p
    unfold coverIndex
    split
    next x b hlen =>
      obtain ⟨rfl, rfl⟩ : len = .number x ∧ a = b := by
        simpa using ha.symm.trans hlen
      split
      next hle =>
        cases hw : a.writable with
        | true =>
          refine .inl ⟨.number (Number.ofNat (i + 1)), ?_, fun hfixed => by cases hw.symm.trans hfixed⟩
          rw [getOwn?_setProperty, if_pos rfl]
        | false => exact .inr (.moves ⟨hc, i, x, a, hi, h, hw, hle⟩ (by rw [heq]))
      next => exact .inl (retains_of_getOwn? ha)
    next => exact .inl (retains_of_getOwn? ha)
  next r' heq =>
    rw [heq] at ha
    exact .inl (retains_of_getOwn? ha)

/-- A write keeps every property, up to the value of one that can be written, unless it breaks it. -/
theorem retains_put_or_breaks (h : r.getOwn? key = some p) (k : String) (v : Value) :
    (r.put k v).1.Retains key p ∨ r.Breaks k v key := by
  by_cases hk : k = key
  · subst hk
    exact .inl (retains_put_self h v)
  · cases he : r.entangles k key with
    | false => exact .inl (retains_of_getOwn? ((r.getOwn?_put_of_ne hk he v).trans h))
    | true =>
      simp only [entangles, Bool.and_eq_true, Bool.or_eq_true, beq_iff_eq, Option.isSome_iff_exists] at he
      obtain ⟨hc, ⟨rfl, i, hi⟩ | ⟨rfl, i, hi⟩⟩ := he
      · rw [put_length hc]
        exact retains_or_cuts h hc hi v
      · rw [put_index hc hi]
        exact retains_or_moves h hc hi v

theorem Breaks.of_unknown (h : r.Breaks k .unknown key) : key = "length" ∧ r.Overruns k := by
  generalize hv : Value.unknown = v at h
  cases h with
  | cuts => cases hv
  | moves hover => exact ⟨rfl, hover⟩

theorem Overruns.getOwn?_put (h : r.Overruns k) (haccepted : (r.assign k v).2 = true) :
    ∃ x y a, r.getOwn? "length" = some ⟨.number x, a⟩ ∧ a.writable = false ∧
      (r.put k v).1.getOwn? "length" = some ⟨.number y, a⟩ ∧ y ≠ x := by
  obtain ⟨hc, i, x, a, hi, hlen, hw, hle⟩ := h
  have hlen' : (r.assign k v).1.getOwn? "length" = some ⟨.number x, a⟩ :=
    (r.getOwn?_assign_of_ne (ne_length_of_index hi) v).trans hlen
  have hput : (r.put k v).1 = (r.assign k v).1.coverIndex i := by
    rw [put_index hc hi]
    cases hassign : r.assign k v with
    | mk r' accepted =>
      rw [hassign] at haccepted
      cases haccepted
      simp only [putIndex, hassign]
  refine ⟨x, Number.ofNat (i + 1), a, hlen, hw, ?_, ?_⟩
  · rw [hput]
    simp [coverIndex, hlen', hle]
  · rintro rfl
    -- the old length did not reach beyond `i`, but this one does
    have hi' := arrayIndex?_lt hi
    rw [Number.leNat_ofNat (by simp only [maxArrayLength] at hi'; omega), decide_eq_true_eq] at hle
    omega

/-- A property that is broken is lost, or has another value although it cannot be written. -/
theorem Breaks.not_retains (hb : r.Breaks k v key) (h : r.getOwn? key = some p) :
    ¬ (r.put k v).1.Retains key p := by
  rintro ⟨u, hu, hfixed⟩
  cases hb with
  | @cuts x n i _ hc hn hi hle =>
    have hdrop : (r.dropElements n).getOwn? key = none := by
      rw [getOwn?_dropElements_eq, h, hi]
      simp [hle]
    rw [put_length hc, putLength_number r hn, getOwn?_writeLength_of_ne _ (ne_length_of_index hi),
      hdrop] at hu
    cases hu
  | moves hover haccepted =>
    obtain ⟨x, y, a, hlen, hw, hput, hne⟩ := hover.getOwn?_put haccepted
    cases h.symm.trans hlen
    cases hu.symm.trans hput
    have hyx : Value.number y = .number x := hfixed hw
    exact hne (Value.number.inj hyx)

/-! ### Any sequence of changes -/

inductive Change where
  | perform (op : Operation)
  | define (key : String) (p : Property)

def apply (r : Record) : Change → Record
  | .perform op => r.perform op
  | .define key p => (r.define key p).1

theorem retains_define (h : r.getOwn? key = some p) (hc : p.attributes.configurable = false)
    (k : String) (q : Property) : (r.define k q).1.Retains key p := by
  by_cases hk : k = key
  · subst hk
    unfold define
    rw [h]
    dsimp only
    split
    next hallows =>
      -- only the value of a property that can be written is replaced
      simp only [Property.allows, hc, Bool.false_or, Bool.and_eq_true, beq_iff_eq] at hallows
      obtain ⟨hw, hq⟩ := hallows
      refine ⟨q.value, ?_, fun hfixed => by cases hw.symm.trans hfixed⟩
      rw [getOwn?_setProperty, if_pos rfl, ← hq]
    next => exact retains_of_getOwn? h
  · exact retains_of_getOwn? ((r.getOwn?_define_of_ne hk q).trans h)

theorem retains_apply (h : r.getOwn? key = some p) (hc : p.attributes.configurable = false)
    {c : Change} (hsafe : ∀ k v, c = .perform (.put k v) → ¬ r.Breaks k v key) :
    (r.apply c).Retains key p := by
  cases c with
  | define k q => exact retains_define h hc k q
  | perform op =>
    cases op with
    | put k v => exact (retains_put_or_breaks h k v).resolve_right (hsafe k v rfl)
    | delete k => exact retains_of_getOwn? (getOwn?_delete_of_not_configurable h hc k)
    | setExtensible b => exact retains_of_getOwn? h

theorem retains_applyAll {cs : List Change} (hr : r.Retains key p)
    (hc : p.attributes.configurable = false)
    (hsafe : ∀ before k v after, cs = before ++ .perform (.put k v) :: after →
      ¬ (before.foldl apply r).Breaks k v key) : (cs.foldl apply r).Retains key p := by
  induction cs generalizing r with
  | nil => exact hr
  | cons c cs ih =>
    obtain ⟨v, hv, hfixed⟩ := hr
    have hstep : (r.apply c).Retains key ⟨v, p.attributes⟩ :=
      retains_apply hv hc fun k u hcu => hsafe [] k u cs (by rw [hcu, List.nil_append])
    refine ih (.trans hfixed hstep) fun before k u after hcs => ?_
    exact hsafe (c :: before) k u after (by rw [hcs, List.cons_append])

/-- What is not configurable is permanent: a property stays with its attributes, and with its value if
that cannot be written, at all times of a sequence of writes, definitions and deletions if and only if
no write of the sequence cuts it off an array, or moves it as the length of one. -/
theorem nonconfigurable_properties_stay (r : Record) (key : String) (p : Property)
    (h : r.getOwn? key = some p) (hc : p.attributes.configurable = false) (changes : List Change) :
    (∀ before after, changes = before ++ after → (before.foldl apply r).Retains key p) ↔
      ∀ before k v after, changes = before ++ .perform (.put k v) :: after →
        ¬ (before.foldl apply r).Breaks k v key := by
  constructor
  · intro hstays before k v after hcut hbreaks
    obtain ⟨u, hu, hfixed⟩ := hstays before _ hcut
    have hnext := hstays (before ++ [.perform (.put k v)]) after (by rw [hcut, List.append_assoc]; rfl)
    rw [List.foldl_append] at hnext
    obtain ⟨w, hw, hfixed'⟩ := hnext
    exact hbreaks.not_retains hu ⟨w, hw, fun hn => (hfixed' hn).trans (hfixed hn).symm⟩
  · rintro hsafe before after rfl
    refine retains_applyAll (retains_of_getOwn? h) hc fun pre k v post hpre => ?_
    exact hsafe pre k v (post ++ after) (by rw [hpre, List.append_assoc, List.cons_append])

def withFixedElement : Record := emptyArray.setProperty "0" ⟨.null, .fixed⟩

/-- The element is written, deleted and redefined, and the length is forgotten. -/
theorem nonconfigurable_properties_stay_element :
    withFixedElement.getOwn? "0" = some ⟨.null, .fixed⟩ ∧
      ([.perform (.put "0" .unknown), .perform (.delete "0"), .define "0" (.data .undefined),
          .perform (.put "length" .unknown)].foldl apply withFixedElement).Retains "0"
        ⟨.null, .fixed⟩ := by
  have h : withFixedElement.getOwn? "0" = some ⟨.null, .fixed⟩ := by simp [withFixedElement]
  refine ⟨h, (nonconfigurable_properties_stay withFixedElement "0" _ h rfl _).mpr ?_ _ []
    (List.append_nil _).symm⟩
  intro before k v after hcut hbreaks
  have hmem : Change.perform (.put k v) ∈ before ++ .perform (.put k v) :: after := by simp
  rw [← hcut] at hmem
  simp only [List.mem_cons, List.not_mem_nil, or_false, Change.perform.injEq, Operation.put.injEq,
    reduceCtorEq, false_or] at hmem
  obtain ⟨-, rfl⟩ | ⟨-, rfl⟩ := hmem
  · exact absurd hbreaks.of_unknown.1 (by decide)
  · exact absurd hbreaks.of_unknown.1 (by decide)

theorem lengthOf?_ofNat {n : Nat} (h : n ≤ maxArrayLength) :
    lengthOf? (Number.ofNat n) = some n := by
  unfold lengthOf?
  rw [Number.toNat?_ofNat (Nat.lt_of_le_of_lt h (by decide))]
  simp [h]

def withFixedLength : Record := (empty .array).setProperty "length" ⟨.number (Number.ofNat 0), .fixed⟩

/-- A shorter length drops an element that cannot be deleted, and a new element moves a length that cannot
be written. -/
theorem nonconfigurable_properties_break :
    withFixedElement.getOwn? "0" = some ⟨.null, .fixed⟩ ∧
      ¬ ([.perform (.put "length" (.number (Number.ofNat 0)))].foldl apply withFixedElement).Retains "0"
        ⟨.null, .fixed⟩ ∧
      withFixedLength.getOwn? "length" = some ⟨.number (Number.ofNat 0), .fixed⟩ ∧
      ¬ ([.perform (.put "3" .null)].foldl apply withFixedLength).Retains "length"
        ⟨.number (Number.ofNat 0), .fixed⟩ := by
  have helement : withFixedElement.getOwn? "0" = some ⟨.null, .fixed⟩ := by simp [withFixedElement]
  have hlength : withFixedLength.getOwn? "length" = some ⟨.number (Number.ofNat 0), .fixed⟩ := by
    simp [withFixedLength]
  have hcut : withFixedElement.Breaks "length" (.number (Number.ofNat 0)) "0" :=
    .cuts rfl (lengthOf?_ofNat (by decide)) (by decide) (Nat.le_refl 0)
  have hover : withFixedLength.Overruns "3" :=
    ⟨rfl, 3, _, _, by decide, hlength, rfl, by rw [Number.leNat_ofNat (by decide)]; rfl⟩
  have hmove : withFixedLength.Breaks "3" .null "length" := .moves hover rfl
  exact ⟨helement, hcut.not_retains helement, hlength, hmove.not_retains hlength⟩

end Record
end Surmise
