import Surmise.Proofs.ArrayLength
import Surmise.Proofs.Widening

/-! Widening makes values unknown and does little else: what is there stays there under its attributes,
with its value or with the unknown one, and what comes in is unknown. The one value that is made up is the
length of an array, which is moved beyond an element that skipped code could have added. -/
namespace Surmise

/-! ### Records -/

namespace Record

variable {r : Record} {key : String}

/-- The number `x` was the length of the array `r` and did not reach beyond the element `i`, which is
now unknown; the length now ends behind it. -/
def Outgrows (r : Record) (x : Float) (v : Value) : Prop :=
  ∃ i k p, v = .number (Number.ofNat (i + 1)) ∧ Number.leNat x i = true ∧ arrayIndex? k = some i ∧
    r.getOwn? k = some p ∧ p.value = .unknown

/-- The value `v` of a property may have become `v'`: it is the same or unknown, unless it is the length
of an array that was outgrown. -/
def Blurs (r : Record) (key : String) (v v' : Value) : Prop :=
  v' = v ∨ v' = .unknown ∨
    r.objectClass = .array ∧ key = "length" ∧ ∃ x, v = .number x ∧ r.Outgrows x v'

/-- Nothing was lost from `r` to `r'` but values, and what was added is unknown. -/
structure Fades (r r' : Record) : Prop where
  shape : r'.shape = r.shape
  kept : ∀ key p, r.getOwn? key = some p →
    ∃ v, r'.getOwn? key = some ⟨v, p.attributes⟩ ∧ r'.Blurs key p.value v
  added : ∀ key p, r.getOwn? key = none → r'.getOwn? key = some p → p.value = .unknown

theorem Blurs.unknown {v : Value} (h : r.Blurs key .unknown v) : v = .unknown := by
  obtain h | h | ⟨_, _, x, hx, _⟩ := h
  · exact h
  · exact h
  · cases hx

namespace Fades
variable {r r' r'' : Record} {v : Value}

theorem refl (r : Record) : r.Fades r where
  shape := rfl
  kept _ p h := ⟨p.value, h, .inl rfl⟩
  added key p h h' := by
    rw [h] at h'
    cases h'

theorem unknown (h : r.Fades r') {key : String} {p : Property} (hp : r.getOwn? key = some p)
    (hu : p.value = .unknown) : ∃ p', r'.getOwn? key = some p' ∧ p'.value = .unknown := by
  obtain ⟨v, hv, hb⟩ := h.kept key p hp
  rw [hu] at hb
  exact ⟨_, hv, hb.unknown⟩

theorem outgrows (h : r.Fades r') {x : Float} (ho : r.Outgrows x v) : r'.Outgrows x v := by
  obtain ⟨i, k, p, hv, hx, hk, hp, hu⟩ := ho
  obtain ⟨p', hp', hu'⟩ := h.unknown hp hu
  exact ⟨i, k, p', hv, hx, hk, hp', hu'⟩

theorem outgrows_trans {x y : Float} (h : r.Outgrows x (.number y)) (h' : r'.Outgrows y v) :
    r'.Outgrows x v := by
  obtain ⟨i, k, _, hy, hx, hk, _, _⟩ := h
  obtain ⟨j, l, p, hv, hle, hl, hp, hu⟩ := h'
  cases hy
  have hi := arrayIndex?_lt hk
  rw [Number.leNat_ofNat (by simp only [maxArrayLength] at hi; omega), decide_eq_true_eq] at hle
  exact ⟨j, l, p, hv, Number.leNat_mono hx (by omega), hl, hp, hu⟩

theorem blurs_trans (h : r'.Fades r'') {key : String} {u w : Value} (huv : r'.Blurs key u v)
    (hvw : r''.Blurs key v w) : r''.Blurs key u w := by
  obtain rfl | rfl | ⟨ha, hkey, x, rfl, ho⟩ := huv
  · exact hvw
  · exact .inr (.inl hvw.unknown)
  · have ha' : r''.objectClass = .array := (objectClass_of_shape h.shape).trans ha
    obtain rfl | rfl | ⟨_, _, y, rfl, ho'⟩ := hvw
    · exact .inr (.inr ⟨ha', hkey, x, rfl, h.outgrows ho⟩)
    · exact .inr (.inl rfl)
    · exact .inr (.inr ⟨ha', hkey, x, rfl, outgrows_trans ho ho'⟩)

theorem trans (h : r.Fades r') (h' : r'.Fades r'') : r.Fades r'' where
  shape := h'.shape.trans h.shape
  kept key p hp := by
    obtain ⟨v, hv, hb⟩ := h.kept key p hp
    obtain ⟨w, hw, hb'⟩ := h'.kept key _ hv
    exact ⟨w, hw, h'.blurs_trans hb hb'⟩
  added key p hp hp'' := by
    cases hp' : r'.getOwn? key with
    | none => exact h'.added key p hp' hp''
    | some q =>
      obtain ⟨p', heq, hu⟩ := h'.unknown hp' (h.added key q hp hp')
      rw [hp''] at heq
      cases heq
      exact hu

end Fades

/-! ### Writing the unknown value to a record -/

theorem fades_setProperty {a : Attributes} (ha : ∀ p, r.getOwn? key = some p → p.attributes = a) :
    r.Fades (r.setProperty key ⟨.unknown, a⟩) where
  shape := rfl
  kept k p hp := by
    by_cases hk : key = k
    · subst hk
      refine ⟨.unknown, ?_, .inr (.inl rfl)⟩
      rw [getOwn?_setProperty, if_pos rfl, ha p hp]
    · refine ⟨p.value, ?_, .inl rfl⟩
      rw [getOwn?_setProperty, if_neg hk, hp]
  added k p hp hp' := by
    rw [getOwn?_setProperty] at hp'
    split at hp'
    · cases hp'
      rfl
    · rw [hp] at hp'
      cases hp'

theorem fades_assign (r : Record) (key : String) : r.Fades (r.assign key .unknown).1 := by
  unfold assign
  split
  next old hold =>
    split
    · refine fades_setProperty fun p hp => ?_
      rw [hold] at hp
      cases hp
      rfl
    · exact .refl r
  next hnone =>
    split
    · refine fades_setProperty fun p hp => ?_
      rw [hnone] at hp
      cases hp
    · exact .refl r

theorem fades_writeLength (r : Record) : r.Fades (r.writeLength .unknown).1 := by
  unfold writeLength
  split
  next old hold =>
    split
    · refine fades_setProperty fun p hp => ?_
      rw [hold] at hp
      cases hp
      rfl
    · exact .refl r
  next => exact .refl r

theorem fades_coverIndex {k : String} {i : Nat} {p : Property} (hc : r.objectClass = .array)
    (hk : arrayIndex? k = some i) (hp : r.getOwn? k = some p) (hu : p.value = .unknown) :
    r.Fades (r.coverIndex i) := by
  unfold coverIndex
  split
  next x a hlen =>
    split
    next hle =>
      -- only the length changes, and `k` is the element that it had not covered
      have hkl : "length" ≠ k := (ne_length_of_index hk).symm
      refine ⟨rfl, fun key q hq => ?_, fun key q hq hq' => ?_⟩
      · by_cases hl : "length" = key
        · subst hl
          rw [hlen] at hq
          cases hq
          refine ⟨.number (Number.ofNat (i + 1)), by simp, .inr (.inr ⟨hc, rfl, x, rfl, ?_⟩)⟩
          exact ⟨i, k, p, rfl, hle, hk, by simp [hkl, hp], hu⟩
        · exact ⟨q.value, by simp [hl, hq], .inl rfl⟩
      · by_cases hl : "length" = key
        · subst hl
          rw [hlen] at hq
          cases hq
        · simp [hl, hq] at hq'
    next => exact .refl r
  next => exact .refl r

theorem fades_putIndex {i : Nat} (hc : r.objectClass = .array) (hk : arrayIndex? key = some i) :
    r.Fades (r.putIndex key i .unknown).1 := by
  have hassign := r.fades_assign key
  unfold putIndex
  split
  next r' heq =>
    obtain rfl : r' = (r.assign key .unknown).1 := by rw [heq]
    have helement : ∃ p, (r.assign key .unknown).1.getOwn? key = some p ∧ p.value = .unknown := by
      unfold assign at heq ⊢
      split at heq <;> split at heq <;> simp_all [Property.data]
    obtain ⟨p, hp, hu⟩ := helement
    have hc' : (r.assign key .unknown).1.objectClass = .array :=
      (objectClass_of_shape hassign.shape).trans hc
    exact hassign.trans (fades_coverIndex hc' hk hp hu)
  next r' heq =>
    rw [assign_refused heq]
    exact .refl r

theorem fades_put (r : Record) (key : String) : r.Fades (r.put key .unknown).1 := by
  unfold put
  split
  next hc =>
    split
    · exact r.fades_writeLength
    · split
      next i hi => exact fades_putIndex hc hi
      next => exact r.fades_assign key
  next => exact r.fades_assign key

end Record

/-! ### Stores -/

/-- Nothing was lost from `s` to `t` but values, neither of bindings nor of objects, and what was added are
unknown properties. -/
structure Store.Fades (s t : Store) : Prop where
  scopes : t.scopes.size = s.scopes.size
  object : ∀ id, (t.scope id).object = (s.scope id).object
  bound : ∀ id name b, s.binding? id name = some b →
    ∃ v, t.binding? id name = some ⟨v, b.mutable⟩ ∧ (v = b.value ∨ v = .unknown)
  unbound : ∀ id name, s.binding? id name = none → t.binding? id name = none
  heap : t.heap.size = s.heap.size
  record : ∀ id, (s.heap.record id).Fades (t.heap.record id)

namespace Store

variable {s : Store}

theorem Fades.refl (s : Store) : s.Fades s where
  scopes := rfl
  object _ := rfl
  bound _ _ b h := ⟨b.value, h, .inl rfl⟩
  unbound _ _ h := h
  heap := rfl
  record _ := .refl _

theorem Fades.trans {t u : Store} (h : s.Fades t) (h' : t.Fades u) : s.Fades u where
  scopes := h'.scopes.trans h.scopes
  object id := (h'.object id).trans (h.object id)
  bound id name b hb := by
    obtain ⟨v, hv, hor⟩ := h.bound id name b hb
    obtain ⟨w, hw, hor'⟩ := h'.bound id name _ hv
    refine ⟨w, hw, ?_⟩
    obtain rfl | rfl := hor'
    · exact hor
    · exact .inr rfl
  unbound id name hb := h'.unbound id name (h.unbound id name hb)
  heap := h'.heap.trans h.heap
  record id := (h.record id).trans (h'.record id)

theorem fades_put (s : Store) (id : ObjectId) (key : String) : s.Fades (s.put id key .unknown).1 where
  scopes := rfl
  object _ := rfl
  bound _ _ b h := ⟨b.value, h, .inl rfl⟩
  unbound _ _ h := h
  heap := s.heap.size_update id fun r => r.put key .unknown
  record j := by
    rw [record_put]
    split
    · exact Record.fades_put _ key
    · exact .refl _

theorem fades_bind {id : ScopeId} {name : String} {b : Binding} (h : s.binding? id name = some b) :
    s.Fades (s.bind id name { b with value := .unknown }) where
  scopes := s.size_scopes_bind id name _
  object j := s.object_bind id j name _
  bound j n b' hb := by
    rw [binding?_bind]
    split
    next hj =>
      obtain ⟨⟨rfl, _⟩, rfl⟩ := hj
      rw [h] at hb
      cases hb
      exact ⟨.unknown, rfl, .inr rfl⟩
    next => exact ⟨b'.value, hb, .inl rfl⟩
  unbound j n hb := by
    rw [binding?_bind]
    split
    next hj =>
      obtain ⟨⟨rfl, _⟩, rfl⟩ := hj
      rw [h] at hb
      cases hb
    next => exact hb
  heap := rfl
  record _ := .refl _

theorem fades_forgetName (s : Store) (chain : Chain) (name : String) :
    s.Fades (s.forgetName chain name) :=
  assign_ind (P := s.Fades) (.refl s) (fun _ _ hb _ => fades_bind hb)
    fun _ object _ _ _ => s.fades_put object name

theorem Forgets.fades {t : Store} (h : s.Forgets t) : s.Fades t := by
  induction h with
  | refl => exact .refl s
  | tail _ hstep ih =>
    refine ih.trans ?_
    cases hstep with
    | name chain name => exact fades_forgetName _ chain name
    | property id key => exact fades_put _ id key

end Store

/-! ### Widening -/

/-- Widening code keeps every binding and every property with its attributes, and makes no value up but
the length of an array that an unknown element has outgrown. -/
theorem widening_only_forgets (chain : Chain) (s : Store) :
    (∀ t : Stmt, s.Fades (t.widen chain s)) ∧ ∀ e : Expr, s.Fades (e.widen chain s) :=
  ⟨fun t => (t.forgets_widen chain s).fades, fun e => (e.forgets_widen chain s).fades⟩

def Store.listing : Store where
  heap := ⟨#[.ofEntries [("a", .object ⟨1⟩)], .emptyArray]⟩
  scopes := #[{ object := some ⟨0⟩ }]

def Stmt.extending : Stmt :=
  .expression (.assign .assign
    (.member (.index (.identifier ⟨"a", default⟩) (.literal (.string "5")) default)) (.literal .null))

theorem Record.put_sixth :
    (emptyArray.put "5" .unknown).1 = (emptyArray.setProperty "5" (.data .unknown)).setProperty
      "length" ⟨.number (Number.ofNat 6), .lengthOfArray⟩ := by
  have hle : Number.leNat 0 5 = true := by
    rw [← Number.ofNat_zero, Number.leNat_ofNat (by decide)]
    rfl
  have hindex : arrayIndex? "5" = some 5 := by decide
  have hclass : emptyArray.objectClass = .array := rfl
  have hopen : emptyArray.extensible = true := rfl
  have hnew : emptyArray.getOwn? "5" = none := rfl
  have hlength : emptyArray.getOwn? "length" = some ⟨.number 0, .lengthOfArray⟩ := rfl
  simp [put, putIndex, assign, coverIndex, hindex, hclass, hopen, hnew, hlength, hle]

/-- Code that was skipped makes an array six elements long. -/
theorem widening_lengthens_array :
    (Store.listing.heap.record ⟨1⟩).get "length" = .number (Number.ofNat 0) ∧
      ((Stmt.extending.widen [⟨0⟩] .listing).heap.record ⟨1⟩).get "length" =
        .number (Number.ofNat 6) ∧
      Number.ofNat 6 ≠ Number.ofNat 0 := by
  refine ⟨?_, ?_, fun h => ?_⟩
  · rw [Number.ofNat_zero]
    rfl
  · change ((Record.emptyArray.put "5" .unknown).1).get "length" = _
    rw [Record.put_sixth]
    simp [Record.get]
  · have h6 := Number.toNat?_ofNat (n := 6) (by decide)
    rw [h, Number.toNat?_ofNat (by decide)] at h6
    cases h6

end Surmise
