import Surmise.Proofs.Store

/-! Values, records and heaps in which something may be unknown, compared with those they stand for. A
value stands for itself, and the unknown value stands for every value. -/
namespace Surmise

def Value.Covers (v w : Value) : Prop := v = .unknown ∨ v = w

/-- Nothing is told by `a`, or the same as by `b`. -/
def Told {α : Type} (a b : Option α) : Prop := a = none ∨ a = b

def Property.Covers (p q : Property) : Prop :=
  p.value.Covers q.value ∧ p.attributes = q.attributes

structure Record.Covers (r q : Record) : Prop where
  objectClass : r.objectClass = q.objectClass
  callable : r.callable = q.callable
  keys : r.keys = q.keys
  own : ∀ key, Option.Rel Property.Covers (r.getOwn? key) (q.getOwn? key)
  primitive : Option.Rel Value.Covers r.primitive q.primitive

structure Heap.Covers (h k : Heap) : Prop where
  size : h.size = k.size
  record : ∀ id, (h.record id).Covers (k.record id)

namespace Value.Covers

theorem refl (v : Value) : v.Covers v := .inr rfl

theorem unknown (v : Value) : Value.unknown.Covers v := .inl rfl

theorem eq_of_known {v w : Value} (h : v.Covers w) (hv : v.isUnknown = false) : v = w := by
  obtain rfl | h := h
  · cases hv
  · exact h

end Value.Covers

namespace Told

variable {α β : Type} {a b : Option α}

theorem refl (a : Option α) : Told a a := .inr rfl

theorem map (f : α → β) (h : Told a b) : Told (a.map f) (b.map f) := by
  obtain rfl | rfl := h
  · exact .inl rfl
  · exact .refl _

theorem eq_some (h : Told a b) {x : α} (ha : a = some x) : b = some x := by
  obtain rfl | rfl := h
  · cases ha
  · exact ha

theorem of_eq_some (h : ∀ x, a = some x → b = some x) : Told a b := by
  cases a with
  | none => exact .inl rfl
  | some x => exact .inr (h x rfl).symm

end Told

namespace Value

theorem covers_ofNumber? {a b : Option Float} (h : Told a b) : (ofNumber? a).Covers (ofNumber? b) := by
  obtain rfl | rfl := h
  · exact .unknown _
  · exact .refl _

theorem covers_ofBool? {a b : Option Bool} (h : Told a b) : (ofBool? a).Covers (ofBool? b) := by
  obtain rfl | rfl := h
  · exact .unknown _
  · exact .refl _

theorem covers_ofString? {a b : Option String} (h : Told a b) :
    (ofString? a).Covers (ofString? b) := by
  obtain rfl | rfl := h
  · exact .unknown _
  · exact .refl _

theorem told_truth? {v w : Value} (h : v.Covers w) : Told v.truth? w.truth? := by
  obtain rfl | rfl := h
  · exact .inl rfl
  · exact .refl _

end Value

theorem rel_refl {α : Type} {r : α → α → Prop} (hr : ∀ a, r a a) (x : Option α) :
    Option.Rel r x x := by
  cases x with
  | none => exact .none
  | some a => exact .some (hr a)

theorem rel_isSome {α β : Type} {r : α → β → Prop} {x : Option α} {y : Option β}
    (h : Option.Rel r x y) : x.isSome = y.isSome := by
  cases h <;> rfl

namespace Property

theorem Covers.refl (p : Property) : p.Covers p := ⟨.refl _, rfl⟩

end Property

namespace Record

variable {r q : Record}

theorem Covers.refl (r : Record) : r.Covers r where
  objectClass := rfl
  callable := rfl
  keys := rfl
  own _ := rel_refl .refl _
  primitive := rel_refl .refl _

theorem Covers.setProperty (h : r.Covers q) (key : String) {p p' : Property} (hp : p.Covers p') :
    (r.setProperty key p).Covers (q.setProperty key p') where
  objectClass := h.objectClass
  callable := h.callable
  keys := by rw [keys_setProperty, keys_setProperty, h.keys]
  own k := by
    rw [getOwn?_setProperty, getOwn?_setProperty]
    split
    · exact .some hp
    · exact h.own k
  primitive := h.primitive

theorem Covers.get (h : r.Covers q) (key : String) : (r.get key).Covers (q.get key) := by
  have hk := h.own key
  unfold Record.get
  generalize r.getOwn? key = p?, q.getOwn? key = q? at hk ⊢
  cases hk with
  | none => exact .refl _
  | some hp => exact hp.1

theorem Covers.has (h : r.Covers q) (key : String) : r.has key = q.has key := by
  rw [has_eq, has_eq, rel_isSome (h.own key)]

theorem Covers.wrapped (h : r.Covers q) :
    (r.primitive.getD .undefined).Covers (q.primitive.getD .undefined) := by
  have hp := h.primitive
  generalize r.primitive = v?, q.primitive = w? at hp ⊢
  cases hp with
  | none => exact .refl _
  | some hv => exact hv

theorem Covers.extent (h : r.Covers q) : r.extent = .unknown ∨ r.extent = q.extent := by
  have hl := h.get "length"
  unfold Record.extent Record.arrayLength
  obtain hl | hl := hl
  · rw [hl]; exact .inl rfl
  · rw [hl]; exact .inr rfl

end Record

namespace Heap

variable {h k : Heap}

theorem Covers.refl (h : Heap) : h.Covers h := ⟨rfl, fun id => .refl (h.record id)⟩

theorem Covers.allocate (hk : h.Covers k) {r q : Record} (hr : r.Covers q) :
    (h.allocate r).1.Covers (k.allocate q).1 where
  size := by rw [size_allocate, size_allocate, hk.size]
  record id := by
    rw [record_allocate, record_allocate, hk.size]
    split
    · exact hr
    · exact hk.record id

theorem Covers.callable? (hk : h.Covers k) (v : Value) : h.callable? v = k.callable? v := by
  cases v with
  | object id => exact (hk.record id).callable
  | _ => rfl

theorem Covers.isCallable (hk : h.Covers k) (v : Value) : h.isCallable v = k.isCallable v := by
  rw [Heap.isCallable, Heap.isCallable, hk.callable? v]

end Heap
end Surmise
