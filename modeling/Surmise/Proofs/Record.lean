import Surmise.Evaluation.Tree

/-! What the operations on records change, and what they keep. Of the parts besides the properties
nothing ever changes. -/
namespace Surmise

theorem Dict.insert_self {α : Type} {d : Dict α} {key : String} {a : α} (h : d.get? key = some a) :
    d.insert key a = d := by
  have hm : key ∈ d.keys := (d.mem_keys key).mpr (Option.isSome_of_eq_some h)
  apply Dict.ext
  · rw [keys_insert, if_pos hm]
  · intro k
    rw [get?_insert]
    split
    next hk => rw [← hk, h]
    next => rfl

namespace Record

def shape (r : Record) : ObjectClass × Option Value × Option Callable × Bool :=
  (r.objectClass, r.primitive, r.callable, r.extensible)

@[simp]
theorem getOwn?_setProperty (r : Record) (key k : String) (p : Property) :
    (r.setProperty key p).getOwn? k = if key = k then some p else r.getOwn? k :=
  Dict.get?_insert r.properties key k p

theorem keys_setProperty (r : Record) (key : String) (p : Property) :
    (r.setProperty key p).keys = if key ∈ r.keys then r.keys else r.keys ++ [key] :=
  Dict.keys_insert r.properties key p

theorem has_eq (r : Record) (key : String) : r.has key = (r.getOwn? key).isSome := by
  rw [Bool.eq_iff_iff]
  exact (r.properties.contains_iff key).trans (r.properties.mem_keys key)

theorem setProperty_self {r : Record} {key : String} {p : Property} (h : r.getOwn? key = some p) :
    r.setProperty key p = r := by
  unfold setProperty
  rw [Dict.insert_self h]

theorem shape_assign (r : Record) (key : String) (v : Value) :
    (r.assign key v).1.shape = r.shape := by
  unfold assign
  split <;> split <;> rfl

theorem shape_define (r : Record) (key : String) (p : Property) :
    (r.define key p).1.shape = r.shape := by
  unfold define
  split
  · split <;> rfl
  · rfl

theorem shape_delete (r : Record) (key : String) : (r.delete key).1.shape = r.shape := by
  unfold delete
  split
  · split <;> rfl
  · rfl

theorem shape_writeLength (r : Record) (v : Value) : (r.writeLength v).1.shape = r.shape := by
  unfold writeLength
  split
  · split <;> rfl
  · rfl

theorem shape_putLength (r : Record) (v : Value) : (r.putLength v).1.shape = r.shape := by
  cases v with
  | unknown => exact shape_writeLength r .unknown
  | number x =>
    simp only [putLength]
    split
    next n _ => exact shape_writeLength (r.dropElements n) (.number x)
    next => rfl
  | _ => rfl

theorem shape_coverIndex (r : Record) (i : Nat) : (r.coverIndex i).shape = r.shape := by
  unfold coverIndex
  split
  · split <;> rfl
  · rfl

theorem shape_putIndex (r : Record) (key : String) (i : Nat) (v : Value) :
    (r.putIndex key i v).1.shape = r.shape := by
  have h := shape_assign r key v
  unfold putIndex
  split
  next r' heq => rw [heq] at h; exact (shape_coverIndex r' i).trans h
  next r' heq => rw [heq] at h; exact h

theorem shape_put (r : Record) (key : String) (v : Value) : (r.put key v).1.shape = r.shape := by
  unfold put
  split
  · split
    · exact shape_putLength r v
    · split
      next i _ => exact shape_putIndex r key i v
      next => exact shape_assign r key v
  · exact shape_assign r key v

theorem shape_putElements (r : Record) (i : Nat) (vs : List (Option Value)) :
    (r.putElements i vs).shape = r.shape := by
  induction vs generalizing r i with
  | nil => rfl
  | cons v vs ih =>
    cases v with
    | none => exact ih r (i + 1)
    | some v => exact (ih _ (i + 1)).trans (shape_put r (indexKey i) v)

theorem shape_ofList (vs : List Value) : (ofList vs).shape = emptyArray.shape :=
  shape_putElements emptyArray 0 (vs.map some)

theorem shape_ofElements (vs : List (Option Value)) : (ofElements vs).shape = emptyArray.shape :=
  (shape_put _ "length" _).trans (shape_putElements emptyArray 0 vs)

theorem shape_ofEntries (es : List (String × Value)) :
    (ofEntries es).shape = (empty .object).shape := by
  suffices h : ∀ r : Record, (es.foldl (fun r e => (r.put e.1 e.2).1) r).shape = r.shape from
    h (empty .object)
  induction es with
  | nil => exact fun _ => rfl
  | cons e es ih => exact fun r => (ih _).trans (shape_put r e.1 e.2)

theorem objectClass_of_shape {r r' : Record} (h : r'.shape = r.shape) :
    r'.objectClass = r.objectClass :=
  congrArg Prod.fst h

theorem extensible_of_shape {r r' : Record} (h : r'.shape = r.shape) : r'.extensible = r.extensible :=
  congrArg (fun p => p.2.2.2) h

theorem callable_of_shape {r r' : Record} (h : r'.shape = r.shape) : r'.callable = r.callable :=
  congrArg (fun p => p.2.2.1) h

end Record

end Surmise
