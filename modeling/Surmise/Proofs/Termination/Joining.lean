import Surmise.Proofs.Termination.Depth

/-! Arrays that are joined on a stack. One stack can hold the arrays that are being joined, if each of them is
pushed before its elements are converted and popped on every way out. A conversion then leaves the stack as it
found it, and however the arrays of a heap hold one another, they all have room there. -/
namespace Surmise

abbrev Stacked := List ObjectId → Option (Value × List ObjectId)

namespace Stacked

def push? (room : Nat) (id : ObjectId) (stack : List ObjectId) : Option (List ObjectId) :=
  if stack.length < room then some (id :: stack) else none

def element (primitive : ObjectId → Stacked) (v : Value) : Stacked := fun stack =>
  match v with
  | .object id => (primitive id stack).bind fun p => (elementText (fun _ => some p.1) v).map (·, p.2)
  | _ => (elementText (fun _ => none) v).map (·, stack)

def elements (part : Nat → Stacked) : Nat → Nat → List String → Stacked
  | 0, _, done, stack => some (.string (",".intercalate done.reverse), stack.tail)
  | n + 1, i, done, stack =>
    match part i stack with
    | some (.string s, stack) => elements part n (i + 1) (s :: done) stack
    | some (_, stack) => some (.unknown, stack.tail)
    | none => none

end Stacked

/-- The primitive value of an object, found with the arrays that are being joined on a stack, where there is
room for so many. The parts of an error are converted on a stack of their own, in the room that is left. -/
def Heap.primitiveOn? (h : Heap) : (fuel room : Nat) → ObjectId → Stacked
  | 0, _, _, _ => none
  | fuel + 1, room, id, stack =>
    let r := h.record id
    match r.objectClass with
    | .array =>
      if stack.contains id then some (.string "", stack)
      else
        match r.extent with
        | .walkable n =>
          (Stacked.push? room id stack).bind fun stack =>
            Stacked.elements
              (fun i => Stacked.element (h.primitiveOn? fuel room) (r.get (indexKey i))) n 0 [] stack
        | _ => some (.unknown, stack)
    | .error _ =>
      let part (id : ObjectId) : Option Value :=
        (h.primitiveOn? fuel (room - stack.length) id []).map Prod.fst
      (errorText (Value.settle part (h.size + 1)) r).map (·, stack)
    | _ => (h.primitiveOf? 1 [] id).map (·, stack)

/-! ### The stack is left as it was found -/

theorem Stacked.element_eq {primitive : ObjectId → Stacked} {primitive' : ObjectId → Option Value}
    {stack : List ObjectId} (h : ∀ id, primitive id stack = (primitive' id).map (·, stack)) (v : Value) :
    element primitive v stack = (elementText primitive' v).map (·, stack) := by
  cases v with
  | object id =>
    unfold element elementText
    dsimp only
    rw [h id]
    cases primitive' id <;> rfl
  | _ => rfl

theorem Stacked.elements_eq {part : Nat → Stacked} {part' : Nat → Option Value} {id : ObjectId}
    {stack : List ObjectId} (h : ∀ i, part i (id :: stack) = (part' i).map (·, id :: stack)) (n i : Nat)
    (done : List String) :
    elements part n i done (id :: stack) = (joinElements part' n i done).map (·, stack) := by
  induction n generalizing i done with
  | zero => rfl
  | succ n ih =>
    unfold elements joinElements
    rw [h i]
    cases part' i with
    | none => rfl
    | some v =>
      cases v with
      | string s => exact ih (i + 1) (s :: done)
      | _ => rfl

theorem errorText_congr {settled settled' : Value → Option Value} {r : Record}
    (hname : settled (r.get "name") = settled' (r.get "name"))
    (hmessage : settled (r.get "message") = settled' (r.get "message")) :
    errorText settled r = errorText settled' r := by
  unfold errorText
  rw [hname]
  cases settled' (r.get "name") with
  | none => rfl
  | some name =>
    dsimp only
    cases name.primitiveText? with
    | none => rfl
    | some text =>
      dsimp only
      split
      · rfl
      · rw [hmessage]

theorem Value.isObject_settle {primitive : ObjectId → Option Value} {n : Nat} {v w : Value}
    (hw : v.settle primitive n = some w) : w.isObject = false := by
  induction n generalizing v with
  | zero =>
    cases v with
    | object id => cases hw
    | _ =>
      cases hw
      rfl
  | succ n ih =>
    cases v with
    | object id =>
      rw [settle] at hw
      split at hw
      · exact ih hw
      · cases hw
    | _ =>
      cases hw
      rfl

namespace Heap
variable {h : Heap}

/-- If there is room for all arrays, joining on a stack gives the same value and keeps the stack. -/
theorem Shallow.primitiveOn?_eq (hs : h.Shallow) {room : Nat} (hroom : h.arrays.length ≤ room) (fuel : Nat)
    {stack : List ObjectId} (hstack : h.Entered stack) (id : ObjectId) :
    h.primitiveOn? fuel room id stack = (h.primitiveOf? fuel stack id).map (·, stack) := by
  induction fuel generalizing stack id with
  | zero => rfl
  | succ fuel ih =>
    unfold primitiveOn? primitiveOf?
    dsimp only
    cases hc : (h.record id).objectClass with
    | array =>
      dsimp only
      split
      · rfl
      next hnew =>
        have hstack' := hstack.cons hc hnew
        have hlength : stack.length < room := Nat.lt_of_lt_of_le hstack'.length_le hroom
        cases (h.record id).extent with
        | walkable n =>
          dsimp only
          rw [Stacked.push?, if_pos hlength, Option.bind_some]
          exact Stacked.elements_eq (fun i => Stacked.element_eq (ih hstack') _) n 0 []
        | _ => rfl
    | error kind =>
      -- the parts are no objects, so nothing is converted on the other stack
      obtain ⟨hname, hmessage⟩ := hs.errors id kind hc
      have hsame {v : Value} (hv : v.isObject = false) (part part' : ObjectId → Option Value) (n : Nat) :
          v.settle part n = v.settle part' n := by
        rw [Value.settle_of_not_object hv, Value.settle_of_not_object hv]
      exact congrArg (Option.map (·, stack)) (errorText_congr (hsame hname _ _ _) (hsame hmessage _ _ _))
    | _ => rfl

theorem Shallow.primitiveOf?_eq (hs : h.Shallow) {fuel : Nat} (hfuel : h.arrays.length < fuel)
    (id : ObjectId) : h.primitiveOf? fuel [] id = some (h.toPrimitive (.object id)) := by
  obtain ⟨v, hv⟩ := Option.isSome_iff_exists.mp (hs.isSome_primitiveOf? h.entered_nil hfuel id)
  rw [toPrimitive, primitiveOf?_conversionDepth hv]
  exact hv

theorem Shallow.settle_eq (hs : h.Shallow) {fuel : Nat} (hfuel : h.arrays.length < fuel) (v : Value) {n : Nat}
    (hn : 0 < n) : v.settle (h.primitiveOf? fuel []) n = some (h.settled v) := by
  by_cases hv : v.isObject = false
  · rw [Heap.settled, Value.settle_of_not_object hv, Value.settle_of_not_object hv, Option.getD_some]
  · cases v with
    | object id =>
      have hprimitive := hs.primitiveOf?_eq hfuel id
      rw [Heap.settled, hs.flat.settle_eq hn hprimitive,
        hs.flat.settle_eq (Nat.succ_pos _) (primitiveOf?_conversionDepth hprimitive), Option.getD_some]
    | _ => exact absurd rfl hv

end Heap

/-- In a heap where no error has an object for its name or its message and no wrapper holds one, conversions
come to an end on every value, however the arrays hold one another. The arrays that are being joined at one
time are never more than there are arrays, and when the conversion is done, with whatever outcome, none of
them is left on the stack. -/
theorem conversions_end {h : Heap} (hs : h.Shallow) {fuel : Nat} (hfuel : h.arrays.length < fuel) :
    (∀ id, h.primitiveOf? fuel [] id = some (h.toPrimitive (.object id)) ∧
      h.primitiveOn? fuel h.arrays.length id [] = some (h.toPrimitive (.object id), [])) ∧
    ∀ v : Value, ∃ w : Value, w.isObject = false ∧
      (∀ n, 0 < n → v.settle (h.primitiveOf? fuel []) n = some w) ∧
      h.toText? v = w.primitiveText? ∧ h.toNumber? v = w.primitiveNumber? := by
  refine ⟨fun id => ?_, fun v => ?_⟩
  · have hprimitive := hs.primitiveOf?_eq hfuel id
    refine ⟨hprimitive, ?_⟩
    rw [hs.primitiveOn?_eq (Nat.le_refl _) fuel h.entered_nil, hprimitive, Option.map_some]
  · have hsettled (n : Nat) (hn : 0 < n) := hs.settle_eq hfuel v hn
    exact ⟨h.settled v, Value.isObject_settle (hsettled 1 Nat.one_pos), hsettled, rfl, rfl⟩

def tangled : Heap :=
  ⟨#[.ofList [.object ⟨1⟩, .object ⟨0⟩], .ofList [.object ⟨0⟩, .object ⟨2⟩],
    .ofError .typeError (.string "E") .unknown,
    { objectClass := .boolean, primitive := some (.boolean true) }]⟩

theorem shallow_tangled : tangled.Shallow := by
  have hcases (id : ObjectId) : id ∈ tangled.arrays ∨ id = ⟨2⟩ ∨ id = ⟨3⟩ ∨ tangled.record id = default := by
    rw [show tangled.arrays = [⟨0⟩, ⟨1⟩] by decide +kernel]
    obtain ⟨_ | _ | _ | _ | i⟩ := id
    · exact .inl (.head _)
    · exact .inl (.tail _ (.head _))
    · exact .inr (.inl rfl)
    · exact .inr (.inr (.inl rfl))
    · exact .inr (.inr (.inr (Heap.record_of_size_le (Nat.le_add_left 4 i))))
  refine ⟨fun id kind hc => ?_, fun id v hw hv => ?_⟩
  · obtain harray | rfl | rfl | hr := hcases id
    · rw [Heap.mem_arrays.mp harray] at hc
      cases hc
    · exact ⟨rfl, rfl⟩
    · cases hc
    · rw [hr] at hc
      cases hc
  · obtain harray | rfl | rfl | hr := hcases id
    · rw [Heap.mem_arrays.mp harray] at hw
      cases hw
    · cases hw
    · cases hv
      rfl
    · rw [hr] at hw
      cases hw

theorem conversions_end_tangled :
    tangled.Shallow ∧ tangled.arrays.length < 3 ∧
      tangled.primitiveOn? 3 2 ⟨0⟩ [] = some (tangled.toPrimitive (.object ⟨0⟩), []) := by
  have hlength : tangled.arrays.length = 2 := by decide +kernel
  have hfuel : tangled.arrays.length < 3 := by omega
  refine ⟨shallow_tangled, hfuel, ?_⟩
  have hend := ((conversions_end shallow_tangled hfuel).1 ⟨0⟩).2
  rwa [hlength] at hend

end Surmise
