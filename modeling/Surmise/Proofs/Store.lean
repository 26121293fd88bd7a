import Surmise.Proofs.Record

/-! What is found in a heap or a store after one of their operations. -/
namespace Surmise

namespace Heap

theorem record_allocate (h : Heap) (r : Record) (id : ObjectId) :
    (h.allocate r).1.record id = if id.index = h.size then r else h.record id := by
  unfold record size allocate
  simp only [Array.getD_eq_getD_getElem?, Array.getElem?_push]
  split <;> rfl

theorem record_of_size_le {h : Heap} {id : ObjectId} (hid : h.size ≤ id.index) :
    h.record id = default := by
  unfold size at hid
  simp [record, Array.getD_eq_getD_getElem?, hid]

theorem record_modify (h : Heap) (id j : ObjectId) (f : Record → Record) :
    (h.modify id f).record j =
      if id = j ∧ id.index < h.size then f (h.record j) else h.record j := by
  have hij : id.index = j.index ↔ id = j := by
    obtain ⟨i⟩ := id
    obtain ⟨k⟩ := j
    simp
  unfold record size modify
  simp only [Array.getD_eq_getD_getElem?, Array.getElem?_modify]
  by_cases he : id = j
  · subst he
    by_cases hlt : id.index < h.records.size
    · simp [hlt]
    · simp [hlt]
  · simp [hij, he]

theorem ext_record {h k : Heap} (hs : h.size = k.size) (hr : ∀ id, h.record id = k.record id) :
    h = k := by
  obtain ⟨xs⟩ := h
  obtain ⟨ys⟩ := k
  congr 1
  refine Array.ext hs fun i hi hj => ?_
  have hg := hr ⟨i⟩
  simpa [record, hi, hj] using hg

@[simp]
theorem size_modify (h : Heap) (id : ObjectId) (f : Record → Record) :
    (h.modify id f).size = h.size := by
  simp [size, modify]

@[simp]
theorem size_allocate (h : Heap) (r : Record) : (h.allocate r).1.size = h.size + 1 := by
  simp [size, allocate]

@[simp]
theorem size_update (h : Heap) (id : ObjectId) (f : Record → Record × Bool) :
    (h.update id f).1.size = h.size :=
  size_modify h id _

theorem snd_update (h : Heap) (id : ObjectId) (f : Record → Record × Bool) :
    (h.update id f).2 = (f (h.record id)).2 := rfl

theorem record_update (h : Heap) (id j : ObjectId) (f : Record → Record × Bool) :
    (h.update id f).1.record j =
      if id = j ∧ id.index < h.size then (f (h.record j)).1 else h.record j := by
  have hm := record_modify h id j fun _ => (f (h.record id)).1
  rw [show (h.update id f).1 = h.modify id fun _ => (f (h.record id)).1 from rfl, hm]
  by_cases he : id = j
  · subst he
    rfl
  · simp [he]

theorem modify_congr (h : Heap) (id : ObjectId) {f g : Record → Record}
    (hfg : f (h.record id) = g (h.record id)) : h.modify id f = h.modify id g := by
  refine ext_record (by simp) fun j => ?_
  rw [record_modify, record_modify]
  by_cases he : id = j
  · subst he
    rw [hfg]
  · simp [he]

theorem modify_modify (h : Heap) (id : ObjectId) (f g : Record → Record) :
    (h.modify id f).modify id g = h.modify id fun r => g (f r) := by
  refine ext_record (by simp) fun j => ?_
  simp only [record_modify, size_modify]
  split <;> rfl

theorem shape_update (h : Heap) (id j : ObjectId) (f : Record → Record × Bool)
    (hf : ∀ r, (f r).1.shape = r.shape) :
    ((h.update id f).1.record j).shape = (h.record j).shape := by
  rw [record_update]
  split
  · exact hf _
  · rfl

end Heap

namespace Store

variable {s : Store} {id : ScopeId} {name : String}

theorem scope_bind (s : Store) (id j : ScopeId) (name : String) (b : Binding) :
    (s.bind id name b).scope j =
      if id = j ∧ id.index < s.scopes.size then
        { s.scope j with bindings := (s.scope j).bindings.insert name b }
      else s.scope j := by
  have hij : id.index = j.index ↔ id = j := by
    obtain ⟨i⟩ := id
    obtain ⟨k⟩ := j
    simp
  unfold scope bind
  simp only [Array.getD_eq_getD_getElem?, Array.getElem?_modify]
  by_cases he : id = j
  · subst he
    by_cases hlt : id.index < s.scopes.size
    · simp [hlt]
    · simp [hlt]
  · simp [hij, he]

theorem scope_newScope (s : Store) (c : Scope) (j : ScopeId) :
    (s.newScope c).1.scope j = if j.index = s.scopes.size then c else s.scope j := by
  unfold scope newScope
  simp only [Array.getD_eq_getD_getElem?, Array.getElem?_push]
  split <;> rfl

theorem scope_of_size_le (h : s.scopes.size ≤ id.index) : s.scope id = {} := by
  rw [scope, Array.getD_eq_getD_getElem?, Array.getElem?_eq_none h]
  rfl

theorem lt_size_of_binding? {b : Binding} (h : s.binding? id name = some b) : id.index < s.scopes.size := by
  refine Nat.lt_of_not_le fun hle => ?_
  rw [binding?, scope_of_size_le hle] at h
  cases h

theorem scope_newScope_empty (s : Store) (c : ScopeId) : (s.newScope {}).1.scope c = s.scope c := by
  rw [scope_newScope]
  split
  next h => rw [scope_of_size_le (Nat.le_of_eq h.symm)]
  next => rfl

@[simp]
theorem size_newScope (s : Store) (c : Scope) :
    (s.newScope c).1.scopes.size = s.scopes.size + 1 := by
  simp [newScope]

@[simp]
theorem heap_onHeap {α : Type} (s : Store) (f : Heap → Heap × α) :
    (s.onHeap f).1.heap = (f s.heap).1 := rfl

@[simp]
theorem snd_onHeap {α : Type} (s : Store) (f : Heap → Heap × α) :
    (s.onHeap f).2 = (f s.heap).2 := rfl

@[simp]
theorem size_scopes_bind (s : Store) (id : ScopeId) (name : String) (b : Binding) :
    (s.bind id name b).scopes.size = s.scopes.size := by
  simp [bind]

theorem binding?_bind (s : Store) (c j : ScopeId) (name n : String) (b : Binding) :
    (s.bind c name b).binding? j n =
      if (c = j ∧ c.index < s.scopes.size) ∧ name = n then some b else s.binding? j n := by
  unfold binding?
  rw [scope_bind]
  by_cases h : c = j ∧ c.index < s.scopes.size
  · obtain ⟨rfl, hlt⟩ := h
    simp [hlt, Dict.get?_insert]
  · simp [h]

theorem record_put (s : Store) (id j : ObjectId) (key : String) (v : Value) :
    (s.put id key v).1.heap.record j =
      if id = j ∧ id.index < s.heap.size then ((s.heap.record j).put key v).1 else s.heap.record j :=
  s.heap.record_update id j fun r => r.put key v

theorem record_define (s : Store) (id j : ObjectId) (key : String) (p : Property) :
    (s.define id key p).1.heap.record j =
      if id = j ∧ id.index < s.heap.size then ((s.heap.record j).define key p).1
      else s.heap.record j :=
  s.heap.record_update id j fun r => r.define key p

theorem record_delete (s : Store) (id j : ObjectId) (key : String) :
    (s.delete id key).1.heap.record j =
      if id = j ∧ id.index < s.heap.size then ((s.heap.record j).delete key).1 else s.heap.record j :=
  s.heap.record_update id j fun r => r.delete key

theorem foldl_put (s : Store) (id : ObjectId) (v : Value) (keys : List String) :
    keys.foldl (fun s key => (s.put id key v).1) s =
      { s with heap := s.heap.modify id fun r => keys.foldl (fun r key => (r.put key v).1) r } := by
  induction keys generalizing s with
  | nil =>
    have hm : s.heap.modify id (fun r => r) = s.heap :=
      Heap.ext_record (by simp) fun j => by rw [Heap.record_modify]; simp
    simp only [List.foldl_nil, hm]
  | cons key keys ih =>
    have hp : (s.put id key v).1.heap = s.heap.modify id fun r => (r.put key v).1 :=
      Heap.modify_congr s.heap id rfl
    rw [List.foldl_cons, ih, hp, Heap.modify_modify]
    rfl

theorem forgetAll_eq_foldl (s : Store) (id : ObjectId) :
    s.forgetAll id = (s.heap.record id).keys.foldl (fun s key => (s.put id key .unknown).1) s := by
  have hm : s.heap.modify id Record.forget = s.heap.modify id fun r =>
      (s.heap.record id).keys.foldl (fun r key => (r.put key .unknown).1) r :=
    Heap.modify_congr s.heap id rfl
  rw [foldl_put, forgetAll, hm]

/-- What an assignment to a name does in the scope that binds it: it writes to a binding or to a property
of the object of the scope. -/
theorem assignOwn?_eq (s : Store) (id : ScopeId) (name : String) (v : Value) :
    s.assignOwn? id name v =
      match s.binding? id name with
      | some b =>
        some (if b.mutable then (s.bind id name { b with value := v }, .done) else (s, .immutable))
      | none =>
        (s.scope id).object.bind fun object =>
          ((s.heap.record object).getOwn? name).map fun _ =>
            ((s.put object name v).1, if (s.put object name v).2 then .done else .immutable) := by
  unfold assignOwn?
  cases s.binding? id name with
  | some b => cases hm : b.mutable <;> simp [hm]
  | none =>
    cases (s.scope id).object with
    | none => rfl
    | some object =>
      dsimp only [Option.bind_some]
      rw [Record.has_eq]
      cases (s.heap.record object).getOwn? name with
      | none => rfl
      | some p =>
        cases hp : s.put object name v with
        | mk s' ok => cases ok <;> rfl

def ownSlot? (s : Store) (id : ScopeId) (name : String) : Option (Value × Bool) :=
  match s.binding? id name with
  | some b => some (b.value, b.mutable)
  | none =>
    (s.scope id).object.bind fun object =>
      ((s.heap.record object).getOwn? name).map fun p => (p.value, p.attributes.writable)

def slot? (s : Store) : Chain → String → Option (Value × Bool)
  | [], _ => none
  | id :: outer, name =>
    match s.ownSlot? id name with
    | some x => some x
    | none => s.slot? outer name

theorem hasOwn_eq (s : Store) (id : ScopeId) (name : String) :
    s.hasOwn id name = (s.ownSlot? id name).isSome := by
  unfold hasOwn ownSlot?
  cases s.binding? id name with
  | some b => rfl
  | none =>
    cases (s.scope id).object with
    | none => rfl
    | some object => simp [Record.has_eq]

theorem ownValue?_eq (s : Store) (id : ScopeId) (name : String) :
    s.ownValue? id name = (s.ownSlot? id name).map Prod.fst := by
  unfold ownValue? ownSlot?
  cases s.binding? id name with
  | some b => rfl
  | none =>
    cases (s.scope id).object with
    | none => rfl
    | some object =>
      dsimp only [Option.bind_some]
      rw [Record.has_eq, Heap.get, Record.get]
      cases (s.heap.record object).getOwn? name <;> rfl

theorem lookup_eq (s : Store) (chain : Chain) (name : String) :
    s.lookup chain name = (s.slot? chain name).map Prod.fst := by
  induction chain with
  | nil => rfl
  | cons id outer ih =>
    unfold lookup slot?
    rw [ownValue?_eq]
    cases s.ownSlot? id name with
    | some x => rfl
    | none => exact ih

theorem assign_cons_of_none (h : s.ownSlot? id name = none) (outer : Chain) (v : Value) :
    s.assign (id :: outer) name v = s.assign outer name v := by
  unfold ownSlot? at h
  rw [assign, assignOwn?_eq]
  cases hb : s.binding? id name with
  | some b => rw [hb] at h; cases h
  | none =>
    simp only [hb, Option.bind_eq_none_iff, Option.map_eq_none_iff] at h
    cases ho : (s.scope id).object with
    | none => rfl
    | some object =>
      dsimp only [Option.bind_some]
      rw [h object ho]
      rfl

/-- An assignment finds nothing to write to, a binding, or a property of the object of a scope. -/
theorem assign_spec (s : Store) (chain : Chain) (name : String) (v : Value) :
    (s.slot? chain name = none ∧ s.assign chain name v = (s, .unresolved)) ∨
      (∃ id b, s.binding? id name = some b ∧ s.slot? chain name = some (b.value, b.mutable) ∧
        s.assign chain name v =
          if b.mutable then (s.bind id name { b with value := v }, .done) else (s, .immutable)) ∨
      ∃ id ∈ chain, ∃ object p, (s.scope id).object = some object ∧
        (s.heap.record object).getOwn? name = some p ∧
        s.slot? chain name = some (p.value, p.attributes.writable) ∧
        s.assign chain name v =
          ((s.put object name v).1, if (s.put object name v).2 then .done else .immutable) := by
  induction chain with
  | nil => exact .inl ⟨rfl, rfl⟩
  | cons id outer ih =>
    cases hb : s.binding? id name with
    | some b => exact .inr (.inl ⟨id, b, hb, by simp [slot?, ownSlot?, hb], by
        simp [assign, assignOwn?_eq, hb]⟩)
    | none =>
      cases hx : s.ownSlot? id name with
      | none =>
        rw [slot?, hx, assign_cons_of_none hx]
        obtain h | h | ⟨j, hj, h⟩ := ih
        · exact .inl h
        · exact .inr (.inl h)
        · exact .inr (.inr ⟨j, .tail _ hj, h⟩)
      | some x =>
        have hx' := hx
        simp only [ownSlot?, hb, Option.bind_eq_some_iff, Option.map_eq_some_iff] at hx'
        obtain ⟨object, ho, p, hp, rfl⟩ := hx'
        refine .inr (.inr ⟨id, .head _, object, p, ho, hp, ?_, ?_⟩)
        · rw [slot?, hx]
        · simp [assign, assignOwn?_eq, hb, ho, hp]

/-- What holds of the store still holds after an assignment, if a binding that can be changed or a property
of the object of a scope may be given the value. -/
theorem assign_ind {chain : Chain} {v : Value} {P : Store → Prop} (same : P s)
    (bind : ∀ id b, s.binding? id name = some b → b.mutable = true →
      P (s.bind id name { b with value := v }))
    (put : ∀ id object p, (s.scope id).object = some object →
      (s.heap.record object).getOwn? name = some p → P (s.put object name v).1) :
    P (s.assign chain name v).1 := by
  obtain ⟨_, h⟩ | ⟨id, b, hb, _, h⟩ | ⟨id, _, object, p, ho, hp, _, h⟩ :=
    s.assign_spec chain name v <;> rw [h]
  · exact same
  · split
    next hm => exact bind id b hb hm
    next => exact same
  · exact put id object p ho hp

theorem declareVariable_spec (s : Store) (id : ScopeId) (name : String) (v? : Option Value) :
    s.declareVariable id name v? = s ∨
      (∃ mutable, s.declareVariable id name v? = s.bind id name ⟨v?.getD .undefined, mutable⟩) ∨
      ∃ object, (s.scope id).object = some object ∧
        s.declareVariable id name v? = (s.put object name (v?.getD .undefined)).1 := by
  unfold declareVariable
  split
  next object hholder =>
    have hobject : (s.scope id).object = some object := by
      unfold holder? at hholder
      split at hholder
      · cases hholder
      · exact hholder
    cases v? with
    | some v => exact .inr (.inr ⟨object, hobject, rfl⟩)
    | none =>
      dsimp only
      split
      · exact .inl rfl
      · exact .inr (.inr ⟨object, hobject, rfl⟩)
  next =>
    split
    next b v _ => exact .inr (.inl ⟨b.mutable, rfl⟩)
    · exact .inl rfl
    · exact .inr (.inl ⟨true, rfl⟩)

theorem ownSlot?_of_slot? {chain : Chain} (h : s.slot? chain name = none) :
    ∀ c ∈ chain, s.ownSlot? c name = none := by
  induction chain with
  | nil => simp
  | cons c chain ih =>
    rw [slot?] at h
    split at h
    · cases h
    next hc => exact List.forall_mem_cons.mpr ⟨hc, ih h⟩

theorem slot?_of_unresolved {chain : Chain} {v : Value} (h : (s.assign chain name v).2 = .unresolved) :
    s.slot? chain name = none := by
  obtain ⟨hs, _⟩ | ⟨_, _, _, _, ha⟩ | ⟨_, _, _, _, _, _, _, ha⟩ := s.assign_spec chain name v
  · exact hs
  · rw [ha] at h
    split at h <;> cases h
  · rw [ha] at h
    dsimp only at h
    split at h <;> cases h

theorem object_bind (s : Store) (id j : ScopeId) (name : String) (b : Binding) :
    ((s.bind id name b).scope j).object = (s.scope j).object := by
  rw [scope_bind]
  split <;> rfl

theorem size_assign (s : Store) (chain : Chain) (name : String) (v : Value) :
    (s.assign chain name v).1.scopes.size = s.scopes.size :=
  assign_ind (P := fun t => t.scopes.size = s.scopes.size) rfl
    (fun id _ _ _ => size_scopes_bind s id name _) fun _ _ _ _ _ => rfl

theorem object_assign (s : Store) (chain : Chain) (name : String) (v : Value) (id : ScopeId) :
    ((s.assign chain name v).1.scope id).object = (s.scope id).object :=
  assign_ind (P := fun t => (t.scope id).object = (s.scope id).object) rfl
    (fun j _ _ _ => object_bind s j id name _) fun _ _ _ _ _ => rfl

end Store

end Surmise
