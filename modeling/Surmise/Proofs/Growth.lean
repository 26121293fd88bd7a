import Surmise.Proofs.Frame

/-! Stores only grow: a scope keeps its object, and an object keeps everything but its properties. So
the global scope of a session stays what it is in a new one. -/
namespace Surmise

structure Store.Extends (s t : Store) : Prop where
  scopes : s.scopes.size ≤ t.scopes.size
  object : ∀ id : ScopeId, id.index < s.scopes.size → (t.scope id).object = (s.scope id).object
  heap : s.heap.size ≤ t.heap.size
  shape : ∀ id : ObjectId, id.index < s.heap.size →
    (t.heap.record id).shape = (s.heap.record id).shape

namespace Store

theorem Extends.refl (s : Store) : s.Extends s :=
  ⟨Nat.le_refl _, fun _ _ => rfl, Nat.le_refl _, fun _ _ => rfl⟩

theorem Extends.trans {s t u : Store} (h₁ : s.Extends t) (h₂ : t.Extends u) : s.Extends u where
  scopes := Nat.le_trans h₁.scopes h₂.scopes
  object id hid := (h₂.object id (Nat.lt_of_lt_of_le hid h₁.scopes)).trans (h₁.object id hid)
  heap := Nat.le_trans h₁.heap h₂.heap
  shape id hid := (h₂.shape id (Nat.lt_of_lt_of_le hid h₁.heap)).trans (h₁.shape id hid)

theorem extends_allocate (s : Store) (r : Record) : s.Extends (s.allocate r).1 where
  scopes := Nat.le_refl _
  object _ _ := rfl
  heap := by simp [allocate]
  shape id hid := by
    rw [allocate, heap_onHeap, Heap.record_allocate, if_neg (Nat.ne_of_lt hid)]

theorem extends_newScope (s : Store) (c : Scope) : s.Extends (s.newScope c).1 where
  scopes := by simp
  object id hid := by rw [scope_newScope, if_neg (Nat.ne_of_lt hid)]
  heap := Nat.le_refl _
  shape _ _ := rfl

theorem extends_bind (s : Store) (id : ScopeId) (name : String) (b : Binding) :
    s.Extends (s.bind id name b) where
  scopes := by simp
  object j _ := object_bind s id j name b
  heap := Nat.le_refl _
  shape _ _ := rfl

theorem extends_update (s : Store) (id : ObjectId) {f : Record → Record × Bool}
    (hf : ∀ r, (f r).1.shape = r.shape) : s.Extends (s.onHeap fun h => h.update id f).1 where
  scopes := Nat.le_refl _
  object _ _ := rfl
  heap := by simp
  shape j _ := by
    rw [heap_onHeap]
    exact s.heap.shape_update id j f hf

theorem extends_put (s : Store) (id : ObjectId) (key : String) (v : Value) :
    s.Extends (s.put id key v).1 :=
  s.extends_update id fun r => r.shape_put key v

theorem extends_define (s : Store) (id : ObjectId) (key : String) (p : Property) :
    s.Extends (s.define id key p).1 :=
  s.extends_update id fun r => r.shape_define key p

theorem Change.extends {s t : Store} (h : s.Change t) : s.Extends t := by
  cases h with
  | allocate r _ => exact s.extends_allocate r
  | newScope => exact s.extends_newScope {}
  | declare id name v mutable => exact s.extends_bind id name _
  | declareVariable id name v? =>
    obtain h | ⟨_, h⟩ | ⟨object, _, h⟩ := s.declareVariable_spec id name v? <;> rw [h]
    · exact .refl s
    · exact s.extends_bind id name _
    · exact s.extends_put object name _
  | assign chain name v =>
    exact assign_ind (P := s.Extends) (.refl s) (fun id _ _ _ => s.extends_bind id name _)
      fun _ object _ _ _ => s.extends_put object name v
  | put id key v => exact s.extends_put id key v
  | define id key p _ => exact s.extends_define id key p
  | delete id key => exact s.extends_update id fun r => r.shape_delete key

/-! ### Scopes over objects -/

/-- The objects of scopes are there, and none of them is an array. So it is in every session, by
`Session.plain_of_changes`. -/
def Plain (s : Store) : Prop :=
  ∀ id object, (s.scope id).object = some object →
    object.index < s.heap.size ∧ (s.heap.record object).objectClass ≠ .array

theorem Change.object {s t : Store} (h : s.Change t) (id : ScopeId) :
    (t.scope id).object = (s.scope id).object := by
  cases h with
  | allocate r _ => rfl
  | newScope => rw [scope_newScope_empty]
  | declare j name v mutable => exact object_bind s j id name _
  | declareVariable j name v? =>
    obtain h | ⟨_, h⟩ | ⟨_, _, h⟩ := s.declareVariable_spec j name v? <;> rw [h]
    · exact object_bind s j id name _
    · rfl
  | assign chain name v => exact object_assign s chain name v id
  | put _ _ _ => rfl
  | define _ _ _ _ => rfl
  | delete _ _ => rfl

theorem Change.plain {s t : Store} (h : s.Change t) (hs : s.Plain) : t.Plain := by
  intro id object ho
  rw [h.object] at ho
  obtain ⟨hlt, hclass⟩ := hs id object ho
  refine ⟨Nat.lt_of_lt_of_le hlt h.extends.heap, ?_⟩
  rw [Record.objectClass_of_shape (h.extends.shape object hlt)]
  exact hclass

end Store

namespace Session

theorem Evolves.extends [Platform] {s t : Session} (h : s.Evolves t) : s.store.Extends t.store := by
  induction h with
  | refl s => exact .refl _
  | trans _ _ ih₁ ih₂ => exact ih₁.trans ih₂
  | change hc => exact hc.extends
  | recovered _ _ _ | unread _ _ | thrown _ _ _ | draw _ _ => exact .refl _
  | context c _ ih => exact ih
  | scopes chain _ ih =>
    rw [store_setLexical] at ih ⊢
    exact ih
  | tried _ ih => exact ih

/-- The scopes of global code are there, each of them once, and have plain objects. -/
structure Grounded (s : Session) : Prop where
  nodup : s.globalChain.Nodup
  bound : ∀ id ∈ s.globalChain, id.index < s.store.scopes.size
  plain : ∀ id ∈ s.globalChain, ∀ object, (s.store.scope id).object = some object →
    object.index < s.heap.size ∧ (s.heap.record object).objectClass = .object

/-- Whatever becomes of the store of a new session, only the global scope is over an object, and that is no
array. -/
theorem plain_of_changes (options : Options) (randoms : Randoms) {st : Store}
    (h : (new options randoms).store.Changes st) : st.Plain := by
  induction h with
  | tail _ hc ih => exact hc.plain ih
  | refl =>
    obtain ⟨st, ⟨h, hs⟩, he⟩ := Store.addGlobal_keeps
      (P := fun st => (Store.allocate {} (.empty .object)).1.Extends st ∧ st.scopes = #[])
      (fun s r _ hs => ⟨hs.1.trans (s.extends_allocate r), hs.2⟩)
      (fun s id key p hs => ⟨hs.1.trans (s.extends_define id key p), hs.2⟩) {} ⟨.refl _, rfl⟩
    unfold new fromStore
    rw [he]
    intro id object ho
    dsimp only at ho
    rw [Store.scope_newScope] at ho
    split at ho
    · have hclass : (st.heap.record ⟨0⟩).objectClass = .object :=
        Record.objectClass_of_shape (h.shape ⟨0⟩ Nat.zero_lt_one)
      cases ho
      exact ⟨h.heap, fun hc => by cases hclass.symm.trans hc⟩
    · rw [Store.scope, hs] at ho
      cases ho

end Session
end Surmise
