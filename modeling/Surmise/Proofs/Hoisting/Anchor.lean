import Surmise.Proofs.Growth

/-! Stores with a global scope: whatever is done to them but deleting from the global object, a name that
a scope has stays there, and all functions keep the global scope at the end of their chains. -/
namespace Surmise

/-! ### Records -/

namespace Record
variable {r : Record} {name : String}

theorem has_setProperty (h : r.has name = true) (key : String) (p : Property) :
    (r.setProperty key p).has name = true := by
  rw [has_eq] at h ⊢
  rw [getOwn?_setProperty]
  split
  · rfl
  · exact h

theorem has_setProperty_self (r : Record) (key : String) (p : Property) :
    (r.setProperty key p).has key = true := by
  rw [has_eq, getOwn?_setProperty, if_pos rfl]
  rfl

theorem has_assign (h : r.has name = true) (key : String) (v : Value) :
    (r.assign key v).1.has name = true := by
  unfold assign
  split
  all_goals
    split
    · exact has_setProperty h _ _
    · exact h

theorem has_put (hc : r.objectClass ≠ .array) (h : r.has name = true) (key : String) (v : Value) :
    (r.put key v).1.has name = true := by
  rw [put, if_neg hc]
  exact has_assign h key v

theorem has_put_self (hc : r.objectClass ≠ .array) (he : r.extensible = true) (key : String)
    (v : Value) : (r.put key v).1.has key = true := by
  rw [put, if_neg hc, assign]
  split
  next old hold =>
    split
    · exact has_setProperty_self r _ _
    · rw [has_eq, hold]
      rfl
  next =>
    rw [if_pos he]
    exact has_setProperty_self r _ _

end Record

theorem Heap.has_update {h : Heap} {global : ObjectId} {name : String}
    (hn : (h.record global).has name = true) (id : ObjectId) {f : Record → Record × Bool}
    (hf : id = global → (f (h.record global)).1.has name = true) :
    ((h.update id f).1.record global).has name = true := by
  rw [record_update]
  split
  next hid => exact hf hid.1
  next => exact hn

/-! ### Anchored stores -/

def Callable.EndsIn (g : ScopeId) : Callable → Prop
  | closure _ chain => [g] <:+ chain
  | builtin _ => True
  | foreign .. => False

namespace Store

variable {id : ScopeId} {name : String}

/-- The variables of the scope `g` are the properties of the object `global`, which is plain and can be
extended. No other object holds variables, and all functions end their chains in `g`. -/
structure Anchored (g : ScopeId) (global : ObjectId) (s : Store) : Prop where
  bound : g.index < s.scopes.size
  object : (s.scope g).object = some global
  only : ∀ id object, (s.scope id).object = some object → object = global
  present : global.index < s.heap.size
  plain : (s.heap.record global).objectClass ≠ .array
  extensible : (s.heap.record global).extensible = true
  functions : s.heap.Admits (Callable.EndsIn g)

structure Retains (g : ScopeId) (global : ObjectId) (s t : Store) : Prop where
  grown : s.Extends t
  names : ∀ id name, s.hasOwn id name = true → t.hasOwn id name = true
  anchored : t.Anchored g global

variable {g : ScopeId} {global : ObjectId} {s t u : Store}

theorem Anchored.retains_self (h : s.Anchored g global) : s.Retains g global s :=
  ⟨.refl s, fun _ _ h => h, h⟩

theorem Retains.trans (h₁ : s.Retains g global t) (h₂ : t.Retains g global u) :
    s.Retains g global u where
  grown := h₁.grown.trans h₂.grown
  names id name h := h₂.names id name (h₁.names id name h)
  anchored := h₂.anchored

theorem lt_size_of_hasOwn (h : s.hasOwn id name = true) : id.index < s.scopes.size := by
  refine Nat.lt_of_not_le fun hle => ?_
  rw [hasOwn, binding?, scope_of_size_le hle] at h
  cases h

theorem hasOwn_of_binding (h : (s.binding? id name).isSome) : s.hasOwn id name = true := by
  rw [hasOwn, h]
  rfl

theorem hasOwn_of_object {object : ObjectId} (ho : (s.scope id).object = some object)
    (h : (s.heap.record object).has name = true) : s.hasOwn id name = true := by
  rw [hasOwn, ho, Option.any_some, h, Bool.or_true]

theorem hasOwn_bind (hid : id.index < s.scopes.size) (name : String) (b : Binding) :
    (s.bind id name b).hasOwn id name = true := by
  apply hasOwn_of_binding
  rw [binding?_bind, if_pos ⟨⟨rfl, hid⟩, rfl⟩]
  rfl

namespace Anchored

section

variable (h : s.Anchored g global)
include h

/-- What has to be shown of a change: bindings and the properties of the global object stay, no object
comes to hold variables, and the functions are as they should. -/
theorem retains (hst : s.Extends t)
    (hbinding : ∀ id name, (s.binding? id name).isSome → (t.binding? id name).isSome)
    (hproperty : ∀ name, (s.heap.record global).has name = true →
      (t.heap.record global).has name = true)
    (honly : ∀ id object, (t.scope id).object = some object → object = global)
    (hfunctions : t.heap.Admits (Callable.EndsIn g)) : s.Retains g global t where
  grown := hst
  names id name hn := by
    have hid := lt_size_of_hasOwn hn
    unfold hasOwn at hn ⊢
    rw [hst.object id hid]
    rw [Bool.or_eq_true, Option.any_eq_true] at hn ⊢
    obtain hb | ⟨object, ho, hp⟩ := hn
    · exact .inl (hbinding id name hb)
    · refine .inr ⟨object, ho, ?_⟩
      cases h.only id object ho
      exact hproperty name hp
  anchored :=
    { bound := Nat.lt_of_lt_of_le h.bound hst.scopes
      object := (hst.object g h.bound).trans h.object
      only := honly
      present := Nat.lt_of_lt_of_le h.present hst.heap
      plain := by
        rw [Record.objectClass_of_shape (hst.shape global h.present)]
        exact h.plain
      extensible := by
        rw [Record.extensible_of_shape (hst.shape global h.present)]
        exact h.extensible
      functions := hfunctions }

theorem retains_allocate {r : Record}
    (hr : ∀ c, r.callable = some c → c.EndsIn g) : s.Retains g global (s.allocate r).1 := by
  refine h.retains (s.extends_allocate r) (fun _ _ hb => hb) (fun name hn => ?_) h.only
    (h.functions.allocate hr)
  rw [allocate, heap_onHeap, Heap.record_allocate, if_neg (Nat.ne_of_lt h.present)]
  exact hn

theorem retains_newScope : s.Retains g global (s.newScope {}).1 := by
  refine h.retains (s.extends_newScope {}) (fun id name hb => ?_) (fun _ hn => hn)
    (fun id object ho => ?_) h.functions
  · rw [binding?, scope_newScope_empty]
    exact hb
  · rw [scope_newScope_empty] at ho
    exact h.only id object ho

theorem retains_bind (id : ScopeId) (name : String) (b : Binding) :
    s.Retains g global (s.bind id name b) := by
  refine h.retains (s.extends_bind id name b) (fun j n hb => ?_) (fun _ hn => hn)
    (fun j object ho => ?_) h.functions
  · rw [binding?_bind]
    split
    · rfl
    · exact hb
  · rw [object_bind] at ho
    exact h.only j object ho

theorem retains_update (id : ObjectId) {f : Record → Record × Bool}
    (hshape : ∀ r, (f r).1.shape = r.shape)
    (hf : id = global → ∀ name, (s.heap.record global).has name = true →
      (f (s.heap.record global)).1.has name = true) :
    s.Retains g global (s.onHeap fun heap => heap.update id f).1 :=
  h.retains (s.extends_update id hshape) (fun _ _ hb => hb)
    (fun name hn => Heap.has_update hn id fun hid => hf hid name hn) h.only
    (h.functions.update id f hshape)

theorem retains_put (id : ObjectId) (key : String) (v : Value) :
    s.Retains g global (s.put id key v).1 :=
  h.retains_update id (fun r => r.shape_put key v) fun _ _ hn => Record.has_put h.plain hn key v

theorem retains_declareVariable (id : ScopeId) (name : String)
    (v? : Option Value) : s.Retains g global (s.declareVariable id name v?) := by
  obtain hd | ⟨_, hd⟩ | ⟨object, _, hd⟩ := s.declareVariable_spec id name v? <;> rw [hd]
  · exact h.retains_self
  · exact h.retains_bind id name _
  · exact h.retains_put object name _

theorem retains_assign (chain : Chain) (name : String) (v : Value) :
    s.Retains g global (s.assign chain name v).1 :=
  assign_ind (P := s.Retains g global) h.retains_self (fun id _ _ _ => h.retains_bind id name _)
    fun _ object _ _ _ => h.retains_put object name v

theorem retains_edit (he : s.Edit (· = global) t) : s.Retains g global t := by
  cases he with
  | newScope => exact h.retains_newScope
  | declare id name v mutable => exact h.retains_bind id name _
  | declareVariable id name v? => exact h.retains_declareVariable id name v?
  | assign chain name v => exact h.retains_assign chain name v
  | put id key v => exact h.retains_put id key v
  | define id key p hid _ =>
    exact h.retains_update id (fun r => r.shape_define key p) fun hg => (hid hg).elim
  | delete id key hid =>
    exact h.retains_update id (fun r => r.shape_delete key) fun hg => (hid hg).elim

theorem retains_edits (he : s.Edits (· = global) t) : s.Retains g global t := by
  induction he with
  | refl => exact h.retains_self
  | tail _ he ih => exact ih.trans (ih.anchored.retains_edit he)

/-! ### Declared variables -/

/-- Declaring a variable gives its scope the name, in a binding or in the object of the scope. -/
theorem hasOwn_declareVariable {id : ScopeId}
    (hid : id.index < s.scopes.size) (name : String) (v? : Option Value) :
    (s.declareVariable id name v?).hasOwn id name = true := by
  unfold declareVariable
  split
  next object hholder =>
    have ho : (s.scope id).object = some object := by
      unfold holder? at hholder
      split at hholder
      · cases hholder
      · exact hholder
    cases h.only id object ho
    have hput : ∀ v, (s.put global name v).1.hasOwn id name = true := by
      intro v
      have ho' : ((s.put global name v).1.scope id).object = some global := ho
      apply hasOwn_of_object ho'
      rw [record_put, if_pos ⟨rfl, h.present⟩]
      exact Record.has_put_self h.plain h.extensible name v
    cases v? with
    | some v => exact hput v
    | none =>
      dsimp only
      split
      next hhas => exact hasOwn_of_object ho hhas
      next => exact hput .undefined
  next =>
    split
    next => exact hasOwn_bind hid name _
    next b _ hb => exact hasOwn_of_binding (Option.isSome_of_eq_some hb)
    next => exact hasOwn_bind hid name _

theorem hasOwn_declareNames {id : ScopeId}
    (hid : id.index < s.scopes.size) {names : List String} {name : String} (hn : name ∈ names) :
    (names.foldl (fun s name => s.declareVariable id name none) s).hasOwn id name = true := by
  induction names generalizing s with
  | nil => cases hn
  | cons first names ih =>
    have hfirst := h.retains_declareVariable id first none
    rw [List.foldl_cons]
    obtain rfl | hn := List.mem_cons.mp hn
    -- the name that is declared now stays while the others are
    · have hrest := hfirst.anchored.retains_edits (edits_declareNames id names _)
      exact hrest.names id _ (h.hasOwn_declareVariable hid _ none)
    · exact ih hfirst.anchored (Nat.lt_of_lt_of_le hid hfirst.grown.scopes) hn

end

end Anchored

theorem assign_resolved {chain : Chain} (hid : id ∈ chain) (h : s.hasOwn id name = true) (v : Value) :
    (s.assign chain name v).2 ≠ .unresolved := by
  intro ha
  rw [hasOwn_eq, ownSlot?_of_slot? (slot?_of_unresolved ha) id hid] at h
  cases h

end Store
end Surmise
