import Surmise.Proofs.Growth
import Surmise.Proofs.Retention

/-! What names stand for. Looking up a name and assigning to it resolve it alike, to a binding of a scope or
to a property of the object of a scope. An assignment writes there and changes no other variable, unless
variables are the length and the elements of an array, which no object of a scope is in a session. -/
namespace Surmise

namespace Record

variable {r : Record} {key : String} {p : Property}

theorem getOwn?_put_of_none {k : String} (h : r.getOwn? key = some p) (hk : r.getOwn? k = none) (v : Value) :
    (r.put key v).1.getOwn? k = none := by
  have hr : r.Each fun k _ => (r.getOwn? k).isSome := fun _ _ hq => Option.isSome_of_eq_some hq
  have hput := hr.put (v := v) (fun _ _ _ _ hq => hq) (Option.isSome_of_eq_some h)
  refine Option.eq_none_iff_forall_ne_some.mpr fun q hq => ?_
  have hsome : (r.getOwn? k).isSome := hput k q hq
  rw [hk] at hsome
  cases hsome

theorem entangles_self (r : Record) (key : String) : r.entangles key key = false := by
  by_cases hk : key = "length"
  · subst hk
    simp [entangles, arrayIndex?_length]
  · simp [entangles, hk]

end Record

inductive Slot where
  | binding (id : ScopeId) (name : String)
  | property (object : ObjectId) (key : String)
deriving DecidableEq

namespace Store

variable {s t : Store} {chain : Chain} {name : String} {slot : Slot}

/-- What a name stands for in a scope. The bindings of the scope hide the properties of its object. -/
def ownPlace? (s : Store) (id : ScopeId) (name : String) : Option Slot :=
  if (s.binding? id name).isSome then some (.binding id name)
  else
    (s.scope id).object.bind fun object =>
      if (s.heap.record object).has name then some (.property object name) else none

def resolve? (s : Store) (chain : Chain) (name : String) : Option Slot :=
  chain.findSome? fun id => s.ownPlace? id name

def content? (s : Store) : Slot → Option Value
  | .binding id name => (s.binding? id name).map Binding.value
  | .property object key => ((s.heap.record object).getOwn? key).map Property.value

theorem ownPlace?_eq (s : Store) (id : ScopeId) (name : String) :
    s.ownPlace? id name =
      if (s.content? (.binding id name)).isSome then some (.binding id name)
      else
        (s.scope id).object.bind fun object =>
          if (s.content? (.property object name)).isSome then some (.property object name) else none := by
  simp [ownPlace?, content?, Record.has_eq]

theorem isSome_of_ownPlace? {id : ScopeId} (h : s.ownPlace? id name = some slot) :
    (s.content? slot).isSome := by
  rw [ownPlace?_eq] at h
  split at h
  next hb =>
    cases h
    exact hb
  next =>
    obtain ⟨object, -, h⟩ := Option.bind_eq_some_iff.mp h
    split at h
    next hp =>
      cases h
      exact hp
    next => cases h

theorem isSome_of_resolve? (h : s.resolve? chain name = some slot) : (s.content? slot).isSome := by
  obtain ⟨id, -, hid⟩ := List.exists_of_findSome?_eq_some h
  exact isSome_of_ownPlace? hid

/-! ### Lookups -/

theorem ownValue?_eq_content (s : Store) (id : ScopeId) (name : String) :
    s.ownValue? id name = (s.ownPlace? id name).bind s.content? := by
  unfold ownValue? ownPlace?
  cases hb : s.binding? id name with
  | some b => simp [content?, hb]
  | none =>
    cases (s.scope id).object with
    | none => rfl
    | some object =>
      cases hp : (s.heap.record object).getOwn? name <;>
        simp [Record.has_eq, Heap.get, Record.get, content?, hp]

theorem lookup_eq_content (s : Store) (chain : Chain) (name : String) :
    s.lookup chain name = (s.resolve? chain name).bind s.content? := by
  induction chain with
  | nil => rfl
  | cons id outer ih =>
    rw [lookup, ownValue?_eq_content, resolve?, List.findSome?_cons]
    cases hid : s.ownPlace? id name with
    | none => exact ih
    | some slot =>
      obtain ⟨v, hv⟩ := Option.isSome_iff_exists.mp (isSome_of_ownPlace? hid)
      simp [hv]

theorem lookup_eq_none_iff (s : Store) (chain : Chain) (name : String) :
    s.lookup chain name = none ↔ s.resolve? chain name = none := by
  rw [lookup_eq_content]
  cases h : s.resolve? chain name with
  | none => simp
  | some slot =>
    have hs := Option.isSome_iff_ne_none.mp (isSome_of_resolve? h)
    simp [hs]

/-- A name stands for the same in two stores whose scopes have the same objects, if nothing has come to the
second one and what the name stands for has stayed. -/
theorem resolve?_congr (hobject : ∀ id, (t.scope id).object = (s.scope id).object)
    (hnew : ∀ slot, s.content? slot = none → t.content? slot = none)
    (hstays : ∀ slot ∈ s.resolve? chain name, (t.content? slot).isSome) :
    t.resolve? chain name = s.resolve? chain name := by
  have hgone (slot : Slot) (h : ¬ (s.content? slot).isSome) : ¬ (t.content? slot).isSome := by
    rw [Option.not_isSome_iff_eq_none] at h ⊢
    exact hnew slot h
  have hown (id : ScopeId) (h : ∀ slot ∈ s.ownPlace? id name, (t.content? slot).isSome) :
      t.ownPlace? id name = s.ownPlace? id name := by
    rw [ownPlace?_eq] at h ⊢
    rw [ownPlace?_eq, hobject]
    by_cases hb : (s.content? (.binding id name)).isSome
    · rw [if_pos hb] at h ⊢
      rw [if_pos (h _ rfl)]
    · rw [if_neg hb] at h ⊢
      rw [if_neg (hgone _ hb)]
      refine Option.bind_congr fun object ho => ?_
      by_cases hp : (s.content? (.property object name)).isSome
      · rw [ho, Option.bind_some, if_pos hp] at h
        rw [if_pos hp, if_pos (h _ rfl)]
      · rw [if_neg hp, if_neg (hgone _ hp)]
  induction chain with
  | nil => rfl
  | cons id outer ih =>
    unfold resolve? at ih hstays ⊢
    rw [List.findSome?_cons] at hstays ⊢
    rw [List.findSome?_cons]
    cases hid : s.ownPlace? id name with
    | none =>
      rw [hown id (by simp [hid]), hid]
      rw [hid] at hstays
      exact ih hstays
    | some slot =>
      rw [hid] at hstays
      rw [hown id (by rw [hid]; exact hstays), hid]

/-! ### Assignments -/

theorem assign_place (s : Store) (chain : Chain) (name : String) (v : Value) :
    (s.resolve? chain name = none ∧ s.assign chain name v = (s, .unresolved)) ∨
      (∃ id b, s.resolve? chain name = some (.binding id name) ∧ s.binding? id name = some b ∧
        s.assign chain name v =
          if b.mutable then (s.bind id name { b with value := v }, .done) else (s, .immutable)) ∨
      ∃ object p, s.resolve? chain name = some (.property object name) ∧
        (s.heap.record object).getOwn? name = some p ∧
        s.assign chain name v =
          ((s.put object name v).1, if (s.put object name v).2 then .done else .immutable) := by
  induction chain with
  | nil => exact .inl ⟨rfl, rfl⟩
  | cons id outer ih =>
    rw [assign, assignOwn?_eq, resolve?, List.findSome?_cons, ownPlace?]
    cases hb : s.binding? id name with
    | some b => exact .inr (.inl ⟨id, b, rfl, hb, rfl⟩)
    | none =>
      cases (s.scope id).object with
      | none => exact ih
      | some object =>
        simp only [Option.bind_some, Record.has_eq]
        cases hp : (s.heap.record object).getOwn? name with
        | none => exact ih
        | some p => exact .inr (.inr ⟨object, p, rfl, hp, rfl⟩)

def entangles (s : Store) : Slot → Slot → Bool
  | .property object k, .property object' key =>
    object = object' && (s.heap.record object).entangles k key
  | _, _ => false

theorem content?_assign_of_none (s : Store) (chain : Chain) (name : String) (v : Value)
    (h : s.content? slot = none) : (s.assign chain name v).1.content? slot = none := by
  refine assign_ind (P := fun t => t.content? slot = none) h (fun id b hb _ => ?_)
    fun _ object p _ hp => ?_
  · cases slot with
    | binding id' name' =>
      rw [content?, Option.map_eq_none_iff] at h ⊢
      rw [binding?_bind, if_neg, h]
      rintro ⟨⟨rfl, -⟩, rfl⟩
      cases hb.symm.trans h
    | property object key => exact h
  · cases slot with
    | binding id' name' => exact h
    | property object' key =>
      rw [content?, Option.map_eq_none_iff] at h ⊢
      rw [record_put]
      split
      next he =>
        obtain ⟨rfl, -⟩ := he
        exact Record.getOwn?_put_of_none hp h v
      next => exact h

theorem lt_size_of_getOwn? {object : ObjectId} {p : Property}
    (h : (s.heap.record object).getOwn? name = some p) : object.index < s.heap.size := by
  refine Nat.lt_of_not_le fun hle => ?_
  rw [Heap.record_of_size_le hle] at h
  cases h

/-- Assignment changes the slot that the name resolves to and no other. -/
theorem content?_assign (s : Store) (chain : Chain) (name : String) (v : Value) (other : Slot)
    (h : ∀ slot ∈ s.resolve? chain name, s.entangles slot other = false) :
    (s.assign chain name v).1.content? other =
      if (s.assign chain name v).2 = .done ∧ some other = s.resolve? chain name then some v
      else s.content? other := by
  obtain ⟨hr, ha⟩ | ⟨id, b, hr, hb, ha⟩ | ⟨object, p, hr, hp, ha⟩ := s.assign_place chain name v
  · rw [ha, if_neg (by simp)]
  · rw [ha, hr]
    have hid := lt_size_of_binding? hb
    cases b.mutable with
    | false => simp
    | true =>
      cases other with
      | binding id' name' =>
        by_cases he : id = id' ∧ name = name'
        · obtain ⟨rfl, rfl⟩ := he
          simp [content?, binding?_bind, hid]
        · have hne : ¬ ((id = id' ∧ id.index < s.scopes.size) ∧ name = name') :=
            fun h => he ⟨h.1.1, h.2⟩
          have hne' : ¬ (id' = id ∧ name' = name) := fun h => he ⟨h.1.symm, h.2.symm⟩
          simp [content?, binding?_bind, hne, hne']
      | property object key => simp [content?, bind]
  · rw [ha, hr]
    have hobject := lt_size_of_getOwn? hp
    cases other with
    | binding id' name' => simp [content?, put, onHeap, binding?, scope]
    | property object' key =>
      simp only [content?, record_put, hobject, and_true]
      by_cases he : object = object'
      · subst he
        by_cases hk : name = key
        · subst hk
          rw [if_pos rfl, (Record.answered_put hp v).getOwn?_eq, hp]
          have hdone : (s.put object name v).2 = ((s.heap.record object).put name v).2 := rfl
          rw [hdone]
          cases ((s.heap.record object).put name v).2 <;> simp
        · have hapart : (s.heap.record object).entangles name key = false := by
            simpa [entangles] using h _ hr
          rw [if_pos rfl, Record.getOwn?_put_of_ne _ hk hapart]
          simp [Ne.symm hk]
      · simp [he, Ne.symm he]

/-- The names stand for the length and an element of one array. -/
def Entangled (s : Store) (chain : Chain) (name : String) (chain' : Chain) (name' : String) : Prop :=
  ∃ slot ∈ s.resolve? chain name, ∃ slot' ∈ s.resolve? chain' name', s.entangles slot slot' = true

/-- An assignment changes a name that stands for the same, and leaves alone all others that are not
entangled with it. -/
theorem lookup_assign (s : Store) (chain : Chain) (name : String) (v : Value) {chain' : Chain}
    {name' : String} (h : ¬ s.Entangled chain name chain' name') :
    (s.assign chain name v).1.lookup chain' name' =
      if (s.assign chain name v).2 = .done ∧ s.resolve? chain' name' = s.resolve? chain name then some v
      else s.lookup chain' name' := by
  have hcontent (other : Slot) (ho : s.resolve? chain' name' = some other) :=
    s.content?_assign chain name v other fun slot hslot =>
      Bool.eq_false_iff.mpr fun he => h ⟨slot, hslot, other, ho, he⟩
  have hresolve : (s.assign chain name v).1.resolve? chain' name' = s.resolve? chain' name' := by
    refine resolve?_congr (s.object_assign chain name v)
      (fun slot => s.content?_assign_of_none chain name v) fun other ho => ?_
    rw [hcontent other ho]
    split
    · rfl
    · exact isSome_of_resolve? ho
  rw [lookup_eq_content, lookup_eq_content, hresolve]
  cases ho : s.resolve? chain' name' with
  | none =>
    have hnone : ¬ ((s.assign chain name v).2 = .done ∧ none = s.resolve? chain name) := by
      rintro ⟨hdone, hr⟩
      obtain ⟨-, ha⟩ | ⟨_, _, hs, -, -⟩ | ⟨_, _, hs, -, -⟩ := s.assign_place chain name v
      · rw [ha] at hdone
        cases hdone
      · cases hr.trans hs
      · cases hr.trans hs
    rw [if_neg hnone]
    rfl
  | some other =>
    exact hcontent other ho

theorem assign_eq_unresolved_iff (s : Store) (chain : Chain) (name : String) (v : Value) :
    (s.assign chain name v).2 = .unresolved ↔ s.resolve? chain name = none := by
  obtain ⟨hr, ha⟩ | ⟨_, b, hr, -, ha⟩ | ⟨_, _, hr, -, ha⟩ := s.assign_place chain name v
  · simp [hr, ha]
  · rw [hr, ha]
    cases b.mutable <;> simp
  · rw [hr, ha]
    dsimp only
    split <;> simp

/-! ### Entangled names -/

theorem not_entangled_of_resolve?_eq {chain' : Chain} {name' : String}
    (h : s.resolve? chain' name' = s.resolve? chain name) : ¬ s.Entangled chain name chain' name' := by
  rintro ⟨slot, hslot, slot', hslot', he⟩
  rw [h, hslot] at hslot'
  cases hslot'
  cases slot with
  | binding id n => cases he
  | property object key => simp [entangles, Record.entangles_self] at he

theorem scope_of_resolve? {object : ObjectId} {key : String}
    (h : s.resolve? chain name = some (.property object key)) :
    ∃ id, (s.scope id).object = some object := by
  obtain ⟨id, -, hid⟩ := List.exists_of_findSome?_eq_some h
  unfold ownPlace? at hid
  split at hid
  · cases hid
  · obtain ⟨object', ho, hid⟩ := Option.bind_eq_some_iff.mp hid
    split at hid
    · cases hid
      exact ⟨id, ho⟩
    · cases hid

theorem Plain.not_entangled (h : s.Plain) (chain : Chain) (name : String) (chain' : Chain) (name' : String) :
    ¬ s.Entangled chain name chain' name' := by
  rintro ⟨slot, hslot, slot', -, he⟩
  unfold entangles at he
  split at he
  next object k object' key =>
    obtain ⟨id, ho⟩ := scope_of_resolve? hslot
    rw [Record.entangles_of_ne_array (h id object ho).2, Bool.and_false] at he
    cases he
  next => cases he

end Store

/-- An assignment is unresolved where a lookup finds nothing. One that is done gives the value to every name,
in every scope, that stands for the same, and to no other; one that is not done changes no name. The
exception, entangled names, does not arise in plain stores. -/
theorem assignment_agrees_with_lookup (s : Store) (chain : Chain) (name : String) (v : Value) :
    ((s.assign chain name v).2 = .unresolved ↔ s.lookup chain name = none) ∧
      (∀ chain' name', (s.assign chain name v).2 = .done →
        s.resolve? chain' name' = s.resolve? chain name →
          (s.assign chain name v).1.lookup chain' name' = some v) ∧
      (∀ chain' name', ((s.assign chain name v).2 = .done →
        s.resolve? chain' name' ≠ s.resolve? chain name) → ¬ s.Entangled chain name chain' name' →
          (s.assign chain name v).1.lookup chain' name' = s.lookup chain' name') ∧
      (s.Plain → ∀ chain' name', ¬ s.Entangled chain name chain' name') ∧
      ∀ options randoms, (Session.new options randoms).store.Changes s → s.Plain := by
  refine ⟨?_, fun chain' name' hdone hsame => ?_, fun chain' name' hother he => ?_,
    fun hs => hs.not_entangled chain name,
    fun options randoms hs => Session.plain_of_changes options randoms hs⟩
  · exact (s.assign_eq_unresolved_iff chain name v).trans (s.lookup_eq_none_iff chain name).symm
  · rw [s.lookup_assign chain name v (Store.not_entangled_of_resolve?_eq hsame), if_pos ⟨hdone, hsame⟩]
  · rw [s.lookup_assign chain name v he, if_neg fun h => hother h.1 h.2]

def Store.hiding : Store where
  heap := ⟨#[(Record.empty .object).setProperty "x" (.data .null)]⟩
  scopes := #[{ object := some ⟨0⟩ }, { bindings := Dict.empty.insert "x" ⟨.undefined, false⟩ }]

theorem Store.plain_hiding : hiding.Plain := by
  intro id object ho
  obtain ⟨i⟩ := id
  obtain _ | _ | i := i
  · cases ho
    exact ⟨Nat.zero_lt_one, nofun⟩
  · cases ho
  · cases ho

/-- The property is written behind the constant, which stays; through the constant nothing is written. -/
theorem assignment_agrees_with_lookup_hidden :
    Store.hiding.resolve? [⟨1⟩, ⟨0⟩] "x" ≠ Store.hiding.resolve? [⟨0⟩] "x" ∧
      (Store.hiding.assign [⟨0⟩] "x" .unknown).1.lookup [⟨0⟩] "x" = some .unknown ∧
      (Store.hiding.assign [⟨0⟩] "x" .unknown).1.lookup [⟨1⟩, ⟨0⟩] "x" =
        Store.hiding.lookup [⟨1⟩, ⟨0⟩] "x" ∧
      (Store.hiding.assign [⟨1⟩, ⟨0⟩] "x" .unknown).2 = .immutable ∧
      ∀ chain name, (Store.hiding.assign [⟨1⟩, ⟨0⟩] "x" .unknown).1.lookup chain name =
        Store.hiding.lookup chain name := by
  have hinner : Store.hiding.resolve? [⟨1⟩, ⟨0⟩] "x" = some (.binding ⟨1⟩ "x") := rfl
  have houter : Store.hiding.resolve? [⟨0⟩] "x" = some (.property ⟨0⟩ "x") := rfl
  have hne : Store.hiding.resolve? [⟨1⟩, ⟨0⟩] "x" ≠ Store.hiding.resolve? [⟨0⟩] "x" := by
    rw [hinner, houter]
    decide
  have hdone : (Store.hiding.assign [⟨0⟩] "x" .unknown).2 = .done := rfl
  have himmutable : (Store.hiding.assign [⟨1⟩, ⟨0⟩] "x" .unknown).2 = .immutable := rfl
  obtain ⟨-, hsame, hother, hplain, -⟩ := assignment_agrees_with_lookup .hiding [⟨0⟩] "x" .unknown
  obtain ⟨-, -, hkept, hplain', -⟩ := assignment_agrees_with_lookup .hiding [⟨1⟩, ⟨0⟩] "x" .unknown
  refine ⟨hne, hsame [⟨0⟩] "x" hdone rfl, ?_, himmutable, fun chain name => ?_⟩
  · exact hother [⟨1⟩, ⟨0⟩] "x" (fun _ => hne) (hplain Store.plain_hiding _ _)
  · refine hkept chain name (fun h => ?_) (hplain' Store.plain_hiding chain name)
    cases himmutable.symm.trans h

end Surmise
