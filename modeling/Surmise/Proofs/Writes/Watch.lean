import Surmise.Proofs.Writes.Place

/-! A property under watch. While code runs whose writes are known, the names through which it writes
stand for what they stood for at first, and the property changes only if one of the writes hits it. If
one does, forgetting the writes makes the property unknown. -/
namespace Surmise

/-! ### What is watched -/

/-- The global object is the only one whose properties are variables of the chain, and they all are. -/
structure Store.Rooted (s : Store) (chain : Chain) (global : ObjectId) : Prop where
  object : ∀ c ∈ chain, ∀ o, (s.scope c).object = some o → o = global
  reached : ∃ c ∈ chain, (s.scope c).object = some global
  present : global.index < s.heap.size
  plain : (s.heap.record global).objectClass ≠ .array

/-- The write leaves the name `b` what it is, as a variable and as a property of the global object. -/
def Store.LeavesBase (s : Store) (chain : Chain) (global : ObjectId) (x : Write) (b : String) : Prop :=
  x ≠ .name b ∧ x.place? s chain ≠ some (global, b)

instance (s : Store) (chain : Chain) (global : ObjectId) (x : Write) (b : String) :
    Decidable (s.LeavesBase chain global x b) :=
  inferInstanceAs (Decidable (_ ∧ _))

/-- No name is written before a property is written through it. -/
def Store.KeepsBases (s : Store) (chain : Chain) (global : ObjectId) (ws : List Write) : Prop :=
  ws.Pairwise fun x y => ∀ b ∈ y.base?, s.LeavesBase chain global x b

instance (s : Store) (chain : Chain) (global : ObjectId) (ws : List Write) :
    Decidable (s.KeepsBases chain global ws) :=
  inferInstanceAs (Decidable (ws.Pairwise _))

/-- A property of an object in a store in which code with these writes is about to run. -/
structure Watch where
  store : Store
  chain : Chain
  global : ObjectId
  writes : List Write
  id : ObjectId
  key : String
  property : Property
  rooted : store.Rooted chain global
  keepsBases : store.KeepsBases chain global writes
  present : (store.heap.record id).getOwn? key = some property
  /-- No write changes the property by changing another one. -/
  apart : ∀ x ∈ writes, ∀ k, x.place? store chain = some (id, k) →
    (store.heap.record id).entangles k key = false

/-- The names through which properties are written. -/
def Write.bases (ws : List Write) : List String := ws.filterMap Write.base?

theorem Write.bases_subset {us vs : List Write} (h : us ⊆ vs) : bases us ⊆ bases vs := by
  intro b hb
  obtain ⟨x, hx, hbase⟩ := List.mem_filterMap.mp hb
  exact List.mem_filterMap.mpr ⟨x, h hx, hbase⟩

namespace Watch

open Write (bases bases_subset)

def Hit (w : Watch) : Prop := ∃ x ∈ w.writes, x.place? w.store w.chain = some (w.id, w.key)

def forgotten (w : Watch) : Property := { w.property with value := .unknown }

structure Allows (w : Watch) (rest : List Write) (o : ObjectId) (k : String) : Prop where
  base : o = w.global → k ∉ bases rest
  hit : o = w.id → k = w.key → w.Hit
  apart : o = w.id → (w.store.heap.record w.id).entangles k w.key = false

/-- The store has come about from the one at first by the writes of the code up to those of `rest`, inside
blocks with the scopes `inner`. -/
structure Spared (w : Watch) (inner : Chain) (rest : List Write) (st : Store) : Prop where
  grown : w.store.Extends st
  object : ∀ c, (st.scope c).object = (w.store.scope c).object
  inner : ∀ c ∈ inner, (w.store.scope c).object = none ∧ ∀ b ∈ bases rest, st.binding? c b = none
  bound : ∀ c name, (w.store.binding? c name).isSome → (st.binding? c name).isSome
  bindings : ∀ c ∈ w.chain, ∀ b ∈ bases rest, st.binding? c b = w.store.binding? c b
  globals : ∀ b ∈ bases rest,
    (st.heap.record w.global).getOwn? b = (w.store.heap.record w.global).getOwn? b
  kept : (st.heap.record w.id).getOwn? w.key = some w.property ∨
    w.Hit ∧ w.property.attributes.writable = true

variable {w : Watch} {inner : Chain} {rest : List Write} {st : Store}

theorem mem_bases {base key : String} (h : .member base key ∈ rest) : base ∈ bases rest :=
  List.mem_filterMap.mpr ⟨_, h, rfl⟩

section

variable {x : Write} (hx : (x :: rest).Sublist w.writes)
include hx

/-- A write leaves the names alone through which the writes after it go. -/
theorem leavesBase {b : String} (hb : b ∈ bases rest) : w.store.LeavesBase w.chain w.global x b := by
  obtain ⟨y, hy, hbase⟩ := List.mem_filterMap.mp hb
  exact (List.pairwise_cons.mp (w.keepsBases.sublist hx)).1 y hy b hbase

theorem allows_of_place {o : ObjectId} {k : String} (h : x.place? w.store w.chain = some (o, k)) :
    w.Allows rest o k where
  base ho hb := (leavesBase hx hb).2 (ho ▸ h)
  hit ho hk := ⟨x, hx.subset (.head _), ho ▸ hk ▸ h⟩
  apart ho := w.apart x (hx.subset (.head _)) k (ho ▸ h)

end

theorem not_mem_bases {name : String} (hx : (.name name :: rest).Sublist w.writes) : name ∉ bases rest :=
  fun hb => (leavesBase hx hb).1 rfl

theorem id_lt_size (w : Watch) : w.id.index < w.store.heap.size := by
  refine Nat.lt_of_not_le fun h => ?_
  have hp := w.present
  rw [Heap.record_of_size_le h] at hp
  cases hp

theorem spared_refl (w : Watch) : w.Spared [] w.writes w.store where
  grown := .refl _
  object _ := rfl
  inner := by simp
  bound _ _ h := h
  bindings _ _ _ _ := rfl
  globals _ _ := rfl
  kept := .inl w.present

namespace Spared

/-! ### Names in a later store -/

variable {name k : String} {o : ObjectId}

theorem tail {c : ScopeId} (h : w.Spared (c :: inner) rest st) : w.Spared inner rest st :=
  { h with inner := fun d hd => h.inner d (.tail _ hd) }

theorem mono {rest' : List Write} (h : w.Spared inner rest' st) (hr : rest ⊆ rest') :
    w.Spared inner rest st :=
  have hb := bases_subset hr
  { h with
    inner := fun c hc => ⟨(h.inner c hc).1, fun b hb' => (h.inner c hc).2 b (hb hb')⟩
    bindings := fun c hc b hb' => h.bindings c hc b (hb hb')
    globals := fun b hb' => h.globals b (hb hb') }

theorem behind {x : Write} (h : w.Spared inner (x :: rest) st) : w.Spared inner rest st :=
  h.mono (List.subset_cons_self x rest)

section

variable (h : w.Spared inner rest st)
include h

theorem lookup {b : String} (hb : b ∈ bases rest) :
    st.lookup (inner ++ w.chain) b = w.store.lookup w.chain b := by
  have hinner : ∀ c ∈ inner, st.ownSlot? c b = none := fun c hc => by
    simp [Store.ownSlot?, (h.inner c hc).2 b hb, h.object, (h.inner c hc).1]
  have hchain : ∀ c ∈ w.chain, st.ownSlot? c b = w.store.ownSlot? c b := fun c hc => by
    unfold Store.ownSlot?
    rw [h.bindings c hc b hb, h.object]
    cases hs : w.store.scope c with
    | mk bindings object =>
      cases object with
      | none => rfl
      | some o =>
        have ho := w.rooted.object c hc o (by rw [hs])
        subst ho
        dsimp only [Option.bind_some]
        rw [h.globals b hb]
  rw [Store.lookup_eq, Store.lookup_eq, Store.slot?_append_of_none hinner, Store.slot?_congr hchain]

theorem place_member {base key : String} (hx : .member base key ∈ rest) :
    (Write.member base key).place? st (inner ++ w.chain) =
      (Write.member base key).place? w.store w.chain := by
  simp only [Write.place?, Store.objectNamed?, h.lookup (mem_bases hx)]

/-- Only the global object has variables as properties. A name that is one now and was a property of the
global object at first was a variable then, too. -/
theorem owner (ho : st.owner? (inner ++ w.chain) name = some o) :
    o = w.global ∧ ((w.store.heap.record w.global).has name = true →
      w.store.owner? w.chain name = some w.global) := by
  have hi : ∀ c ∈ inner, (st.scope c).object = none := fun c hc =>
    (h.object c).trans (h.inner c hc).1
  have ho' := Store.owner?_append hi ho
  obtain ⟨c, hc, hobject⟩ := Store.scope_of_owner? ho'
  refine ⟨w.rooted.object c hc o ((h.object c).symm.trans hobject), fun hp => ?_⟩
  exact Store.owner?_transfer h.object (fun c => h.bound c name) w.rooted.object hp
    (Option.isSome_of_eq_some ho')

/-! ### Steps -/

theorem record_put_self (k : String) (v : Value) :
    (st.put w.id k v).1.heap.record w.id = ((st.heap.record w.id).put k v).1 := by
  have hlt : w.id.index < st.heap.size := Nat.lt_of_lt_of_le w.id_lt_size h.grown.heap
  rw [Store.record_put, if_pos ⟨rfl, hlt⟩]

theorem getOwn?_put (ha : w.Allows rest o k) {p : Property}
    (hp : (st.heap.record w.id).getOwn? w.key = some p) (v : Value) :
    ((st.put o k v).1.heap.record w.id).getOwn? w.key = some p ∨
      (o = w.id ∧ k = w.key) ∧ p.attributes.writable = true := by
  rw [Store.record_put]
  split
  next ho =>
    by_cases hk : k = w.key
    · subst hk
      cases hw : p.attributes.writable with
      | true => exact .inr ⟨⟨ho.1, rfl⟩, rfl⟩
      | false => exact .inl (Record.getOwn?_put_of_not_writable hp hw v)
    · left
      have he := ha.apart ho.1
      rw [← Record.entangles_of_shape (h.grown.shape w.id w.id_lt_size)] at he
      rw [Record.getOwn?_put_of_ne _ hk he v, hp]
  next => exact .inl hp

theorem put (ha : w.Allows rest o k) (v : Value) :
    w.Spared inner rest (st.put o k v).1 where
  grown := h.grown.trans (st.extends_put o k v)
  object := h.object
  inner := h.inner
  bound := h.bound
  bindings := h.bindings
  globals b hb := by
    rw [← h.globals b hb, Store.record_put]
    split
    next ho =>
      have hne : k ≠ b := fun hk => ha.base ho.1 (hk ▸ hb)
      have hplain : (st.heap.record w.global).objectClass ≠ .array := by
        rw [Record.objectClass_of_shape (h.grown.shape w.global w.rooted.present)]
        exact w.rooted.plain
      exact Record.getOwn?_put_of_ne _ hne (Record.entangles_of_ne_array hplain k b) v
    next => rfl
  kept := by
    obtain hkept | hhit := h.kept
    · exact (h.getOwn?_put ha hkept v).imp_right fun hw => ⟨ha.hit hw.1.1 hw.1.2, hw.2⟩
    · exact .inr hhit

theorem bind (hn : name ∉ bases rest) (c : ScopeId) (b : Binding) :
    w.Spared inner rest (st.bind c name b) := by
  have hbase : ∀ d, ∀ n ∈ bases rest, (st.bind c name b).binding? d n = st.binding? d n :=
    fun d n hn' => by
      have hne : name ≠ n := fun he => hn (he ▸ hn')
      simp [Store.binding?_bind, hne]
  exact {
    grown := h.grown.trans (st.extends_bind c name b)
    object := fun d => (Store.object_bind st c d name b).trans (h.object d)
    inner := fun d hd => ⟨(h.inner d hd).1, fun n hn' => (hbase d n hn').trans ((h.inner d hd).2 n hn')⟩
    bound := fun d n hd => by
      rw [Store.binding?_bind]
      split
      · rfl
      · exact h.bound d n hd
    bindings := fun d hd n hn' => (hbase d n hn').trans (h.bindings d hd n hn')
    globals := h.globals
    kept := h.kept }

theorem newScope : w.Spared ((st.newScope {}).2 :: inner) rest (st.newScope {}).1 := by
  have hscope := st.scope_newScope_empty
  have hbinding : ∀ c n, (st.newScope {}).1.binding? c n = st.binding? c n := fun c n => by
    unfold Store.binding?
    rw [hscope]
  have hnew : st.scope (st.newScope {}).2 = {} := by
    rw [← hscope, Store.scope_newScope]
    exact if_pos rfl
  refine {
    grown := h.grown.trans (st.extends_newScope {})
    object := fun c => (congrArg Scope.object (hscope c)).trans (h.object c)
    inner := List.forall_mem_cons.mpr ⟨⟨?_, fun b hb => ?_⟩, fun c hc => ⟨(h.inner c hc).1, ?_⟩⟩
    bound := fun c n hc => (hbinding c n).symm ▸ h.bound c n hc
    bindings := fun c hc b hb => (hbinding c b).trans (h.bindings c hc b hb)
    globals := h.globals
    kept := h.kept }
  · rw [← h.object, hnew]
  · rw [hbinding, Store.binding?, hnew]
    rfl
  · exact fun b hb => (hbinding c b).trans ((h.inner c hc).2 b hb)

theorem allocate (r : Record) : w.Spared inner rest (st.allocate r).1 := by
  have hold : ∀ o : ObjectId, o.index < w.store.heap.size →
      (st.allocate r).1.heap.record o = st.heap.record o := fun o ho => by
    rw [Store.allocate, Store.heap_onHeap, Heap.record_allocate,
      if_neg (Nat.ne_of_lt (Nat.lt_of_lt_of_le ho h.grown.heap))]
  exact {
    grown := h.grown.trans (st.extends_allocate r)
    object := h.object
    inner := h.inner
    bound := h.bound
    bindings := h.bindings
    globals := fun b hb => by rw [hold w.global w.rooted.present, h.globals b hb]
    kept := by rw [hold w.id w.id_lt_size]; exact h.kept }

end

/-! ### Writes -/

section

variable {x : Write}

theorem allows (h : w.Spared inner (x :: rest) st) (hx : (x :: rest).Sublist w.writes)
    (hp : x.place? st (inner ++ w.chain) = some (o, k)) : w.Allows rest o k := by
  cases x with
  | member base key => exact allows_of_place hx (h.place_member (.head _) ▸ hp)
  | name n =>
    obtain ⟨o', ho, heq⟩ := Option.map_eq_some_iff.mp hp
    cases heq
    obtain ⟨rfl, howner⟩ := h.owner ho
    refine ⟨fun _ => not_mem_bases hx, fun hid hk => ?_, fun hid => ?_⟩
    · have hhas : (w.store.heap.record w.global).has k = true := by
        rw [Record.has_eq, hid, hk, w.present]
        rfl
      have hplace : (Write.name k).place? w.store w.chain = some (w.global, k) := by
        simp [Write.place?, howner hhas]
      exact ⟨_, hx.subset (.head _), hid ▸ hk ▸ hplace⟩
    · exact Record.entangles_of_ne_array (hid ▸ w.rooted.plain) k w.key

theorem assign (h : w.Spared inner (.name name :: rest) st)
    (hx : (.name name :: rest).Sublist w.writes) (v : Value) :
    w.Spared inner rest (st.assign (inner ++ w.chain) name v).1 := by
  have ha := st.assign_owner (inner ++ w.chain) name v
  split at ha
  next o ho =>
    rw [ha]
    exact h.behind.put (h.allows hx (by simp [Write.place?, ho])) v
  next =>
    obtain ha | ⟨c, b, _, ha⟩ := ha
    · rw [ha]
      exact h.behind
    · rw [ha]
      exact h.behind.bind (not_mem_bases hx) c b

theorem allows_global (h : w.Spared inner (.name name :: rest) st)
    (hx : (.name name :: rest).Sublist w.writes)
    (hs : st.slot? (inner ++ w.chain) name = none) : w.Allows rest w.global name where
  base _ := not_mem_bases hx
  hit hid hk := by
    obtain hkept | hhit := h.kept
    · obtain ⟨c, hc, hobject⟩ := w.rooted.reached
      have hslot := Store.ownSlot?_of_slot? hs c (List.mem_append_right _ hc)
      rw [Store.ownSlot?, h.object, hobject] at hslot
      split at hslot
      · cases hslot
      · rw [← hk, ← hid] at hkept
        simp [hkept] at hslot
    · exact hhit.1
  apart hid := Record.entangles_of_ne_array (hid ▸ w.rooted.plain) name w.key

theorem forget (h : w.Spared inner (x :: rest) st) (hx : (x :: rest).Sublist w.writes) :
    w.Spared inner rest (x.forget (inner ++ w.chain) st) := by
  cases x with
  | name n => exact h.assign hx .unknown
  | member base key =>
    cases hp : (Write.member base key).place? st (inner ++ w.chain) with
    | some p =>
      rw [Write.forget_of_place hp]
      exact h.behind.put (h.allows hx hp) .unknown
    | none =>
      obtain hf | ⟨_, heq, _⟩ := Write.forget_of_place_none hp
      · rw [hf]
        exact h.behind
      · cases heq

theorem forgetWrites {xs : List Write} (h : w.Spared inner (xs ++ rest) st)
    (hx : (xs ++ rest).Sublist w.writes) :
    w.Spared inner rest (st.forgetWrites (inner ++ w.chain) xs) := by
  induction xs generalizing st with
  | nil => exact h
  | cons x xs ih => exact ih (h.forget hx) (List.sublist_of_cons_sublist hx)

end

end Spared

/-! ### Forgetting -/

structure Fading (w : Watch) (rest : List Write) (st : Store) : Prop where
  spared : w.Spared [] rest st
  names : ∀ c name, (st.binding? c name).isSome = (w.store.binding? c name).isSome
  value : (st.heap.record w.id).getOwn? w.key = some w.property ∨
    (st.heap.record w.id).getOwn? w.key = some w.forgotten

theorem fading_refl (w : Watch) : w.Fading w.writes w.store :=
  ⟨w.spared_refl, fun _ _ => rfl, .inl w.present⟩

namespace Fading

variable {x : Write}

section

variable (h : w.Fading (x :: rest) st)
include h

theorem place (hp : x.place? w.store w.chain = some (w.id, w.key)) :
    x.place? st w.chain = some (w.id, w.key) := by
  cases x with
  | member base key => exact (h.spared.place_member (.head _)).trans hp
  | name n =>
    obtain ⟨o, ho, heq⟩ := Option.map_eq_some_iff.mp hp
    obtain ⟨rfl, rfl⟩ := Prod.mk.inj heq
    obtain ⟨hid, _⟩ := w.spared_refl.owner ho
    have hhas : (st.heap.record w.id).has w.key = true := by
      rw [Record.has_eq]
      obtain hv | hv := h.value <;> rw [hv] <;> rfl
    have howner : st.owner? w.chain w.key = some w.id := by
      refine Store.owner?_transfer (fun c => (h.spared.object c).symm)
        (fun c hc => (h.names c w.key).symm.trans hc) (fun c hc o hobject => ?_) hhas
        (Option.isSome_of_eq_some ho)
      rw [hid]
      exact w.rooted.object c hc o ((h.spared.object c).symm.trans hobject)
    simp [Write.place?, howner]

variable (hx : (x :: rest).Sublist w.writes)
include hx

theorem getOwn?_forget {p : Property} (hp : (st.heap.record w.id).getOwn? w.key = some p) :
    ((x.forget w.chain st).heap.record w.id).getOwn? w.key = some p ∨
      ((x.forget w.chain st).heap.record w.id).getOwn? w.key = some { p with value := .unknown } := by
  cases hplace : x.place? st w.chain with
  | none =>
    obtain hf | ⟨_, _, _, _, _, hf⟩ := Write.forget_of_place_none hplace <;> rw [hf] <;>
      exact .inl hp
  | some q =>
    obtain ⟨o, k⟩ := q
    rw [Write.forget_of_place hplace]
    obtain hkept | ⟨⟨rfl, rfl⟩, hw⟩ :=
      h.spared.behind.getOwn?_put (h.spared.allows hx hplace) hp .unknown
    · exact .inl hkept
    · right
      rw [h.spared.record_put_self]
      exact Record.getOwn?_put_unknown hp hw

theorem forget : w.Fading rest (x.forget w.chain st) where
  spared := h.spared.forget hx
  names c n := by
    rw [← h.names]
    cases hplace : x.place? st w.chain with
    | some p =>
      rw [Write.forget_of_place hplace]
      rfl
    | none =>
      obtain hf | ⟨m, _, d, b, hb, hf⟩ := Write.forget_of_place_none hplace
      · rw [hf]
      · rw [hf, Store.binding?_bind]
        split
        next hd =>
          rw [← hd.2, ← hd.1.1, hb]
          rfl
        next => rfl
  value := by
    obtain hv | hv := h.value
    · exact h.getOwn?_forget hx hv
    · exact .inr (or_self_iff.mp (h.getOwn?_forget hx hv))

theorem forget_forgotten (hv : (st.heap.record w.id).getOwn? w.key = some w.forgotten) :
    ((x.forget w.chain st).heap.record w.id).getOwn? w.key = some w.forgotten :=
  or_self_iff.mp (h.getOwn?_forget hx hv)

end

section

variable {xs : List Write} (h : w.Fading (xs ++ rest) st) (hx : (xs ++ rest).Sublist w.writes)
include h hx

theorem forgetWrites : w.Fading rest (st.forgetWrites w.chain xs) := by
  induction xs generalizing st with
  | nil => exact h
  | cons x xs ih => exact ih (h.forget hx) (List.sublist_of_cons_sublist hx)

theorem forgetWrites_forgotten (hv : (st.heap.record w.id).getOwn? w.key = some w.forgotten) :
    ((st.forgetWrites w.chain xs).heap.record w.id).getOwn? w.key = some w.forgotten := by
  induction xs generalizing st with
  | nil => exact hv
  | cons x xs ih =>
    exact ih (h.forget hx) (List.sublist_of_cons_sublist hx) (h.forget_forgotten hx hv)

end

end Fading

/-- Forgetting the writes of the code forgets a property that one of them hits. -/
theorem getOwn?_forgetWrites (w : Watch) (hit : w.Hit)
    (hw : w.property.attributes.writable = true) :
    ((w.store.forgetWrites w.chain w.writes).heap.record w.id).getOwn? w.key = some w.forgotten := by
  obtain ⟨x, hx, hplace⟩ := hit
  obtain ⟨us, vs, hsplit⟩ := List.append_of_mem hx
  have hrest : (x :: vs).Sublist w.writes := hsplit ▸ List.sublist_append_right us (x :: vs)
  have hf : w.Fading (x :: vs) (w.store.forgetWrites w.chain us) :=
    (hsplit ▸ w.fading_refl : w.Fading (us ++ x :: vs) w.store).forgetWrites
      (hsplit ▸ List.Sublist.refl w.writes)
  rw [hsplit, Store.forgetWrites_append]
  have hbehind : w.Fading (vs ++ []) _ := (List.append_nil vs).symm ▸ hf.forget hrest
  refine hbehind.forgetWrites_forgotten
    ((List.append_nil vs).symm ▸ List.sublist_of_cons_sublist hrest) ?_
  -- the write that hits the property makes it unknown if it is not so already
  obtain hv | hv := hf.value
  · rw [Write.forget_of_place (hf.place hplace)]
    rw [hf.spared.record_put_self]
    exact Record.getOwn?_put_unknown hv hw
  · exact hf.forget_forgotten hrest hv

end Watch
end Surmise
