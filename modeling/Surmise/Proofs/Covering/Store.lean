import Mathlib.Data.List.Nodup
import Surmise.Proofs.Covering.Basic

/-! Two stores of which the first may know less, seen along two chains of scopes: the scopes are paired,
and what the first store holds in a scope stands for what the second holds in its partner. -/
namespace Surmise

def Binding.Covers (b d : Binding) : Prop := b.value.Covers d.value ∧ b.mutable = d.mutable

structure Scope.Covers (c d : Scope) : Prop where
  object : c.object = d.object
  bindings : ∀ name, Option.Rel Binding.Covers (c.bindings.get? name) (d.bindings.get? name)

namespace Scope

theorem Covers.refl (c : Scope) : c.Covers c := ⟨rfl, fun _ => rel_refl (fun _ => ⟨.refl _, rfl⟩) _⟩

theorem Covers.insert {c d : Scope} (h : c.Covers d) (name : String) {b e : Binding} (hb : b.Covers e) :
    Scope.Covers { c with bindings := c.bindings.insert name b }
      { d with bindings := d.bindings.insert name e } where
  object := h.object
  bindings k := by
    rw [Dict.get?_insert, Dict.get?_insert]
    split
    · exact .some hb
    · exact h.bindings k

end Scope

/-! ### Writing properties -/

namespace Record

variable {r : Record}

theorem put_of_ne_array (h : r.objectClass ≠ .array) (key : String) (v : Value) :
    r.put key v = r.assign key v := by
  unfold put
  rw [if_neg h]

theorem Covers.assign {q : Record} (h : r.Covers q) (he : r.extensible = q.extensible) (key : String)
    {v w : Value} (hv : v.Covers w) :
    (r.assign key v).1.Covers (q.assign key w).1 ∧ (r.assign key v).2 = (q.assign key w).2 := by
  have hk := h.own key
  unfold Record.assign
  generalize r.getOwn? key = p?, q.getOwn? key = p'? at hk ⊢
  cases hk with
  | none =>
    rw [he]
    cases q.extensible with
    | true => exact ⟨h.setProperty key ⟨hv, rfl⟩, rfl⟩
    | false => exact ⟨h, rfl⟩
  | @some p p' hp =>
    dsimp only
    rw [← hp.2]
    cases p.attributes.writable with
    | true => exact ⟨h.setProperty key ⟨hv, rfl⟩, rfl⟩
    | false => exact ⟨h, rfl⟩

theorem assign_self {key : String} {p : Property} (h : r.getOwn? key = some p) {v : Value}
    (hv : p.attributes.writable = true → v = p.value) : (r.assign key v).1 = r := by
  unfold assign
  rw [h]
  dsimp only
  split
  next hw => rw [hv hw]; exact setProperty_self h
  next => rfl

end Record

/-- The first heap may know less, and the same objects are extensible in both. -/
structure Heap.Mirrors (h k : Heap) : Prop extends h.Covers k where
  extensible : ∀ id, (h.record id).extensible = (k.record id).extensible

namespace Heap

theorem Mirrors.refl (h : Heap) : h.Mirrors h := ⟨.refl h, fun _ => rfl⟩

theorem shape_put (h : Heap) (id j : ObjectId) (key : String) (v : Value) :
    ((h.put id key v).1.record j).shape = (h.record j).shape :=
  h.shape_update id j _ fun r => r.shape_put key v

theorem Mirrors.put {h k : Heap} (hk : h.Mirrors k) {id : ObjectId}
    (ha : (h.record id).objectClass ≠ .array) (key : String) {v w : Value} (hv : v.Covers w) :
    (h.put id key v).1.Mirrors (k.put id key w).1 ∧ (h.put id key v).2 = (k.put id key w).2 := by
  have ha' : (k.record id).objectClass ≠ .array := by rwa [← (hk.record id).objectClass]
  have hr := (hk.record id).assign (hk.extensible id) key hv
  rw [← Record.put_of_ne_array ha, ← Record.put_of_ne_array ha'] at hr
  refine ⟨⟨⟨?_, fun j => ?_⟩, fun j => ?_⟩, ?_⟩
  · rw [Heap.put, Heap.put, size_update, size_update, hk.size]
  · rw [Heap.put, Heap.put, record_update, record_update, hk.size]
    split
    next hj =>
      rw [← hj.1]
      exact hr.1
    next => exact hk.record j
  · rw [Record.extensible_of_shape (h.shape_put id j key v),
      Record.extensible_of_shape (k.shape_put id j key w)]
    exact hk.extensible j
  · rw [Heap.put, Heap.put, snd_update, snd_update]
    exact hr.2

theorem update_self (h : Heap) (id : ObjectId) {f : Record → Record × Bool}
    (hf : (f (h.record id)).1 = h.record id) : (h.update id f).1 = h := by
  refine ext_record (size_update h id f) fun j => ?_
  rw [record_update]
  split
  next hj => rw [← hj.1, hf]
  next => rfl

end Heap

namespace Store

variable {l : ScopeId × ScopeId}

/-- The scopes of two chains, paired: no scope is in two pairs, the object of a scope is no array, and
what the first store holds, in a paired scope or in the heap, stands for what the second holds. -/
structure Linked (links : List (ScopeId × ScopeId)) (s t : Store) : Prop where
  heap : s.heap.Mirrors t.heap
  nodup_left : (links.map Prod.fst).Nodup
  nodup_right : (links.map Prod.snd).Nodup
  bound_left : ∀ l ∈ links, l.1.index < s.scopes.size
  bound_right : ∀ l ∈ links, l.2.index < t.scopes.size
  scope : ∀ l ∈ links, (s.scope l.1).Covers (t.scope l.2)
  plain : ∀ l ∈ links, ∀ object, (s.scope l.1).object = some object →
    (s.heap.record object).objectClass ≠ .array

variable {links : List (ScopeId × ScopeId)} {s t : Store}

theorem Linked.left_eq_iff (h : Linked links s t) {m : ScopeId × ScopeId} (hl : l ∈ links) (hm : m ∈ links) :
    l.1 = m.1 ↔ l = m :=
  ⟨fun he => List.inj_on_of_nodup_map h.nodup_left hl hm he, fun he => he ▸ rfl⟩

theorem Linked.right_eq_iff (h : Linked links s t) {m : ScopeId × ScopeId} (hl : l ∈ links) (hm : m ∈ links) :
    l.2 = m.2 ↔ l = m :=
  ⟨fun he => List.inj_on_of_nodup_map h.nodup_right hl hm he, fun he => he ▸ rfl⟩

theorem Linked.tail (h : Linked (l :: links) s t) : Linked links s t where
  heap := h.heap
  nodup_left := (List.nodup_cons.mp h.nodup_left).2
  nodup_right := (List.nodup_cons.mp h.nodup_right).2
  bound_left m hm := h.bound_left m (.tail _ hm)
  bound_right m hm := h.bound_right m (.tail _ hm)
  scope m hm := h.scope m (.tail _ hm)
  plain m hm := h.plain m (.tail _ hm)

def diagonal (chain : Chain) : List (ScopeId × ScopeId) := chain.map fun id => (id, id)

theorem map_fst_diagonal (chain : Chain) : (diagonal chain).map Prod.fst = chain := by
  simp [diagonal, Function.comp_def]

theorem map_snd_diagonal (chain : Chain) : (diagonal chain).map Prod.snd = chain := by
  simp [diagonal, Function.comp_def]

structure Covers (s t : Store) : Prop where
  heap : s.heap.Mirrors t.heap
  size : s.scopes.size = t.scopes.size
  scope : ∀ id, (s.scope id).Covers (t.scope id)

theorem Covers.refl (s : Store) : s.Covers s := ⟨.refl _, rfl, fun _ => .refl _⟩

theorem Covers.linked (h : s.Covers t) {chain : Chain} (hn : chain.Nodup)
    (hb : ∀ id ∈ chain, id.index < s.scopes.size)
    (hp : ∀ id ∈ chain, ∀ object, (s.scope id).object = some object →
      (s.heap.record object).objectClass ≠ .array) : Linked (diagonal chain) s t := by
  have hd : ∀ l ∈ diagonal chain, l.1 ∈ chain ∧ l.2 = l.1 := by
    intro l hl
    obtain ⟨id, hid, rfl⟩ := List.mem_map.mp hl
    exact ⟨hid, rfl⟩
  refine ⟨h.heap, ?_, ?_, fun l hl => ?_, fun l hl => ?_, fun l hl => ?_, fun l hl => ?_⟩
  · rwa [map_fst_diagonal]
  · rwa [map_snd_diagonal]
  · exact hb l.1 (hd l hl).1
  · rw [(hd l hl).2, ← h.size]
    exact hb l.1 (hd l hl).1
  · rw [(hd l hl).2]
    exact h.scope l.1
  · exact hp l.1 (hd l hl).1

/-! ### Writing in both stores -/

variable {object : ObjectId} {v w : Value}

theorem Linked.bind (h : Linked links s t) (hl : l ∈ links) (name : String) {b d : Binding} (hb : b.Covers d) :
    Linked links (s.bind l.1 name b) (t.bind l.2 name d) where
  heap := h.heap
  nodup_left := h.nodup_left
  nodup_right := h.nodup_right
  bound_left := by simpa using h.bound_left
  bound_right := by simpa using h.bound_right
  scope m hm := by
    rw [scope_bind, scope_bind]
    by_cases he : l = m
    · subst he
      rw [if_pos ⟨rfl, h.bound_left l hl⟩, if_pos ⟨rfl, h.bound_right l hl⟩]
      exact (h.scope l hl).insert name hb
    · rw [if_neg fun hc => he ((h.left_eq_iff hl hm).mp hc.1),
        if_neg fun hc => he ((h.right_eq_iff hl hm).mp hc.1)]
      exact h.scope m hm
  plain m hm object ho := by
    rw [object_bind] at ho
    exact h.plain m hm object ho

theorem Linked.put (h : Linked links s t) (hl : l ∈ links) (ho : (s.scope l.1).object = some object)
    (name : String) (hv : v.Covers w) :
    Linked links (s.put object name v).1 (t.put object name w).1 ∧
      (s.put object name v).2 = (t.put object name w).2 := by
  have hp := h.heap.put (h.plain l hl object ho) name hv
  unfold Store.put
  refine ⟨⟨?_, h.nodup_left, h.nodup_right, h.bound_left, h.bound_right, h.scope,
    fun m hm o hmo => ?_⟩, ?_⟩
  · rw [heap_onHeap, heap_onHeap]
    exact hp.1
  · rw [heap_onHeap, Record.objectClass_of_shape (s.heap.shape_put object o name v)]
    exact h.plain m hm o hmo
  · rw [snd_onHeap, snd_onHeap]
    exact hp.2

theorem Covers.put (h : s.Covers t) (ha : (s.heap.record object).objectClass ≠ .array) (name : String)
    (hv : v.Covers w) : (s.put object name v).1.Covers (t.put object name w).1 := by
  refine ⟨?_, h.size, h.scope⟩
  rw [Store.put, Store.put, heap_onHeap, heap_onHeap]
  exact (h.heap.put ha name hv).1

def SlotCovers (x y : Value × Bool) : Prop := x.1.Covers y.1 ∧ x.2 = y.2

theorem ownSlot_covers (hh : s.heap.Covers t.heap) {i j : ScopeId} (hc : (s.scope i).Covers (t.scope j))
    (name : String) : Option.Rel SlotCovers (s.ownSlot? i name) (t.ownSlot? j name) := by
  have hb := hc.bindings name
  unfold ownSlot? binding?
  rw [← hc.object]
  generalize (s.scope i).bindings.get? name = b?, (t.scope j).bindings.get? name = d? at hb ⊢
  cases hb with
  | some hb => exact .some hb
  | none =>
    cases (s.scope i).object with
    | none => exact .none
    | some object =>
      have hp := (hh.record object).own name
      dsimp only [Option.bind_some]
      generalize (s.heap.record object).getOwn? name = p?,
        (t.heap.record object).getOwn? name = q? at hp ⊢
      cases hp with
      | none => exact .none
      | some hp => exact .some ⟨hp.1, congrArg Attributes.writable hp.2⟩

theorem Linked.slot (h : Linked links s t) (name : String) :
    Option.Rel SlotCovers (s.slot? (links.map Prod.fst) name) (t.slot? (links.map Prod.snd) name) := by
  induction links with
  | nil => exact .none
  | cons l links ih =>
    have hl := ownSlot_covers h.heap.toCovers (h.scope l (.head _)) name
    simp only [List.map_cons, slot?]
    generalize s.ownSlot? l.1 name = x?, t.ownSlot? l.2 name = y? at hl ⊢
    cases hl with
    | none => exact ih h.tail
    | some hxy => exact .some hxy

theorem Linked.lookup (h : Linked links s t) (name : String) :
    Option.Rel Value.Covers (s.lookup (links.map Prod.fst) name) (t.lookup (links.map Prod.snd) name) := by
  have hs := h.slot name
  rw [lookup_eq, lookup_eq]
  generalize s.slot? (links.map Prod.fst) name = x?, t.slot? (links.map Prod.snd) name = y? at hs ⊢
  cases hs with
  | none => exact .none
  | some hxy => exact .some hxy.1

/-- Assignment through linked chains finds the same place on both sides. -/
theorem Linked.assign (h : Linked links s t) {ls : List (ScopeId × ScopeId)} (hls : ls ⊆ links)
    (name : String) (hv : v.Covers w) :
    Linked links (s.assign (ls.map Prod.fst) name v).1 (t.assign (ls.map Prod.snd) name w).1 ∧
      (s.assign (ls.map Prod.fst) name v).2 = (t.assign (ls.map Prod.snd) name w).2 := by
  induction ls with
  | nil => exact ⟨h, rfl⟩
  | cons l ls ih =>
    obtain ⟨hl, hls⟩ := List.cons_subset.mp hls
    have hc := h.scope l hl
    have hb := hc.bindings name
    simp only [List.map_cons, Store.assign, assignOwn?_eq, binding?]
    generalize (s.scope l.1).bindings.get? name = b?, (t.scope l.2).bindings.get? name = d? at hb ⊢
    cases hb with
    | @some b d hb =>
      dsimp only
      rw [← hb.2]
      cases b.mutable with
      | true => exact ⟨h.bind hl name ⟨hv, rfl⟩, rfl⟩
      | false => exact ⟨h, rfl⟩
    | none =>
      dsimp only
      rw [← hc.object]
      cases ho : (s.scope l.1).object with
      | none => exact ih hls
      | some object =>
        have hp := (h.heap.record object).own name
        have hput := h.put hl ho name hv
        dsimp only [Option.bind_some]
        generalize (s.heap.record object).getOwn? name = p?,
          (t.heap.record object).getOwn? name = q? at hp ⊢
        cases hp with
        | none => exact ih hls
        | some _ =>
          refine ⟨hput.1, ?_⟩
          dsimp only [Option.map_some]
          rw [hput.2]

/-! ### Writing in one of the stores -/

variable {id : ScopeId} {name : String}

theorem bind_self {s : Store} {b : Binding} (h : s.binding? id name = some b) : s.bind id name b = s := by
  obtain ⟨heap, scopes⟩ := s
  refine congrArg (Store.mk heap) (Array.ext Array.size_modify fun i hi hj => ?_)
  rw [Array.getElem_modify]
  split
  next he =>
    have hg : scopes[i].bindings.get? name = some b := by
      simpa [binding?, scope, he, hj] using h
    rw [Dict.insert_self hg]
  next => rfl

theorem put_self {p : Property} (ha : (s.heap.record object).objectClass ≠ .array)
    (hg : (s.heap.record object).getOwn? name = some p) (hw : p.attributes.writable = true → v = p.value) :
    (s.put object name v).1 = s := by
  have hr := Record.assign_self hg hw
  rw [← Record.put_of_ne_array ha] at hr
  have hh : (s.heap.put object name v).1 = s.heap := s.heap.update_self object hr
  unfold put onHeap
  dsimp only
  rw [hh]

theorem assign_self {chain : Chain} (hp : ∀ id ∈ chain, ∀ object, (s.scope id).object = some object →
      (s.heap.record object).objectClass ≠ .array) (hv : ∀ x, s.slot? chain name = some (x, true) → v = x) :
    (s.assign chain name v).1 = s := by
  obtain ⟨_, h⟩ | ⟨id, b, hb, hs, h⟩ | ⟨id, hid, object, p, ho, hg, hs, h⟩ :=
    s.assign_spec chain name v <;> rw [h]
  · cases hm : b.mutable with
    | false => rfl
    | true =>
      have he : b = ⟨v, true⟩ := by rw [hv b.value (by rw [hs, hm]), ← hm]
      exact bind_self (he ▸ hb)
  · exact put_self (hp id hid object ho) hg fun hw => hv _ (by rw [hs, hw])

section

variable (h : Linked links s t)
include h

theorem Linked.plain_left (id : ScopeId) (hid : id ∈ links.map Prod.fst)
    (object : ObjectId) (ho : (s.scope id).object = some object) :
    (s.heap.record object).objectClass ≠ .array := by
  obtain ⟨l, hl, rfl⟩ := List.mem_map.mp hid
  exact h.plain l hl object ho

theorem Linked.plain_right (id : ScopeId) (hid : id ∈ links.map Prod.snd)
    (object : ObjectId) (ho : (t.scope id).object = some object) :
    (t.heap.record object).objectClass ≠ .array := by
  obtain ⟨l, hl, rfl⟩ := List.mem_map.mp hid
  rw [← (h.scope l hl).object] at ho
  rw [← (h.heap.record object).objectClass]
  exact h.plain l hl object ho

theorem Linked.self_left : Linked (diagonal (links.map Prod.fst)) s s := by
  refine (Covers.refl s).linked h.nodup_left (fun id hid => ?_) h.plain_left
  obtain ⟨l, hl, rfl⟩ := List.mem_map.mp hid
  exact h.bound_left l hl

theorem Linked.forgetName (name : String) :
    Linked links (s.forgetName (links.map Prod.fst) name) t := by
  have hw : ∃ w, (t.assign (links.map Prod.snd) name w).1 = t := by
    cases hs : t.slot? (links.map Prod.snd) name with
    | none => exact ⟨.unknown, assign_self h.plain_right fun x hx => by rw [hs] at hx; cases hx⟩
    | some x => exact ⟨x.1, assign_self h.plain_right fun y hy => by rw [hs] at hy; cases hy; rfl⟩
  obtain ⟨w, hw⟩ := hw
  have ha := (h.assign (List.Subset.refl links) name (.unknown w)).1
  rwa [hw] at ha

def Forgotten (s : Store) (chain : Chain) (name : String) : Prop :=
  ∀ x, s.slot? chain name = some (x, true) → x = .unknown

theorem Linked.assign_right (hf : s.Forgotten (links.map Prod.fst) name) (w : Value) :
    Linked links s (t.assign (links.map Prod.snd) name w).1 := by
  have hs : (s.assign (links.map Prod.fst) name .unknown).1 = s :=
    assign_self h.plain_left fun x hx => (hf x hx).symm
  have ha := (h.assign (List.Subset.refl links) name (.unknown w)).1
  rwa [hs] at ha

theorem Linked.forgotten_forgetName (hf : s.Forgotten (links.map Prod.fst) name)
    (other : String) : (s.forgetName (links.map Prod.fst) other).Forgotten (links.map Prod.fst) name := by
  intro x hx
  have hs := (h.self_left.forgetName other).slot name
  rw [map_fst_diagonal, map_snd_diagonal, hx] at hs
  generalize hy : s.slot? (links.map Prod.fst) name = y? at hs
  cases hs with
  | @some _ y hxy =>
    obtain ⟨w, m⟩ := y
    obtain ⟨h | h, rfl⟩ := hxy
    · exact h
    · exact h.trans (hf w hy)

end

theorem binding?_bind_self (h : id.index < s.scopes.size) (name : String) (b : Binding) :
    (s.bind id name b).binding? id name = some b := by
  rw [binding?, scope_bind, if_pos ⟨rfl, h⟩, Dict.get?_insert, if_pos rfl]

theorem getOwn?_put_self {p : Property} (ha : (s.heap.record object).objectClass ≠ .array)
    (hg : (s.heap.record object).getOwn? name = some p) (hw : p.attributes.writable = true) (v : Value) :
    ((s.put object name v).1.heap.record object).getOwn? name = some { p with value := v } := by
  have hb : object.index < s.heap.size := by
    by_contra hb
    have hd : s.heap.record object = default := Heap.record_of_size_le (Nat.not_lt.mp hb)
    rw [hd] at hg
    cases hg
  rw [put, heap_onHeap, Heap.put, Heap.record_update, if_pos ⟨rfl, hb⟩, Record.put_of_ne_array ha,
    Record.assign, hg]
  dsimp only
  rw [if_pos hw, Record.getOwn?_setProperty, if_pos rfl]

/-- Forgetting a name keeps constants and makes variables unknown. -/
theorem ownSlot?_forgetName (hb : id.index < s.scopes.size)
    (hp : ∀ object, (s.scope id).object = some object → (s.heap.record object).objectClass ≠ .array)
    {m : Bool} (hs : s.ownSlot? id name = some (w, m)) (outer : Chain) :
    (s.forgetName (id :: outer) name).ownSlot? id name = some (if m then .unknown else w, m) := by
  unfold forgetName
  rw [assign, assignOwn?_eq]
  cases hbi : s.binding? id name with
  | some b =>
    simp only [ownSlot?, hbi, Option.some.injEq, Prod.mk.injEq] at hs
    obtain ⟨rfl, rfl⟩ := hs
    cases hm : b.mutable with
    | true => simp [ownSlot?, hm, binding?_bind_self hb]
    | false => simp [ownSlot?, hbi, hm]
  | none =>
    simp only [ownSlot?, hbi, Option.bind_eq_some_iff, Option.map_eq_some_iff, Prod.mk.injEq] at hs
    obtain ⟨object, ho, p, hg, rfl, rfl⟩ := hs
    have ha := hp object ho
    simp only [ho, hg, Option.bind_some, Option.map_some]
    have hbi' : (s.put object name .unknown).1.binding? id name = none := hbi
    have ho' : ((s.put object name .unknown).1.scope id).object = some object := ho
    cases hw : p.attributes.writable with
    | true =>
      have hg' := getOwn?_put_self ha hg hw .unknown
      simp [ownSlot?, hbi', ho', hg', hw]
    | false =>
      rw [put_self ha hg (by simp [hw])]
      simp [ownSlot?, hbi, ho, hg, hw]

section

variable (h : Linked links s t)
include h

theorem Linked.forgotten_self (name : String) :
    (s.forgetName (links.map Prod.fst) name).Forgotten (links.map Prod.fst) name := by
  induction links with
  | nil => exact fun x hx => by cases hx
  | cons l links ih =>
    intro x hx
    rw [List.map_cons, slot?] at hx
    cases hs : s.ownSlot? l.1 name with
    | none =>
      -- The scope does not come to bind the name, so the rest of the chain decides.
      have hd := h.self_left.forgetName name
      have hl := ownSlot_covers hd.heap.toCovers (hd.scope (l.1, l.1) (.head _)) name
      rw [map_fst_diagonal, hs, List.map_cons] at hl
      generalize (s.forgetName (l.1 :: links.map Prod.fst) name).ownSlot? l.1 name = y? at hl hx
      cases hl with
      | none =>
        unfold Store.forgetName at hx
        rw [assign_cons_of_none hs] at hx
        exact ih h.tail x hx
    | some y =>
      obtain ⟨w, m⟩ := y
      rw [ownSlot?_forgetName (h.bound_left l (.head _)) (h.plain l (.head _)) hs] at hx
      cases m with
      | true => cases hx; rfl
      | false => cases hx

def forgetNames (s : Store) (chain : Chain) (names : List String) : Store :=
  names.foldl (fun s name => s.forgetName chain name) s

theorem Linked.forgetNames (names : List String) :
    Linked links (s.forgetNames (links.map Prod.fst) names) t := by
  induction names generalizing s with
  | nil => exact h
  | cons name names ih => exact ih (h.forgetName name)

theorem Linked.forgotten_forgetNames (names : List String)
    (hf : s.Forgotten (links.map Prod.fst) name ∨ name ∈ names) :
    (s.forgetNames (links.map Prod.fst) names).Forgotten (links.map Prod.fst) name := by
  induction names generalizing s with
  | nil => exact hf.elim id fun hm => by cases hm
  | cons other names ih =>
    refine ih (h.forgetName other) ?_
    obtain hf | hm := hf
    · exact .inl (h.forgotten_forgetName hf other)
    · cases hm with
      | head => exact .inl (h.forgotten_self name)
      | tail _ hm => exact .inr hm

/-! ### Scopes and declarations -/

/-- Scopes that are made on both sides are linked. -/
theorem Linked.newScope :
    Linked ((⟨s.scopes.size⟩, ⟨t.scopes.size⟩) :: links) (s.newScope {}).1 (t.newScope {}).1 where
  heap := h.heap
  nodup_left := by
    refine List.nodup_cons.mpr ⟨fun hm => ?_, h.nodup_left⟩
    obtain ⟨l, hl, he⟩ := List.mem_map.mp hm
    have hb := h.bound_left l hl
    rw [he] at hb
    exact Nat.lt_irrefl _ hb
  nodup_right := by
    refine List.nodup_cons.mpr ⟨fun hm => ?_, h.nodup_right⟩
    obtain ⟨l, hl, he⟩ := List.mem_map.mp hm
    have hb := h.bound_right l hl
    rw [he] at hb
    exact Nat.lt_irrefl _ hb
  bound_left l hl := by
    rw [size_newScope]
    cases hl with
    | head => exact Nat.lt_succ_self _
    | tail _ hl => exact Nat.lt_succ_of_lt (h.bound_left l hl)
  bound_right l hl := by
    rw [size_newScope]
    cases hl with
    | head => exact Nat.lt_succ_self _
    | tail _ hl => exact Nat.lt_succ_of_lt (h.bound_right l hl)
  scope l hl := by
    rw [scope_newScope, scope_newScope]
    cases hl with
    | head => rw [if_pos rfl, if_pos rfl]; exact .refl _
    | tail _ hl =>
      rw [if_neg (Nat.ne_of_lt (h.bound_left l hl)), if_neg (Nat.ne_of_lt (h.bound_right l hl))]
      exact h.scope l hl
  plain l hl object ho := by
    rw [scope_newScope] at ho
    cases hl with
    | head => rw [if_pos rfl] at ho; cases ho
    | tail _ hl =>
      rw [if_neg (Nat.ne_of_lt (h.bound_left l hl))] at ho
      exact h.plain l hl object ho

theorem Linked.newScope_right : Linked links s (t.newScope {}).1 where
  heap := h.heap
  nodup_left := h.nodup_left
  nodup_right := h.nodup_right
  bound_left := h.bound_left
  bound_right l hl := by
    rw [size_newScope]
    exact Nat.lt_succ_of_lt (h.bound_right l hl)
  scope l hl := by
    rw [scope_newScope, if_neg (Nat.ne_of_lt (h.bound_right l hl))]
    exact h.scope l hl
  plain := h.plain

theorem Linked.bind_right (hid : id ∉ links.map Prod.snd) (name : String) (b : Binding) :
    Linked links s (t.bind id name b) where
  heap := h.heap
  nodup_left := h.nodup_left
  nodup_right := h.nodup_right
  bound_left := h.bound_left
  bound_right := by simpa using h.bound_right
  scope l hl := by
    have hne : id ≠ l.2 := fun he => hid (he ▸ List.mem_map_of_mem hl)
    rw [scope_bind, if_neg fun hc => hne hc.1]
    exact h.scope l hl
  plain := h.plain

theorem Linked.declareVariable (hl : l ∈ links) (name : String) :
    Linked links (s.declareVariable l.1 name none) (t.declareVariable l.2 name none) := by
  have hc := h.scope l hl
  have hb := hc.bindings name
  unfold Store.declareVariable holder? binding?
  rw [← rel_isSome hb, ← hc.object]
  generalize (s.scope l.1).bindings.get? name = b?, (t.scope l.2).bindings.get? name = d? at hb ⊢
  cases hb with
  | some _ => exact h
  | none =>
    dsimp only [Option.isSome_none]
    cases ho : (s.scope l.1).object with
    | none => exact h.bind hl name ⟨.refl _, rfl⟩
    | some object =>
      simp only [Bool.false_eq_true, if_false]
      rw [(h.heap.record object).has name]
      split
      · exact h
      · exact (h.put hl ho name (.refl _)).1

end

/-! ### Code that only the second store sees -/

/-- The second store has scopes inside those that are paired, of which the first knows nothing. -/
structure Trailing (inner : Chain) (links : List (ScopeId × ScopeId)) (s t : Store) : Prop where
  linked : Linked links s t
  bound : ∀ id ∈ inner, id.index < t.scopes.size
  apart : ∀ id ∈ inner, id ∉ links.map Prod.snd
  bare : ∀ id ∈ inner, (t.scope id).object = none

variable {inner : Chain}

theorem Linked.trailing (h : Linked links s t) : Trailing [] links s t :=
  ⟨h, by simp, by simp, by simp⟩

theorem Trailing.tail (h : Trailing (id :: inner) links s t) :
    Trailing inner links s t where
  linked := h.linked
  bound j hj := h.bound j (.tail _ hj)
  apart j hj := h.apart j (.tail _ hj)
  bare j hj := h.bare j (.tail _ hj)

theorem Trailing.newScope (h : Trailing inner links s t) :
    Trailing (⟨t.scopes.size⟩ :: inner) links s (t.newScope {}).1 where
  linked := h.linked.newScope_right
  bound id hid := by
    rw [size_newScope]
    cases hid with
    | head => exact Nat.lt_succ_self _
    | tail _ hid => exact Nat.lt_succ_of_lt (h.bound id hid)
  apart id hid hm := by
    cases hid with
    | head =>
      obtain ⟨l, hl, he⟩ := List.mem_map.mp hm
      have hb := h.linked.bound_right l hl
      rw [he] at hb
      exact Nat.lt_irrefl _ hb
    | tail _ hid => exact h.apart id hid hm
  bare id hid := by
    rw [scope_newScope]
    cases hid with
    | head => rw [if_pos rfl]
    | tail _ hid =>
      rw [if_neg (Nat.ne_of_lt (h.bound id hid))]
      exact h.bare id hid

theorem Trailing.bind (h : Trailing inner links s t) (hid : id ∈ inner) (name : String) (b : Binding) :
    Trailing inner links s (t.bind id name b) where
  linked := h.linked.bind_right (h.apart id hid) name b
  bound := by simpa using h.bound
  apart := h.apart
  bare j hj := by
    rw [object_bind]
    exact h.bare j hj

theorem Trailing.assign (h : Trailing inner links s t) (hf : s.Forgotten (links.map Prod.fst) name)
    (w : Value) {ids : Chain} (hids : ids ⊆ inner) :
    Trailing inner links s (t.assign (ids ++ links.map Prod.snd) name w).1 := by
  induction ids with
  | nil =>
    refine ⟨h.linked.assign_right hf w, fun id hid => ?_, h.apart, fun id hid => ?_⟩
    · rw [List.nil_append, size_assign]
      exact h.bound id hid
    · rw [List.nil_append, object_assign]
      exact h.bare id hid
  | cons id ids ih =>
    obtain ⟨hid, hids⟩ := List.cons_subset.mp hids
    rw [List.cons_append, Store.assign, assignOwn?_eq, h.bare id hid]
    cases t.binding? id name with
    | none => exact ih hids
    | some b =>
      dsimp only
      split
      · exact h.bind hid name _
      · exact h

theorem Trailing.forgetNames (h : Trailing inner links s t) (names : List String)
    (hf : ∀ name ∈ names, s.Forgotten (links.map Prod.fst) name) :
    Trailing inner links s (t.forgetNames (inner ++ links.map Prod.snd) names) := by
  induction names generalizing t with
  | nil => exact h
  | cons name names ih =>
    exact ih (h.assign (hf name (.head _)) .unknown (List.Subset.refl inner)) fun n hn =>
      hf n (.tail _ hn)

end Store
end Surmise
