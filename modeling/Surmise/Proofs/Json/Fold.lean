import Surmise.Proofs.Form
import Surmise.Proofs.Json.RoundTrip
import Surmise.Proofs.Locals.Call

/-! Reviving a document is folding it. A reviver that computes a function of the key and the form of a
value, and changes nothing, is applied to the members from the inside out; a member for which it gives
nothing is dropped. The placeholders that stand for a member while the reviver is called leave no trace. -/
namespace Surmise

open Eval

/-- From the first session to the second, objects and scopes were added and nothing was changed. -/
structure Session.Adds (s t : Session) : Prop where
  heap : s.heap.Prolongs t.heap
  scopes : s.store.scopes.size ≤ t.store.scopes.size
  scope : ∀ c : ScopeId, c.index < s.store.scopes.size → t.store.scope c = s.store.scope c
  rest : t = { s with store := t.store }

namespace Session.Adds

variable {s t u : Session}

theorem refl (s : Session) : s.Adds s := ⟨.refl _, Nat.le_refl _, fun _ _ => rfl, rfl⟩

theorem trans (h₁ : s.Adds t) (h₂ : t.Adds u) : s.Adds u where
  heap := h₁.heap.trans h₂.heap
  scopes := Nat.le_trans h₁.scopes h₂.scopes
  scope c hc := (h₂.scope c (Nat.lt_of_lt_of_le hc h₁.scopes)).trans (h₁.scope c hc)
  rest := by
    rw [h₂.rest, h₁.rest]

theorem allocate (s : Session) (r : Record) :
    s.Adds { s with store := (s.store.allocate r).1 } :=
  ⟨s.heap.prolongs_allocate r, Nat.le_refl _, fun _ _ => rfl, rfl⟩

end Session.Adds

namespace Json

def kept (key : String) (x : Form) : Form.Fields :=
  if x.isUndefined then [] else [Form.member key x]

mutual

/-- The form of a document in which `f` was applied to each member, from the inside out. -/
def fold (f : String → Form → Form) : Json → Form
  | .array items => .array items.length (foldItems f 0 items)
  | .object members => .object (foldMembers f members)
  | .null => .plain .null
  | .bool b => .plain (.boolean b)
  | .number n => .plain (.number n.toFloat)
  | .string s => .plain (.string s)

def foldItems (f : String → Form → Form) : Nat → List Json → Form.Fields
  | _, [] => []
  | i, item :: items =>
    kept (indexKey i) (f (indexKey i) (fold f item)) ++ foldItems f (i + 1) items

def foldMembers (f : String → Form → Form) : List (String × Json) → Form.Fields
  | [] => []
  | (key, item) :: members => kept key (f key (fold f item)) ++ foldMembers f members

end

end Json

/-- Calls of the reviver compute `f` of the key and the form of the value, and only add things. They are
made when things were added to the session, on a new object that has the value under the key, and the
value has the form of a document that was revived. What they give is made from the value, from what was in
the session and from new objects: of other objects it has none. -/
def Invoke.Computes (call : Invoke) (reviver : Value) (s : Session) (f : String → Form → Form) : Prop :=
  ∀ t, s.Adds t → ∀ fresh, s.heap.size ≤ fresh → fresh ≤ t.heap.size →
    ∀ (holder : ObjectId) (key : String) (doc : Json), s.heap.size ≤ holder.index →
      t.heap.Shows s.heap.size fresh (doc.fold f) (t.heap.get holder key) →
      ∃ w u, call reviver (.object holder) [.string key, t.heap.get holder key] {} t = (.done w, u) ∧
        t.Adds u ∧ u.heap.Shows s.heap.size fresh (f key (doc.fold f)) w

namespace Json

/-! ### The keys of documents -/

inductive Distinct : Json → Prop where
  | null : Distinct .null
  | bool (b : Bool) : Distinct (.bool b)
  | number (n : Json.Number) : Distinct (.number n)
  | string (s : String) : Distinct (.string s)
  | array {items : List Json} (h : ∀ item ∈ items, Distinct item) : Distinct (.array items)
  | object {members : List (String × Json)} (hk : (members.map Prod.fst).Nodup)
      (h : ∀ m ∈ members, Distinct m.2) : Distinct (.object members)

theorem Read.andThen_eq_ok {α β : Type} {r : Read α} {f : α → List Char → Read β}
    {b : β × List Char} (h : Read.andThen r f = .ok b) :
    ∃ a rest, r = .ok (a, rest) ∧ f a rest = .ok b := by
  obtain p | ⟨a, rest⟩ := r
  · cases h
  · exact ⟨a, rest, rfl, h⟩

mutual

/-- No object in a value that is read has a key twice. -/
theorem distinct_readValue : ∀ (fuel : Nat) {depth : Nat} {cs rest : List Char} {doc : Json},
    readValue fuel depth cs = .ok (doc, rest) → doc.Distinct
  | 0, _, _, _, _, h => nomatch h
  | fuel + 1, depth, cs, rest, doc, h => by
    rw [readValue] at h
    split at h
    · cases h
    · -- literals, strings and numbers
      iterate 6
        obtain ⟨-, h⟩ | ⟨-, h⟩ := ite_eq_iff.mp h
        · obtain ⟨_, -, rfl⟩ := Read.map_eq_ok h
          constructor
      obtain ⟨-, h⟩ | ⟨-, h⟩ := ite_eq_iff.mp h
      · split at h
        · cases h
        · obtain ⟨items, hitems, rfl⟩ := Read.map_eq_ok h
          exact .array (distinct_readItems fuel (List.forall_mem_nil _) hitems)
      obtain ⟨-, h⟩ | ⟨-, h⟩ := ite_eq_iff.mp h
      · split at h
        · cases h
        · obtain ⟨members, hmembers, rfl⟩ := Read.map_eq_ok h
          refine .object (Dict.map_fst_entries members ▸ members.nodup_keys) fun m hm => ?_
          have hempty (key : String) : (Dict.empty : Dict Json).get? key = none := rfl
          exact distinct_readMembers fuel (by simp [hempty]) hmembers m.1 m.2
            (Dict.get?_of_mem_entries hm)
      · cases h

theorem distinct_readItems : ∀ (fuel : Nat) {depth : Nat} {acc items : List Json}
    {cs rest : List Char}, (∀ item ∈ acc, item.Distinct) →
    readItems fuel depth acc cs = .ok (items, rest) → ∀ item ∈ items, item.Distinct
  | 0, _, _, _, _, _, _, h => nomatch h
  | fuel + 1, depth, acc, items, cs, rest, hacc, h => by
    rw [readItems] at h
    obtain ⟨more, cs₁, -, h⟩ := Read.andThen_eq_ok h
    split at h
    · obtain ⟨item, cs₂, hitem, h⟩ := Read.andThen_eq_ok h
      exact distinct_readItems fuel (List.forall_mem_cons.mpr ⟨distinct_readValue fuel hitem, hacc⟩) h
    · cases h
      simpa using hacc

theorem distinct_readMembers : ∀ (fuel : Nat) {depth : Nat} {first : Bool} {acc members : Dict Json}
    {cs rest : List Char}, (∀ key item, acc.get? key = some item → item.Distinct) →
    readMembers fuel depth acc first cs = .ok (members, rest) →
    ∀ key item, members.get? key = some item → item.Distinct
  | 0, _, _, _, _, _, _, _, h => nomatch h
  | fuel + 1, depth, first, acc, members, cs, rest, hacc, h => by
    rw [readMembers] at h
    obtain ⟨more, cs₁, -, h⟩ := Read.andThen_eq_ok h
    split at h
    · obtain ⟨key, cs₂, -, h⟩ := Read.andThen_eq_ok h
      obtain ⟨_, cs₃, -, h⟩ := Read.andThen_eq_ok h
      obtain ⟨item, cs₄, hitem, h⟩ := Read.andThen_eq_ok h
      refine distinct_readMembers fuel (fun k other hk => ?_) h
      rw [Dict.get?_insert] at hk
      split at hk
      · cases hk
        exact distinct_readValue fuel hitem
      · exact hacc k other hk
    · cases h
      exact hacc

end

theorem distinct_of_parse {cs : List Char} {doc : Json} (h : parse cs = .ok doc) : doc.Distinct := by
  unfold parse at h
  split at h
  · cases h
  next hread =>
    split at h
    · cases h
    · cases h
      exact distinct_readValue _ hread

end Json

/-- In a document that is read, no key of an object is there twice. -/
class Platform.DistinctKeys [Platform] : Prop where
  distinct {cs : List Char} {doc : Json} : Platform.readJson cs = .ok doc → doc.Distinct

instance Platform.distinctKeys_standard : Platform.DistinctKeys := ⟨Json.distinct_of_parse⟩

/-! ### One object that is being filled -/

/-- The object that was made right after the session `b` has these fields by now. Everything else that
came since then was added. -/
structure Session.Filling (old : Nat) (b s : Session) (shape : Record.Shape) (fields : Form.Fields) :
    Prop where
  adds : b.Adds s
  present : b.heap.size < s.heap.size
  exhibits : s.heap.Exhibits old (b.heap.size + 1) (s.heap.record ⟨b.heap.size⟩) shape fields

namespace Session.Filling

variable {old : Nat} {b s t : Session} {shape : Record.Shape} {fields fields' : Form.Fields}

theorem allocate {r : Record} (hr : (b.heap.allocate r).1.Exhibits old (b.heap.size + 1) r shape fields) :
    Filling old b { b with store := (b.store.allocate r).1 } shape fields where
  adds := .allocate b r
  present := Nat.lt_of_lt_of_eq (Nat.lt_succ_self _) (b.heap.size_allocate r).symm
  exhibits := by
    change (b.heap.allocate r).1.Exhibits old _ ((b.heap.allocate r).1.record ⟨b.heap.size⟩) _ _
    rw [Heap.record_allocate, if_pos rfl]
    exact hr

theorem mono (h : Filling old b s shape fields) (hst : s.Adds t) : Filling old b t shape fields where
  adds := h.adds.trans hst
  present := Nat.lt_of_lt_of_le h.present hst.heap.size
  exhibits := by
    rw [hst.heap.record ⟨b.heap.size⟩ h.present]
    exact h.exhibits.mono (Nat.le_refl _) hst.heap.size fun id _ => hst.heap.record id

/-- An operation on the object that is being filled leaves all others. -/
theorem run_update (h : Filling old b s shape fields) {g : Record → Record × Bool}
    (hg : s.heap.Exhibits old (b.heap.size + 1) (g (s.heap.record ⟨b.heap.size⟩)).1 shape fields') :
    ∃ done t, onStore (fun st => st.onHeap fun h => h.update ⟨b.heap.size⟩ g) s = (.done done, t) ∧
      Filling old b t shape fields' ∧
      t.heap.record ⟨b.heap.size⟩ = (g (s.heap.record ⟨b.heap.size⟩)).1 ∧
      ∀ x v, s.heap.Shows old (b.heap.size + 1) x v → t.heap.Shows old (b.heap.size + 1) x v := by
  have hsize : s.heap.size ≤ (s.heap.update ⟨b.heap.size⟩ g).1.size :=
    Nat.le_of_eq (s.heap.size_update _ g).symm
  have hother (id : ObjectId) (hid : b.heap.size ≠ id.index) :
      (s.heap.update ⟨b.heap.size⟩ g).1.record id = s.heap.record id := by
    rw [Heap.record_update, if_neg]
    rintro ⟨rfl, -⟩
    exact hid rfl
  have hself : (s.heap.update ⟨b.heap.size⟩ g).1.record ⟨b.heap.size⟩ =
      (g (s.heap.record ⟨b.heap.size⟩)).1 := by
    rw [Heap.record_update, if_pos ⟨rfl, h.present⟩]
  -- what lies inside the object came after it
  have hinner (id : ObjectId) (hid : b.heap.size + 1 ≤ id.index) (_ : id.index < s.heap.size) :=
    hother id (Nat.ne_of_lt hid)
  refine ⟨_, _, rfl, ⟨⟨⟨?_, ?_⟩, h.adds.scopes, h.adds.scope, ?_⟩, ?_, ?_⟩, hself, ?_⟩
  · exact Nat.le_trans h.adds.heap.size hsize
  · intro id hid
    exact (hother id (Nat.ne_of_gt hid)).trans (h.adds.heap.record id hid)
  · rw [h.adds.rest]
  · exact Nat.lt_of_lt_of_le h.present hsize
  · change (s.heap.update _ g).1.Exhibits old _ ((s.heap.update _ g).1.record ⟨b.heap.size⟩) _ _
    rw [hself]
    exact hg.mono (Nat.le_refl _) hsize hinner
  · exact fun x v hv => hv.mono (Nat.le_refl _) hsize hinner

theorem shows (h : Filling old b s shape fields) :
    s.heap.Shows old b.heap.size (.record shape fields) (.object ⟨b.heap.size⟩) := by
  have he := h.exhibits.mono (k := s.heap) (Nat.le_succ _) (Nat.le_refl _) fun _ _ _ => rfl
  exact he.shows (Nat.le_refl _) h.present

end Session.Filling

/-! ### Reviving -/

namespace Json

open Session

variable {call : Invoke} {reviver : Value} {s₀ b s : Session} {f : String → Form → Form}
  {shape : Record.Shape} {fields : Form.Fields}

variable {key : String} {x : Form} {i : Nat}

theorem run_settleMember {u : Session} {y : Form} {w : Value}
    (h : Filling s₀.heap.size b u shape (fields ++ [(key, .hidden, x)]))
    (hw : u.heap.Shows s₀.heap.size (b.heap.size + 1) y w) :
    ∃ t, settleMember ⟨b.heap.size⟩ key w u = (.done (), t) ∧
      Filling s₀.heap.size b t shape (fields ++ kept key y) := by
  unfold settleMember kept
  rw [hw.isUndefined]
  cases y.isUndefined with
  | true =>
    obtain ⟨_, t, hrun, ht, -, -⟩ := h.run_update (g := fun r => r.delete key) (h.exhibits.delete rfl)
    exact ⟨t, run_bind hrun, ht⟩
  | false =>
    obtain ⟨_, t, hrun, ht, -, -⟩ := h.run_update (g := fun r => r.define key (.data w))
      (h.exhibits.define rfl hw)
    exact ⟨t, run_bind hrun, ht⟩

theorem run_reviveMember (hf : call.Computes reviver s₀ f) (hb : s₀.Adds b) {fields' : Form.Fields}
    (h : Filling s₀.heap.size b s shape fields') {doc : Json} {v : Value}
    (hv : s.heap.Shows s₀.heap.size (b.heap.size + 1) (doc.fold f) v)
    (hput : s.heap.Exhibits s₀.heap.size (b.heap.size + 1)
      ((s.heap.record ⟨b.heap.size⟩).put key v).1 shape (fields ++ [Form.member key (doc.fold f)])) :
    ∃ t, reviveMember call reviver ⟨b.heap.size⟩ key v s = (.done (), t) ∧
      Filling s₀.heap.size b t shape (fields ++ kept key (f key (doc.fold f))) := by
  -- the member is put, hidden while the reviver is called, and then settled
  obtain ⟨_, s₁, hrun₁, h₁, -, hshows₁⟩ := h.run_update (g := fun r => r.put key v) hput
  obtain ⟨_, s₂, hrun₂, h₂, hholder, hshows₂⟩ := h₁.run_update
    (g := fun r => r.define key ⟨v, .hidden⟩) (h₁.exhibits.define rfl (hshows₁ _ v hv))
  have hget : s₂.heap.get ⟨b.heap.size⟩ key = v := by
    refine Record.get_of_getOwn? (p := ⟨v, .hidden⟩) ?_
    rw [hholder, h₁.exhibits.define_eq rfl, Record.getOwn?_setProperty, if_pos rfl]
  obtain ⟨w, u, hcall, hadds, hw⟩ := hf s₂ (hb.trans h₂.adds) (b.heap.size + 1)
    (Nat.le_succ_of_le hb.heap.size) h₂.present ⟨b.heap.size⟩ key doc hb.heap.size
    (hget.symm ▸ hshows₂ _ v (hshows₁ _ v hv))
  rw [hget] at hcall
  obtain ⟨t, hsettle, ht⟩ := run_settleMember (h₂.mono hadds) hw
  refine ⟨t, ?_, ht⟩
  exact (run_bind hrun₁).trans ((run_bind hrun₂).trans ((run_bind hcall).trans hsettle))

def Revives (call : Invoke) (reviver : Value) (s₀ : Session) (f : String → Form → Form) (doc : Json) :
    Prop :=
  ∀ s, s₀.Adds s → ∃ v t, revive call reviver doc s = (.done v, t) ∧ s.Adds t ∧
    t.heap.Shows s₀.heap.size s.heap.size (doc.fold f) v

def Indexed (i : Nat) (fields : Form.Fields) : Prop :=
  ∀ a ∈ fields, ∃ j, j < i ∧ a.1 = indexKey j

theorem Indexed.not_mem (h : Indexed i fields) : indexKey i ∉ fields.map Prod.fst := by
  intro hm
  obtain ⟨a, ha, hkey⟩ := List.mem_map.mp hm
  obtain ⟨j, hj, hkey'⟩ := h a ha
  exact Nat.ne_of_lt hj (indexKey_injective (hkey'.symm.trans hkey))

theorem mem_kept {a : String × Attributes × Form} (h : a ∈ kept key x) : a.1 = key := by
  unfold kept at h
  split at h
  · cases h
  · rw [List.mem_singleton.mp h]
    rfl

theorem Indexed.kept (h : Indexed i fields) (x : Form) : Indexed (i + 1) (fields ++ kept (indexKey i) x) := by
  intro a ha
  rcases List.mem_append.mp ha with ha | ha
  · obtain ⟨j, hj, hkey⟩ := h a ha
    exact ⟨j, Nat.lt_succ_of_lt hj, hkey⟩
  · exact ⟨i, Nat.lt_succ_self i, mem_kept ha⟩

structure Apart (fields : Form.Fields) (members : List (String × Json)) : Prop where
  nodup : (members.map Prod.fst).Nodup
  new : ∀ a ∈ fields, a.1 ∉ members.map Prod.fst

section Apart

variable {key : String} {item : Json} {members : List (String × Json)}

theorem Apart.not_mem (h : Apart fields ((key, item) :: members)) : key ∉ fields.map Prod.fst := by
  intro hm
  obtain ⟨a, ha, rfl⟩ := List.mem_map.mp hm
  exact h.new a ha (.head _)

theorem Apart.kept (h : Apart fields ((key, item) :: members)) (x : Form) :
    Apart (fields ++ kept key x) members where
  nodup := (List.nodup_cons.mp h.nodup).2
  new a ha := by
    rcases List.mem_append.mp ha with ha | ha
    · exact fun hm => h.new a ha (.tail _ hm)
    · rw [mem_kept ha]
      exact (List.nodup_cons.mp h.nodup).1

end Apart

variable {items : List Json} {members : List (String × Json)} {doc : Json}

section

variable (hf : call.Computes reviver s₀ f)
include hf

theorem run_reviveItems (hb : s₀.Adds b)
    (hitems : ∀ item ∈ items, Revives call reviver s₀ f item) (hi : Indexed i fields)
    (h : Filling s₀.heap.size b s (Record.empty .array).shape (Form.lengthField i :: fields)) :
    ∃ t, reviveItems call reviver ⟨b.heap.size⟩ i items s = (.done (), t) ∧
      Filling s₀.heap.size b t (Record.empty .array).shape
        (Form.lengthField (i + items.length) :: (fields ++ foldItems f i items)) := by
  induction items generalizing s i fields with
  | nil =>
    refine ⟨s, rfl, ?_⟩
    simpa [foldItems] using h
  | cons item items ih =>
    obtain ⟨v, u, hrevive, hadds, hv⟩ := hitems item (.head _) s (hb.trans h.adds)
    have hu := h.mono hadds
    -- the element was made after the array, so the array is not met in it
    have hv' : u.heap.Shows s₀.heap.size (b.heap.size + 1) (fold f item) v :=
      hv.mono h.present (Nat.le_refl _) fun _ _ _ => rfl
    have hput := hu.exhibits.put_element hi.not_mem hv'
    rw [← List.cons_append] at hput
    obtain ⟨t, hmember, ht⟩ := run_reviveMember hf hb hu hv' hput
    obtain ⟨t', hrest, ht'⟩ := ih (fun item hm => hitems item (.tail _ hm)) (hi.kept _) ht
    refine ⟨t', ?_, ?_⟩
    · rw [reviveItems, run_bind hrevive, run_bind hmember, hrest]
    · rw [foldItems, ← List.append_assoc, List.length_cons, Nat.add_comm items.length, ← Nat.add_assoc]
      exact ht'

theorem run_reviveMembers (hb : s₀.Adds b)
    (hmembers : ∀ m ∈ members, Revives call reviver s₀ f m.2) (ha : Apart fields members)
    (h : Filling s₀.heap.size b s (Record.empty .object).shape fields) :
    ∃ t, reviveMembers call reviver ⟨b.heap.size⟩ members s = (.done (), t) ∧
      Filling s₀.heap.size b t (Record.empty .object).shape (fields ++ foldMembers f members) := by
  induction members generalizing s fields with
  | nil =>
    refine ⟨s, rfl, ?_⟩
    simpa [foldMembers] using h
  | cons m members ih =>
    obtain ⟨key, item⟩ := m
    obtain ⟨v, u, hrevive, hadds, hv⟩ := hmembers (key, item) (.head _) s (hb.trans h.adds)
    have hu := h.mono hadds
    have hv' : u.heap.Shows s₀.heap.size (b.heap.size + 1) (fold f item) v :=
      hv.mono h.present (Nat.le_refl _) fun _ _ _ => rfl
    obtain ⟨t, hmember, ht⟩ := run_reviveMember hf hb hu hv'
      (hu.exhibits.put_member ha.not_mem hv')
    obtain ⟨t', hrun, ht'⟩ := ih (fun m hm => hmembers m (.tail _ hm)) (ha.kept _) ht
    refine ⟨t', ?_, ?_⟩
    · rw [reviveMembers, run_bind hrevive, run_bind hmember, hrun]
    · rw [foldMembers, ← List.append_assoc]
      exact ht'

theorem Distinct.revives (h : doc.Distinct) : Revives call reviver s₀ f doc := by
  induction h with
  | null | bool | number | string => exact fun s _ => ⟨_, s, rfl, .refl s, .plain fun _ => nofun⟩
  | array _ ih =>
    intro s hs
    obtain ⟨t, hrun, ht⟩ := run_reviveItems hf hs ih (List.forall_mem_nil _)
      (.allocate .emptyArray)
    refine ⟨.object ⟨s.heap.size⟩, t, ?_, ht.adds, ?_⟩
    · exact (run_bind rfl).trans (run_bind hrun)
    · simpa [fold, Form.array] using ht.shows
  | object hk _ ih =>
    intro s hs
    obtain ⟨t, hrun, ht⟩ := run_reviveMembers hf hs ih ⟨hk, List.forall_mem_nil _⟩
      (.allocate .empty)
    refine ⟨.object ⟨s.heap.size⟩, t, ?_, ht.adds, ht.shows⟩
    exact (run_bind rfl).trans (run_bind hrun)

theorem run_reviveRoot (h : doc.Distinct) :
    ∃ v t, reviveRoot call reviver doc s₀ = (.done v, t) ∧ s₀.Adds t ∧
      t.heap.Shows s₀.heap.size s₀.heap.size (f "" (doc.fold f)) v := by
  obtain ⟨v, s, hrevive, hs, hv⟩ := h.revives hf s₀ (.refl s₀)
  let root : Session := { s with store := (s.store.allocate (.ofEntries [("", v)])).1 }
  have hroot : s.Adds root := .allocate s _
  have hget : root.heap.get ⟨s.heap.size⟩ "" = v := by
    change (Heap.record (s.heap.allocate _).1 _).get "" = v
    rw [Heap.record_allocate, if_pos rfl]
    rfl
  obtain ⟨w, t, hcall, ht, hw⟩ := hf root (hs.trans hroot) s₀.heap.size (Nat.le_refl _)
    (hs.trans hroot).heap.size ⟨s.heap.size⟩ "" doc hs.heap.size
    (hget.symm ▸ hv.prolong hroot.heap)
  rw [hget] at hcall
  exact ⟨w, t, (run_bind hrevive).trans hcall, (hs.trans hroot).trans ht, hw⟩

end

/-! ### Reading without a reviver -/

variable {r : Record}

def form : Json → Form := fold fun _ x => x

theorem kept_form (key : String) (doc : Json) : kept key doc.form = [Form.member key doc.form] := by
  have hdefined : doc.form.isUndefined = false := by
    cases doc <;> rfl
  rw [kept, if_neg (by simp [hdefined])]

variable {h : Heap} {old fresh : Nat}

theorem exhibits_putElements {vs : List Value}
    (hall : List.Forall₂ (fun item v => h.Shows old fresh item.form v) items vs) (hi : Indexed i fields)
    (he : h.Exhibits old fresh r (Record.empty .array).shape (Form.lengthField i :: fields)) :
    h.Exhibits old fresh (r.putElements i (vs.map some)) (Record.empty .array).shape
      (Form.lengthField (i + items.length) :: (fields ++ foldItems (fun _ x => x) i items)) := by
  induction hall generalizing i fields r with
  | nil => simpa [Record.putElements, foldItems] using he
  | @cons item v items vs hv _ ih =>
    have hput := he.put_element hi.not_mem hv
    rw [← kept_form] at hput
    have hrest := ih (hi.kept _) hput
    rw [foldItems, ← List.append_assoc, List.length_cons, Nat.add_comm items.length, ← Nat.add_assoc]
    exact hrest

theorem exhibits_foldl_put {es : List (String × Value)}
    (hall : List.Forall₂ (fun m e => e.1 = m.1 ∧ h.Shows old fresh m.2.form e.2) members es)
    (ha : Apart fields members) (he : h.Exhibits old fresh r (Record.empty .object).shape fields) :
    h.Exhibits old fresh (es.foldl (fun r e => (r.put e.1 e.2).1) r) (Record.empty .object).shape
      (fields ++ foldMembers (fun _ x => x) members) := by
  induction hall generalizing fields r with
  | nil => simpa [foldMembers] using he
  | @cons m e members es hv _ ih =>
    obtain ⟨key, item⟩ := m
    obtain ⟨_, v⟩ := e
    obtain ⟨rfl, hv⟩ := hv
    have hput := he.put_member ha.not_mem hv
    rw [← kept_form] at hput
    rw [foldMembers, ← List.append_assoc]
    exact ih (ha.kept _) hput

def Converts (old fresh : Nat) (doc : Json) : Prop :=
  ∀ s, fresh ≤ s.heap.size → ∃ v t, toValue doc s = (.done v, t) ∧ s.Adds t ∧
    t.heap.Shows old fresh doc.form v

theorem run_itemValues (hitems : ∀ item ∈ items, Converts old fresh item) (s : Session)
    (hs : fresh ≤ s.heap.size) :
    ∃ vs t, itemValues items s = (.done vs, t) ∧ s.Adds t ∧
      List.Forall₂ (fun item v => t.heap.Shows old fresh item.form v) items vs := by
  induction items generalizing s with
  | nil => exact ⟨[], s, rfl, .refl s, .nil⟩
  | cons item items ih =>
    obtain ⟨v, t, hv, hst, hshows⟩ := hitems item (.head _) s hs
    obtain ⟨vs, u, hvs, htu, hall⟩ := ih (fun item hm => hitems item (.tail _ hm)) t
      (Nat.le_trans hs hst.heap.size)
    refine ⟨v :: vs, u, ?_, hst.trans htu, .cons (hshows.prolong htu.heap) hall⟩
    rw [itemValues, run_bind hv, run_bind hvs]
    rfl

theorem run_memberValues (hmembers : ∀ m ∈ members, Converts old fresh m.2) (s : Session)
    (hs : fresh ≤ s.heap.size) :
    ∃ es t, memberValues members s = (.done es, t) ∧ s.Adds t ∧
      List.Forall₂ (fun m e => e.1 = m.1 ∧ t.heap.Shows old fresh m.2.form e.2) members es := by
  induction members generalizing s with
  | nil => exact ⟨[], s, rfl, .refl s, .nil⟩
  | cons m members ih =>
    obtain ⟨v, t, hv, hst, hshows⟩ := hmembers m (.head _) s hs
    obtain ⟨es, u, hes, htu, hall⟩ := ih (fun m hm => hmembers m (.tail _ hm)) t
      (Nat.le_trans hs hst.heap.size)
    refine ⟨(m.1, v) :: es, u, ?_, hst.trans htu, .cons ⟨rfl, hshows.prolong htu.heap⟩ hall⟩
    rw [memberValues, run_bind hv, run_bind hes]
    rfl

theorem shows_newObject {t : Session} (hs : fresh ≤ t.heap.size)
    (he : t.heap.Exhibits old fresh r shape fields) :
    ∃ u, newObject r t = (.done (.object ⟨t.heap.size⟩), u) ∧ t.Adds u ∧
      u.heap.Shows old fresh (.record shape fields) (.object ⟨t.heap.size⟩) := by
  have hadds := Session.Adds.allocate t r
  refine ⟨_, rfl, hadds, ?_⟩
  have he' : (t.heap.allocate r).1.Exhibits old fresh
      ((t.heap.allocate r).1.record ⟨t.heap.size⟩) shape fields := by
    rw [Heap.record_allocate, if_pos rfl]
    exact he.mono (Nat.le_refl _) hadds.heap.size fun id _ => hadds.heap.record id
  exact he'.shows hs (Nat.lt_of_lt_of_eq (Nat.lt_succ_self _) (t.heap.size_allocate r).symm)

theorem Distinct.converts (h : doc.Distinct) : Converts old fresh doc := by
  induction h with
  | null | bool | number | string => exact fun s _ => ⟨_, s, rfl, .refl s, .plain fun _ => nofun⟩
  | array _ ih =>
    intro s hs
    obtain ⟨vs, t, hvs, hst, hall⟩ := run_itemValues ih s hs
    have he := exhibits_putElements hall (List.forall_mem_nil _) .emptyArray
    obtain ⟨u, hnew, htu, hshows⟩ := shows_newObject (Nat.le_trans hs hst.heap.size) he
    refine ⟨_, u, (run_bind hvs).trans hnew, hst.trans htu, ?_⟩
    simpa [form, fold, Form.array] using hshows
  | object hk _ ih =>
    intro s hs
    obtain ⟨es, t, hes, hst, hall⟩ := run_memberValues ih s hs
    have he := exhibits_foldl_put hall ⟨hk, List.forall_mem_nil _⟩ .empty
    obtain ⟨u, hnew, htu, hshows⟩ := shows_newObject (Nat.le_trans hs hst.heap.size) he
    exact ⟨_, u, (run_bind hes).trans hnew, hst.trans htu, hshows⟩

end Json

/-! ### The function of scripts -/

variable {s : Session}

theorem run_parseJson [Platform] (call : Invoke) (args : List Value) {text : String} {doc : Json}
    (ht : s.heap.toText? (argument args 0) = some text) (hp : Platform.readJson text.toList = .ok doc) :
    Builtin.parseJson call args s =
      if s.heap.isCallable (argument args 1) then Json.reviveRoot call (argument args 1) doc s
      else doc.toValue s := by
  unfold Builtin.parseJson
  rw [run_bind (run_onHeap _ s), ht]
  dsimp only
  unfold Json.parseText
  rw [hp]
  dsimp only
  rw [run_bind (run_onHeap _ s)]
  split <;> rfl

/-- Reviving is the fold from the inside out. If the reviver computes `f`, reading a text with it gives a
value of the form that `f` makes, under an empty name, of the fold of the document; nothing that was there
is changed. In particular, if `f` gives every value back, the value has the form of the one that is read
without a reviver. The length of an array is the number of its elements in the text, except that
elements past the greatest length an array can have do not count. -/
theorem parse_folds [Platform] [Platform.DistinctKeys] (host : Host) (inner call : Invoke) (receiver : Value)
    (args : List Value) (options : CallOptions) {s : Session} {text : String} {doc : Json}
    {f : String → Form → Form} (hr : receiver.isUnknown = false) (ha : args.any Value.isUnknown = false)
    (ht : s.heap.toText? (argument args 0) = some text) (hp : Platform.readJson text.toList = .ok doc)
    (hc : s.heap.isCallable (argument args 1) = true) (hf : call.Computes (argument args 1) s f) :
    (∃ v t, Callable.run host inner call receiver args options (.builtin .jsonParse) s = (.done v, t) ∧
      s.Adds t ∧ t.heap.Shows s.heap.size s.heap.size (f "" (doc.fold f)) v) ∧
    ((∀ key x, f key x = x) →
      ∃ v t, Callable.run host inner call receiver [argument args 0] options (.builtin .jsonParse) s =
          (.done v, t) ∧
        s.Adds t ∧ t.heap.Shows s.heap.size s.heap.size (f "" (doc.fold f)) v) := by
  have hdistinct := Platform.DistinctKeys.distinct hp
  constructor
  · obtain ⟨v, t, hrun, hadds, hv⟩ := Json.run_reviveRoot hf hdistinct
    have hparse := run_parseJson call args ht hp
    rw [if_pos hc, hrun] at hparse
    exact ⟨v, t, run_guarded hr ha hparse, hadds, hv⟩
  · intro hid
    have hf' : f = fun _ x => x := funext₂ hid
    have hconverts : Json.Converts s.heap.size s.heap.size doc := hdistinct.converts
    obtain ⟨v, t, hrun, hadds, hv⟩ := hconverts s (Nat.le_refl _)
    have hnone : ¬ s.heap.isCallable (argument [argument args 0] 1) = true := nofun
    have hparse := run_parseJson call [argument args 0] ht hp
    rw [if_neg hnone, hrun] at hparse
    rw [hf']
    refine ⟨v, t, run_guarded hr ?_ hparse, hadds, hv⟩
    simp [argument_known ha 0]

/-! ### Revivers of scripts -/

/-- A function of a key `k` and a value `v`. -/
def Function.reviving (body : List Stmt) : Function :=
  .mk none [⟨"k", default⟩, ⟨"v", default⟩] body false default

/-- A function that only looks at its two arguments adds things and changes none. -/
theorem Function.apply_reviving {call : Invoke} {body : List Stmt} {k v : Value} {flow : Flow}
    (hdeclare : ∀ scope u, declareBody scope body u = (.done (), u))
    (hbody : ∀ u : Session, u.store.lookup u.current.lexical "k" = some k →
      u.store.lookup u.current.lexical "v" = some v →
      Stmt.execAll call none body u = (.done flow, u))
    (chain : Chain) (receiver : Value) (hd : s.depthExceeded = false) :
    ∃ t, (reviving body).apply call chain receiver [k, v] s = (.done flow.result, t) ∧ s.Adds t := by
  let scope : ScopeId := ⟨s.store.scopes.size⟩
  let st := ((s.store.newScope {}).1.declare scope "k" k true).declare scope "v" v true
  have hdeclares := (s.store.declares_newScope.declare "k" k).declare "v" v
  have hbound {name : String} {w : Value} (hb : st.binding? scope name = some ⟨w, true⟩) :
      st.lookup (scope :: chain) name = some w := by
    have hown : st.ownValue? scope name = some w := by
      unfold Store.ownValue?
      rw [hb]
    unfold Store.lookup
    rw [hown]
  have hrun {c : Context} (hc : c.lexical = scope :: chain) :
      inContext c (do
        declareBody scope body
        Stmt.execAll call none body) { s with store := st } = (.done flow, { s with store := st }) := by
    let u : Session := { s with store := st, contexts := c :: s.contexts }
    have hl : u.current.lexical = scope :: chain := hc
    have hexec : Stmt.execAll call none body u = (.done flow, u) :=
      hbody u (by rw [hl]; exact hbound (hdeclares.binding "k"))
        (by rw [hl]; exact hbound (hdeclares.binding "v"))
    have hleave : u.leave s.contexts.length = { s with store := st } := by
      simp [u, Session.leave]
    rw [run_inContext ((run_bind (hdeclare scope u)).trans hexec), hleave]
  refine ⟨{ s with store := st }, ?_, .refl _, ?_, fun c hc => ?_, rfl⟩
  · unfold Function.apply
    rw [run_read_bind, hd, if_neg (by simp)]
    have hparams : bindParams scope (reviving body).params [k, v]
        { s with store := (s.store.newScope {}).1 } = (.done (), { s with store := st }) := rfl
    refine (run_bind (run_onStore (Store.newScope {}) s)).trans ((run_bind hparams).trans ?_)
    rw [receiverFor, run_read_bind, current, run_read_bind]
    exact run_bind (hrun rfl)
  · simp [st, Store.declare]
  · have hne : scope ≠ c := by
      rintro rfl
      exact Nat.lt_irrefl _ hc
    simp [st, Store.declare, Store.scope_bind, Store.scope_newScope, hne, Nat.ne_of_lt hc]

/-- The body `return v`. -/
def Stmt.returning : List Stmt := [.ret (some (.identifier ⟨"v", default⟩))]

/-- The body `if (v !== null) return v === true ? k : v`. -/
def Stmt.pruning : List Stmt :=
  [.branch (.binary .strictNotEqual (.identifier ⟨"v", default⟩) (.literal .null))
    (.ret (some (.conditional
      (.binary .strictEqual (.identifier ⟨"v", default⟩) (.literal (.boolean true)))
      (.identifier ⟨"k", default⟩) (.identifier ⟨"v", default⟩)))) none]

theorem Stmt.execAll_single {call : Invoke} {body : Stmt} {flow : Flow} {t : Session}
    (h : exec call body s = (.done flow, t)) : execAll call none [body] s = (.done flow, t) := by
  rw [execAll]
  refine (run_bind h).trans ?_
  cases flow with
  | normal v => cases v <;> rfl
  | returned v => rfl

theorem Stmt.exec_branch {call : Invoke} {test : Expr} {b : Bool}
    (h : test.eval call s = (.done (.boolean b), s)) (c : Stmt) :
    exec call (.branch test c none) s = if b then exec call c s else (.done (.normal none), s) := by
  rw [exec]
  refine (run_bind h).trans ?_
  cases b <;> rfl

theorem Expr.eval_conditional {call : Invoke} {test : Expr} {b : Bool}
    (h : test.eval call s = (.done (.boolean b), s)) (c a : Expr) :
    eval call (.conditional test c a) s = if b then c.eval call s else a.eval call s := by
  rw [eval]
  refine (run_bind h).trans ?_
  cases b <;> rfl

theorem Stmt.execAll_returning (call : Invoke) {v : Value}
    (h : s.store.lookup s.current.lexical "v" = some v) :
    execAll call none returning s = (.done (.returned v), s) := by
  refine execAll_single ?_
  rw [exec, Expr.eval]
  exact run_bind (run_resolve h)

def Value.pruned : Value → Value → Value
  | .null, _ => .undefined
  | .boolean true, key => key
  | v, _ => v

def Form.pruned (key : String) : Form → Form
  | .plain .null => .plain .undefined
  | .plain (.boolean true) => .plain (.string key)
  | x => x

theorem Expr.eval_compared (call : Invoke) (op : BinaryOp) (l : Literal) {v : Value}
    (h : s.store.lookup s.current.lexical "v" = some v) :
    eval call (.binary op (.identifier ⟨"v", default⟩) (.literal l)) s =
      (.done (s.heap.binary op v l.value), s) := by
  rw [eval]
  exact (run_bind (run_resolve h)).trans (run_bind rfl)

/-- The flow in which the body ends. -/
def Flow.pruned (key : Value) : Value → Flow
  | .null => .normal none
  | v => .returned (v.pruned key)

theorem Stmt.execAll_pruning (call : Invoke) {k v : Value} (hv : v.isUnknown = false)
    (hk : s.store.lookup s.current.lexical "k" = some k)
    (h : s.store.lookup s.current.lexical "v" = some v) :
    execAll call none pruning s = (.done (.pruned k v), s) := by
  have hresolve {name : String} {w : Value} (hw : s.store.lookup s.current.lexical name = some w) :
      Expr.eval call (.identifier ⟨name, default⟩) s = (.done w, s) := run_resolve hw
  have hnull := Expr.eval_compared call .strictNotEqual .null h
  have htrue := Expr.eval_compared call .strictEqual (.boolean true) h
  refine execAll_single ?_
  cases v with
  | unknown => cases hv
  | null => exact exec_branch hnull _
  | boolean b =>
    refine (exec_branch hnull _).trans ?_
    cases b with
    | true => exact run_bind ((Expr.eval_conditional htrue _ _).trans (hresolve hk))
    | false => exact run_bind ((Expr.eval_conditional htrue _ _).trans (hresolve h))
  | undefined | number _ | string _ | object _ =>
    refine (exec_branch hnull _).trans (run_bind ((Expr.eval_conditional htrue _ _).trans ?_))
    exact hresolve h

theorem Heap.Shows.pruned {h : Heap} {old fresh : Nat} {doc : Json} {v : Value}
    (hv : h.Shows old fresh (doc.fold Form.pruned) v) (key : String) :
    v.isUnknown = false ∧
      h.Shows old fresh ((doc.fold Form.pruned).pruned key) (Flow.pruned (.string key) v).result := by
  have hplain {w : Value} (hw : ∀ id, w ≠ .object id) : h.Shows old fresh (.plain w) w :=
    .plain fun id hid => absurd hid (hw id)
  cases doc with
  | null =>
    cases hv
    exact ⟨rfl, hplain (by simp)⟩
  | bool b =>
    cases hv
    cases b <;> exact ⟨rfl, hplain (by simp)⟩
  | number _ | string _ =>
    cases hv
    exact ⟨rfl, hplain (by simp)⟩
  | array _ | object _ =>
    rw [Json.fold] at hv ⊢
    cases hv with
    | record hfresh hid hshape hkeys hattributes hvalues =>
      exact ⟨rfl, .record hfresh hid hshape hkeys hattributes hvalues⟩

def Session.giving : Session :=
  .ofHeap ⟨#[.ofCallable (.closure (.reviving Stmt.returning) []),
    .ofCallable (.closure (.reviving Stmt.pruning) [])]⟩

theorem computes_of_body {id : ObjectId} {body : List Stmt} {f : String → Form → Form}
    (hid : id.index < 2)
    (hc : Session.giving.heap.callable? (.object id) = some (.closure (.reviving body) []))
    (hdeclare : ∀ scope u, declareBody scope body u = (.done (), u))
    (hbody : ∀ {h : Heap} {fresh : Nat} {doc : Json} {v : Value} (key : String),
      h.Shows 2 fresh (doc.fold f) v → ∃ flow : Flow,
        (∀ u : Session, u.store.lookup u.current.lexical "k" = some (.string key) →
          u.store.lookup u.current.lexical "v" = some v →
          Stmt.execAll (invoke .standard 0) none body u = (.done flow, u)) ∧
        h.Shows 2 fresh (f key (doc.fold f)) flow.result) :
    (invoke .standard 1).Computes (.object id) .giving f := by
  intro t ht fresh _ _ holder key doc _ hv
  have hc' : t.heap.callable? (.object id) = some (.closure (.reviving body) []) :=
    (congrArg Record.callable (ht.heap.record id hid)).trans hc
  have hd : t.depthExceeded = false := by
    rw [ht.rest]
    rfl
  obtain ⟨flow, hexec, hresult⟩ := hbody key hv
  obtain ⟨u, hrun, hadds⟩ := Function.apply_reviving hdeclare hexec [] (.object holder) hd
  refine ⟨flow.result, u, ?_, hadds, hresult.prolong hadds.heap⟩
  rw [invoke, relayBudget, relay, callWith, if_neg (by simp [Value.isUnknown]), run_read_bind, hc']
  exact hrun

theorem computes_returning :
    (invoke .standard 1).Computes (.object ⟨0⟩) .giving fun _ x => x :=
  computes_of_body (by decide) rfl (fun _ _ => rfl) fun _ hv =>
    ⟨.returned _, fun _ _ hu => Stmt.execAll_returning _ hu, hv⟩

theorem computes_pruning : (invoke .standard 1).Computes (.object ⟨1⟩) .giving Form.pruned :=
  computes_of_body (by decide) rfl (fun _ _ => rfl) fun key hv =>
    ⟨.pruned (.string key) _, fun _ hk hu => Stmt.execAll_pruning _ (hv.pruned key).1 hk hu,
      (hv.pruned key).2⟩

/-- A document with members to drop and members to change. -/
def Json.mixed : Json :=
  .object [("a", .null), ("b", .array [.bool true, .null, .string "x"])]

def Json.isMixed : Json → Bool
  | .object [("a", .null), ("b", .array [.bool true, .null, .string "x"])] => true
  | _ => false

theorem Json.eq_mixed {doc : Json} (h : doc.isMixed = true) : doc = mixed := by
  unfold isMixed at h
  split at h
  · rfl
  · cases h

def Json.mixedText : String := "\x7b\"a\":null,\"b\":[true,null,\"x\"]\x7d"

theorem Json.read_mixed : Platform.readJson mixedText.toList = .ok mixed := by
  have h : (Platform.readJson mixedText.toList).toOption.any isMixed = true := by decide +kernel
  cases hp : Platform.readJson mixedText.toList with
  | error p =>
    rw [hp] at h
    cases h
  | ok doc =>
    rw [hp] at h
    rw [eq_mixed h]

/-- Read with and without a function that gives every value back, a document comes out the same. Another
function drops what is null and puts the key in the place of what is true. -/
theorem parse_folds_sample :
    (∃ doc, Json.sample.Same doc ∧ Platform.readJson Json.sample.render.toList = .ok doc ∧
      (∃ v t, Callable.run .standard (invoke .standard 1) (invoke .standard 1) .undefined
          [.string Json.sample.render, .object ⟨0⟩] {} (.builtin .jsonParse) .giving = (.done v, t) ∧
        Session.giving.Adds t ∧ t.heap.Shows 2 2 doc.form v) ∧
      ∃ v t, Callable.run .standard (invoke .standard 1) (invoke .standard 1) .undefined
          [.string Json.sample.render] {} (.builtin .jsonParse) .giving = (.done v, t) ∧
        Session.giving.Adds t ∧ t.heap.Shows 2 2 doc.form v) ∧
    ∃ v t, Callable.run .standard (invoke .standard 1) (invoke .standard 1) .undefined
        [.string Json.mixedText, .object ⟨1⟩] {} (.builtin .jsonParse) .giving = (.done v, t) ∧
      Session.giving.Adds t ∧
      t.heap.Shows 2 2
        (.object [Form.member "b" (.array 3
          [Form.member "0" (.plain (.string "0")), Form.member "2" (.plain (.string "x"))])]) v := by
  constructor
  · obtain ⟨doc, hsame, hread⟩ :=
      Platform.Recovers.read_render Json.fits_sample (by decide) Heap.holds_sample.regular
    obtain ⟨hrevived, hdirect⟩ := parse_folds .standard (invoke .standard 1) (invoke .standard 1)
      .undefined [.string Json.sample.render, .object ⟨0⟩] {} rfl rfl rfl hread rfl computes_returning
    exact ⟨doc, hsame, hread, hrevived, hdirect fun _ _ => rfl⟩
  · exact (parse_folds .standard (invoke .standard 1) (invoke .standard 1) .undefined
      [.string Json.mixedText, .object ⟨1⟩] {} rfl rfl rfl Json.read_mixed rfl computes_pruning).1

end Surmise
