import Surmise.Proofs.ArrayLength
import Surmise.Proofs.Keeping

/-! Arrays that are read from a JSON text through a reviver. Between putting an element into its array and
defining what the reviver made of it, the reviver may do to the array whatever code can do. The length
fits the elements in the end, except for those that were defined where it did not reach. -/
namespace Surmise

def Outcome.isDone {α : Type} : Outcome α → Bool
  | done _ => true
  | failed _ | exhausted => false

namespace Record

variable {r : Record} {key : String} {p : Property}

def fallsShort (r : Record) (i : Nat) : Bool :=
  r.objectClass == .array &&
    match r.getOwn? "length" with
    | some ⟨.number x, _⟩ => Number.leNat x i
    | _ => false

theorem fallsShort_number {x : Float} {n : Nat} (hc : r.objectClass = .array)
    (hl : r.getOwn? "length" = some ⟨.number x, .lengthOfArray⟩) (hn : Number.toNat? x = some n) (i : Nat) :
    r.fallsShort i = decide (n ≤ i) := by
  simp [fallsShort, hc, hl, Number.leNat_of_toNat? hn i]

theorem Measured.fallsShort (h : r.Measured) {i : Nat} (hk : (r.getOwn? key).isSome = true)
    (hi : arrayIndex? key = some i) : r.fallsShort i = false := by
  obtain ⟨len, hlen, hfit⟩ := h.length
  cases len with
  | unknown => simp [Record.fallsShort, hlen]
  | number x =>
    obtain ⟨n, hn, -, hcover⟩ := hfit
    rw [fallsShort_number h.objectClass hlen hn]
    simpa using hcover key i ((mem_keys r key).mpr hk) hi
  | _ => exact hfit.elim

structure Elastic (r : Record) : Prop where
  extensible : r.extensible = true
  properties : ∀ key p, r.getOwn? key = some p → key ≠ "length" →
    p.attributes.writable = true ∧ p.attributes.configurable = true

theorem elastic_emptyArray : emptyArray.Elastic where
  extensible := rfl
  properties key p hp hk := by
    have hnone : (empty .array).getOwn? key = none := rfl
    rw [emptyArray, getOwn?_setProperty, if_neg hk.symm, hnone] at hp
    cases hp

theorem Elastic.put (h : r.Elastic) (key : String) (v : Value) :
    (r.put key v).1.Elastic where
  extensible := (extensible_of_shape (r.shape_put key v)).trans h.extensible
  properties k p hp hk := by
    obtain hdata | ⟨q, hq, hqp⟩ := r.inherits_put key v k p hp
    · rw [hdata]
      exact ⟨rfl, rfl⟩
    · rw [← hqp]
      exact h.properties k q hq hk

theorem getOwn?_define {k : String} {q : Property} (h : (r.define key p).1.getOwn? k = some q) :
    r.getOwn? k = some q ∨ key = k ∧ q = p := by
  have hset (h : (r.setProperty key p).getOwn? k = some q) : r.getOwn? k = some q ∨ key = k ∧ q = p := by
    rw [getOwn?_setProperty] at h
    split at h
    next hk => exact .inr ⟨hk, (Option.some.inj h).symm⟩
    next => exact .inl h
  unfold define at h
  split at h
  · split at h
    · exact hset h
    · exact .inl h
  · exact hset h

theorem Elastic.define (h : r.Elastic) (key : String)
    (hp : p.attributes.writable = true ∧ p.attributes.configurable = true) :
    (r.define key p).1.Elastic where
  extensible := (extensible_of_shape (r.shape_define key p)).trans h.extensible
  properties k q hq hk := by
    obtain hq | ⟨_, rfl⟩ := getOwn?_define hq
    · exact h.properties k q hq hk
    · exact hp

theorem Elastic.delete (h : r.Elastic) (key : String) : (r.delete key).1.Elastic where
  extensible := (extensible_of_shape (r.shape_delete key)).trans h.extensible
  properties k p hp hk := h.properties k p (getOwn?_of_delete hp) hk

variable {loose : Nat → Prop}

theorem Spans.getOwn?_length_define (h : r.Spans loose) (key : String) (hp : p.attributes.configurable = true) :
    (r.define key p).1.getOwn? "length" = r.getOwn? "length" := by
  obtain ⟨len, hlen, _⟩ := h.length
  have hset (hk : key ≠ "length") : (r.setProperty key p).getOwn? "length" = r.getOwn? "length" := by
    rw [getOwn?_setProperty, if_neg hk]
  unfold Record.define
  split
  next old hold =>
    split
    next hallows =>
      refine hset fun hk => ?_
      subst hk
      rw [hlen] at hold
      cases hold
      have hattr : p.attributes = .lengthOfArray := by
        simpa [Property.allows, Attributes.lengthOfArray] using hallows
      rw [hattr] at hp
      cases hp
    next => rfl
  next hold =>
    refine hset fun hk => ?_
    subst hk
    rw [hlen] at hold
    cases hold

theorem Spans.define (h : r.Spans loose) (key : String) (hp : p.attributes.configurable = true) :
    (r.define key p).1.Spans fun i =>
      loose i ∨ arrayIndex? key = some i ∧ r.fallsShort i = true := by
  obtain ⟨len, hlen, hfit⟩ := h.length
  refine ⟨(objectClass_of_shape (r.shape_define key p)).trans h.objectClass, len,
    (h.getOwn?_length_define key hp).trans hlen, ?_⟩
  have hkeys : ∀ k, k ∈ (r.define key p).1.keys → k ∈ r.keys ∨ key = k := by
    intro k hk
    obtain ⟨q, hq⟩ := Option.isSome_iff_exists.mp ((mem_keys _ k).mp hk)
    obtain hq | ⟨hk, _⟩ := getOwn?_define hq
    · exact .inl ((mem_keys r k).mpr (Option.isSome_of_eq_some hq))
    · exact .inr hk
  cases len with
  | unknown => trivial
  | number x =>
    obtain ⟨n, hn, hmax, hold⟩ := hfit
    refine ⟨n, hn, hmax, fun k i hk hi => ?_⟩
    obtain hk | rfl := hkeys k hk
    · exact (hold k i hk hi).imp_right .inl
    · by_cases hni : n ≤ i
      · exact .inr (.inr ⟨hi, (fallsShort_number h.objectClass hlen hn i).trans (decide_eq_true hni)⟩)
      · exact .inl (Nat.lt_of_not_le hni)
  | _ => exact hfit.elim

/-- Assigning to an index of an elastic array does not leave the length short of it. -/
theorem Spans.fallsShort_put (h : r.Spans loose) (he : r.Elastic) {i : Nat} (hi : arrayIndex? key = some i)
    (v : Value) : (r.put key v).1.fallsShort i = false := by
  have hl := ne_length_of_index hi
  obtain ⟨r', hr'⟩ : ∃ r', r.assign key v = (r', true) := by
    unfold Record.assign
    split
    next old hold =>
      rw [if_pos (he.properties key old hold hl).1]
      exact ⟨_, rfl⟩
    next =>
      rw [if_pos he.extensible]
      exact ⟨_, rfl⟩
  have hput : (r.put key v).1 = r'.coverIndex i := by
    simp [Record.put, h.objectClass, hl, hi, Record.putIndex, hr']
  obtain ⟨len, hlen, hfit⟩ := h.length
  have hc' : r'.objectClass = .array := by
    have hs := shape_assign r key v
    rw [hr'] at hs
    exact (objectClass_of_shape hs).trans h.objectClass
  have hlen' : r'.getOwn? "length" = some ⟨len, .lengthOfArray⟩ := by
    have hg := r.getOwn?_assign_of_ne hl v
    rw [hr'] at hg
    exact hg.trans hlen
  rw [hput]
  cases len with
  | unknown => simp [fallsShort, coverIndex, hlen']
  | number x =>
    obtain ⟨n, hn, hmax, -⟩ := hfit
    have hle := Number.leNat_of_toNat? hn i
    by_cases hni : n ≤ i
    · have hlt := arrayIndex?_lt hi
      have hread : Number.toNat? (Number.ofNat (i + 1)) = some (i + 1) :=
        Number.toNat?_ofNat (by simp only [maxArrayLength] at hlt; omega)
      have hcover : r'.coverIndex i =
          r'.setProperty "length" ⟨.number (Number.ofNat (i + 1)), .lengthOfArray⟩ := by
        simp [coverIndex, hlen', hle, hni]
      rw [hcover]
      exact (fallsShort_number (r := r'.setProperty "length" _) hc' (by simp) hread i).trans (by simp)
    · have hcover : r'.coverIndex i = r' := by simp [coverIndex, hlen', hle, hni]
      rw [hcover, fallsShort_number hc' hlen' hn]
      simpa using hni
  | _ => exact hfit.elim

theorem Spans.placeholder (h : r.Spans loose) (he : r.Elastic) (key : String) (v : Value) :
    ((r.put key v).1.define key ⟨v, .hidden⟩).1.Spans loose := by
  refine ((h.put key v).define key rfl).loosen fun i hi => ?_
  obtain hi | ⟨hi, hshort⟩ := hi
  · exact hi
  · rw [h.fallsShort_put he hi v] at hshort
    cases hshort

end Record

/-! ### A log of reviving -/

namespace Json

open Eval

/-- What was made while a text was revived: the arrays, and the elements that were defined at an index
which the length of their array did not reach. -/
structure Ledger where
  arrays : List ObjectId := []
  overruns : List (ObjectId × Nat) := []

/-- The ledger when a member of the holder, which is the record `r`, takes the revived value. -/
def Ledger.settle (log : Ledger) (holder : ObjectId) (r : Record) (key : String) (revived : Value) :
    Ledger :=
  match arrayIndex? key with
  | some i =>
    if !revived.isUndefined && r.fallsShort i then
      { log with overruns := (holder, i) :: log.overruns }
    else log
  | none => log

def reviveMemberLogged (call : Invoke) (reviver : Value) (holder : ObjectId) (key : String) (v : Value)
    (log : Ledger) : Eval Ledger := do
  let _ ← put holder key v
  let _ ← define holder key ⟨v, .hidden⟩
  let revived ← call reviver (.object holder) [.string key, v] {}
  let r ← onHeap fun h => h.record holder
  settleMember holder key revived
  return log.settle holder r key revived

mutual

def reviveLogged (call : Invoke) (reviver : Value) (log : Ledger) : Json → Eval (Value × Ledger)
  | .array items => do
    let holder ← allocate .emptyArray
    let log ← reviveItemsLogged call reviver holder { log with arrays := holder :: log.arrays } 0 items
    return (.object holder, log)
  | .object members => do
    let holder ← allocate (.empty .object)
    let log ← reviveMembersLogged call reviver holder log members
    return (.object holder, log)
  | .null => return (.null, log)
  | .bool b => return (.boolean b, log)
  | .number n => return (.number n.toFloat, log)
  | .string s => return (.string s, log)

def reviveItemsLogged (call : Invoke) (reviver : Value) (holder : ObjectId) (log : Ledger) :
    Nat → List Json → Eval Ledger
  | _, [] => return log
  | i, item :: items => do
    let (v, log) ← reviveLogged call reviver log item
    let log ← reviveMemberLogged call reviver holder (indexKey i) v log
    reviveItemsLogged call reviver holder log (i + 1) items

def reviveMembersLogged (call : Invoke) (reviver : Value) (holder : ObjectId) (log : Ledger) :
    List (String × Json) → Eval Ledger
  | [] => return log
  | (key, item) :: members => do
    let (v, log) ← reviveLogged call reviver log item
    let log ← reviveMemberLogged call reviver holder key v log
    reviveMembersLogged call reviver holder log members

end

/-- Reads a text through a reviver and keeps a ledger. -/
def parseLogged [Platform] (call : Invoke) (reviver : Value) (text : String) : Eval (Value × Ledger) := do
  match Platform.readJson text.toList with
  | .error p =>
    reportUnread p text.toList
    return (.unknown, {})
  | .ok tree =>
    let (v, log) ← reviveLogged call reviver {} tree
    let root ← newObject (.ofEntries [("", v)])
    let v ← call reviver root [.string "", v] {}
    return (v, log)

/-! ### The log makes no difference -/

section Equal

variable {α : Type} {call : Invoke} {reviver : Value}

theorem reviveMemberLogged_bind (holder : ObjectId) (key : String) (v : Value) (log : Ledger)
    {k : Ledger → Eval α} {m : Eval α} (hk : ∀ log, k log = m) :
    (reviveMemberLogged call reviver holder key v log >>= k) =
      (do reviveMember call reviver holder key v; m) := by
  obtain rfl : k = fun _ => m := funext hk
  simp only [reviveMemberLogged, reviveMember, bind_assoc]
  rfl

mutual

theorem reviveLogged_bind (log : Ledger) {k : Value × Ledger → Eval α} {k₀ : Value → Eval α}
    (hk : ∀ p, k p = k₀ p.1) :
    ∀ j : Json, (reviveLogged call reviver log j >>= k) = (revive call reviver j >>= k₀)
  | .array items => by
    simp only [reviveLogged, revive, bind_assoc]
    refine congrArg (allocate _ >>= ·) (funext fun holder => ?_)
    exact reviveItemsLogged_bind holder _ (fun log => hk (.object holder, log)) 0 items
  | .object members => by
    simp only [reviveLogged, revive, bind_assoc]
    refine congrArg (allocate _ >>= ·) (funext fun holder => ?_)
    exact reviveMembersLogged_bind holder _ (fun log => hk (.object holder, log)) members
  | .null => hk (.null, log)
  | .bool b => hk (.boolean b, log)
  | .number n => hk (.number n.toFloat, log)
  | .string s => hk (.string s, log)

theorem reviveItemsLogged_bind (holder : ObjectId) (log : Ledger) {k : Ledger → Eval α} {m : Eval α}
    (hk : ∀ log, k log = m) :
    ∀ (i : Nat) (items : List Json),
      (reviveItemsLogged call reviver holder log i items >>= k) =
        (do reviveItems call reviver holder i items; m)
  | _, [] => hk log
  | i, item :: items => by
    simp only [reviveItemsLogged, reviveItems, bind_assoc]
    refine reviveLogged_bind log (fun p => ?_) item
    exact reviveMemberLogged_bind holder _ p.1 p.2 fun log =>
      reviveItemsLogged_bind holder log hk (i + 1) items

theorem reviveMembersLogged_bind (holder : ObjectId) (log : Ledger) {k : Ledger → Eval α}
    {m : Eval α} (hk : ∀ log, k log = m) :
    ∀ members : List (String × Json),
      (reviveMembersLogged call reviver holder log members >>= k) =
        (do reviveMembers call reviver holder members; m)
  | [] => hk log
  | (key, item) :: members => by
    simp only [reviveMembersLogged, reviveMembers, bind_assoc]
    refine reviveLogged_bind log (fun p => ?_) item
    exact reviveMemberLogged_bind holder key p.1 p.2 fun log =>
      reviveMembersLogged_bind holder log hk members

end

/-- Reading a text through a function is reading it with a ledger that is thrown away. -/
theorem parseLogged_fst [Platform] {s : Session} (hc : s.heap.isCallable reviver = true) (text : String) :
    (do let p ← parseLogged call reviver text; return p.1) s = parseText call reviver text s := by
  unfold parseLogged parseText
  cases Platform.readJson text.toList with
  | error p => rfl
  | ok tree =>
    dsimp only
    rw [run_bind (run_onHeap _ s), if_pos hc, reviveRoot, bind_assoc]
    refine congrFun (reviveLogged_bind _ (fun p => ?_) tree) s
    simp only [bind_assoc]
    exact congrArg (newObject _ >>= ·) (funext fun root => bind_pure (call reviver root _ {}))

theorem exists_snd_of_done {m : Eval (α × Ledger)} {s t : Session} {a : α}
    (h : (do let p ← m; return p.1) s = (.done a, t)) : ∃ log, m s = (.done (a, log), t) := by
  obtain ⟨p, _, hr, h⟩ := run_bind_eq_done h
  cases h
  exact ⟨p.2, hr⟩

end Equal

/-! ### What the ledger says holds -/

/-- The arrays are there and their lengths reach beyond all elements but those that the ledger lists. -/
structure Ledger.Holds (log : Ledger) (s : Session) : Prop where
  internal : s.heap.Internal
  present : ∀ id ∈ log.arrays, id.index < s.heap.size
  spans : ∀ id ∈ log.arrays, (s.heap.record id).Spans fun i => (id, i) ∈ log.overruns
  elastic : ∀ id ∈ log.arrays, (s.heap.record id).Elastic

namespace Ledger

theorem arrays_settle (log : Ledger) (holder : ObjectId) (r : Record) (key : String)
    (revived : Value) : (log.settle holder r key revived).arrays = log.arrays := by
  unfold settle
  split
  · split <;> rfl
  · rfl

theorem mem_overruns_settle (log : Ledger) (holder : ObjectId) {id : ObjectId} {r : Record}
    {key : String} {revived : Value} {i : Nat} (hr : revived.isUndefined = false)
    (h : (id, i) ∈ log.overruns ∨ holder = id ∧ arrayIndex? key = some i ∧ r.fallsShort i = true) :
    (id, i) ∈ (log.settle holder r key revived).overruns := by
  unfold settle
  obtain h | ⟨rfl, hi, hshort⟩ := h
  · split
    · split
      · exact .tail _ h
      · exact h
    · exact h
  · simp [hi, hr, hshort]

end Ledger

namespace Ledger.Holds
variable {log log' : Ledger} {s t : Session}

section

variable (h : log.Holds s)
include h

theorem update [Platform] (holder : ObjectId) (he : s.Evolves t) (ha : log'.arrays = log.arrays)
    (ho : ∀ id i, (id, i) ∈ log.overruns → (id, i) ∈ log'.overruns)
    (hother : ∀ id, id ≠ holder → t.heap.record id = s.heap.record id)
    (hholder : holder ∈ log.arrays → (t.heap.record holder).Elastic ∧
      (t.heap.record holder).Spans fun i => (holder, i) ∈ log'.overruns) : log'.Holds t where
  internal := he.admits (fun _ _ => trivial) h.internal
  present id hid := Nat.lt_of_lt_of_le (h.present id (ha ▸ hid)) he.extends.heap
  spans id hid := by
    rw [ha] at hid
    by_cases hh : id = holder
    · subst hh
      exact (hholder hid).2
    · rw [hother id hh]
      exact (h.spans id hid).loosen (ho id)
  elastic id hid := by
    rw [ha] at hid
    by_cases hh : id = holder
    · subst hh
      exact (hholder hid).1
    · rw [hother id hh]
      exact h.elastic id hid

theorem placeholder (holder : ObjectId) (key : String) (v : Value) :
    log.Holds { s with
      store := ((s.store.put holder key v).1.define holder key ⟨v, .hidden⟩).1 } := by
  have he : s.Evolves { s with store := (s.store.put holder key v).1 } :=
    .change (.put holder key v)
  refine h.update holder (he.trans (.change (.define holder key ⟨v, .hidden⟩ rfl)))
    rfl (fun _ _ => id) (fun id hid => ?_) fun hmem => ?_
  · rw [Session.heap, Store.record_define, if_neg fun h => hid h.1.symm, Store.record_put,
      if_neg fun h => hid h.1.symm]
    rfl
  · have hlt := h.present holder hmem
    have hlt' := Nat.lt_of_lt_of_le hlt he.extends.heap
    rw [Session.heap, Store.record_define, if_pos ⟨rfl, hlt'⟩, Store.record_put, if_pos ⟨rfl, hlt⟩]
    exact ⟨((h.elastic holder hmem).put key v).define key ⟨rfl, rfl⟩,
      (h.spans holder hmem).placeholder (h.elastic holder hmem) key v⟩

/-- What the reviver does to arrays are assignments. -/
theorem called [Platform] (he : s.Evolves t)
    (ha : ∀ id, id.index < s.heap.size → (s.heap.record id).Assigned (t.heap.record id)) :
    log.Holds t where
  internal := he.admits (fun _ _ => trivial) h.internal
  present id hid := Nat.lt_of_lt_of_le (h.present id hid) he.extends.heap
  spans id hid := (ha id (h.present id hid)).keeps (P := fun r => r.Spans _)
    (fun _ key v hr => hr.put key v) (h.spans id hid)
  elastic id hid := (ha id (h.present id hid)).keeps (fun _ key v hr => hr.put key v)
    (h.elastic id hid)

theorem dropped (holder : ObjectId) (key : String) :
    log.Holds { s with store := (s.store.delete holder key).1 } := by
  have hrecord := fun id => s.store.record_delete holder id key
  refine h.update holder (.change (.delete holder key)) rfl (fun _ _ => id)
    (fun id hid => (hrecord id).trans (if_neg fun h => hid h.1.symm)) fun hmem => ?_
  rw [Session.heap, hrecord, if_pos ⟨rfl, h.present holder hmem⟩]
  exact ⟨(h.elastic holder hmem).delete key, (h.spans holder hmem).delete key⟩

/-- A member that takes its revived value. The ledger lists it if the length does not reach it. -/
theorem settled (holder : ObjectId) (key : String) {revived : Value}
    (hr : revived.isUndefined = false) :
    (log.settle holder (s.heap.record holder) key revived).Holds
      { s with store := (s.store.define holder key (.data revived)).1 } := by
  have hrecord := fun id => s.store.record_define holder id key (.data revived)
  refine h.update holder (.change (.define holder key (.data revived) rfl)) ?_ ?_
    (fun id hid => (hrecord id).trans (if_neg fun h => hid h.1.symm)) fun hmem => ?_
  · exact log.arrays_settle holder _ key revived
  · exact fun id i hi => log.mem_overruns_settle holder hr (.inl hi)
  · rw [Session.heap, hrecord, if_pos ⟨rfl, h.present holder hmem⟩]
    refine ⟨(h.elastic holder hmem).define key ⟨rfl, rfl⟩, ?_⟩
    exact ((h.spans holder hmem).define key rfl).loosen fun i hi =>
      log.mem_overruns_settle holder hr (hi.imp_right fun hi => ⟨rfl, hi⟩)

theorem allocated {r : Record} (hr : r.Fresh) :
    log.Holds { s with store := (s.store.allocate r).1 } where
  internal := (Session.Evolves.change (.allocate r hr)).admits (fun _ _ => trivial) h.internal
  present id hid := Nat.lt_of_lt_of_le (h.present id hid) (s.store.extends_allocate r).heap
  spans id hid := by
    rw [Session.heap, Store.record_allocate_of_lt (h.present id hid)]
    exact h.spans id hid
  elastic id hid := by
    rw [Session.heap, Store.record_allocate_of_lt (h.present id hid)]
    exact h.elastic id hid

theorem allocated_array :
    Ledger.Holds { log with arrays := ⟨s.heap.size⟩ :: log.arrays }
      { s with store := (s.store.allocate .emptyArray).1 } := by
  have h' := h.allocated (.list [])
  have hnew : (s.store.allocate .emptyArray).1.heap.record ⟨s.heap.size⟩ = .emptyArray := by
    rw [Store.allocate, Store.heap_onHeap, Heap.record_allocate]
    exact if_pos rfl
  refine ⟨h'.internal, List.forall_mem_cons.mpr ⟨?_, h'.present⟩,
    List.forall_mem_cons.mpr ⟨?_, h'.spans⟩, List.forall_mem_cons.mpr ⟨?_, h'.elastic⟩⟩
  · change s.heap.size < (s.heap.allocate .emptyArray).1.size
    rw [Heap.size_allocate]
    exact Nat.lt_succ_self _
  · rw [Session.heap, hnew]
    exact (Record.spans_false.mpr Record.measured_emptyArray).loosen fun _ => False.elim
  · rw [Session.heap, hnew]
    exact Record.elastic_emptyArray

end

end Ledger.Holds

/-! ### Reviving -/

def Ledger.Leads {α : Type} (log : Ledger) (m : Eval α) (next : α → Ledger) : Prop :=
  ∀ s : Session, log.Holds s → ∀ a t, m s = (.done a, t) → (next a).Holds t

namespace Ledger.Leads
variable {α β : Type} {log : Ledger}

theorem pure (next : α → Ledger) (a : α) : (next a).Leads (Pure.pure a) next := by
  intro s hs _ _ hrun
  cases hrun
  exact hs

theorem bind {m : Eval α} {f : α → Eval β} {next : α → Ledger} {last : β → Ledger}
    (hm : log.Leads m next) (hf : ∀ a, (next a).Leads (f a) last) : log.Leads (m >>= f) last := by
  intro s hs b u hrun
  obtain ⟨a, t, hr, hrun⟩ := run_bind_eq_done hrun
  exact hf a t (hm s hs a t hr) b u hrun

end Ledger.Leads

theorem leads_settle (log : Ledger) (holder : ObjectId) (key : String) (revived : Value) :
    log.Leads (do
      let r ← onHeap fun h => h.record holder
      settleMember holder key revived
      return log.settle holder r key revived) id := by
  intro s hs a t hrun
  rw [run_bind (run_onHeap _ s)] at hrun
  unfold settleMember at hrun
  cases hr : revived.isUndefined with
  | true =>
    have hlog : log.settle holder (s.heap.record holder) key revived = log := by
      unfold Ledger.settle
      split <;> simp [hr]
    rw [hr, hlog] at hrun
    cases hrun
    exact hs.dropped holder key
  | false =>
    rw [hr] at hrun
    cases hrun
    exact hs.settled holder key hr

section Reviving

variable [Platform] {call : Invoke}

theorem leads_call (hc : call.Assigning) (log : Ledger) (callee receiver : Value) (args : List Value)
    (options : CallOptions) : log.Leads (call callee receiver args options) fun _ => log := by
  intro s hs v t hrun
  have he := hc.tracked callee receiver args options s hs.internal
  rw [hrun] at he
  refine hs.called he fun id hid => ?_
  have ha := (hc.assigns id callee receiver args options s hs.internal hid).2
  rwa [hrun] at ha

theorem leads_reviveMember (hc : call.Assigning) (reviver : Value) (holder : ObjectId) (key : String)
    (v : Value) (log : Ledger) :
    log.Leads (reviveMemberLogged call reviver holder key v log) id := by
  have hplace : log.Leads (do let _ ← put holder key v; define holder key ⟨v, .hidden⟩)
      fun _ => log := by
    intro s hs a t hrun
    cases hrun
    exact hs.placeholder holder key v
  have h := hplace.bind fun _ =>
    (leads_call hc log reviver (.object holder) [.string key, v] {}).bind fun revived =>
      leads_settle log holder key revived
  rwa [Eval.bind_assoc] at h

mutual

theorem leads_revive (hc : call.Assigning) (reviver : Value) (log : Ledger) :
    ∀ j : Json, log.Leads (reviveLogged call reviver log j) Prod.snd
  | .array items => by
    intro s hs a t hrun
    have h := (leads_reviveItems hc reviver ⟨s.heap.size⟩
      { log with arrays := ⟨s.heap.size⟩ :: log.arrays } 0 items).bind fun log =>
        Ledger.Leads.pure Prod.snd (Value.object ⟨s.heap.size⟩, log)
    exact h _ hs.allocated_array a t hrun
  | .object members => by
    intro s hs a t hrun
    have h := (leads_reviveMembers hc reviver ⟨s.heap.size⟩ log members).bind fun log =>
      Ledger.Leads.pure Prod.snd (Value.object ⟨s.heap.size⟩, log)
    exact h _ (hs.allocated (.entries [])) a t hrun
  | .null => .pure Prod.snd (Value.null, log)
  | .bool b => .pure Prod.snd (Value.boolean b, log)
  | .number n => .pure Prod.snd (Value.number n.toFloat, log)
  | .string s => .pure Prod.snd (Value.string s, log)

theorem leads_reviveItems (hc : call.Assigning) (reviver : Value) (holder : ObjectId) (log : Ledger) :
    ∀ (i : Nat) (items : List Json),
      log.Leads (reviveItemsLogged call reviver holder log i items) id
  | _, [] => .pure id log
  | i, item :: items => (leads_revive hc reviver log item).bind fun p =>
    (leads_reviveMember hc reviver holder (indexKey i) p.1 p.2).bind fun log =>
      leads_reviveItems hc reviver holder log (i + 1) items

theorem leads_reviveMembers (hc : call.Assigning) (reviver : Value) (holder : ObjectId)
    (log : Ledger) :
    ∀ members : List (String × Json),
      log.Leads (reviveMembersLogged call reviver holder log members) id
  | [] => .pure id log
  | (key, item) :: members => (leads_revive hc reviver log item).bind fun p =>
    (leads_reviveMember hc reviver holder key p.1 p.2).bind fun log =>
      leads_reviveMembers hc reviver holder log members

end

theorem leads_parse (hc : call.Assigning) (reviver : Value) (text : String) :
    Ledger.Leads {} (parseLogged call reviver text) Prod.snd := by
  unfold parseLogged
  split
  next p hp =>
    intro s hs a t hrun
    cases hrun
    exact ⟨hs.internal, hs.present, hs.spans, hs.elastic⟩
  next tree _ =>
    refine (leads_revive hc reviver {} tree).bind fun p => ?_
    have hroot : p.2.Leads (newObject (.ofEntries [("", p.1)])) fun _ => p.2 := by
      intro s hs a t hrun
      cases hrun
      exact hs.allocated (.entries _)
    exact hroot.bind fun root => (leads_call hc p.2 reviver root _ {}).bind fun v =>
      .pure Prod.snd (v, p.2)

end Reviving

/-! ### The length of arrays that were read -/

/-- When a text has been read through a function, the length of each array that was made for it is
unknown or a number. The number is beyond all elements, except for those that were defined with what
the reviver gave for them after it had left the length at their index or below. -/
theorem parsed_arrays_fit_unless_overrun [Platform] (host : Host) (hr : host.ReadsPrograms)
    (contexts relays : Nat) (args : List Value) (options : CallOptions) (text : String)
    (s t : Session) (v : Value) (hs : s.heap.Internal)
    (htext : s.heap.toText? (argument args 0) = some text)
    (hc : s.heap.isCallable (argument args 1) = true)
    (hrun : Builtin.jsonParse.run host (invoke host contexts) (relay host (invoke host contexts) relays)
      args options s = (.done v, t)) :
    ∃ log, parseLogged (relay host (invoke host contexts) relays) (argument args 1) text s =
        (.done (v, log), t) ∧
      ∀ id ∈ log.arrays, (t.heap.record id).Spans (fun i => (id, i) ∈ log.overruns) ∧
        ((∀ i, (id, i) ∉ log.overruns) → (t.heap.record id).Measured) := by
  have hparse : parseText (relay host (invoke host contexts) relays) (argument args 1) text s =
      (.done v, t) := by
    rw [← hrun]
    change _ = Builtin.parseJson _ args s
    rw [Builtin.parseJson, run_bind (run_onHeap _ s), htext]
  rw [← parseLogged_fst hc] at hparse
  obtain ⟨log, hlog⟩ := exists_snd_of_done hparse
  have h := leads_parse (assigning_relay hr contexts relays) (argument args 1) text s
    ⟨hs, nofun, nofun, nofun⟩ _ t hlog
  refine ⟨log, hlog, fun id hid => ⟨h.spans id hid, fun hno => ?_⟩⟩
  exact Record.spans_false.mp ((h.spans id hid).loosen hno)

/-! ### A reviver that returns the value, and one that empties the holder first -/

def reviving (body : List Stmt) : Session where
  options := {}
  store :=
    { heap := ⟨#[.empty .object,
        .ofCallable (.closure (.mk none [⟨"k", default⟩, ⟨"v", default⟩] body false default) [⟨0⟩])]⟩
      scopes := #[{ object := some ⟨0⟩ }] }
  globalObject := ⟨0⟩
  globalContext := ⟨[⟨0⟩], [⟨0⟩], .object ⟨0⟩, false, false, "a.js"⟩

theorem internal_reviving (body : List Stmt) : (reviving body).heap.Internal := by
  rintro ⟨_ | _ | i⟩ c hc
  · cases hc
  · cases hc
    trivial
  · cases hc

def returning : List Stmt := [.ret (some (.identifier ⟨"v", default⟩))]

def emptying : List Stmt :=
  .expression
    (.assign .assign (.member (.dot (.this default) "length" default)) (.literal (.number 0))) ::
  returning

def reviveNested (body : List Stmt) : Outcome Value × Session :=
  Builtin.jsonParse.run .standard (invoke .standard 2) (relay .standard (invoke .standard 2) 2)
    [.string "[[null]]", .object ⟨1⟩] {} (reviving body)

theorem done_reviveNested {body : List Stmt} (h : (reviveNested body).1.isDone = true) :
    ∃ v t, reviveNested body = (.done v, t) := by
  cases hr : reviveNested body with
  | mk r t =>
    rw [hr] at h
    cases r with
    | done v => exact ⟨v, t, rfl⟩
    | failed e | exhausted => cases h

theorem parsed_arrays_fit_unless_overrun_nested :
    ∃ v t, reviveNested returning = (.done v, t) ∧
      ∃ log, parseLogged (relay .standard (invoke .standard 2) 2) (.object ⟨1⟩) "[[null]]"
          (reviving returning) = (.done (v, log), t) ∧
        ∀ id ∈ log.arrays, (t.heap.record id).Spans (fun i => (id, i) ∈ log.overruns) ∧
          ((∀ i, (id, i) ∉ log.overruns) → (t.heap.record id).Measured) := by
  obtain ⟨v, t, h⟩ := @done_reviveNested returning (by decide +kernel)
  exact ⟨v, t, h, parsed_arrays_fit_unless_overrun .standard Host.standard_readsPrograms 2 2
    [.string "[[null]]", .object ⟨1⟩] {} "[[null]]" (reviving returning) t v
    (internal_reviving returning) rfl rfl h⟩

/-- The outer array has an element again after the reviver has emptied it, and its length stays 0. -/
theorem revived_element_past_length :
    ∃ v t, reviveNested emptying = (.done v, t) ∧ (t.heap.record ⟨2⟩).objectClass = .array ∧
      (t.heap.record ⟨2⟩).has "0" = true ∧ (t.heap.record ⟨2⟩).fallsShort 0 = true ∧
      ¬ (t.heap.record ⟨2⟩).Measured := by
  obtain ⟨v, t, h⟩ := @done_reviveNested emptying (by decide +kernel)
  have hfacts : ((reviveNested emptying).2.heap.record ⟨2⟩).objectClass = .array ∧
      ((reviveNested emptying).2.heap.record ⟨2⟩).has "0" = true ∧
      ((reviveNested emptying).2.heap.record ⟨2⟩).fallsShort 0 = true := by
    decide +kernel
  rw [h] at hfacts
  obtain ⟨hc, hkey, hshort⟩ := hfacts
  refine ⟨v, t, h, hc, hkey, hshort, fun hm => ?_⟩
  rw [hm.fallsShort ((Record.has_eq _ _).symm.trans hkey) (by decide)] at hshort
  cases hshort

end Json
end Surmise
