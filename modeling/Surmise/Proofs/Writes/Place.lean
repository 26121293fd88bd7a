import Surmise.Proofs.Growth
import Surmise.Proofs.Put
import Surmise.Proofs.Writes.Footprint

/-! Where a write goes, and what it leaves alone. -/
namespace Surmise

namespace Store

variable {s : Store} {name : String} {chain : Chain} {inner : Chain} {t : Store} {o : ObjectId}

theorem slot?_append_of_none (h : ∀ c ∈ inner, s.ownSlot? c name = none) (chain : Chain) :
    s.slot? (inner ++ chain) name = s.slot? chain name := by
  induction inner with
  | nil => rfl
  | cons c inner ih =>
    rw [List.cons_append, slot?, h c (.head _)]
    exact ih fun d hd => h d (.tail _ hd)

theorem slot?_congr (h : ∀ c ∈ chain, s.ownSlot? c name = t.ownSlot? c name) :
    s.slot? chain name = t.slot? chain name := by
  induction chain with
  | nil => rfl
  | cons c chain ih => rw [slot?, slot?, h c (.head _), ih fun d hd => h d (.tail _ hd)]

/-- The object that has a variable as its property, if the nearest scope that has the name does not bind
it. -/
def owner? (s : Store) : Chain → String → Option ObjectId
  | [], _ => none
  | c :: outer, name =>
    match s.binding? c name, (s.scope c).object with
    | some _, _ => none
    | none, some o => if (s.heap.record o).has name then some o else s.owner? outer name
    | none, none => s.owner? outer name

theorem assign_owner (s : Store) (chain : Chain) (name : String) (v : Value) :
    match s.owner? chain name with
    | some o => (s.assign chain name v).1 = (s.put o name v).1
    | none => (s.assign chain name v).1 = s ∨
        ∃ c b, (s.binding? c name).isSome ∧ (s.assign chain name v).1 = s.bind c name b := by
  induction chain with
  | nil => exact .inl rfl
  | cons c outer ih =>
    rw [owner?, assign, assignOwn?_eq]
    cases hb : s.binding? c name with
    | some b =>
      dsimp only
      split
      · exact .inr ⟨c, _, by simp [hb], rfl⟩
      · exact .inl rfl
    | none =>
      cases (s.scope c).object with
      | none => exact ih
      | some o =>
        dsimp only [Option.bind_some]
        rw [Record.has_eq]
        cases (s.heap.record o).getOwn? name with
        | none => exact ih
        | some p => rfl

theorem owner?_append (hi : ∀ c ∈ inner, (s.scope c).object = none)
    (h : s.owner? (inner ++ chain) name = some o) : s.owner? chain name = some o := by
  induction inner with
  | nil => exact h
  | cons c inner ih =>
    rw [List.cons_append, owner?, hi c (.head _)] at h
    split at h
    · cases h
    next heq => cases heq
    next => exact ih (fun d hd => hi d (.tail _ hd)) h

theorem scope_of_owner? (h : s.owner? chain name = some o) : ∃ c ∈ chain, (s.scope c).object = some o := by
  induction chain with
  | nil => cases h
  | cons c chain ih =>
    have htail (h : s.owner? chain name = some o) : ∃ c' ∈ c :: chain, (s.scope c').object = some o :=
      (ih h).imp fun _ hc => ⟨.tail _ hc.1, hc.2⟩
    rw [owner?] at h
    split at h
    · cases h
    next o' _ hobject =>
      split at h
      · cases h
        exact ⟨c, .head _, hobject⟩
      · exact htail h
    next => exact htail h

/-- If an object owns the name in `t`, the global object owned it in `s`. -/
theorem owner?_transfer {global : ObjectId} (hobject : ∀ c, (t.scope c).object = (s.scope c).object)
    (hbound : ∀ c, (s.binding? c name).isSome → (t.binding? c name).isSome)
    (hchain : ∀ c ∈ chain, ∀ o, (s.scope c).object = some o → o = global)
    (hp : (s.heap.record global).has name = true) (h : (t.owner? chain name).isSome) :
    s.owner? chain name = some global := by
  induction chain with
  | nil => cases h
  | cons c chain ih =>
    obtain ⟨hc, hchain⟩ := List.forall_mem_cons.mp hchain
    rw [owner?, hobject] at h
    rw [owner?]
    cases hb : s.binding? c name with
    | some b =>
      have hb' := hbound c (Option.isSome_of_eq_some hb)
      rw [Option.isSome_iff_exists] at hb'
      obtain ⟨b', hb'⟩ := hb'
      rw [hb'] at h
      cases h
    | none =>
      cases hs : (s.scope c).object with
      | some o =>
        cases hc o hs
        simp [hp]
      | none =>
        rw [hs] at h
        split at h
        · cases h
        next heq => cases heq
        next => exact ih hchain h

end Store

variable {s : Store} {chain : Chain} {x : Write}

def Write.place? (s : Store) (chain : Chain) : Write → Option (ObjectId × String)
  | name n => (s.owner? chain n).map fun o => (o, n)
  | member base key => (s.objectNamed? chain base).map fun o => (o, key)

theorem Write.forget_of_place {o : ObjectId} {k : String} (h : x.place? s chain = some (o, k)) :
    x.forget chain s = (s.put o k .unknown).1 := by
  cases x with
  | name n =>
    obtain ⟨o, ho, heq⟩ := Option.map_eq_some_iff.mp h
    cases heq
    have ha := s.assign_owner chain k .unknown
    rw [ho] at ha
    exact ha
  | member base key =>
    obtain ⟨o, ho, heq⟩ := Option.map_eq_some_iff.mp h
    cases heq
    simp [Write.forget, Store.forgetMember, ho]

theorem Write.forget_of_place_none (h : x.place? s chain = none) :
    x.forget chain s = s ∨
      ∃ n, x = .name n ∧ ∃ c b, (s.binding? c n).isSome ∧ x.forget chain s = s.bind c n b := by
  cases x with
  | name n =>
    have ha := s.assign_owner chain n .unknown
    rw [Option.map_eq_none_iff.mp h] at ha
    exact ha.imp_right fun hb => ⟨n, rfl, hb⟩
  | member base key =>
    have ho := Option.map_eq_none_iff.mp h
    exact .inl (by simp [Write.forget, Store.forgetMember, ho])

end Surmise
