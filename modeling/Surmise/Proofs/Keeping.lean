import Surmise.Proofs.Growth

/-! Code changes the objects that are there by assignments to their properties and in no other way. What
it defines or deletes are properties of objects that it has made itself. -/
namespace Surmise

abbrev Record.Assigned : Record → Record → Prop :=
  Relation.ReflTransGen fun r r' => ∃ key v, r' = (r.put key v).1

theorem Record.Assigned.keeps {P : Record → Prop} (hP : ∀ r key v, P r → P (r.put key v).1)
    {r r' : Record} (h : r.Assigned r') (hr : P r) : P r' := by
  induction h with
  | refl => exact hr
  | tail _ hstep ih =>
    obtain ⟨key, v, rfl⟩ := hstep
    exact hP _ key v ih

namespace Store
variable {id : ObjectId} {s t : Store}

theorem Edit.assigned (h : s.Edit (· = id) t) :
    (s.heap.record id).Assigned (t.heap.record id) := by
  obtain h | ⟨j, key, v, h⟩ | ⟨j, key, p, hj, _, h⟩ | ⟨j, key, hj, h⟩ := h.heap_cases <;> rw [h]
  · unfold Heap.put
    rw [Heap.record_update]
    split
    · exact .single ⟨key, v, rfl⟩
    · exact .refl
  · unfold Heap.define
    rw [Heap.record_update, if_neg fun h => hj h.1]
  · unfold Heap.delete
    rw [Heap.record_update, if_neg fun h => hj h.1]

theorem Edits.assigned (h : s.Edits (· = id) t) :
    (s.heap.record id).Assigned (t.heap.record id) := by
  induction h with
  | refl => exact .refl
  | tail _ he ih => exact ih.trans he.assigned

theorem record_allocate_of_lt (h : id.index < s.heap.size) (r : Record) :
    (s.allocate r).1.heap.record id = s.heap.record id := by
  rw [allocate, heap_onHeap, Heap.record_allocate, if_neg (Nat.ne_of_lt h)]

end Store

namespace Eval
variable [Platform] {id : ObjectId} {α β : Type}

def Assigns (id : ObjectId) (m : Eval α) : Prop :=
  ∀ s : Session, s.heap.Internal → id.index < s.heap.size →
    s.Evolves (m s).2 ∧ (s.heap.record id).Assigned ((m s).2.heap.record id)

namespace Assigns

variable {m : Eval α}

theorem of_record (ht : m.Tracked Callable.Internal)
    (hm : ∀ s : Session, id.index < s.heap.size → (m s).2.heap.record id = s.heap.record id) :
    Assigns id m := by
  intro s hs hid
  rw [hm s hid]
  exact ⟨ht s hs, .refl⟩

theorem bind {f : α → Eval β} (hm : Assigns id m) (hf : ∀ a, Assigns id (f a)) : Assigns id (m >>= f) := by
  intro s hs hid
  obtain ⟨he, ha⟩ := hm s hs hid
  obtain ⟨a, -, hrun, -⟩ | ⟨hstop, -⟩ := bind_cases m m f f s
  · obtain ⟨he', ha'⟩ := hf a _ (he.admits (fun _ _ => trivial) hs)
      (Nat.lt_of_lt_of_le hid he.extends.heap)
    rw [hrun]
    exact ⟨he.trans he', ha.trans ha'⟩
  · rw [hstop]
    exact ⟨he, ha⟩

theorem observe (hm : Assigns id m) : Assigns id (Eval.observe m) := by
  intro s hs hid
  rw [snd_observe]
  exact hm s hs hid

theorem recover (kind : ErrorKind) (message : String) {m m' : Eval α} (hm : Assigns id m)
    (hm' : Assigns id m') :
    Assigns id (do if ← Eval.read Session.recovers then reportRecovered kind message; m else m') := by
  intro s hs hid
  rw [run_read_bind]
  cases hr : s.recovers with
  | true =>
    rw [if_pos rfl]
    obtain ⟨he, ha⟩ := hm (s.report (.fault kind message) .recovered) hs hid
    exact ⟨.trans (.recovered kind message hr) he, ha⟩
  | false =>
    rw [if_neg (by simp)]
    exact hm' s hs hid

theorem inTry (hm : Assigns id m) : Assigns id (Eval.inTry m) := by
  intro s hs hid
  obtain ⟨he, ha⟩ := hm { s with tryDepth := s.tryDepth + 1 } hs hid
  exact ⟨.tried he, ha⟩

theorem inContext (c : Context) (hm : Assigns id m) : Assigns id (Eval.inContext c m) := by
  intro s hs hid
  obtain ⟨he, ha⟩ := hm { s with contexts := c :: s.contexts } hs hid
  exact ⟨.context c he, ha⟩

theorem inScopes (chain : Chain) (hm : Assigns id m) : Assigns id (Eval.inScopes chain m) := by
  intro s hs hid
  have hheap := s.heap_setLexical chain
  obtain ⟨he, ha⟩ := hm (s.setLexical chain) (hheap ▸ hs) (hheap ▸ hid)
  refine ⟨.scopes chain he, ?_⟩
  rw [hheap] at ha
  unfold Eval.inScopes
  dsimp only
  rw [Session.heap_setLexical]
  exact ha

theorem dispatch (callee : Value) {run : Callable → Eval Value} {refuse : Heap → Eval Value}
    (hrun : ∀ c : Callable, c.Internal → Assigns id (run c)) (hrefuse : ∀ h, Assigns id (refuse h)) :
    Assigns id (Eval.dispatch callee run refuse) := by
  intro s hs hid
  obtain ⟨c, hc, hcase⟩ | hcase := dispatch_cases hs callee
  · rw [hcase]
    exact hrun c hc s hs hid
  · rw [hcase]
    exact hrefuse _ s hs hid

theorem hold {r : Record} {k : ObjectId → Eval α} (hr : r.Data)
    (hk : ∀ j, ¬ j = id → Assigns id (k j)) : Assigns id (Eval.allocate r >>= k) := by
  intro s hs hid
  have hnew : ¬ (⟨s.heap.size⟩ : ObjectId) = id := fun h => by
    rw [← h] at hid
    exact Nat.lt_irrefl _ hid
  have he : s.Evolves { s with store := (s.store.allocate r).1 } := .change (.allocate r hr.1)
  obtain ⟨he', ha⟩ := hk _ hnew { s with store := (s.store.allocate r).1 }
    (he.admits (fun _ _ => trivial) hs) (Nat.lt_of_lt_of_le hid he.extends.heap)
  refine ⟨he.trans he', ?_⟩
  rw [Session.heap, Store.record_allocate_of_lt hid] at ha
  exact ha

theorem core : Core (fun _ => True) (Assigns id) where
  pure a := .of_record (internal_law.pure a) fun _ _ => rfl
  bind := .bind
  exhausted := .of_record internal_law.exhausted fun _ _ => rfl
  thrown _ := trivial
  fail h := .of_record (internal_law.fail h) fun _ _ => rfl
  observe hm hk := .bind (.observe hm) fun r => hk r fun _ _ => trivial
  read f hf := .of_record (internal_law.read f hf) fun _ _ => rfl
  allocate hr := .of_record (internal_law.allocate hr) fun _ hid => Store.record_allocate_of_lt hid _
  inTry := .inTry
  reportThrown kind message := .of_record (internal_law.reportThrown kind message) fun _ _ => rfl
  recover := .recover

/-- That an object is assigned to only is a law for every object. -/
theorem uniform (id : ObjectId) :
    Uniform .silent Callable.Internal (fun _ => True) (· = id) fun _ m => Assigns id m where
  toPaired := core.paired
  edit hf s _ _ := ⟨.changes (hf s.store).changes, (hf s.store).assigned⟩
  hold := .hold
  newFunction f chain := .of_record (internal_law.newFunction f chain) fun _ hid =>
    Store.record_allocate_of_lt hid _
  reportUnread h := .of_record (internal_law.reportUnread h) fun _ _ => rfl
  draw randoms := .of_record (internal_law.draw randoms) fun _ _ => rfl
  inContext := .inContext
  inScopes := .inScopes
  dispatch callee _ _ _ := .dispatch callee
  passed := core.pure ()
  made _ _ := core.pure ()
  declared _ _ := core.pure ()
  assigned _ := core.pure ()
  unrouted _ := core.pure ()

end Assigns
end Eval

structure Invoke.Assigning [Platform] (call : Invoke) : Prop where
  tracked : call.Tracked
  assigns : ∀ id, call.Has (Eval.Assigns id)

theorem assigning_relay [Platform] {host : Host} (hr : host.ReadsPrograms) (contexts relays : Nat) :
    (relay host (invoke host contexts) relays).Assigning where
  tracked := internal_law.accord.relay (internal_law.paired_host hr host.respects_internal)
    (Invoke.Has.paired (tracked_invoke hr contexts)) relays
  assigns id := by
    have L := (Eval.Assigns.uniform id).accord
    have hh := L.paired_self hr fun _ _ _ h => h.elim
    exact L.relay hh (L.invoke hh contexts) relays

end Surmise
