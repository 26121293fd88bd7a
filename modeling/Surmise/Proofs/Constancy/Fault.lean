import Surmise.Proofs.Constancy.Run

/-! Assignments to constants are faults. Such a fault is reported once, as recovered or as thrown, and
nothing that was there changes. In code that is not strict it is passed over if the global object has a
property of the same name, although the constant hides that. -/
namespace Surmise

/-! ### The nearest binding -/

namespace Store

def BindsConstant (st : Store) (chain : Chain) (name : String) : Prop :=
  ∃ inner scope outer v, chain = inner ++ scope :: outer ∧
    (∀ c ∈ inner, st.hasOwn c name = false) ∧ st.Constant scope name v

variable {st : Store} {name : String}

theorem assign_append {inner : Chain} (h : ∀ c ∈ inner, st.hasOwn c name = false) (outer : Chain)
    (v : Value) : st.assign (inner ++ outer) name v = st.assign outer name v := by
  induction inner with
  | nil => rfl
  | cons c inner ih =>
    obtain ⟨hc, hinner⟩ := List.forall_mem_cons.mp h
    rw [hasOwn_eq, Option.isSome_eq_false_iff, Option.isNone_iff_eq_none] at hc
    rw [List.cons_append, assign_cons_of_none hc, ih hinner]

theorem Constant.assign_eq {scope : ScopeId} {u : Value} (h : st.Constant scope name u)
    (outer : Chain) (v : Value) : st.assign (scope :: outer) name v = (st, .immutable) := by
  unfold Constant at h
  rw [Store.assign, assignOwn?_eq, h]
  rfl

theorem BindsConstant.assign_eq {chain : Chain} (h : st.BindsConstant chain name) (v : Value) :
    st.assign chain name v = (st, .immutable) := by
  obtain ⟨inner, scope, outer, u, rfl, hinner, hconstant⟩ := h
  rw [assign_append hinner, hconstant.assign_eq]

end Store

/-! ### Faults -/

/-- An evaluation from `s` has come to a fault and to nothing else: the fault is reported once, the scopes and
the objects are as they were, and the one new object is the error that is thrown where the session does
not recover. -/
structure Session.OnlyFaults (s : Session) (kind : ErrorKind) (message : String)
    (r : Outcome Unit × Session) : Prop where
  reported : r.2.diagnostics = s.diagnostics.push
    ⟨.fault kind message, s.current.filename, if s.recovers then .recovered else .thrown⟩
  scopes : r.2.store.scopes = s.store.scopes
  records : ∀ id, id.index < s.heap.size → r.2.heap.record id = s.heap.record id
  recovered : s.recovers = true → r.1 = .done () ∧ r.2.heap.size = s.heap.size
  thrown : s.recovers = false → r.1 = .failed (.thrown (.object ⟨s.heap.size⟩)) ∧
    r.2.heap.size = s.heap.size + 1 ∧ r.2.heap.record ⟨s.heap.size⟩ = .errorNamed kind.name message
  rest : r.2 = { s with store := r.2.store, diagnostics := r.2.diagnostics }

namespace Eval

theorem onlyFaults_routeOnly (s : Session) (kind : ErrorKind) (message : String) :
    s.OnlyFaults kind message (routeOnly kind message s) := by
  cases hr : s.recovers with
  | true =>
    rw [run_routeOnly hr]
    exact
      { reported := by rw [hr]; rfl
        scopes := rfl
        records := fun _ _ => rfl
        recovered := fun _ => ⟨rfl, rfl⟩
        thrown := fun hno => by cases hr.symm.trans hno
        rest := rfl }
  | false =>
    have hrecord (id : ObjectId) :=
      s.heap.record_allocate (.errorNamed kind.name message) id
    rw [run_routeOnly_thrown hr]
    exact
      { reported := by rw [hr]; rfl
        scopes := rfl
        records := fun id hid => (hrecord id).trans (if_neg (Nat.ne_of_lt hid))
        recovered := fun hyes => by cases hr.symm.trans hyes
        thrown := fun _ => ⟨rfl, s.heap.size_allocate _, (hrecord _).trans (if_pos rfl)⟩
        rest := rfl }

/-- Assigning to a constant ends in a fault, which code that is not strict passes over if it takes the
constant for a property of the global object. -/
theorem run_assignName_constant {s : Session} {name : String}
    (h : s.store.BindsConstant s.current.lexical name) (v : Value) :
    assignName name v s =
      if s.current.strict || !(s.heap.record s.globalObject).has name then
        routeOnly .typeError ("Assignment to constant variable '" ++ name ++ "'") s
      else (.done (), s) := by
  have hassign : onStore (fun st => st.assign s.current.lexical name v) s = (.done .immutable, s) := by
    rw [run_onStore, h.assign_eq v]
  unfold assignName current
  rw [run_read_bind, run_bind hassign]
  dsimp only
  unfold isGlobalProperty
  rw [run_read_bind]
  split
  · rfl
  · rfl

end Eval

/-- Assigning to a constant is a fault. Where the nearest binding of a name is a constant, assigning any value
to the name routes one `TypeError` and changes no binding and no property, in strict code always and in
other code if and only if the global object has no property of that name; if it has one, the assignment
does nothing at all. -/
theorem constant_assignment_faults (s : Session) (name : String) (v : Value)
    (h : s.store.BindsConstant s.current.lexical name) :
    (s.OnlyFaults .typeError ("Assignment to constant variable '" ++ name ++ "'")
        (Eval.assignName name v s) ↔
      s.current.strict = true ∨ (s.heap.record s.globalObject).has name = false) ∧
      (s.current.strict = false → (s.heap.record s.globalObject).has name = true →
        Eval.assignName name v s = (.done (), s)) := by
  rw [Eval.run_assignName_constant h v]
  refine ⟨⟨fun hfaults => ?_, fun hcondition => ?_⟩, fun hstrict hhas => ?_⟩
  · by_cases hc : (s.current.strict || !(s.heap.record s.globalObject).has name) = true
    · simpa using hc
    · -- nothing would have been reported
      rw [if_neg hc] at hfaults
      have hsize := congrArg Array.size hfaults.reported
      rw [Array.size_push] at hsize
      exact absurd hsize (Nat.ne_of_lt (Nat.lt_succ_self _))
  · rw [if_pos (by simpa using hcondition)]
    exact Eval.onlyFaults_routeOnly s _ _
  · rw [if_neg (by simp [hstrict, hhas])]

def Session.shadowing (strict : Bool) : Session where
  options := {}
  store :=
    { heap := ⟨#[.ofEntries [("c", .null)]]⟩
      scopes := #[{ object := some ⟨0⟩ }, { bindings := Dict.empty.insert "c" ⟨.null, false⟩ }] }
  globalObject := ⟨0⟩
  globalContext := ⟨[⟨1⟩, ⟨0⟩], [⟨0⟩], .object ⟨0⟩, strict, false, "a.js"⟩

theorem Session.bindsConstant_shadowing (strict : Bool) :
    (shadowing strict).store.BindsConstant (shadowing strict).current.lexical "c" :=
  ⟨[], ⟨1⟩, [⟨0⟩], .null, rfl, List.forall_mem_nil _, rfl⟩

/-- In strict code the property behind the constant makes no difference. -/
theorem constant_assignment_faults_shadowing :
    (Session.shadowing true).store.BindsConstant (Session.shadowing true).current.lexical "c" ∧
      (Session.shadowing true).OnlyFaults .typeError ("Assignment to constant variable '" ++ "c" ++ "'")
        (Eval.assignName "c" .undefined (Session.shadowing true)) := by
  have h := Session.bindsConstant_shadowing true
  exact ⟨h, (constant_assignment_faults _ "c" .undefined h).1.mpr (.inl rfl)⟩

/-- In other code no fault is reported; a variable of the same name in the program is enough for that. -/
theorem constant_assignment_unnoticed :
    (Session.shadowing false).store.BindsConstant (Session.shadowing false).current.lexical "c" ∧
      (Eval.assignName "c" .undefined (Session.shadowing false)).2.diagnostics.size = 0 ∧
      ["const c = 1; c = 2", "var c = 0; \x7b const c = 1; c = 2 \x7d"].map (fun source =>
        ((Session.evaluating.runFiles [(source, "a.js")]).2.diagnostics.map Diagnostic.kind).toList) =
        [[.typeError], []] := by
  have h := Session.bindsConstant_shadowing false
  refine ⟨h, ?_, by decide +kernel⟩
  rw [Eval.run_assignName_constant h, if_neg (by decide)]
  rfl

end Surmise
