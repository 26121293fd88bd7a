import Surmise.Proofs.EvalCode.Rethrowing
import Surmise.Proofs.Law.Upholding

/-! Strict code that is given to `eval` keeps its declarations to itself: as long as it calls nothing and
writes to no property of an object, every scope that was there before binds the same names as before, and
every object has the same properties. -/
namespace Surmise

theorem Record.keys_put_of_has {r : Record} (hc : r.objectClass ≠ .array) {key : String}
    (h : (r.getOwn? key).isSome) (v : Value) : (r.put key v).1.keys = r.keys := by
  have hmem : key ∈ r.keys := (r.properties.mem_keys key).mpr h
  unfold put assign
  rw [if_neg hc]
  split
  · split
    · rw [keys_setProperty, if_pos hmem]
    · rfl
  next hnone =>
    rw [hnone] at h
    cases h

/-! ### What is kept -/

/-- The second store has all scopes and objects of the first one, with the same names and properties. Other
scopes have no objects. -/
structure Store.Secludes (o s : Store) : Prop extends o.Extends s where
  names : ∀ id : ScopeId, id.index < o.scopes.size →
    (s.scope id).bindings.keys = (o.scope id).bindings.keys
  keys : ∀ id : ObjectId, id.index < o.heap.size → (s.heap.record id).keys = (o.heap.record id).keys
  plain : s.Plain
  bare : ∀ id : ScopeId, o.scopes.size ≤ id.index → (s.scope id).object = none

namespace Store.Secludes

variable {o s t : Store} {id : ScopeId}

theorem refl (h : o.Plain) : o.Secludes o where
  toExtends := .refl o
  names _ _ := rfl
  keys _ _ := rfl
  plain := h
  bare id hid := by rw [scope_of_size_le hid]

theorem step (h : o.Secludes s) (hc : s.Change t)
    (hn : ∀ id : ScopeId, id.index < o.scopes.size →
      (t.scope id).bindings.keys = (s.scope id).bindings.keys)
    (hk : ∀ id : ObjectId, id.index < o.heap.size →
      (t.heap.record id).keys = (s.heap.record id).keys) : o.Secludes t where
  toExtends := h.toExtends.trans hc.extends
  names id hid := (hn id hid).trans (h.names id hid)
  keys id hid := (hk id hid).trans (h.keys id hid)
  plain := hc.plain h.plain
  bare id hid := (hc.object id).trans (h.bare id hid)

theorem allocate (h : o.Secludes s) {r : Record} (hr : r.Fresh) : o.Secludes (s.allocate r).1 :=
  h.step (.allocate r hr) (fun _ _ => rfl) fun id hid => by
    rw [Store.allocate, heap_onHeap, Heap.record_allocate,
      if_neg (Nat.ne_of_lt (Nat.lt_of_lt_of_le hid h.heap))]

theorem core (o : Store) (C : Context → ObjectId → Prop) :
    Eval.Core (fun _ => True) (Eval.Upholds C o.Secludes) :=
  Eval.Upholds.core fun hr _ h => h.allocate hr.1

theorem newScope (h : o.Secludes s) : o.Secludes (s.newScope {}).1 :=
  h.step .newScope (fun id _ => by rw [scope_newScope_empty]) fun _ _ => rfl

theorem size_le_newScope (h : o.Secludes s) : o.scopes.size ≤ (s.newScope {}).2.index := h.scopes

theorem keys_bind_of_le (hid : o.scopes.size ≤ id.index) (name : String) (b : Binding) {j : ScopeId}
    (hj : j.index < o.scopes.size) :
    ((s.bind id name b).scope j).bindings.keys = (s.scope j).bindings.keys := by
  rw [scope_bind, if_neg fun h => ?_]
  rw [h.1] at hid
  exact Nat.not_lt.mpr hid hj

theorem declare (h : o.Secludes s) (hid : o.scopes.size ≤ id.index) (name : String) (v : Value)
    (mutable : Bool) : o.Secludes (s.declare id name v mutable) :=
  h.step (.declare id name v mutable) (fun _ => keys_bind_of_le hid name _) fun _ _ => rfl

theorem declareVariable (h : o.Secludes s) (hid : o.scopes.size ≤ id.index) (name : String)
    (v? : Option Value) : o.Secludes (s.declareVariable id name v?) := by
  obtain hd | ⟨mutable, hd⟩ | ⟨object, ho, _⟩ := s.declareVariable_spec id name v?
  · rw [hd]
    exact h
  · rw [hd]
    exact h.declare hid name _ mutable
  · rw [h.bare id hid] at ho
    cases ho

theorem assign (h : o.Secludes s) (chain : Chain) (name : String) (v : Value) :
    o.Secludes (s.assign chain name v).1 := by
  refine h.step (.assign chain name v) (fun j _ => ?_) fun j _ => ?_
  all_goals
    obtain ⟨_, he⟩ | ⟨id, b, hb, _, he⟩ | ⟨id, _, object, p, ho, hp, _, he⟩ :=
      s.assign_spec chain name v <;> rw [he]
  · split
    · rw [scope_bind]
      split
      next hid =>
        rw [hid.1] at hb
        have hmem : name ∈ (s.scope j).bindings.keys :=
          ((s.scope j).bindings.mem_keys name).mpr (Option.isSome_of_eq_some hb)
        rw [Dict.keys_insert, if_pos hmem]
      next => rfl
    · rfl
  · rfl
  · split <;> rfl
  · rw [record_put]
    split
    next hid =>
      obtain ⟨rfl, _⟩ := hid
      exact Record.keys_put_of_has (h.plain id object ho).2 (Option.isSome_of_eq_some hp) v
    next => rfl

theorem hasOwn (h : o.Secludes s) (ho : o.Plain) (hid : id.index < o.scopes.size) (name : String) :
    s.hasOwn id name = o.hasOwn id name := by
  have hb : (s.binding? id name).isSome = (o.binding? id name).isSome := by
    rw [Bool.eq_iff_iff]
    unfold binding?
    rw [← Dict.mem_keys, ← Dict.mem_keys, h.names id hid]
  unfold Store.hasOwn
  rw [hb, h.object id hid]
  cases hobject : (o.scope id).object with
  | none => rfl
  | some object =>
    have hk := h.keys object (ho id object hobject).1
    have hhas : (s.heap.record object).has name = (o.heap.record object).has name := by
      rw [Bool.eq_iff_iff]
      unfold Record.has
      rw [Dict.contains_iff, Dict.contains_iff]
      exact iff_of_eq (congrArg (name ∈ ·) hk)
    simp [hhas]

end Store.Secludes

/-! ### Strict code in scopes of its own -/

def Expr.Inward (x : Expr) : Prop := x.isCall = false ∧ x.isMemberAssignment = false

def Context.Secluded (n : Nat) (c : Context) (_ : ObjectId) : Prop :=
  c.strict = true ∧ ∀ id ∈ c.lexical.head?, n ≤ id.index

namespace Eval

variable {α β : Type} {o : Store}

def Secludes (o : Store) (m : Eval α) : Prop :=
  Upholds (Context.Secluded o.scopes.size) o.Secludes m

namespace Secludes

theorem core (o : Store) : Core (fun _ => True) (Secludes o) := Store.Secludes.core o _

theorem newFunction (f : Function) (chain : Chain) : Secludes o (newFunction f chain) :=
  (core o).bind (Leads.onStore fun _ h => h.allocate (.closure f chain)) fun _ => (core o).pure _

theorem declare {id : ScopeId} (hid : o.scopes.size ≤ id.index) (name : String) (v : Value)
    (mutable : Bool) : Secludes o (declare id name v mutable) :=
  Leads.onStore fun _ h => h.declare hid name v mutable

theorem assignName (name : String) (v : Value) : Secludes o (assignName name v) := by
  rw [assignName_eq]
  refine Leads.read_bind fun s hs => ?_
  refine Upholds.bind (Leads.onStore fun _ h => h.assign _ name v) fun a => ?_
  -- strict code makes no global variables this way
  exact (core o).afterAssignment fun _ hstrict => absurd hs.1 (by simp [hstrict])

theorem functionExpression (f : Function) : Secludes o (functionExpression f) := by
  have L := core o
  refine L.bind L.current fun c => ?_
  cases f.name with
  | none => exact newFunction f c.lexical
  | some id =>
    exact Leads.onStore_bind fun st h => ⟨h.newScope, L.bind (newFunction f _) fun v =>
      L.bind (declare h.size_le_newScope id.name v false) fun _ => L.pure v⟩

theorem widens (o : Store) (chain : Chain) :
    Store.Widens Expr.Inward chain chain
      fun s' s => s' = s ∧ o.Secludes s :=
  .keeping (fun _ name h => h.assign chain name .unknown) fun h => absurd h.2 (by
    simp [Expr.isMemberAssignment])

theorem skip {widen : Chain → Store → Store}
    (hw : ∀ chain, Store.Carry (fun s' s => s' = s ∧ o.Secludes s) (widen chain) (widen chain)) :
    Secludes o (skip widen) := by
  refine Leads.read_bind fun s _ => Leads.onStore fun st h => ?_
  exact (hw s.current.lexical ⟨rfl, h⟩).2

theorem phrases (o : Store) (call : Invoke) :
    Phrases .silent Expr.Inward call call
      fun _ m => Secludes o m where
  pure := (core o).pure
  bind := (core o).bind
  passed := (core o).pure ()
  onHeap := (core o).onHeap
  newObject := (core o).newObject
  receiver := (core o).bind (core o).current fun _ => (core o).pure _
  resolve := (core o).resolve
  typeofName := (core o).typeofName
  readMember := (core o).readMember
  assignName := assignName
  skip h := skip fun chain => (widens o chain).exprAll _ h
  function _ _ _ := functionExpression _
  called h := absurd h.1 (by simp [Expr.isCall])
  assignMember h := absurd h.2 (by simp [Expr.isMemberAssignment])

theorem declareName (kind : DeclKind) (name : String) (v? : Option Value) :
    Secludes o (declareName kind name v?) := by
  have L := core o
  unfold Eval.declareName
  split
  · exact L.pure ()
  · exact assignName name _
  · refine Leads.read_bind fun s hs => ?_
    split
    next scope _ hscope => exact declare (hs.2 scope (by simp [hscope])) name _ _
    next => exact L.pure ()

theorem declareFunctions {bindName : String → Value → Eval Unit}
    (hb : ∀ name v, Secludes o (bindName name v)) (fs : List (String × Function)) :
    Secludes o (declareFunctions bindName fs) := by
  have L := core o
  induction fs with
  | nil => exact L.pure ()
  | cons p fs ih =>
    exact L.bind L.current fun c => L.bind (newFunction p.2 c.lexical) fun v =>
      L.bind (hb p.1 v) fun _ => ih

theorem declareBody {scope : ScopeId} (hid : o.scopes.size ≤ scope.index) (body : List Stmt) :
    Secludes o (declareBody scope body) := by
  have L := core o
  have hnames : Secludes o (declareNames scope (Stmt.allVariableNames body)) :=
    Leads.onStore fun st h => List.foldlRecOn _ _ h fun st h name _ => h.declareVariable hid name none
  have hbind (name : String) (v : Value) : Secludes o (declareVariable scope name (some v)) :=
    Leads.onStore fun st h => h.declareVariable hid name (some v)
  exact L.bind hnames fun _ => declareFunctions hbind _

theorem inBlock {run : Eval Flow} (hr : Secludes o run) (body : List Stmt)
    (binding : Option (String × Value)) : Secludes o (inBlock body binding run) := by
  intro s hs h
  have L := core o
  let scope := (s.store.newScope {}).2
  have hid : o.scopes.size ≤ scope.index := h.size_le_newScope
  have hstart : ∃ st, o.Secludes st ∧ Eval.inBlock body binding run s =
      inScopes (scope :: s.current.lexical) (do declareBlock scope body; run)
        { s with store := st } := by
    cases binding with
    | none => exact ⟨_, h.newScope, rfl⟩
    | some p => exact ⟨_, h.newScope.declare hid p.1 p.2 true, rfl⟩
  obtain ⟨st, hst, hrun⟩ := hstart
  rw [hrun]
  have hblock := L.bind (declareFunctions (fun name v => declare hid name v true)
    (Stmt.functions body)) fun _ => hr
  exact Leads.inScopes (s := { s with store := st }) hblock ⟨hs.1, by simpa using hid⟩ hst

/-! ### Statements -/

mutual

/-- Statements without calls and member assignments keep the store secluded. -/
theorem stmt (call : Invoke) : ∀ t : Stmt,
    (∀ x ∈ t.parts, x.Inward) → Secludes o (t.exec call)
  | .block body, h => inBlock (stmtAll call none body h) body none
  | .empty, _ | .function _, _ => (core o).pure _
  | .expression e, h | .ret (some e), h =>
    (core o).bind ((phrases o call).plain e h) fun _ => (core o).pure _
  | .declare kind ds, h => (core o).bind (declaratorAll call kind ds h) fun _ => (core o).pure _
  | .branch test c a?, h => by
    have L := core o
    obtain ⟨ht, hc, ha⟩ : (∀ x ∈ test.parts, x.Inward) ∧ (∀ x ∈ c.parts, x.Inward) ∧
        ∀ a ∈ a?, ∀ x ∈ a.parts, x.Inward := by
      cases a? <;> simpa [Stmt.parts, or_imp, forall_and] using h
    rw [Stmt.exec.eq_def]
    refine L.bind ((phrases o call).plain test ht) fun v => ?_
    obtain _ | _ | _ := v.truth?
    · exact L.bind (skip fun chain => (widens o chain).branches hc ha) fun _ => L.pure _
    · cases a? with
      | none => exact L.pure _
      | some a => exact stmt call a (ha a rfl)
    · exact stmt call c hc
  | .ret none, _ => (core o).pure _
  | .throw e, h => (core o).bind ((phrases o call).plain e h) fun v => (core o).throw v
  | .attempt body handler finalizer, h => by
    rw [Stmt.parts.eq_def] at h
    obtain ⟨hb, h⟩ := List.forall_mem_append.mp h
    obtain ⟨hh, hf⟩ := List.forall_mem_append.mp h
    rw [Stmt.exec.eq_def]
    refine (core o).attempt (inBlock (stmtAll call none body hb) body none) ?_ ?_
    · rcases handler with _ | ⟨param, handler⟩ <;> rintro _ ⟨⟩ v
      exact inBlock (stmtAll call none handler hh) handler _
    · rcases finalizer with _ | finalizer <;> rintro _ ⟨⟩
      exact inBlock (stmtAll call none finalizer hf) finalizer none

theorem stmtAll (call : Invoke) : ∀ (last : Option Value) (ts : List Stmt),
    (∀ x ∈ Stmt.allParts ts, x.Inward) →
      Secludes o (Stmt.execAll call last ts)
  | last, [], _ => (core o).pure _
  | last, t :: ts, h => by
    obtain ⟨ht, hts⟩ := List.forall_mem_append.mp h
    refine (core o).bind (stmt call t ht) fun flow => ?_
    cases flow with
    | normal v => exact stmtAll call _ ts hts
    | returned v => exact (core o).pure _

theorem declaratorAll (call : Invoke) (kind : DeclKind) : ∀ ds : List Declarator,
    (∀ x ∈ Declarator.allParts ds, x.Inward) →
      Secludes o (Declarator.execAll call kind ds)
  | [], _ => (core o).pure _
  | .mk id none :: ds, h =>
    (core o).bind (declareName kind id.name none) fun _ => declaratorAll call kind ds h
  | .mk id (some e) :: ds, h =>
    have h := List.forall_mem_append.mp h
    (core o).bind ((phrases o call).plain e h.1) fun v =>
      (core o).bind (declareName kind id.name (some v)) fun _ => declaratorAll call kind ds h.2

end

end Secludes

end Eval

/-! ### Strict code for `eval` -/

open Eval

variable {o : Store} {p : Program}

def Context.Enclosed (n : Nat) (c : Context) (g : ObjectId) : Prop :=
  c.Secluded n g ∧ c.varChain = c.lexical

theorem Stmt.upholds_execBody (call : Invoke) {body : List Stmt} (hb : ∀ x ∈ Stmt.allParts body, x.Inward) :
    Upholds (Context.Enclosed o.scopes.size) o.Secludes (Stmt.execBody call body) := by
  have hdeclare : Upholds (Context.Enclosed o.scopes.size) o.Secludes (Stmt.declareAll body) := by
    refine Leads.read_bind fun s hs => ?_
    split
    next scope _ hscope =>
      have hid := hs.1.2 scope (by simp [← hs.2, hscope])
      exact Leads.mono (Secludes.declareBody hid body) fun _ _ h => h.1
    next => exact (Store.Secludes.core o _).pure ()
  exact hdeclare.bind fun _ => Leads.mono (Secludes.stmtAll call none body hb) fun _ _ h => h.1

theorem Program.upholds_run (call : Invoke) (hp : ∀ x ∈ Stmt.allParts p.body, x.Inward) :
    Upholds (Context.Enclosed o.scopes.size) o.Secludes (p.run call) := by
  have L := Store.Secludes.core o (Context.Enclosed o.scopes.size)
  refine L.observe (Stmt.upholds_execBody call hp) fun r _ => ?_
  obtain f | (v | v) := r
  · exact L.settle _
  · exact L.pure _
  · exact L.pure _

def Program.StrictIn (p : Program) (direct : Bool) (c : Context) (_ : ObjectId) : Prop :=
  p.strict = true ∨ direct = true ∧ c.strict = true

/-- The code declares in the new scope, and in none that was there before. -/
theorem Eval.upholds_inEval (call : Invoke) (direct : Bool) (filename : String)
    (hp : ∀ x ∈ Stmt.allParts p.body, x.Inward) :
    Upholds (p.StrictIn direct) o.Secludes (inEval p.strict direct filename (p.run call)) := by
  intro s hs h
  have hstrict : (p.strict || (direct && s.current.strict)) = true := by
    obtain hs | ⟨hd, hs⟩ := hs <;> simp [*]
  exact Leads.inContext (s := { s with store := (s.store.newScope {}).1 })
    (Program.upholds_run call hp)
    ⟨⟨hstrict, by rintro _ ⟨⟩; exact h.size_le_newScope⟩, if_pos hstrict⟩ h.newScope

theorem Builtin.upholds_evalFragment (call : Invoke) (direct : Bool) (filename : String)
    (hp : ∀ x ∈ Stmt.allParts p.body, x.Inward) :
    Upholds (p.StrictIn direct) o.Secludes (evalFragment call p.fragment direct filename) := by
  have L := Store.Secludes.core o (p.StrictIn direct)
  refine L.bind (L.read _) fun exceeded => ?_
  split
  · exact L.route _ _
  · have h := L.bind (upholds_inEval call direct filename hp) fun c => L.evalResult c
    simp only [inEval, bind_assoc] at h
    exact h

/-- Strict code that is given to `eval`, directly or not, calls nothing and writes to no property of an
object: then, however it ends, every scope that was there before binds exactly the same names, and every
object has exactly the same properties. -/
theorem strict_eval_keeps_declarations [Platform] (host : Host) (contexts : Nat) {callee receiver : Value}
    {source : String} {args : List Value} {options : CallOptions} {p : Program} {s t : Session}
    {r : Outcome Value} (hplain : s.store.Plain)
    (hp : ∀ x ∈ Stmt.allParts p.body, x.isCall = false ∧ x.isMemberAssignment = false)
    (hstrict : p.strict = true ∨ options.direct = true ∧ s.current.strict = true)
    (hread : host.read source (options.filename.getD s.current.filename) = .ok p.fragment)
    (hcallee : s.heap.callable? callee = some (.builtin .eval))
    (hrun : invoke host (contexts + 1) callee receiver (.string source :: args) options s = (r, t)) :
    (∀ id : ScopeId, id.index < s.store.scopes.size →
        (t.store.scope id).bindings.keys = (s.store.scope id).bindings.keys ∧
          ∀ name, t.store.hasOwn id name = s.store.hasOwn id name) ∧
      ∀ id : ObjectId, id.index < s.heap.size →
        (t.heap.record id).keys = (s.heap.record id).keys := by
  have L := Store.Secludes.core s.store (p.StrictIn options.direct)
  let body := Builtin.evalFragment (invoke host contexts) p.fragment options.direct
    (options.filename.getD s.current.filename)
  have hguarded := @Paired.guarded _ _ L.paired receiver (.string source :: args) body body
    (Builtin.upholds_evalFragment _ _ _ hp)
  have hkept : s.store.Secludes t.store := by
    have h := (hguarded s hstrict (.refl hplain)).2
    rw [invoke_eval contexts hcallee hread] at hrun
    rwa [hrun] at h
  exact ⟨fun id hid => ⟨hkept.names id hid, hkept.hasOwn hplain hid⟩, hkept.keys⟩

/-- A strict program that declares names and assigns to them. -/
def Program.declaring : String :=
  "'use strict'; function f() \x7b\x7d if (e.name) \x7b var x = null \x7d " ++
    "try \x7b let y = e; w = y \x7d catch (z) \x7b e = z \x7d throw e"

theorem Session.plain_accusing (name message : Value) : (accusing name message).store.Plain := by
  rintro ⟨_ | i⟩ object ho
  · cases ho
    exact ⟨Nat.zero_lt_succ 3, by rintro ⟨⟩⟩
  · cases ho

/-- The code declares a function, a variable in code that is skipped and a name in a block, assigns to a name
that nothing binds, and throws; the global scope has none of the names afterwards. -/
theorem strict_eval_keeps_declarations_throwing :
    ∃ r t, invoke .standard 1 (.object ⟨1⟩) .undefined [.string Program.declaring] {}
        (.accusing .unknown .null) = (r, t) ∧
      (t.heap.record ⟨0⟩).keys = ["eval", "e"] ∧
      ["f", "x", "y", "w", "z"].map (t.store.hasOwn ⟨0⟩) = [false, false, false, false, false] := by
  obtain ⟨hok, hstrict, hparts⟩ : (Program.parse Program.declaring).isOk = true ∧
      (Program.ofText Program.declaring).strict = true ∧
      ∀ x ∈ Stmt.allParts (Program.ofText Program.declaring).body,
        x.isCall = false ∧ x.isMemberAssignment = false := by decide +kernel
  cases hrun : invoke .standard 1 (.object ⟨1⟩) .undefined [.string Program.declaring] {}
    (.accusing .unknown .null) with
  | mk r t =>
    obtain ⟨hnames, hkeys⟩ := strict_eval_keeps_declarations .standard 0
      (Session.plain_accusing .unknown .null) (p := .ofText Program.declaring) hparts (.inl hstrict)
      (Host.read_ofText hok _) rfl hrun
    have hown := funext (hnames ⟨0⟩ (by decide)).2
    refine ⟨r, t, rfl, (hkeys ⟨0⟩ (by decide)).trans rfl, ?_⟩
    rw [hown]
    rfl

end Surmise
