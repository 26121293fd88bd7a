import Surmise.Proofs.Locals.Meaning

/-! The evaluator does with local code what `compute` says. The variables are bound in the scope of the
call; the scopes of blocks inside it bind nothing. -/
namespace Surmise

open Eval (run_bind run_read_bind run_onStore)

namespace Store

variable {inner : Chain} {scope : ScopeId} {names : List String} {l : Locals} {st : Store} {name : String}

/-- The variables have these values in the scope of the call, and the scopes inside it are empty. -/
structure Holds (inner : Chain) (scope : ScopeId) (names : List String) (l : Locals) (st : Store) :
    Prop where
  inner : ∀ id ∈ inner, ∀ name, st.ownSlot? id name = none
  size : scope.index < st.scopes.size
  binding : ∀ name ∈ names, st.binding? scope name = some ⟨l name, true⟩

theorem ownSlot?_of_scope {s t : Store} {id : ScopeId} (hs : t.scope id = s.scope id)
    (hh : t.heap = s.heap) (name : String) : t.ownSlot? id name = s.ownSlot? id name := by
  simp only [ownSlot?, binding?, hs, hh]

section

variable (h : st.Holds inner scope names l)
include h

theorem Holds.ownSlot (hn : name ∈ names) : st.ownSlot? scope name = some (l name, true) := by
  simp [ownSlot?, h.binding name hn]

omit h in
theorem Holds.tail {id : ScopeId} (h : st.Holds (id :: inner) scope names l) :
    st.Holds inner scope names l :=
  ⟨fun j hj => h.inner j (.tail _ hj), h.size, h.binding⟩

theorem Holds.lookup (outer : Chain) (hn : name ∈ names) :
    st.lookup (inner ++ scope :: outer) name = some (l name) := by
  rw [lookup_eq]
  induction inner with
  | nil => simp [slot?, h.ownSlot hn]
  | cons id inner ih =>
    have hid := h.inner id (.head _) name
    simp [slot?, hid, ih h.tail]

theorem Holds.assign_eq (outer : Chain) (hn : name ∈ names) (v : Value) :
    st.assign (inner ++ scope :: outer) name v = (st.bind scope name ⟨v, true⟩, .done) := by
  induction inner with
  | nil => simp [Store.assign, assignOwn?_eq, h.binding name hn]
  | cons id inner ih =>
    have hid := h.inner id (.head _) name
    rw [List.cons_append, assign_cons_of_none hid, ih h.tail]

theorem Holds.set (hn : name ∈ names) (v : Value) :
    (st.bind scope name ⟨v, true⟩).Holds inner scope names (l.set name v) where
  inner id hid n := by
    have hne : ¬(scope = id ∧ scope.index < st.scopes.size) := by
      rintro ⟨rfl, -⟩
      have := h.inner scope hid name
      simp [h.ownSlot hn] at this
    have hs : (st.bind scope name ⟨v, true⟩).scope id = st.scope id := by
      rw [scope_bind, if_neg hne]
    rw [ownSlot?_of_scope hs rfl]
    exact h.inner id hid n
  size := by simpa using h.size
  binding n hm := by
    have hold := h.binding n hm
    by_cases he : name = n
    · simp [binding?, scope_bind, h.size, Dict.get?_insert, Locals.set, he]
    · simpa [binding?, scope_bind, h.size, Dict.get?_insert, Locals.set, he, Ne.symm he] using hold

theorem Holds.congr {l' : Locals}
    (hl : ∀ name ∈ names, l' name = l name) : st.Holds inner scope names l' :=
  ⟨h.inner, h.size, fun name hn => by rw [hl name hn]; exact h.binding name hn⟩

theorem Holds.newScope :
    (st.newScope {}).1.Holds (⟨st.scopes.size⟩ :: inner) scope names l where
  inner id hid name := by
    by_cases hi : id.index = st.scopes.size
    · have hs : (st.newScope {}).1.scope id = {} := by rw [scope_newScope, if_pos hi]
      rw [ownSlot?, binding?, hs]
      rfl
    · have hs : (st.newScope {}).1.scope id = st.scope id := by rw [scope_newScope, if_neg hi]
      rw [ownSlot?_of_scope hs rfl]
      rcases List.mem_cons.1 hid with rfl | hid
      · exact absurd rfl hi
      · exact h.inner id hid name
  size := by
    have := h.size
    simp
    omega
  binding name hn := by
    have hlt := h.size
    have hold := h.binding name hn
    have hne : scope.index ≠ st.scopes.size := by omega
    simpa [binding?, scope_newScope, hne] using hold

end

theorem Holds.forgetNames (outer : Chain) {ns : List String} (hns : ns ⊆ names)
    (h : st.Holds inner scope names l) :
    (st.forgetNames (inner ++ scope :: outer) ns).Holds inner scope names (l.forget ns) ∧
      (st.forgetNames (inner ++ scope :: outer) ns).heap = st.heap := by
  induction ns generalizing st l with
  | nil => exact ⟨h.congr fun name _ => by simp [Locals.forget], rfl⟩
  | cons n ns ih =>
    have hn : n ∈ names := hns (.head _)
    have hset := h.set hn .unknown
    have hstep : st.forgetNames (inner ++ scope :: outer) (n :: ns) =
        (st.bind scope n ⟨.unknown, true⟩).forgetNames (inner ++ scope :: outer) ns := by
      simp [Store.forgetNames, forgetName, h.assign_eq outer hn]
    obtain ⟨hrest, hheap⟩ := ih (fun m hm => hns (.tail _ hm)) hset
    rw [hstep]
    refine ⟨hrest.congr fun name _ => ?_, hheap⟩
    by_cases he : name = n <;> by_cases hm : name ∈ ns <;> simp [Locals.forget, Locals.set, he, hm]

end Store

namespace Locals

variable {α β γ δ : Type} {scope : ScopeId} {outer : Chain} {names : List String} {h : Heap} {name : String}

/-- In the scope of the call, and in scopes of blocks inside it, the evaluation comes to a result related
to that of the computation, and the variables have the values that it leaves. -/
def Does (scope : ScopeId) (outer : Chain) (names : List String) (h : Heap) (R : α → β → Prop)
    (m : Eval α) (g : StateM Locals β) : Prop :=
  ∀ (inner : Chain) (s : Session) (l : Locals), s.current.lexical = inner ++ scope :: outer →
    s.heap = h → s.store.Holds inner scope names l →
    ∃ a s', m s = (.done a, s') ∧ R a (g l).1 ∧ s'.frame = s.frame ∧ s'.heap = h ∧
      s'.store.Holds inner scope names (g l).2

variable {R : α → β → Prop} {S : γ → δ → Prop}

theorem Does.pure {a : α} {b : β} (hab : R a b) :
    Does scope outer names h R (Pure.pure a) (Pure.pure b) :=
  fun _ s _ _ hh hl => ⟨a, s, rfl, hab, rfl, hh, hl⟩

theorem Does.bind {m : Eval α} {g : StateM Locals β} {f : α → Eval γ} {k : β → StateM Locals δ}
    (hm : Does scope outer names h R m g)
    (hf : ∀ a b, R a b → Does scope outer names h S (f a) (k b)) :
    Does scope outer names h S (m >>= f) (g >>= k) := by
  intro inner s l hlex hh hl
  obtain ⟨a, s₁, hrun, hab, hfr, hh₁, hl₁⟩ := hm inner s l hlex hh hl
  have hlex₁ : s₁.current.lexical = inner ++ scope :: outer := by
    rw [Session.current_of_frame hfr]
    exact hlex
  obtain ⟨c, s₂, hrun₂, hcd, hfr₂, hh₂, hl₂⟩ := hf a _ hab inner s₁ _ hlex₁ hh₁ hl₁
  exact ⟨c, s₂, (run_bind hrun).trans hrun₂, hcd, hfr₂.trans hfr, hh₂, hl₂⟩

theorem Does.onHeap (f : Heap → α) :
    Does scope outer names h Eq (Eval.onHeap f) (Pure.pure (f h)) := by
  intro inner s l _ hh hl
  exact ⟨f s.heap, s, rfl, by rw [hh]; rfl, rfl, hh, hl⟩

theorem Does.resolve (hn : name ∈ names) :
    Does scope outer names h Eq (Eval.resolve name) (do return (← get) name) := by
  intro inner s l hlex hh hl
  have hlook := hl.lookup outer hn
  refine ⟨l name, s, ?_, rfl, rfl, hh, hl⟩
  unfold Eval.resolve
  rw [run_read_bind, hlex, hlook]
  rfl

theorem Does.resolve_bind (hn : name ∈ names) {k : Value → Eval γ} {g : Value → StateM Locals δ}
    (hk : ∀ v, Does scope outer names h S (k v) (g v)) :
    Does scope outer names h S (Eval.resolve name >>= k) (do g ((← get) name)) := by
  have hread : Does scope outer names h Eq (Eval.resolve name) (do return (← get) name) := .resolve hn
  have hbind := hread.bind (S := S) (f := k) (k := g) (by rintro v _ rfl; exact hk v)
  exact hbind

theorem Does.typeofName (hn : name ∈ names) :
    Does scope outer names h Eq (Eval.typeofName name)
      (do return h.unary .typeof ((← get) name)) := by
  intro inner s l hlex hh hl
  have hlook := hl.lookup outer hn
  refine ⟨.ofString? (s.heap.typeof? (l name)), s, ?_, by rw [hh]; rfl, rfl, hh, hl⟩
  simp only [Eval.typeofName, Eval.read, hlex, hlook]

theorem Does.assignName (hn : name ∈ names) (v : Value) :
    Does scope outer names h (fun _ _ => True) (Eval.assignName name v)
      (modify fun l => l.set name v) := by
  intro inner s l hlex hh hl
  refine ⟨(), { s with store := s.store.bind scope name ⟨v, true⟩ }, ?_, trivial, rfl, hh,
    hl.set hn v⟩
  have hassign := hl.assign_eq outer hn v
  unfold Eval.assignName
  rw [show Eval.current = Eval.read Session.current from rfl, run_read_bind, hlex]
  refine (run_bind (run_onStore _ s)).trans ?_
  rw [hassign]
  rfl

def Forgets (names : List String) (chain : Chain) (ns : List String) (f : Store → Store) : Prop :=
  Store.ForgetsNames chain ns f ∧ ns ⊆ names

theorem Forgets.comp {chain : Chain} {ns ms : List String} {f g : Store → Store}
    (hf : Forgets names chain ns f) (hg : Forgets names chain ms g) :
    Forgets names chain (ns ++ ms) fun st => g (f st) :=
  ⟨hf.1.comp hg.1, List.append_subset.mpr ⟨hf.2, hg.2⟩⟩

theorem Does.skip {widen : Chain → Store → Store} {ns : List String}
    (hw : ∀ chain, Forgets names chain ns (widen chain)) :
    Does scope outer names h (fun _ _ => True) (Eval.skip widen) (modify fun l => l.forget ns) := by
  intro inner s l hlex hh hl
  obtain ⟨hforget, hns⟩ := hw (inner ++ scope :: outer)
  obtain ⟨hl', hheap⟩ := hl.forgetNames outer hns
  have hst : widen (inner ++ scope :: outer) s.store = _ := hforget s.store
  refine ⟨(), { s with store := widen (inner ++ scope :: outer) s.store }, ?_, trivial, rfl, ?_, ?_⟩
  · unfold Eval.skip
    rw [← hlex]
    rfl
  · rw [Session.heap, hst]
    exact hheap.trans hh
  · rw [hst]
    exact hl'

theorem Does.onHeap_bind {f : Heap → α} {k : α → Eval γ} {g : StateM Locals δ}
    (hk : Does scope outer names h S (k (f h)) g) :
    Does scope outer names h S (Eval.onHeap f >>= k) g := by
  intro inner s l hlex hh hl
  subst hh
  exact hk inner s l hlex rfl hl

/-- Entering a block without functions changes nothing about what is computed. -/
theorem Does.inBlock {body : List Stmt} (hb : Stmt.functions body = []) {run : Eval Flow}
    {R : Flow → β → Prop} {g : StateM Locals β} (hr : Does scope outer names h R run g) :
    Does scope outer names h R (Eval.inBlock body none run) g := by
  intro inner s l hlex hh hl
  have hframe : ({ s with store := (s.store.newScope {}).1 } : Session).frame = s.frame := rfl
  generalize hs₁ : ({ s with store := (s.store.newScope {}).1 } : Session) = s₁ at hframe
  have hst₁ : s₁.store = (s.store.newScope {}).1 := by rw [← hs₁]
  have hcur : s₁.current.lexical = inner ++ scope :: outer := by
    rw [Session.current_of_frame hframe]
    exact hlex
  obtain ⟨a, s₂, hrun, ha, hfr, hh₂, hl₂⟩ := hr (⟨s.store.scopes.size⟩ :: inner)
    (s₁.setLexical (⟨s.store.scopes.size⟩ :: (inner ++ scope :: outer))) l
    (Session.lexical_setLexical _ _)
    (by rw [Session.heap, Session.store_setLexical, hst₁]; exact hh)
    (by rw [Session.store_setLexical, hst₁]; exact hl.newScope)
  refine ⟨a, s₂.setLexical s₁.current.lexical, ?_, ha,
    (Session.frame_setLexical _ _ _ hfr).trans hframe, ?_, ?_⟩
  · unfold Eval.inBlock Eval.declareBlock
    rw [show Eval.current = Eval.read Session.current from rfl, run_read_bind, hlex, hb]
    refine (run_bind (run_onStore _ s)).trans ?_
    change Eval.inScopes _ run _ = _
    rw [hs₁, Eval.inScopes]
    simp only
    rw [show (Store.newScope {} s.store).2 = ⟨s.store.scopes.size⟩ from rfl, hrun]
  · rw [Session.heap, Session.store_setLexical]
    exact hh₂
  · rw [Session.store_setLexical]
    exact hl₂.tail

end Locals

open Locals

/-! ### Local code writes to its own variables only -/

theorem Expr.straight_of_isLocal {names : List String} (e : Expr) :
    e.isLocal names = true → e.straight = true ∧ e.targets ⊆ names := by
  apply Expr.isLocal.induct (fun e => e.isLocal names = true → e.straight = true ∧ e.targets ⊆ names)
    fun es => Expr.allLocal names es = true → Expr.allStraight es = true ∧ Expr.allTargets es ⊆ names
  all_goals simp +contextual [Expr.isLocal, Expr.allLocal, Expr.straight, Expr.allStraight, Expr.targets,
    Expr.allTargets]

variable {names : List String}

theorem Declarator.straight_of_isLocal (d : Declarator) (hd : d.isLocal names = true) :
    d.straight = true ∧ d.targets .variable ⊆ names := by
  obtain ⟨id, init⟩ := d
  simp only [Declarator.isLocal, Bool.and_eq_true, decide_eq_true_eq] at hd
  cases init with
  | none => exact ⟨rfl, List.nil_subset _⟩
  | some e =>
    obtain ⟨he, hs⟩ := e.straight_of_isLocal hd.2
    exact ⟨he, by simp [Declarator.targets, hs, hd.1]⟩

theorem Expr.widen_local (chain : Chain) (e : Expr) (he : e.isLocal names = true) :
    Forgets names chain e.targets (e.widen chain) :=
  (e.straight_of_isLocal he).imp_left (e.widen_eq chain)

theorem Declarator.widen_local (chain : Chain) (ds : List Declarator)
    (hds : ds.all (Declarator.isLocal names) = true) :
    Forgets names chain (ds.flatMap (Declarator.targets .variable))
      (Declarator.widenAll chain .variable ds) := by
  rw [List.all_eq_true] at hds
  constructor
  · refine Declarator.widenAll_eq chain .variable ds (List.all_eq_true.2 fun d hd => ?_)
    exact (d.straight_of_isLocal (hds d hd)).1
  · intro n hn
    obtain ⟨d, hd, hn⟩ := List.mem_flatMap.1 hn
    exact (d.straight_of_isLocal (hds d hd)).2 hn

mutual

theorem Stmt.widen_local {names : List String} (chain : Chain) :
    ∀ t : Stmt, t.isLocal names = true → Forgets names chain t.targets (t.widen chain)
  | .block body, ht => Stmt.widenAll_local chain body ht
  | .empty, _ | .ret none, _ => ⟨.nil, List.nil_subset _⟩
  | .expression e, ht | .ret (some e), ht => e.widen_local chain ht
  | .declare kind ds, ht => by
    simp only [Stmt.isLocal, Bool.and_eq_true, decide_eq_true_eq] at ht
    obtain ⟨rfl, hds⟩ := ht
    exact Declarator.widen_local chain ds hds
  | .branch test c none, ht =>
    have ht := Bool.and_eq_true_iff.mp ht
    (test.widen_local chain ht.1).comp (Stmt.widen_local chain c ht.2)
  | .branch test c (some a), ht =>
    have ht := Bool.and_eq_true_iff.mp ht
    have ht' := Bool.and_eq_true_iff.mp ht.1
    ((test.widen_local chain ht'.1).comp (Stmt.widen_local chain c ht'.2)).comp
      (Stmt.widen_local chain a ht.2)

theorem Stmt.widenAll_local {names : List String} (chain : Chain) : ∀ ts : List Stmt,
    Stmt.allLocal names ts = true → Forgets names chain (Stmt.allTargets ts) (Stmt.widenAll chain ts)
  | [], _ => ⟨.nil, List.nil_subset _⟩
  | t :: ts, ht =>
    have ht := Bool.and_eq_true_iff.mp ht
    (Stmt.widen_local chain t ht.1).comp (Stmt.widenAll_local chain ts ht.2)

end

theorem Stmt.functions_local {body : List Stmt} (hb : Stmt.allLocal names body = true) :
    Stmt.functions body = [] := by
  induction body with
  | nil => rfl
  | cons t ts ih =>
    simp only [Stmt.allLocal, Bool.and_eq_true] at hb
    have hts := ih hb.2
    cases t with
    | function f => simp [Stmt.isLocal] at hb
    | _ => simpa [Stmt.functions] using hts

/-! ### Evaluation agrees with the computation -/

section Agreement

variable {scope : ScopeId} {outer : Chain} {names : List String} {h : Heap} {call : Invoke}

mutual

/-- Local expressions do what they compute. -/
theorem Expr.does : ∀ e : Expr, e.isLocal names = true →
    Does scope outer names h Eq (e.eval call) (e.compute h)
  | .identifier id, he => .resolve (by simpa [Expr.isLocal] using he)
  | .literal l, _ => .pure rfl
  | .unary op e, he => by
    unfold Expr.eval
    split
    next id => exact .typeofName (by simpa [Expr.isLocal] using he)
    next =>
      refine .bind (Expr.does e he) ?_
      rintro v _ rfl
      exact .onHeap fun h => h.unary op v
  | .binary op l r, he => by
    simp only [Expr.isLocal, Bool.and_eq_true] at he
    refine .bind (Expr.does l he.1) ?_
    rintro a _ rfl
    refine .bind (Expr.does r he.2) ?_
    rintro b _ rfl
    exact .onHeap fun h => h.binary op a b
  | .logical op l r, he => by
    simp only [Expr.isLocal, Bool.and_eq_true] at he
    have hskip : Does scope outer names h Eq
        (do Eval.skip fun chain st => r.widen chain st; return Value.unknown)
        (do modify fun l => l.forget r.targets; return Value.unknown) :=
      .bind (.skip fun chain => r.widen_local chain he.2) fun _ _ _ => .pure rfl
    refine .bind (Expr.does l he.1) ?_
    rintro a _ rfl
    rcases op with _ | _ <;> rcases a.truth? with _ | _ | _
    · exact hskip
    · exact .pure rfl
    · exact Expr.does r he.2
    · exact hskip
    · exact Expr.does r he.2
    · exact .pure rfl
  | .conditional test c a, he => by
    simp only [Expr.isLocal, Bool.and_eq_true] at he
    refine .bind (Expr.does test he.1.1) ?_
    rintro v _ rfl
    rcases v.truth? with _ | _ | _
    · exact .bind (.skip fun chain => (c.widen_local chain he.1.2).comp (a.widen_local chain he.2))
        fun _ _ _ => .pure rfl
    · exact Expr.does a he.2
    · exact Expr.does c he.1.2
  | .assign .assign (.name id) value, he => by
    simp only [Expr.isLocal, Bool.and_eq_true, decide_eq_true_eq] at he
    refine .bind (Expr.does value he.2) ?_
    rintro v _ rfl
    exact .bind (.assignName he.1 v) fun _ _ _ => .pure rfl
  | .assign (.compound op) (.name id) value, he => by
    simp only [Expr.isLocal, Bool.and_eq_true, decide_eq_true_eq] at he
    rw [Expr.eval, Expr.compute]
    refine .resolve_bind (g := fun old => do
      let new ← value.compute h
      modify fun l => l.set id.name (h.binary op old new)
      return h.binary op old new) he.1 fun old => ?_
    refine .bind (Expr.does value he.2) ?_
    rintro new _ rfl
    exact .onHeap_bind (.bind (.assignName he.1 _) fun _ _ _ => .pure rfl)
  | .sequence es, he => by
    refine .bind (Expr.doesAll es he) ?_
    rintro vs _ rfl
    exact .pure rfl

theorem Expr.doesAll : ∀ es : List Expr, Expr.allLocal names es = true →
    Does scope outer names h Eq (Expr.evalAll call es) (Expr.computeAll h es)
  | [], _ => .pure rfl
  | e :: es, he => by
    simp only [Expr.allLocal, Bool.and_eq_true] at he
    refine .bind (Expr.does e he.1) ?_
    rintro v _ rfl
    refine .bind (Expr.doesAll es he.2) ?_
    rintro vs _ rfl
    exact .pure rfl

end

theorem Declarator.doesAll : ∀ ds : List Declarator, ds.all (Declarator.isLocal names) = true →
    Does scope outer names h (fun _ _ => True) (Declarator.execAll call .variable ds)
      (Declarator.computeAll h ds)
  | [], _ => .pure trivial
  | .mk id none :: ds, hd => by
    simp only [List.all_cons, Bool.and_eq_true] at hd
    exact Declarator.doesAll ds hd.2
  | .mk id (some e) :: ds, hd => by
    simp only [List.all_cons, Declarator.isLocal, Option.all_some, Bool.and_eq_true,
      decide_eq_true_eq] at hd
    refine .bind (Expr.does e hd.1.2) ?_
    rintro v _ rfl
    exact .bind (.assignName hd.1.1 v) fun _ _ _ => Declarator.doesAll ds hd.2

def Flow.returned? : Flow → Option Value
  | normal _ => none
  | returned v => some v

mutual

/-- Local statements do what they compute, and return if the computation does. -/
theorem Stmt.does : ∀ t : Stmt, t.isLocal names = true →
    Does scope outer names h (fun flow r => flow.returned? = r) (t.exec call) (t.compute h)
  | .block body, ht => .inBlock (Stmt.functions_local ht) (Stmt.doesAll none body ht)
  | .empty, _ => .pure rfl
  | .expression e, ht => .bind (Expr.does e ht) fun _ _ _ => .pure rfl
  | .declare kind ds, ht => by
    simp only [Stmt.isLocal, Bool.and_eq_true, decide_eq_true_eq] at ht
    obtain ⟨rfl, hds⟩ := ht
    exact .bind (Declarator.doesAll ds hds) fun _ _ _ => .pure rfl
  | .branch test c none, ht => by
    simp only [Stmt.isLocal, Bool.and_eq_true] at ht
    rw [Stmt.exec, Stmt.compute]
    refine .bind (Expr.does test ht.1) ?_
    rintro v _ rfl
    rcases v.truth? with _ | _ | _
    · refine .bind (.skip fun chain => ?_) fun _ _ _ => .pure rfl
      simpa [Stmt.branchTargets, Stmt.widenBranches] using c.widen_local chain ht.2
    · exact .pure rfl
    · exact Stmt.does c ht.2
  | .branch test c (some a), ht => by
    simp only [Stmt.isLocal, Bool.and_eq_true] at ht
    rw [Stmt.exec, Stmt.compute]
    refine .bind (Expr.does test ht.1.1) ?_
    rintro v _ rfl
    rcases v.truth? with _ | _ | _
    · exact .bind (.skip fun chain => (c.widen_local chain ht.1.2).comp (a.widen_local chain ht.2))
        fun _ _ _ => .pure rfl
    · exact Stmt.does a ht.2
    · exact Stmt.does c ht.1.2
  | .ret none, _ => .pure rfl
  | .ret (some e), ht => by
    refine .bind (Expr.does e (by simpa [Stmt.isLocal] using ht)) ?_
    rintro v _ rfl
    exact .pure rfl

theorem Stmt.doesAll : ∀ (last : Option Value) (ts : List Stmt), Stmt.allLocal names ts = true →
    Does scope outer names h (fun flow r => flow.returned? = r) (Stmt.execAll call last ts)
      (Stmt.computeAll h ts)
  | _, [], _ => .pure rfl
  | last, t :: ts, ht => by
    simp only [Stmt.allLocal, Bool.and_eq_true] at ht
    refine .bind (Stmt.does t ht.1) ?_
    rintro flow _ rfl
    cases flow with
    | normal v => exact Stmt.doesAll _ ts ht.2
    | returned v => exact .pure rfl

end

end Agreement

end Surmise
