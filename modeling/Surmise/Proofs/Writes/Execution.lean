import Surmise.Proofs.Law.Upholding
import Surmise.Proofs.Writes.Watch

/-! Executing code whose writes are known changes a property only if widening the code forgets it. -/
namespace Surmise

namespace Eval

theorem done_bind {α β : Type} {m : Eval α} {f : α → Eval β} {s : Session} {b : β}
    (h : ((m >>= f) s).1 = .done b) : ∃ a t, m s = (.done a, t) ∧ (f a t).1 = .done b := by
  change (Eval.bind m f s).1 = _ at h
  unfold Eval.bind at h
  split at h
  next a t hm => exact ⟨a, t, hm, h⟩
  · cases h
  · cases h

theorem done_route {kind : ErrorKind} {message : String} {s : Session} {v : Value}
    (h : (route kind message s).1 = .done v) : v = .unknown := by
  unfold route at h
  rw [run_read_bind] at h
  split at h
  · cases h
    rfl
  · cases h

end Eval

namespace Watch

open Write (bases bases_subset)

variable {w : Watch} {inner : Chain} {xs ys zs rest : List Write} {α β : Type}

def Within (w : Watch) (inner : Chain) (c : Context) (global : ObjectId) : Prop :=
  c.lexical = inner ++ w.chain ∧ global = w.global

/-- Where the writes of `xs` are still to come, the evaluation does no others than those before `ys`. -/
def Spares (w : Watch) (inner : Chain) (xs ys : List Write) (m : Eval α) : Prop :=
  Eval.Leads (w.Within inner) (w.Spared inner xs) (w.Spared inner ys) m

theorem later {us : List Write} (h : (us ++ rest).Sublist w.writes) : rest.Sublist w.writes :=
  (List.sublist_append_right us rest).trans h

namespace Spares

variable {m : Eval α}

theorem core (w : Watch) (inner : Chain) (rest : List Write) :
    Eval.Core (fun _ => True) (w.Spares inner rest rest) :=
  Eval.Upholds.core fun _ _ h => h.allocate _

theorem mono (hm : w.Spares inner ys rest m) (h : ys ⊆ xs) : w.Spares inner xs rest m :=
  Eval.Leads.imp hm (fun _ h' => h'.mono h) fun _ h' => h'

theorem drop (hm : w.Spares inner xs (ys ++ rest) m) : w.Spares inner xs rest m :=
  Eval.Leads.imp hm (fun _ h => h) fun _ h => h.mono (List.subset_append_right ys rest)

theorem pure (a : α) : w.Spares inner (xs ++ rest) rest (Pure.pure a) :=
  mono ((core w inner rest).pure a) (List.subset_append_right xs rest)

theorem bind_of_subset {f : α → Eval β} (hm : w.Spares inner xs ys m) (hz : zs ⊆ ys)
    (hf : ∀ a, w.Spares inner ys zs (f a)) : w.Spares inner xs zs (m >>= f) :=
  Eval.Leads.bind hm (fun _ h => h.mono hz) hf

theorem bind {f : α → Eval β} (hm : w.Spares inner xs (ys ++ rest) m)
    (hf : ∀ a, w.Spares inner (ys ++ rest) rest (f a)) : w.Spares inner xs rest (m >>= f) :=
  hm.bind_of_subset (List.subset_append_right ys rest) hf

theorem finish {f : α → Eval β} (hm : w.Spares inner xs rest m)
    (hf : ∀ a, w.Spares inner rest rest (f a)) : w.Spares inner xs rest (m >>= f) :=
  hm.bind_of_subset (List.Subset.refl rest) hf

theorem onStore {f : Store → Store × α} (hf : ∀ st, w.Spared inner xs st → w.Spared inner ys (f st).1) :
    w.Spares inner xs ys (Eval.onStore f) :=
  Eval.Leads.onStore hf

/-! ### Names and properties -/

variable {name : String}

theorem assignName (hx : (.name name :: rest).Sublist w.writes) (v : Value) :
    w.Spares inner (.name name :: rest) rest (Eval.assignName name v) := by
  have L := core w inner rest
  rw [Eval.assignName_eq]
  refine Eval.Leads.read_bind fun s hs => ?_
  rw [hs.1]
  refine Eval.Leads.onStore_bind fun st h => ⟨h.assign hx v, L.afterAssignment fun ha _ => ?_⟩
  -- a new property of the global object
  have hallows := h.allows_global hx (Store.slot?_of_unresolved ha)
  refine Eval.Leads.read_bind fun t ht => ?_
  rw [ht.2]
  exact L.bind (onStore fun st' h' => h'.put hallows v) fun _ => L.pure ()

theorem assignMember {object : Value} {key : String}
    (ha : ∀ id, object = .object id → w.Allows rest id key) (v : Value) :
    w.Spares inner rest rest (Eval.assignMember object (some key) v) := by
  have L := core w inner rest
  unfold Eval.assignMember Eval.writeMember
  cases object with
  | object id =>
    refine L.bind (onStore fun st h => h.put (ha id rfl) v) fun ok => L.bind L.current fun c => ?_
    split
    · exact L.routeOnly _ _
    · exact L.pure ()
  | undefined | null => exact L.bind (L.read _) fun h => L.routeOnly _ _
  | boolean _ | number _ | string _ | unknown => exact L.pure ()

theorem skip {widen : Chain → Store → Store} (hx : (xs ++ rest).Sublist w.writes)
    (hw : ∀ chain st, widen chain st = st.forgetWrites chain xs) :
    w.Spares inner (xs ++ rest) rest (Eval.skip widen) := by
  refine Eval.Leads.read_bind fun s hs => ?_
  rw [hs.1]
  refine onStore fun st h => ?_
  dsimp only
  rw [hw]
  exact h.forgetWrites hx

/-! ### Declarations and blocks -/

theorem newFunction (f : Function) (chain : Chain) :
    w.Spares inner rest rest (Eval.newFunction f chain) :=
  fun _ _ h => ⟨rfl, h.allocate _⟩

theorem declare (hn : name ∉ bases rest) (scope : ScopeId) (v : Value) (mutable : Bool) :
    w.Spares inner rest rest (Eval.declare scope name v mutable) :=
  onStore fun _ h => h.bind hn scope _

theorem declareLexical {kind : DeclKind} (hk : kind ≠ .variable) (hn : name ∉ bases rest)
    (v? : Option Value) : w.Spares inner rest rest (Eval.declareName kind name v?) := by
  have L := core w inner rest
  rcases kind with _ | _ | _
  · exact absurd rfl hk
  all_goals
    refine L.bind L.current fun c => ?_
    cases c.lexical with
    | nil => exact L.pure ()
    | cons scope _ => exact declare hn scope _ _

theorem declareBlock {body : List Stmt} (hb : ∀ name ∈ Stmt.allDeclared body, name ∉ bases rest)
    (scope : ScopeId) : w.Spares inner rest rest (Eval.declareBlock scope body) := by
  have L := core w inner rest
  have hfs : ∀ p ∈ Stmt.functions body, p.1 ∉ bases rest := fun p hp =>
    hb p.1 (Stmt.declared_function hp)
  unfold Eval.declareBlock
  generalize Stmt.functions body = fs at hfs
  induction fs with
  | nil => exact L.pure ()
  | cons p fs ih =>
    obtain ⟨hp, hfs⟩ := List.forall_mem_cons.mp hfs
    exact L.bind L.current fun c => L.bind (newFunction p.2 c.lexical) fun v =>
      L.bind (declare hp scope v true) fun _ => ih hfs

theorem inBlock {body : List Stmt} (hb : ∀ name ∈ Stmt.allDeclared body, name ∉ bases xs)
    {binding : Option (String × Value)} (hn : ∀ p ∈ binding, p.1 ∉ bases xs) {run : Eval Flow}
    (hr : ∀ inner, w.Spares inner xs ys run) (hy : ys ⊆ xs) :
    w.Spares inner xs ys (Eval.inBlock body binding run) := by
  intro s hs h
  let scope := (s.store.newScope {}).2
  have hstart : ∃ st, w.Spared (scope :: inner) xs st ∧ Eval.inBlock body binding run s =
      Eval.inScopes (scope :: (inner ++ w.chain)) (do Eval.declareBlock scope body; run)
        { s with store := st } := by
    rw [← hs.1]
    cases binding with
    | none => exact ⟨_, h.newScope, rfl⟩
    | some p => exact ⟨_, h.newScope.bind (hn p rfl) scope ⟨p.2, true⟩, rfl⟩
  obtain ⟨st, hst, hrun⟩ := hstart
  have hblock : w.Spares (scope :: inner) xs ys (do Eval.declareBlock scope body; run) :=
    (declareBlock hb scope).bind_of_subset hy fun _ => hr _
  rw [hrun]
  obtain ⟨hframe, ht⟩ := Eval.Leads.inScopes (s := { s with store := st }) hblock ⟨rfl, hs.2⟩ hst
  exact ⟨hframe, ht.tail⟩

/-- The block, the handler and the finalizer make their writes in this order. -/
theorem attempt {block : Eval Flow} {handler : Option (Value → Eval Flow)}
    {finalizer : Option (Eval Flow)} (hb : w.Spares inner xs (ys ++ (zs ++ rest)) block)
    (hh : ∀ handle ∈ handler, ∀ v, w.Spares inner (ys ++ (zs ++ rest)) (zs ++ rest) (handle v))
    (hf : ∀ finish ∈ finalizer, w.Spares inner (zs ++ rest) rest finish) :
    w.Spares inner xs rest (Eval.attempt block handler finalizer) := by
  have L := core w inner
  have hrethrow (r : Except Fault Flow) :
      w.Spares inner (ys ++ (zs ++ rest)) (ys ++ (zs ++ rest)) (Eval.rethrow r) := by
    unfold Eval.rethrow
    split
    · exact (L _).bind ((L _).raise _ _) fun _ => (L _).pure _
    · exact (L _).pure _
  have hhandle (r : Except Fault Flow) :
      w.Spares inner (ys ++ (zs ++ rest)) (zs ++ rest) (Eval.handleWith handler r) := by
    unfold Eval.handleWith
    split
    · exact Eval.Leads.observe (hh _ rfl _)
    · exact pure _
  have hresume (r : Except Fault Flow) : w.Spares inner rest rest (Eval.resume r) :=
    (L _).resume fun _ _ => trivial
  have htried : w.Spares inner xs (ys ++ (zs ++ rest)) (Eval.observe (Eval.inTry block)) :=
    Eval.Leads.observe (Eval.Leads.inTry hb)
  unfold Eval.attempt
  have hrest := List.subset_append_right zs rest
  have hlater := List.subset_append_of_subset_right ys hrest
  refine htried.bind_of_subset hlater fun r => (hrethrow r).bind_of_subset hlater fun r =>
    (hhandle r).bind_of_subset hrest fun result => ?_
  cases finalizer with
  | none => exact mono (hresume result) hrest
  | some run =>
    refine finish (hf run rfl) fun flow => ?_
    split
    · exact hresume result
    · exact (L _).pure _

end Spares

/-! ### Expressions -/

theorem base_allows (call : Invoke) {base : Identifier} {key : String} {span : Span}
    (hx : (.member base.name key :: rest).Sublist w.writes) {s : Session}
    (hl : s.current.lexical = inner ++ w.chain)
    (h : w.Spared inner (xs ++ .member base.name key :: rest) s.store) {p : Value × Option String}
    (hp : ((Member.dot (.identifier base) key span).eval call s).1 = .done p) :
    p.2 = some key ∧ ∀ id, p.1 = .object id → w.Allows rest id key := by
  obtain ⟨v, t, hv, hp⟩ := Eval.done_bind hp
  cases hp
  refine ⟨rfl, fun id hid => ?_⟩
  have hresolve : (Eval.resolve base.name s).1 = .done v := congrArg Prod.fst hv
  have hmem := mem_bases (List.mem_append_right xs (@List.mem_cons_self _ (.member base.name key) rest))
  unfold Eval.resolve at hresolve
  rw [Eval.run_read_bind, hl, h.lookup hmem] at hresolve
  cases hbase : w.store.lookup w.chain base.name with
  | some v' =>
    rw [hbase] at hresolve
    cases hresolve
    cases hid
    exact allows_of_place hx (by simp [Write.place?, Store.objectNamed?, hbase, Value.asObject?])
  | none =>
    rw [hbase] at hresolve
    cases Eval.done_route hresolve
    cases hid

section Expressions

variable (call : Invoke)

/- The text of the code names all its writes, in the order in which widening forgets them. -/
mutual

/-- A traced expression makes no writes but its own, in their order. -/
theorem spares_expr {inner : Chain} {rest : List Write} :
    ∀ e : Expr, e.traced = true → (e.writes ++ rest).Sublist w.writes →
      w.Spares inner (e.writes ++ rest) rest (e.eval call)
  | .identifier id, _, _ => (Spares.core w inner rest).resolve id.name
  | .literal l, _, _ => .pure l.value
  | .this _, _, _ =>
    have L := Spares.core w inner rest
    L.bind L.current fun c => L.pure _
  | .array elements, ht, hw =>
    .finish (spares_elements elements ht hw) fun vs =>
      (Spares.core w inner rest).newObject (Record.data_elements vs)
  | .object entries, ht, hw =>
    .finish (spares_entries entries ht hw) fun vs =>
      (Spares.core w inner rest).newObject (Record.data_entries vs)
  | .member m, ht, hw =>
    .finish (spares_member m ht hw) fun p => (Spares.core w inner rest).readMember p.1 p.2
  | .unary op e, ht, hw => by
    have L := Spares.core w inner
    unfold Expr.eval
    split
    · exact (L _).typeofName _
    · exact .finish (spares_expr e ht hw) fun _ => (L _).onHeap _
  | .binary op l r, ht, hw => by
    rw [Expr.traced, Bool.and_eq_true] at ht
    rw [Expr.writes, List.append_assoc] at hw ⊢
    exact .bind (spares_expr l ht.1 hw) fun a =>
      .finish (spares_expr r ht.2 (later hw)) fun _ => (Spares.core w inner rest).onHeap _
  | .logical op l r, ht, hw => by
    have L := Spares.core w inner rest
    rw [Expr.traced, Bool.and_eq_true] at ht
    rw [Expr.writes, List.append_assoc] at hw ⊢
    refine .bind (spares_expr l ht.1 hw) fun a => ?_
    split
    · exact .finish (.skip (later hw) fun chain => r.widen_traced chain ht.2) fun _ => L.pure _
    · exact .pure a
    · exact .pure a
    · exact spares_expr r ht.2 (later hw)
  | .conditional test c a, ht, hw => by
    rw [Expr.traced, Bool.and_eq_true, Bool.and_eq_true] at ht
    rw [Expr.writes, List.append_assoc, List.append_assoc] at hw ⊢
    have hrest := List.subset_append_right a.writes rest
    refine (spares_expr test ht.1.1 hw).bind_of_subset
      (List.subset_append_of_subset_right c.writes hrest) fun v => ?_
    split
    · exact .drop (spares_expr c ht.1.2 (later hw))
    · exact .mono (spares_expr a ht.2 (later (later hw))) (List.subset_append_right c.writes _)
    · have hskip := later hw
      rw [← List.append_assoc] at hskip ⊢
      exact .finish (.skip hskip fun chain =>
        (c.widen_traced chain ht.1.2).comp (a.widen_traced chain ht.2)) fun _ =>
          (Spares.core w inner rest).pure _
  | .assign op (.name id) value, ht, hw => by
    have L := Spares.core w inner
    rw [Expr.traced, Bool.and_eq_true] at ht
    rw [Expr.writes, List.append_assoc] at hw ⊢
    have hassign (v : Value) : w.Spares inner (.name id.name :: rest) rest
        (do Eval.assignName id.name v; return v) :=
      .finish (.assignName (later hw) v) fun _ => (L _).pure v
    cases op with
    | assign => exact .bind (spares_expr value ht.2 hw) hassign
    | compound op =>
      have hrest := List.subset_append_of_subset_right value.writes
        (List.subset_cons_self (Write.name id.name) rest)
      exact .bind_of_subset ((L _).resolve id.name) hrest fun old =>
        .bind (spares_expr value ht.2 hw) fun new => .bind ((L _).onHeap _) hassign
  | .assign op (.member (.dot (.identifier base) key span)) value, ht, hw => by
    have L := Spares.core w inner
    rw [Expr.traced, Bool.and_eq_true] at ht
    rw [Expr.writes, List.append_assoc] at hw ⊢
    have hx : (.member base.name key :: rest).Sublist w.writes := (later hw)
    let before := value.writes ++ .member base.name key :: rest
    have hm : w.Spares inner before before ((Member.dot (.identifier base) key span).eval call) :=
      (L _).bind ((L _).resolve base.name) fun _ => (L _).pure _
    have hbefore : ∀ st, w.Spared inner before st → w.Spared inner rest st := fun st h =>
      h.mono (List.subset_append_of_subset_right _ (List.subset_cons_self _ _))
    have hassign {object : Value} (ha : ∀ id, object = .object id → w.Allows rest id key) (v : Value) :
        w.Spares inner (.member base.name key :: rest) rest
          (do Eval.assignMember object (some key) v; return v) :=
      .mono ((L _).bind (.assignMember ha v) fun _ => (L _).pure v) (List.subset_cons_self _ _)
    cases op with
    | assign =>
      refine Eval.Leads.bind_of _ hm hbefore (fun s p hs h hp => base_allows call hx hs.1 h hp)
        fun p hp => ?_
      obtain ⟨object, key?⟩ := p
      obtain ⟨rfl, ha⟩ := hp
      exact Spares.bind (spares_expr value ht.2 hw) (hassign ha)
    | compound op =>
      refine Eval.Leads.bind_of _ hm hbefore (fun s p hs h hp => base_allows call hx hs.1 h hp)
        fun p hp => ?_
      obtain ⟨object, key?⟩ := p
      obtain ⟨rfl, ha⟩ := hp
      exact Eval.Leads.bind ((L before).readMember _ _) hbefore fun old =>
        Spares.bind (spares_expr value ht.2 hw) fun new => .bind ((L _).onHeap _) (hassign ha)
  | .sequence es, ht, hw =>
    .finish (spares_exprs es ht hw) fun _ => (Spares.core w inner rest).pure _

theorem spares_exprs {inner : Chain} {rest : List Write} :
    ∀ es : List Expr, Expr.allTraced es = true → (Expr.allWrites es ++ rest).Sublist w.writes →
      w.Spares inner (Expr.allWrites es ++ rest) rest (Expr.evalAll call es)
  | [], _, _ => .pure []
  | e :: es, ht, hw => by
    rw [Expr.allTraced, Bool.and_eq_true] at ht
    rw [Expr.allWrites, List.append_assoc] at hw ⊢
    exact .bind (spares_expr e ht.1 hw) fun v =>
      .finish (spares_exprs es ht.2 (later hw)) fun _ => (Spares.core w inner rest).pure _

theorem spares_elements {inner : Chain} {rest : List Write} :
    ∀ es : List Element, Element.allTraced es = true →
      (Element.allWrites es ++ rest).Sublist w.writes →
      w.Spares inner (Element.allWrites es ++ rest) rest (Element.evalAll call es)
  | [], _, _ => .pure []
  | .hole :: es, ht, hw =>
    .finish (spares_elements es ht hw) fun _ => (Spares.core w inner rest).pure _
  | .item e :: es, ht, hw => by
    rw [Element.allTraced, Bool.and_eq_true] at ht
    rw [Element.allWrites, List.append_assoc] at hw ⊢
    exact .bind (spares_expr e ht.1 hw) fun v =>
      .finish (spares_elements es ht.2 (later hw)) fun _ => (Spares.core w inner rest).pure _

theorem spares_entries {inner : Chain} {rest : List Write} :
    ∀ es : List Entry, Entry.allTraced es = true → (Entry.allWrites es ++ rest).Sublist w.writes →
      w.Spares inner (Entry.allWrites es ++ rest) rest (Entry.evalAll call es)
  | [], _, _ => .pure []
  | .mk key e :: es, ht, hw => by
    rw [Entry.allTraced, Bool.and_eq_true] at ht
    rw [Entry.allWrites, List.append_assoc] at hw ⊢
    exact .bind (spares_expr e ht.1 hw) fun v =>
      .finish (spares_entries es ht.2 (later hw)) fun _ => (Spares.core w inner rest).pure _

theorem spares_member {inner : Chain} {rest : List Write} :
    ∀ m : Member, m.traced = true → (m.writes ++ rest).Sublist w.writes →
      w.Spares inner (m.writes ++ rest) rest (m.eval call)
  | .dot object name _, ht, hw =>
    .finish (spares_expr object ht hw) fun _ => (Spares.core w inner rest).pure _
  | .index object key _, ht, hw => by
    have L := Spares.core w inner rest
    rw [Member.traced, Bool.and_eq_true] at ht
    rw [Member.writes, List.append_assoc] at hw ⊢
    exact .bind (spares_expr object ht.1 hw) fun v =>
      .finish (spares_expr key ht.2 (later hw)) fun k => L.bind (L.onHeap _) fun _ => L.pure _

end

/-! ### Statements -/

theorem spares_block {body : List Stmt} {binding : Option (String × Value)} {run : Eval Flow}
    (hw : (xs ++ rest).Sublist w.writes)
    (hd : ∀ name ∈ Stmt.allDeclared body, name ∉ bases w.writes)
    (hn : ∀ p ∈ binding, p.1 ∉ bases w.writes)
    (hr : ∀ inner, w.Spares inner (xs ++ rest) rest run) :
    w.Spares inner (xs ++ rest) rest (Eval.inBlock body binding run) :=
  have hbases := bases_subset hw.subset
  .inBlock (fun name h hb => hd name h (hbases hb)) (fun p h hb => hn p h (hbases hb)) hr
    (List.subset_append_right xs rest)

/- Besides, the code declares no name through which it writes. -/
mutual

/-- A traced statement makes no writes but its own, in their order. -/
theorem spares_stmt {inner : Chain} {rest : List Write} :
    ∀ t : Stmt, t.traced = true → (t.writes ++ rest).Sublist w.writes →
      (∀ name ∈ t.declared, name ∉ bases w.writes) → w.Spares inner (t.writes ++ rest) rest (t.exec call)
  | .block body, ht, hw, hd =>
    spares_block hw hd (by simp) fun _ => spares_stmts none body ht hw hd
  | .empty, _, _, _ | .function _, _, _, _ | .ret none, _, _, _ => .pure _
  | .expression e, ht, hw, _ | .ret (some e), ht, hw, _ =>
    .finish (spares_expr call e ht hw) fun _ => (Spares.core w inner rest).pure _
  | .throw e, ht, hw, _ =>
    .finish (spares_expr call e ht hw) fun v => (Spares.core w inner rest).throw v
  | .declare kind ds, ht, hw, hd =>
    .finish (spares_declarators kind ds ht hw fun hk => Stmt.declared_declare hk ds ▸ hd)
      fun _ => (Spares.core w inner rest).pure _
  | .branch test c none, ht, hw, hd => by
    rw [Stmt.traced, Bool.and_eq_true] at ht
    rw [Stmt.writes, List.append_assoc] at hw ⊢
    rw [Stmt.exec]
    refine .bind (spares_expr call test ht.1 hw) fun v => ?_
    split
    · exact spares_stmt c ht.2 (later hw) hd
    · exact .pure _
    · exact .finish (.skip (later hw) fun chain => c.widen_traced chain ht.2) fun _ =>
        (Spares.core w inner rest).pure _
  | .branch test c (some a), ht, hw, hd => by
    rw [Stmt.traced, Bool.and_eq_true, Bool.and_eq_true] at ht
    rw [Stmt.writes, List.append_assoc, List.append_assoc] at hw ⊢
    rw [Stmt.declared, List.forall_mem_append] at hd
    rw [Stmt.exec]
    have hrest := List.subset_append_right a.writes rest
    refine (spares_expr call test ht.1.1 hw).bind_of_subset
      (List.subset_append_of_subset_right c.writes hrest) fun v => ?_
    split
    · exact .drop (spares_stmt c ht.1.2 (later hw) hd.1)
    · exact .mono (spares_stmt a ht.2 (later (later hw)) hd.2) (List.subset_append_right c.writes _)
    · have hskip := later hw
      rw [← List.append_assoc] at hskip ⊢
      exact .finish (.skip hskip fun chain => Stmt.widenBranches_traced chain ht.1.2 ht.2) fun _ =>
        (Spares.core w inner rest).pure _
  | .attempt body handler finalizer, ht, hw, hd => by
    rw [Stmt.traced.eq_def] at ht
    rw [Stmt.writes.eq_def] at hw ⊢
    rw [Stmt.declared.eq_def] at hd
    simp only [Bool.and_eq_true, List.append_assoc, List.forall_mem_append] at ht hw hd ⊢
    rw [Stmt.exec.eq_def]
    refine .attempt (spares_block hw hd.1 (by simp) fun _ => spares_stmts none body ht.1.1 hw hd.1) ?_ ?_
    · rcases handler with _ | ⟨param, handler⟩ <;> rintro _ ⟨⟩ v
      obtain ⟨hparam, hhandler⟩ := List.forall_mem_append.mp hd.2.1
      exact spares_block (later hw) hhandler (by simpa using hparam) fun _ =>
        spares_stmts none handler ht.1.2 (later hw) hhandler
    · rcases finalizer with _ | finalizer <;> rintro _ ⟨⟩
      exact spares_block (later (later hw)) hd.2.2 (by simp) fun _ =>
        spares_stmts none finalizer ht.2 (later (later hw)) hd.2.2

theorem spares_stmts {inner : Chain} {rest : List Write} :
    ∀ (last : Option Value) (ts : List Stmt), Stmt.allTraced ts = true →
      (Stmt.allWrites ts ++ rest).Sublist w.writes →
      (∀ name ∈ Stmt.allDeclared ts, name ∉ bases w.writes) →
      w.Spares inner (Stmt.allWrites ts ++ rest) rest (Stmt.execAll call last ts)
  | _, [], _, _, _ => .pure _
  | last, t :: ts, ht, hw, hd => by
    rw [Stmt.allTraced, Bool.and_eq_true] at ht
    rw [Stmt.allWrites, List.append_assoc] at hw ⊢
    rw [Stmt.allDeclared, List.forall_mem_append] at hd
    refine .bind (spares_stmt t ht.1 hw hd.1) fun flow => ?_
    split
    · exact spares_stmts _ ts ht.2 (later hw) hd.2
    · exact .pure _

/-- Declarators make no writes but their own, in their order. -/
theorem spares_declarators {inner : Chain} {rest : List Write} (kind : DeclKind) :
    ∀ ds : List Declarator, Declarator.allTraced ds = true →
      (Declarator.allWrites kind ds ++ rest).Sublist w.writes →
      (kind ≠ .variable → ∀ name ∈ ds.map Declarator.name, name ∉ bases w.writes) →
      w.Spares inner (Declarator.allWrites kind ds ++ rest) rest (Declarator.execAll call kind ds)
  | [], _, _, _ => .pure ()
  | .mk id none :: ds, ht, hw, hd => by
    have L := Spares.core w inner (Declarator.allWrites kind ds ++ rest)
    refine .bind ?_ fun _ =>
      spares_declarators kind ds ht hw fun hk name hn => hd hk name (.tail _ hn)
    by_cases hk : kind = .variable
    · subst hk
      exact L.pure ()
    · exact .declareLexical hk (fun hb => hd hk _ (.head _) (bases_subset hw.subset hb)) none
  | .mk id (some e) :: ds, ht, hw, hd => by
    rw [Declarator.allTraced, Bool.and_eq_true] at ht
    rw [Declarator.allWrites, List.append_assoc, List.append_assoc] at hw ⊢
    have hrest := List.subset_append_of_subset_right
      (if kind = .variable then [.name id.name] else [])
      (List.subset_append_right (Declarator.allWrites kind ds) rest)
    refine .bind_of_subset (spares_expr call e ht.1 hw) hrest fun v => ?_
    have hds := later (later hw)
    refine .bind ?_ fun _ =>
      spares_declarators kind ds ht.2 hds fun hk name hn => hd hk name (.tail _ hn)
    by_cases hk : kind = .variable
    · subst hk
      exact .assignName (later hw) v
    · rw [if_neg hk]
      exact .declareLexical hk (fun hb => hd hk _ (.head _) (bases_subset hds.subset hb)) (some v)

end

end Expressions
end Watch

/-! ### Widening covers what execution changes -/

/-- Where code assigns no name before it writes a property through it, widening the code forgets every
property that executing it would have changed, unless that goes with the length of an array. -/
theorem widening_covers_writes (call : Invoke) (s : Session)
    (hs : s.store.Rooted s.current.lexical s.globalObject) (t : Stmt) (ht : t.traced = true)
    (hb : s.store.KeepsBases s.current.lexical s.globalObject t.writes)
    (hd : ∀ name ∈ t.declared, name ∉ Write.bases t.writes)
    (id : ObjectId) (key : String) (p : Property) (hp : (s.heap.record id).getOwn? key = some p)
    (ha : ∀ x ∈ t.writes, ∀ k, x.place? s.store s.current.lexical = some (id, k) →
      (s.heap.record id).entangles k key = false)
    (hchange : ((t.exec call s).2.heap.record id).getOwn? key ≠ some p) :
    ((Eval.skip (fun chain st => t.widen chain st) s).2.heap.record id).getOwn? key =
      some { p with value := .unknown } := by
  let w : Watch := {
    store := s.store, chain := s.current.lexical, global := s.globalObject, writes := t.writes
    id, key, property := p
    rooted := hs, keepsBases := hb, present := hp, apart := ha }
  have hall : t.writes ++ [] = w.writes := List.append_nil t.writes
  have hspares : w.Spares [] (t.writes ++ []) [] (t.exec call) :=
    w.spares_stmt call t ht (hall ▸ .refl _) hd
  obtain ⟨_, hspared⟩ := hspares s ⟨rfl, rfl⟩ (hall ▸ w.spared_refl)
  obtain hkept | ⟨hhit, hwritable⟩ := hspared.kept
  · exact absurd hkept hchange
  · change ((t.widen w.chain w.store).heap.record w.id).getOwn? w.key = _
    rw [t.widen_traced w.chain ht w.store]
    exact w.getOwn?_forgetWrites hhit hwritable

def Stmt.setProperty (base key : String) (value : Expr) : Stmt :=
  .expression (.assign .assign (.member (.dot (.identifier ⟨base, default⟩) key default)) value)

def Session.sharing : Session where
  options := {}
  store :=
    { heap := ⟨#[.ofEntries [("o", .object ⟨1⟩), ("q", .object ⟨1⟩), ("p", .null)],
        .ofEntries [("n", .boolean true)]]⟩
      scopes := #[{ object := some ⟨0⟩ }] }
  globalObject := ⟨0⟩
  globalContext := ⟨[⟨0⟩], [⟨0⟩], .object ⟨0⟩, false, false, "a.js"⟩

theorem Session.rooted_sharing :
    Session.sharing.store.Rooted Session.sharing.current.lexical Session.sharing.globalObject where
  object := by
    intro c hc o ho
    cases List.mem_singleton.mp hc
    cases ho
    rfl
  reached := ⟨⟨0⟩, .head _, rfl⟩
  present := by decide
  plain := by decide

/-- The block `{ let x = o.n; q.n = false; q = null; x = null }`. -/
def Stmt.shared : Stmt :=
  .block
    [.declare .lexical
      [.mk ⟨"x", default⟩ (some (.member (.dot (.identifier ⟨"o", default⟩) "n" default)))],
      .setProperty "q" "n" (.literal (.boolean false)),
      .expression (.assign .assign (.name ⟨"q", default⟩) (.literal .null)),
      .expression (.assign .assign (.name ⟨"x", default⟩) (.literal .null))]

/-- What is written through one of two names for an object is forgotten of the object, even though the
name is assigned behind that. -/
theorem widening_covers_writes_shared :
    Session.sharing.store.Rooted Session.sharing.current.lexical Session.sharing.globalObject ∧
      Stmt.shared.traced = true ∧
      Session.sharing.store.KeepsBases Session.sharing.current.lexical Session.sharing.globalObject
        Stmt.shared.writes ∧
      (Session.sharing.heap.record ⟨1⟩).getOwn? "n" = some (.data (.boolean true)) ∧
      ((Stmt.shared.exec Host.standard.call .sharing).2.heap.record ⟨1⟩).getOwn? "n" ≠
        some (.data (.boolean true)) ∧
      ((Eval.skip (fun chain st => Stmt.shared.widen chain st) .sharing).2.heap.record ⟨1⟩).getOwn?
        "n" = some (.data .unknown) := by
  have hkeeps : Session.sharing.store.KeepsBases Session.sharing.current.lexical
      Session.sharing.globalObject Stmt.shared.writes := by decide +kernel
  have hexec : ((Stmt.shared.exec Host.standard.call .sharing).2.heap.record ⟨1⟩).getOwn? "n" =
      some (.data (.boolean false)) := rfl
  have hchange : ((Stmt.shared.exec Host.standard.call .sharing).2.heap.record ⟨1⟩).getOwn? "n" ≠
      some (.data (.boolean true)) := by
    rw [hexec]
    simp [Property.data]
  exact ⟨Session.rooted_sharing, rfl, hkeeps, rfl, hchange,
    widening_covers_writes Host.standard.call .sharing Session.rooted_sharing .shared rfl hkeeps
      (by decide) ⟨1⟩ "n" (.data (.boolean true)) rfl (fun _ _ _ _ => rfl) hchange⟩

def Stmt.reassigning : Stmt :=
  .setProperty "q" "n" (.assign .assign (.name ⟨"q", default⟩) (.literal (.boolean false)))

/-- The block `{ p = o; p.n = false }`. -/
def Stmt.aliasing : Stmt :=
  .block
    [.expression (.assign .assign (.name ⟨"p", default⟩) (.identifier ⟨"o", default⟩)),
      .setProperty "p" "n" (.literal (.boolean false))]

/-- A write is missed where its base is assigned in the code before it, be it that the base is forgotten
before the write is looked for or that it is made to stand for the object only there. -/
theorem widening_misses_assigned_bases :
    Session.sharing.store.Rooted Session.sharing.current.lexical Session.sharing.globalObject ∧
      ∀ t ∈ [Stmt.reassigning, Stmt.aliasing], t.traced = true ∧
        ((t.exec Host.standard.call .sharing).2.heap.record ⟨1⟩).getOwn? "n" =
          some (.data (.boolean false)) ∧
        ((Eval.skip (fun chain st => t.widen chain st) .sharing).2.heap.record ⟨1⟩).getOwn? "n" =
          some (.data (.boolean true)) := by
  refine ⟨Session.rooted_sharing, ?_⟩
  rw [List.forall_mem_cons, List.forall_mem_singleton]
  exact ⟨⟨rfl, rfl, rfl⟩, rfl, rfl, rfl⟩

end Surmise
