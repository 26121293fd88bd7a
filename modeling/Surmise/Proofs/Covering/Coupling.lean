import Surmise.Proofs.Covering.Conversion
import Surmise.Proofs.Covering.Store
import Surmise.Proofs.Evolution
import Surmise.Proofs.Running

/-! Two evaluations side by side, the second one in a session of which the first knows a part, and an
evaluation that goes on alone while the other has skipped the code. -/
namespace Surmise

structure Session.Follows (s : Session) (chain : Chain) : Prop where
  recovers : s.recovers = true
  strict : s.current.strict = true
  lexical : s.current.lexical = chain

theorem Session.Follows.of_frame {s t : Session} {chain : Chain} (h : s.Follows chain)
    (hf : t.frame = s.frame) : t.Follows chain := by
  have hc := current_of_frame hf
  exact ⟨(recovers_of_frame hf).trans h.recovers, hc ▸ h.strict, hc ▸ h.lexical⟩

theorem Session.Follows.setLexical {s : Session} {chain : Chain} (h : s.Follows chain)
    (inner : Chain) : (s.setLexical inner).Follows inner := by
  obtain ⟨options, store, object, global, contexts, diagnostics, depth, randoms⟩ := s
  cases contexts with
  | nil | cons c outer => exact ⟨h.recovers, h.strict, rfl⟩

theorem Heap.Covers.unary {h k : Heap} (hk : h.Covers k) (op : UnaryOp) {v w : Value}
    (hv : v.Covers w) : (h.unary op v).Covers (k.unary op w) := by
  cases op with
  | minus => exact Value.covers_ofNumber? ((hk.toNumber? hv).map _)
  | plus => exact Value.covers_ofNumber? (hk.toNumber? hv)
  | not => exact Value.covers_ofBool? ((Value.told_truth? hv).map not)
  | typeof => exact Value.covers_ofString? (hk.typeof? hv)
  | void => exact .refl _

namespace Eval

variable {α β γ δ : Type} {links : List (ScopeId × ScopeId)} {m : Eval α} {a : α} {b : β} {body : List Stmt}

def RunsTo (m : Eval α) (s : Session) (a : α) (st : Store) : Prop :=
  ∃ s', m s = (.done a, s') ∧ s'.store = st ∧ s'.frame = s.frame

theorem RunsTo.pure (a : α) (s : Session) : (Pure.pure a : Eval α).RunsTo s a s.store :=
  ⟨s, rfl, rfl, rfl⟩

theorem RunsTo.bind {f : α → Eval β} {s : Session} {st st' : Store} (hm : m.RunsTo s a st)
    (hf : ∀ s', s'.store = st → s'.frame = s.frame → (f a).RunsTo s' b st') : (m >>= f).RunsTo s b st' := by
  obtain ⟨s₁, hm, hst, hfr⟩ := hm
  obtain ⟨s₂, hr, hst', hfr'⟩ := hf s₁ hst hfr
  exact ⟨s₂, (run_bind hm).trans hr, hst', hfr'.trans hfr⟩

theorem RunsTo.onStore (f : Store → Store × α) (s : Session) :
    (onStore f).RunsTo s (f s.store).2 (f s.store).1 :=
  ⟨_, run_onStore f s, rfl, rfl⟩

theorem RunsTo.onHeap (f : Heap → α) (s : Session) : (onHeap f).RunsTo s (f s.store.heap) s.store :=
  ⟨s, rfl, rfl, rfl⟩

theorem RunsTo.route {s : Session} (h : s.recovers = true) (kind : ErrorKind) (message : String) :
    (route kind message).RunsTo s .unknown s.store :=
  ⟨_, run_route h kind message, rfl, rfl⟩

theorem RunsTo.routeOnly {s : Session} (h : s.recovers = true) (kind : ErrorKind) (message : String) :
    (routeOnly kind message).RunsTo s () s.store :=
  ⟨_, run_routeOnly h kind message, rfl, rfl⟩

theorem RunsTo.read_bind {f : Session → α} {g : α → Eval β} {s : Session} {st : Store}
    (h : (g (f s)).RunsTo s b st) : (read f >>= g).RunsTo s b st := h

variable {s : Session} {chain : Chain}

theorem RunsTo.resolve (h : s.Follows chain) (name : String) :
    (resolve name).RunsTo s ((s.store.lookup chain name).getD .unknown) s.store := by
  unfold Eval.resolve
  refine .read_bind ?_
  rw [h.lexical]
  cases s.store.lookup chain name with
  | some v => exact .pure v s
  | none => exact .route h.recovers _ _

theorem RunsTo.typeofName (h : s.Follows chain) (name : String) :
    (typeofName name).RunsTo s
      (match s.store.lookup chain name with
        | some v => .ofString? (s.store.heap.typeof? v)
        | none => .string "undefined") s.store := by
  rw [← h.lexical]
  exact ⟨s, rfl, rfl, rfl⟩

theorem RunsTo.assignName (h : s.Follows chain) (name : String) (v : Value) :
    (assignName name v).RunsTo s () (s.store.assign chain name v).1 := by
  unfold Eval.assignName
  refine .read_bind ?_
  rw [h.lexical, h.strict]
  refine .bind (.onStore _ s) fun s' hst hfr => ?_
  have hs' := h.of_frame hfr
  rw [← hst]
  cases (s.store.assign chain name v).2 with
  | done => exact .pure () s'
  | immutable => exact .read_bind (.routeOnly hs'.recovers _ _)
  | unresolved => exact .routeOnly hs'.recovers _ _

theorem RunsTo.skip (h : s.Follows chain) (widen : Chain → Store → Store) :
    (skip widen).RunsTo s () (widen chain s.store) := by
  rw [← h.lexical]
  exact ⟨_, rfl, rfl, rfl⟩

theorem RunsTo.inScopes {st : Store} (inner : Chain) (h : m.RunsTo (s.setLexical inner) a st) :
    (inScopes inner m).RunsTo s a st := by
  obtain ⟨s', hm, hst, hfr⟩ := h
  refine ⟨s'.setLexical s.current.lexical, ?_, ?_, Session.frame_setLexical s s' inner hfr⟩
  · unfold Eval.inScopes
    rw [hm]
  · rw [Session.store_setLexical, hst]

theorem RunsTo.inBlock (h : s.Follows chain) (hb : Stmt.functions body = []) (run : Eval Flow) :
    ∃ s' : Session, s'.Follows (⟨s.store.scopes.size⟩ :: chain) ∧
      s'.store = (s.store.newScope {}).1 ∧
      ∀ flow st, run.RunsTo s' flow st → (inBlock body none run).RunsTo s flow st := by
  have hs : ({ s with store := (s.store.newScope {}).1 } : Session).Follows chain := h.of_frame rfl
  refine ⟨_, hs.setLexical _, Session.store_setLexical _ _, fun flow st hr => ?_⟩
  unfold Eval.inBlock declareBlock
  refine .read_bind ?_
  rw [h.lexical, hb]
  obtain ⟨s', he, hst, hfr⟩ := RunsTo.inScopes _ hr
  exact ⟨s', he, hst, hfr⟩

theorem RunsTo.declareName (h : s.Follows chain) {kind : DeclKind} (hk : kind ≠ .variable)
    (name : String) (v? : Option Value) :
    (declareName kind name v?).RunsTo s ()
      (match chain with
        | scope :: _ => s.store.declare scope name (v?.getD .undefined) (kind == .lexical)
        | [] => s.store) := by
  unfold Eval.declareName
  split
  next => exact absurd rfl hk
  next => exact absurd rfl hk
  next =>
    refine .read_bind ?_
    rw [h.lexical]
    cases chain with
    | nil => exact .pure () s
    | cons scope outer => exact .onStore _ s

/-! ### Both evaluations together -/

variable {post : α → β → Prop}

/-- From linked stores both evaluations go on to values, related by `post`, and to linked stores. -/
def Coupled (links : List (ScopeId × ScopeId)) (m : Eval α) (n : Eval β) (post : α → β → Prop) :
    Prop :=
  ∀ s t : Session, s.Follows (links.map Prod.fst) → t.Follows (links.map Prod.snd) →
    Store.Linked links s.store t.store →
    ∃ a b st st', m.RunsTo s a st ∧ n.RunsTo t b st' ∧ post a b ∧ Store.Linked links st st'

theorem Coupled.pure (h : post a b) : Coupled links (Pure.pure a) (Pure.pure b) post :=
  fun s t _ _ hl => ⟨a, b, s.store, t.store, .pure a s, .pure b t, h, hl⟩

theorem Coupled.bind {n : Eval β} {f : α → Eval γ} {g : β → Eval δ} {mid : α → β → Prop} {post : γ → δ → Prop}
    (hm : Coupled links m n mid) (hf : ∀ a b, mid a b → Coupled links (f a) (g b) post) :
    Coupled links (m >>= f) (n >>= g) post := by
  intro s t hs ht hl
  obtain ⟨a, b, st, st', hm, hn, hab, hl⟩ := hm s t hs ht hl
  obtain ⟨s₁, hs₁, rfl, hfs⟩ := hm
  obtain ⟨t₁, ht₁, rfl, hft⟩ := hn
  obtain ⟨c, d, st₂, st₂', hf, hg, hcd, hl₂⟩ :=
    hf a b hab s₁ t₁ (hs.of_frame hfs) (ht.of_frame hft) hl
  obtain ⟨s₂, hs₂, hst, hfs₂⟩ := hf
  obtain ⟨t₂, ht₂, hst', hft₂⟩ := hg
  exact ⟨c, d, st₂, st₂', ⟨s₂, (run_bind hs₁).trans hs₂, hst, hfs₂.trans hfs⟩,
    ⟨t₂, (run_bind ht₁).trans ht₂, hst', hft₂.trans hft⟩, hcd, hl₂⟩

theorem Coupled.resolve (name : String) :
    Coupled links (resolve name) (resolve name) Value.Covers := by
  intro s t hs ht hl
  refine ⟨_, _, _, _, .resolve hs name, .resolve ht name, ?_, hl⟩
  have hv := hl.lookup name
  generalize s.store.lookup (links.map Prod.fst) name = v?,
    t.store.lookup (links.map Prod.snd) name = w? at hv ⊢
  cases hv with
  | none => exact .refl _
  | some hv => exact hv

theorem Coupled.onHeap {f : Heap → α} {g : Heap → β} (h : ∀ k l : Heap, k.Covers l → post (f k) (g l)) :
    Coupled links (onHeap f) (onHeap g) post :=
  fun s t _ _ hl => ⟨_, _, _, _, .onHeap f s, .onHeap g t, h _ _ hl.heap.toCovers, hl⟩

theorem Coupled.assignName (name : String) {v w : Value} (hv : v.Covers w) :
    Coupled links (assignName name v) (assignName name w) fun _ _ => True := by
  intro s t hs ht hl
  exact ⟨_, _, _, _, .assignName hs name v, .assignName ht name w, trivial,
    (hl.assign (List.Subset.refl links) name hv).1⟩

theorem Coupled.typeofName (name : String) :
    Coupled links (typeofName name) (typeofName name) Value.Covers := by
  intro s t hs ht hl
  refine ⟨_, _, _, _, .typeofName hs name, .typeofName ht name, ?_, hl⟩
  have hv := hl.lookup name
  generalize s.store.lookup (links.map Prod.fst) name = v?,
    t.store.lookup (links.map Prod.snd) name = w? at hv ⊢
  cases hv with
  | none => exact .refl _
  | some hv => exact Value.covers_ofString? (hl.heap.typeof? hv)

theorem Coupled.declareName (kind : DeclKind) (name : String) {v? w? : Option Value}
    (hv : Option.Rel Value.Covers v? w?) :
    Coupled links (declareName kind name v?) (declareName kind name w?) fun _ _ => True := by
  by_cases hk : kind = .variable
  · subst hk
    cases hv with
    | none => exact .pure trivial
    | some hv => exact .assignName name hv
  intro s t hs ht hl
  refine ⟨_, _, _, _, .declareName hs hk name v?, .declareName ht hk name w?, trivial, ?_⟩
  cases links with
  | nil => exact hl
  | cons l links =>
    have hd : (v?.getD .undefined).Covers (w?.getD .undefined) := by
      cases hv with
      | none => exact .refl _
      | some hv => exact hv
    exact hl.bind (.head _) name ⟨hd, rfl⟩

theorem Coupled.inBlock (hb : Stmt.functions body = []) {m n : Eval Flow} {post : Flow → Flow → Prop}
    (h : ∀ l, Coupled (l :: links) m n post) :
    Coupled links (inBlock body none m) (inBlock body none n) post := by
  intro s t hs ht hl
  obtain ⟨s', hs', hst, hm⟩ := RunsTo.inBlock hs hb m
  obtain ⟨t', ht', htt, hn⟩ := RunsTo.inBlock ht hb n
  have hl' := hl.newScope
  rw [← hst, ← htt] at hl'
  obtain ⟨a, b, st, st', hms, hnt, hab, hl''⟩ :=
    h (⟨s.store.scopes.size⟩, ⟨t.store.scopes.size⟩) s' t' hs' ht' hl'
  exact ⟨a, b, st, st', hm a st hms, hn b st' hnt, hab, hl''.tail⟩

/-! ### One evaluation alone -/

/-- With the scopes `inner` of its own, the evaluation goes on to a value and to a store that `st` is
still linked to. -/
def Trails (inner : Chain) (links : List (ScopeId × ScopeId)) (st : Store) (n : Eval α)
    (post : α → Prop) : Prop :=
  ∀ t : Session, t.Follows (inner ++ links.map Prod.snd) → Store.Trailing inner links st t.store →
    ∃ a st', n.RunsTo t a st' ∧ post a ∧ Store.Trailing inner links st st'

variable {inner : Chain} {st : Store}

theorem Trails.pure {post : α → Prop} (h : post a) : Trails inner links st (Pure.pure a) post :=
  fun t _ hl => ⟨a, t.store, .pure a t, h, hl⟩

theorem Trails.mono {n : Eval α} {post post' : α → Prop} (h : Trails inner links st n post)
    (hp : ∀ a, post a → post' a) : Trails inner links st n post' := by
  intro t ht hl
  obtain ⟨a, st', hn, ha, hl⟩ := h t ht hl
  exact ⟨a, st', hn, hp a ha, hl⟩

theorem Trails.bind {f : α → Eval β} {mid : α → Prop} {post : β → Prop} (hm : Trails inner links st m mid)
    (hf : ∀ a, mid a → Trails inner links st (f a) post) : Trails inner links st (m >>= f) post := by
  intro t ht hl
  obtain ⟨a, st₁, ⟨t₁, ht₁, rfl, hft⟩, ha, hl⟩ := hm t ht hl
  obtain ⟨b, st₂, ⟨t₂, ht₂, hst, hft₂⟩, hb, hl₂⟩ := hf a ha t₁ (ht.of_frame hft) hl
  exact ⟨b, st₂, ⟨t₂, (run_bind ht₁).trans ht₂, hst, hft₂.trans hft⟩, hb, hl₂⟩

theorem Trails.resolve (name : String) : Trails inner links st (resolve name) fun _ => True :=
  fun _ ht hl => ⟨_, _, .resolve ht name, trivial, hl⟩

theorem Trails.typeofName (name : String) : Trails inner links st (typeofName name) fun _ => True :=
  fun _ ht hl => ⟨_, _, .typeofName ht name, trivial, hl⟩

theorem Trails.onHeap (f : Heap → α) : Trails inner links st (onHeap f) fun _ => True :=
  fun t _ hl => ⟨_, _, .onHeap f t, trivial, hl⟩

theorem Trails.assignName {name : String} (hf : st.Forgotten (links.map Prod.fst) name) (v : Value) :
    Trails inner links st (assignName name v) fun _ => True :=
  fun _ ht hl => ⟨_, _, .assignName ht name v, trivial, hl.assign hf v (List.Subset.refl inner)⟩

theorem Trails.inBlock (hb : Stmt.functions body = []) {n : Eval Flow} {post : Flow → Prop}
    (h : ∀ id, Trails (id :: inner) links st n post) : Trails inner links st (inBlock body none n) post := by
  intro t ht hl
  obtain ⟨t', ht', htt, hn⟩ := RunsTo.inBlock ht hb n
  have hl' := hl.newScope
  rw [← htt] at hl'
  obtain ⟨a, st', hnt, ha, hl''⟩ := h ⟨t.store.scopes.size⟩ t' ht' hl'
  exact ⟨a, st', hn a st' hnt, ha, hl''.tail⟩

theorem Trails.skip {widen : Chain → Store → Store} {names : List String}
    (hw : ∀ chain st, widen chain st = Store.forgetNames st chain names)
    (hf : ∀ name ∈ names, st.Forgotten (links.map Prod.fst) name) :
    Trails inner links st (skip widen) fun _ => True := by
  intro t ht hl
  refine ⟨_, _, .skip ht widen, trivial, ?_⟩
  rw [hw]
  exact hl.forgetNames names hf

theorem Coupled.skip {widen : Chain → Store → Store} {names : List String}
    (hw : ∀ chain st, widen chain st = Store.forgetNames st chain names) {n : Eval β}
    (hn : ∀ st : Store, (∀ name ∈ names, st.Forgotten (links.map Prod.fst) name) →
      Trails [] links st n (post a)) : Coupled links (do skip widen; return a) n post := by
  intro s t hs ht hl
  have hl' := hl.forgetNames names
  rw [← hw] at hl'
  have hf : ∀ name ∈ names, (widen (links.map Prod.fst) s.store).Forgotten (links.map Prod.fst) name :=
    fun name hm => hw _ _ ▸ hl.forgotten_forgetNames names (.inr hm)
  obtain ⟨b, st', hnt, hab, hl''⟩ := hn _ hf t ht hl'.trailing
  refine ⟨a, b, _, st', .bind (.skip hs widen) fun s' hst _ => ?_, hnt, hab, hl''.linked⟩
  rw [← hst]
  exact .pure a s'

end Eval
end Surmise
