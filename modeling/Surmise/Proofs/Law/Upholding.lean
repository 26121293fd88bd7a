import Surmise.Proofs.Law.Operations

/-! Invariants of the store that evaluations keep in certain contexts. -/
namespace Surmise.Eval

variable {α β : Type} {C : Context → ObjectId → Prop} {I J K : Store → Prop}

/-- Where the current context and the global object have `C` and the store has `I`, the evaluation leaves
the frame of the session as it is and a store with `J`, however it ends. -/
def Leads (C : Context → ObjectId → Prop) (I J : Store → Prop) (m : Eval α) : Prop :=
  ∀ s : Session, C s.current s.globalObject → I s.store →
    (m s).2.frame = s.frame ∧ J (m s).2.store

namespace Leads

variable {m : Eval α}

theorem mono {C' : Context → ObjectId → Prop} (hm : Leads C I J m) (h : ∀ c g, C' c g → C c g) :
    Leads C' I J m :=
  fun s hc => hm s (h _ _ hc)

theorem imp {I' J' : Store → Prop} (hm : Leads C I J m) (hI : ∀ st, I' st → I st)
    (hJ : ∀ st, J st → J' st) : Leads C I' J' m :=
  fun s hc h => (hm s hc (hI _ h)).imp_right (hJ _)

/-- The first part may end the evaluation, so what it leads to has to give what the second part leads to. -/
theorem bind_of {f : α → Eval β} (Q : α → Prop) (hm : Leads C I J m) (hJ : ∀ st, J st → K st)
    (hQ : ∀ s a, C s.current s.globalObject → I s.store → (m s).1 = .done a → Q a)
    (hf : ∀ a, Q a → Leads C J K (f a)) : Leads C I K (m >>= f) := by
  intro s hc h
  obtain ⟨hframe, ht⟩ := hm s hc h
  obtain ⟨a, ha, hrun, -⟩ | ⟨hstop, -⟩ := bind_cases m m f f s
  · have hglobal : (m s).2.globalObject = s.globalObject := congrArg Frame.globalObject hframe
    have hc' : C (m s).2.current (m s).2.globalObject := by
      rw [Session.current_of_frame hframe, hglobal]
      exact hc
    obtain ⟨hframe', ht'⟩ := hf a (hQ s a hc h (congrArg Prod.fst ha)) _ hc' ht
    rw [hrun]
    exact ⟨hframe'.trans hframe, ht'⟩
  · rw [hstop]
    exact ⟨hframe, hJ _ ht⟩

theorem bind {f : α → Eval β} (hm : Leads C I J m) (hJ : ∀ st, J st → K st)
    (hf : ∀ a, Leads C J K (f a)) : Leads C I K (m >>= f) :=
  bind_of (fun _ => True) hm hJ (fun _ _ _ _ _ => trivial) fun a _ => hf a

theorem observe (hm : Leads C I J m) : Leads C I J (Eval.observe m) := by
  intro s hc h
  rw [snd_observe]
  exact hm s hc h

theorem inTry (hm : Leads C I J m) : Leads C I J (Eval.inTry m) := by
  intro s hc h
  obtain ⟨hframe, ht⟩ := hm { s with tryDepth := s.tryDepth + 1 } hc h
  exact ⟨Session.frame_endTry s _ hframe, ht⟩

theorem read_bind {f : Session → α} {k : α → Eval β}
    (hk : ∀ s : Session, C s.current s.globalObject → Leads C I J (k (f s))) :
    Leads C I J (Eval.read f >>= k) :=
  fun s hc h => hk s hc s hc h

theorem onStore {f : Store → Store × α} (hf : ∀ st, I st → J (f st).1) :
    Leads C I J (Eval.onStore f) :=
  fun s _ h => ⟨rfl, hf s.store h⟩

theorem onStore_bind {f : Store → Store × α} {k : α → Eval β}
    (hf : ∀ st, I st → J (f st).1 ∧ Leads C J K (k (f st).2)) :
    Leads C I K (Eval.onStore f >>= k) := by
  intro s hc h
  obtain ⟨ht, hk⟩ := hf s.store h
  rw [run_bind (run_onStore f s)]
  exact hk { s with store := (f s.store).1 } hc ht

/-! Other scopes and other contexts: the evaluation leads on from where it is run. -/

theorem inScopes (hm : Leads C I J m) {chain : Chain} {s : Session}
    (hc : C { s.current with lexical := chain } s.globalObject) (h : I s.store) :
    (Eval.inScopes chain m s).2.frame = s.frame ∧ J (Eval.inScopes chain m s).2.store := by
  have hc' : C (s.setLexical chain).current (s.setLexical chain).globalObject := by
    rw [Session.current_setLexical, Session.globalObject_setLexical]
    exact hc
  obtain ⟨hframe, ht⟩ := hm (s.setLexical chain) hc' ((s.store_setLexical chain).symm ▸ h)
  refine ⟨Session.frame_setLexical _ _ _ hframe, ?_⟩
  change J (Session.setLexical _ _).store
  rw [Session.store_setLexical]
  exact ht

theorem inContext (hm : Leads C I J m) {c : Context} {s : Session} (hc : C c s.globalObject)
    (h : I s.store) :
    (Eval.inContext c m s).2.frame = s.frame ∧ J (Eval.inContext c m s).2.store := by
  obtain ⟨hframe, ht⟩ := hm { s with contexts := c :: s.contexts } hc h
  exact ⟨Session.frame_leave s _ c hframe, ht⟩

end Leads

/-- The evaluation keeps the invariant `I` of the store in contexts with `C`. -/
def Upholds (C : Context → ObjectId → Prop) (I : Store → Prop) (m : Eval α) : Prop := Leads C I I m

namespace Upholds

variable {m : Eval α}

theorem bind {f : α → Eval β} (hm : Upholds C I m) (hf : ∀ a, Upholds C I (f a)) : Upholds C I (m >>= f) :=
  Leads.bind hm (fun _ h => h) hf

theorem steady (hnew : ∀ {r : Record}, r.Data → ∀ st, I st → I (st.allocate r).1) :
    Steady (fun _ => True) fun _ m => Upholds C I m where
  thrown _ := trivial
  still hframe hstore _ s _ h := ⟨hframe s, (hstore s).symm ▸ h⟩
  bind := bind
  observe hm hk := bind (Leads.observe hm) fun r => hk r fun _ _ => trivial
  inTry := Leads.inTry
  allocate hr s _ h := ⟨rfl, hnew hr s.store h⟩

theorem core (hnew : ∀ {r : Record}, r.Data → ∀ st, I st → I (st.allocate r).1) :
    Core (fun _ => True) (Upholds C I) :=
  (steady hnew).core

end Upholds
end Surmise.Eval
