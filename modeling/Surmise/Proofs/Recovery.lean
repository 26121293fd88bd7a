import Surmise.Proofs.Tracking

/-! Recovery over whole evaluations. Where faults are not recovered, none is reported as recovered at any
depth of calls; and a run in which none was recovered is the run that would throw them. A JSON text that
cannot be read is reported in either mode, so its diagnostics are kept apart. -/
namespace Surmise

def Diagnostic.IsUnread [Platform] (d : Diagnostic) : Prop :=
  ∃ p text, Platform.readJson text = .error p ∧ d.finding = .unread p text

namespace Session

def Reports (ok : Diagnostic → Prop) (s t : Session) : Prop :=
  ∃ ds, t.diagnostics.toList = s.diagnostics.toList ++ ds ∧ ∀ d ∈ ds, ok d

variable {ok : Diagnostic → Prop} {s t u : Session}

theorem Reports.of_eq (h : t.diagnostics = s.diagnostics) : s.Reports ok t :=
  ⟨[], by simp [h], by simp⟩

theorem Reports.trans (h : s.Reports ok t) (h' : t.Reports ok u) : s.Reports ok u := by
  obtain ⟨ds, ht, hds⟩ := h
  obtain ⟨es, hu, hes⟩ := h'
  refine ⟨ds ++ es, by simp [hu, ht], fun d hd => ?_⟩
  rcases List.mem_append.1 hd with hd | hd
  · exact hds d hd
  · exact hes d hd

theorem reports_report {finding : Finding} {disposition : Disposition}
    (h : ok ⟨finding, s.current.filename, disposition⟩) :
    s.Reports ok (s.report finding disposition) :=
  ⟨[⟨finding, s.current.filename, disposition⟩], by simp [report], by simpa using h⟩

theorem Reports.added {ds : List Diagnostic} (h : s.Reports ok t)
    (ht : t.diagnostics.toList = s.diagnostics.toList ++ ds) : ∀ d ∈ ds, ok d := by
  obtain ⟨es, he, hes⟩ := h
  have heq : ds = es := List.append_cancel_left (ht.symm.trans he)
  exact heq ▸ hes

theorem diagnostics_setLexical (s : Session) (chain : Chain) :
    (s.setLexical chain).diagnostics = s.diagnostics := by
  unfold setLexical
  split <;> rfl

theorem recovers_setLexical (s : Session) (chain : Chain) :
    (s.setLexical chain).recovers = s.recovers := by
  unfold setLexical
  split <;> rfl

theorem withoutRecovery_setLexical (s : Session) (chain : Chain) :
    (s.setLexical chain).withoutRecovery = s.withoutRecovery.setLexical chain := by
  unfold setLexical withoutRecovery
  dsimp only
  split <;> rfl

/-- From `s` to `t` no fault was recovered: what was reported are errors that were thrown, and JSON texts
that could not be read. -/
def Unrecovered [Platform] (s t : Session) : Prop :=
  s.Reports (fun d => d.disposition = .thrown ∨ d.IsUnread) t

theorem Evolves.unrecovered [Platform] (h : s.Evolves t) (hs : s.recovers = false) : s.Unrecovered t := by
  induction h with
  | refl s => exact .of_eq rfl
  | trans h _ ih₁ ih₂ => exact (ih₁ hs).trans (ih₂ ((recovers_of_frame h.frame_eq).trans hs))
  | change _ | draw _ _ => exact .of_eq rfl
  | recovered kind message h => simp [hs] at h
  | unread s h => exact reports_report (.inr ⟨_, _, h, rfl⟩)
  | thrown s kind message => exact reports_report (.inl rfl)
  | context c _ ih => exact ih hs
  | @scopes s t chain _ ih =>
    have h : (s.setLexical chain).Unrecovered t := ih ((s.recovers_setLexical chain).trans hs)
    have hin : s.Unrecovered (s.setLexical chain) := .of_eq (s.diagnostics_setLexical chain)
    exact (hin.trans h).trans (.of_eq (t.diagnostics_setLexical s.current.lexical))
  | @tried s t _ ih =>
    -- Inside the block nothing is recovered, whatever the options say.
    refine ih ?_
    simp [recovers, inTry]

end Session

/-! ### Faults that are thrown -/

/-- The function `function () { try { x } catch (e) { return parse("[") } }`. -/
def Function.catching : Function :=
  .mk none []
    [.attempt [.expression (.identifier ⟨"x", default⟩)]
      (some (.mk (some ⟨"e", default⟩)
        [.ret (some (.call (.identifier ⟨"parse", default⟩) [.literal (.string "[")] default))]))
      none]
    false default

def Session.catching : Session where
  options := {}
  store :=
    { heap := ⟨#[.empty .object, .ofCallable (.builtin .jsonParse),
        .ofCallable (.closure .catching [⟨0⟩])]⟩
      scopes := #[{ bindings := Dict.empty.insert "parse" ⟨.object ⟨1⟩, true⟩ }] }
  globalObject := ⟨0⟩
  globalContext := ⟨[⟨0⟩], [⟨0⟩], .undefined, false, false, "a.js"⟩

/-- Where recovery is not allowed, and inside `try` blocks, every fault is thrown: by statements,
expressions, calls and `eval`, and by whatever they call. -/
theorem faults_thrown_without_recovery [Platform] (host : Host) (hr : host.ReadsPrograms)
    (hf : host.Respects (fun _ => True) (Eval.Tracked fun _ => True)) (s : Session)
    (hs : s.options.exactMode = true ∨ s.options.recovery = false ∨ 0 < s.tryDepth) :
    (∀ contexts,
      (∀ t : Stmt, s.Unrecovered (t.exec (invoke host contexts) s).2) ∧
      (∀ last body, s.Unrecovered (Stmt.execAll (invoke host contexts) last body s).2) ∧
      (∀ e : Expr, s.Unrecovered (e.eval (invoke host contexts) s).2) ∧
      (∀ options v,
        s.Unrecovered (Builtin.evalSource host (invoke host contexts) options v s).2)) ∧
    (∀ callee receiver args options,
      s.Unrecovered (host.call callee receiver args options s).2 ∧
      s.Unrecovered (host.complete callee receiver args options s).2) ∧
    ∀ source filename, s.Unrecovered (s.runFile host source filename).2 := by
  have hrec : s.recovers = false := by
    rcases hs with h | h | h <;> simp [Session.recovers, Options.allowsRecovery, Session.inTry, h]
  have L := Eval.tracked_law (A := fun _ => True) fun _ _ => trivial
  have hall : s.heap.Admits fun _ => True := fun _ _ _ => trivial
  refine ⟨fun contexts => ?_, fun callee receiver args options => ⟨?_, ?_⟩, fun source filename => ?_⟩
  · have hc := L.invoke hr hf contexts
    exact ⟨fun t => (L.stmt hc t s hall).unrecovered hrec,
      fun last body => (L.stmtAll hc last body s hall).unrecovered hrec,
      fun e => (L.expr hc e s hall).unrecovered hrec,
      fun options v => (L.evalSource hr hc options v s hall).unrecovered hrec⟩
  · exact (L.call hr hf callee receiver args options s hall).unrecovered hrec
  · exact (L.complete hr hf callee receiver args options s hall).unrecovered hrec
  · cases hm : host.runFile source filename with
    | error e =>
      rw [Session.runFile_refused hm]
      exact .of_eq rfl
    | ok m =>
      rw [Session.runFile_snd hm]
      exact (L.runFile hr hf hm s hall).unrecovered hrec

theorem faults_thrown_inside_try :
    0 < { Session.catching with tryDepth := 1 }.tryDepth ∧
      { Session.catching with tryDepth := 1 }.Unrecovered
        (Host.standard.call (.object ⟨2⟩) .undefined [] {} { Session.catching with tryDepth := 1 }).2 :=
  ⟨by decide, ((faults_thrown_without_recovery .standard Host.standard_readsPrograms
    (Eval.tracked_law fun _ _ => trivial).standard_respects _ (.inr (.inr (by decide)))).2.1
      (.object ⟨2⟩) .undefined [] {}).1⟩

/-! ### Runs in which nothing is recovered -/

namespace Eval
variable [Platform] {α β : Type}

/-- Diagnostics are only added; and if no fault is recovered, the evaluation does the same where none is
allowed to be. -/
def Modeless (m : Eval α) : Prop :=
  ∀ s : Session, ∃ ds, (m s).2.diagnostics.toList = s.diagnostics.toList ++ ds ∧
    ((∀ d ∈ ds, d.disposition = .thrown ∨ d.IsUnread) →
      m s.withoutRecovery = ((m s).1, (m s).2.withoutRecovery))

namespace Modeless

variable {m : Eval α}

theorem of_silent (hd : ∀ s, (m s).2.diagnostics = s.diagnostics)
    (h : ∀ s, m s.withoutRecovery = ((m s).1, (m s).2.withoutRecovery)) : Modeless m :=
  fun s => ⟨[], by simp [hd s], fun _ => h s⟩

theorem bind {f : α → Eval β} (hm : Modeless m) (hf : ∀ a, Modeless (f a)) : Modeless (m >>= f) := by
  intro s
  obtain ⟨ds, hds, heq⟩ := hm s
  change ∃ ds', (Eval.bind m f s).2.diagnostics.toList = _ ∧
    (_ → Eval.bind m f s.withoutRecovery = ((Eval.bind m f s).1, (Eval.bind m f s).2.withoutRecovery))
  unfold Eval.bind
  cases hr : m s with
  | mk r t =>
    rw [hr] at hds heq
    cases r with
    | done a =>
      obtain ⟨es, hes, heq'⟩ := hf a t
      have ht : t.diagnostics.toList = s.diagnostics.toList ++ ds := hds
      refine ⟨ds ++ es, by simp [hes, ht], fun hall => ?_⟩
      rw [List.forall_mem_append] at hall
      rw [heq hall.1]
      exact heq' hall.2
    | failed e | exhausted => exact ⟨ds, hds, fun hall => by rw [heq hall]⟩

theorem observe (hm : Modeless m) : Modeless (Eval.observe m) := by
  intro s
  obtain ⟨ds, hds, heq⟩ := hm s
  unfold Eval.observe
  cases hr : m s with
  | mk r t =>
    rw [hr] at hds heq
    cases r with
    | done a | failed e | exhausted => exact ⟨ds, hds, fun hall => by rw [heq hall]⟩

theorem inContext (c : Context) (hm : Modeless m) : Modeless (Eval.inContext c m) := by
  intro s
  obtain ⟨ds, hds, heq⟩ := hm { s with contexts := c :: s.contexts }
  refine ⟨ds, hds, fun hall => ?_⟩
  have h := heq hall
  unfold Eval.inContext
  dsimp only [Session.withoutRecovery] at h ⊢
  rw [h]
  rfl

theorem inTry (hm : Modeless m) : Modeless (Eval.inTry m) := by
  intro s
  obtain ⟨ds, hds, heq⟩ := hm { s with tryDepth := s.tryDepth + 1 }
  refine ⟨ds, hds, fun hall => ?_⟩
  have h := heq hall
  unfold Eval.inTry
  dsimp only [Session.withoutRecovery] at h ⊢
  rw [h]

theorem inScopes (chain : Chain) (hm : Modeless m) : Modeless (Eval.inScopes chain m) := by
  intro s
  obtain ⟨ds, hds, heq⟩ := hm (s.setLexical chain)
  refine ⟨ds, ?_, fun hall => ?_⟩
  · rw [Session.diagnostics_setLexical] at hds
    exact (congrArg Array.toList (Session.diagnostics_setLexical _ _)).trans hds
  · have h := heq hall
    rw [Session.withoutRecovery_setLexical] at h
    unfold Eval.inScopes
    dsimp only
    rw [h, Session.withoutRecovery_setLexical]
    rfl

theorem recover (kind : ErrorKind) (message : String) {m m' : Eval α} (hm : Modeless m)
    (hm' : Modeless m') :
    Modeless (do if ← Eval.read Session.recovers then reportRecovered kind message; m else m') := by
  intro s
  rw [run_read_bind, run_read_bind]
  have hoff : s.withoutRecovery.recovers = false := rfl
  rw [hoff, if_neg (by simp : ¬ false = true)]
  cases hr : s.recovers with
  | true =>
    rw [if_pos rfl]
    obtain ⟨ds, hds, -⟩ := hm (s.report (.fault kind message) .recovered)
    refine ⟨⟨.fault kind message, s.current.filename, .recovered⟩ :: ds, ?_, fun hall => ?_⟩
    · exact hds.trans (by simp [Session.report])
    · rcases hall _ List.mem_cons_self with h | ⟨p, text, -, h⟩
      · cases h
      · cases h
  | false =>
    rw [if_neg (by simp)]
    exact hm' s

end Modeless

/-- Indifference to the mode is a law: what asks for the mode reports a recovery if it finds it on. -/
theorem modeless_law : Law (fun _ => True) Modeless where
  pure a := .of_silent (fun _ => rfl) fun _ => rfl
  bind := .bind
  exhausted := .of_silent (fun _ => rfl) fun _ => rfl
  thrown _ := trivial
  fail _ := .of_silent (fun _ => rfl) fun _ => rfl
  observe hm hk := .bind (.observe hm) fun r => hk r fun _ _ => trivial
  read f hf := .of_silent (fun _ => rfl) fun s => by
    change (Outcome.done (f s.withoutRecovery), _) = _
    rw [hf]
    rfl
  onStore _ := .of_silent (fun _ => rfl) fun _ => rfl
  allocate _ := .of_silent (fun _ => rfl) fun _ => rfl
  newFunction _ _ := .of_silent (fun _ => rfl) fun _ => rfl
  inContext := .inContext
  inScopes := .inScopes
  inTry := .inTry
  reportThrown kind message s := ⟨[⟨.fault kind message, s.current.filename, .thrown⟩],
    by simp [Eval.modify, Session.report], fun _ => rfl⟩
  reportUnread {p text} h s := ⟨[⟨.unread p text, s.current.filename, .recovered⟩],
    by simp [Json.reportUnread, Eval.modify, Session.report], fun _ => rfl⟩
  recover := .recover
  draw _ := .of_silent (fun _ => rfl) fun _ => rfl
  dispatch callee run refuse hrun hrefuse := by
    refine .bind (.of_silent (fun _ => rfl) fun _ => rfl) fun h => ?_
    split
    · exact hrun _ trivial
    · exact hrefuse h

theorem Modeless.eq_of_unrecovered {m : Eval α} (hm : Modeless m) {s : Session}
    (h : s.Unrecovered (m s).2) : m s.withoutRecovery = ((m s).1, (m s).2.withoutRecovery) := by
  obtain ⟨ds, hds, heq⟩ := hm s
  exact heq (h.added hds)

end Eval

/-- A run or a call in which no fault is recovered ends in the same way, and leaves the same session, when
recovery is turned off. -/
theorem mode_shows_only_in_recoveries [Platform] (host : Host) (hr : host.ReadsPrograms)
    (hf : host.Respects (fun _ => True) Eval.Modeless) (s : Session) :
    (∀ source filename, s.Unrecovered (s.runFile host source filename).2 →
      s.withoutRecovery.runFile host source filename =
        ((s.runFile host source filename).1, (s.runFile host source filename).2.withoutRecovery)) ∧
    ∀ callee receiver args options,
      (s.Unrecovered (host.call callee receiver args options s).2 →
        host.call callee receiver args options s.withoutRecovery =
          ((host.call callee receiver args options s).1,
            (host.call callee receiver args options s).2.withoutRecovery)) ∧
      (s.Unrecovered (host.complete callee receiver args options s).2 →
        host.complete callee receiver args options s.withoutRecovery =
          ((host.complete callee receiver args options s).1,
            (host.complete callee receiver args options s).2.withoutRecovery)) := by
  have L := Eval.modeless_law
  refine ⟨fun source filename h => ?_, fun callee receiver args options => ⟨?_, ?_⟩⟩
  · cases hm : host.runFile source filename with
    | error e => rw [Session.runFile_refused hm, Session.runFile_refused hm]
    | ok m =>
      rw [Session.runFile_snd hm] at h
      have heq := (L.runFile hr hf hm).eq_of_unrecovered h
      unfold Session.runFile
      rw [hm]
      dsimp only
      rw [heq]
      cases hms : m s with
      | mk r t => cases r <;> rfl
  · exact (L.call hr hf callee receiver args options).eq_of_unrecovered
  · exact (L.complete hr hf callee receiver args options).eq_of_unrecovered

/-- The first of the two diagnostics is of an error that is thrown and caught, the second of a text that
cannot be read. -/
theorem Session.unrecovered_catching : Session.catching.Unrecovered
    (Host.standard.complete (.object ⟨2⟩) .undefined [] {} .catching).2 := by
  refine ⟨[⟨.fault .referenceError "x is not defined", "a.js", .thrown⟩,
    ⟨.unread ⟨.endInList, 0⟩ ['['], "a.js", .recovered⟩], rfl, ?_⟩
  rw [List.forall_mem_cons, List.forall_mem_singleton]
  exact ⟨.inl rfl, .inr ⟨_, _, rfl, rfl⟩⟩

theorem mode_shows_only_in_recoveries_caught :
    Session.catching.recovers = true ∧
      Session.catching.Unrecovered
        (Host.standard.complete (.object ⟨2⟩) .undefined [] {} .catching).2 ∧
      Host.standard.complete (.object ⟨2⟩) .undefined [] {} Session.catching.withoutRecovery =
        ((Host.standard.complete (.object ⟨2⟩) .undefined [] {} .catching).1,
          (Host.standard.complete (.object ⟨2⟩) .undefined [] {} .catching).2.withoutRecovery) :=
  ⟨rfl, Session.unrecovered_catching,
    ((mode_shows_only_in_recoveries .standard Host.standard_readsPrograms
      Eval.modeless_law.standard_respects .catching).2 (.object ⟨2⟩) .undefined [] {}).2
      Session.unrecovered_catching⟩

end Surmise
