import Surmise.Proofs.Termination.Evaluation

/-! Programs without catch clauses come to an end in sessions without `eval` and `JSON`. Calls enter
contexts inside one another up to the limit on the depth of calls, and beyond it they are refused; the
built-in functions that are left call no others. -/
namespace Surmise

/-- No catch clause stands in the program, be it in a function or not. -/
def Program.Catchless (p : Program) : Prop :=
  Stmt.AllIn False (fun _ _ => True) (.head p.strict p.body) p.body

abbrev Invoke.Ending (limit d : Nat) (call' call : Invoke) : Prop :=
  Invoke.Surveyed Value.Reached
    (fun _ w _ _ => Eval.Ends limit d w fun w a => Bearing.All (Value.Reached w) a) call' call

theorem Builtin.run_confined [Platform] {b : Builtin} (hb : (Callable.builtin b).Confined) (host' host : Host)
    (inner' inner call' call : Invoke) (args : List Value) (options : CallOptions) :
    b.run host' inner' call' args options = b.run host inner call args options := by
  cases b with
  | eval => exact absurd rfl hb.1
  | jsonParse => exact absurd rfl hb.2.1
  | jsonStringify => exact absurd rfl hb.2.2
  | math f => cases f <;> rfl
  | _ => rfl

theorem Value.isObject_ofNumber? (x? : Option Float) : (Value.ofNumber? x?).isObject = false := by
  cases x? <;> rfl

theorem Value.isObject_ofBool? (b? : Option Bool) : (Value.ofBool? b?).isObject = false := by
  cases b? <;> rfl

namespace Eval.Ends

open Bearing (all_returned)

variable {limit d : Nat} {w : Set ObjectId}

/-! ### Built-in functions -/

theorem onHeap {f : Heap → Value} (hf : ∀ h, (f h).isObject = false) :
    Halts limit d w Value.Reached (Eval.onHeap f) :=
  .read fun s _ => Value.reached_of_not_object (hf s.heap) _

theorem onText (f : List Char → Option (List Char)) (v : Value) :
    Halts limit d w Value.Reached (Builtin.onText f v) := by
  refine .bind (.ask _) fun _ _ s? _ => ?_
  cases s? with
  | none => exact .pure_plain rfl
  | some s =>
    dsimp only
    split
    · exact .pure_plain rfl
    · exact .fail _

theorem randomNumber :
    Ends limit d w Value.Reached Builtin.randomNumber Builtin.randomNumber := by
  have hdraw {w : Set ObjectId} (randoms : Randoms) :
      Halts limit d w Any (Eval.modify fun s => { s with randoms }) :=
    .modify (fun _ => rfl) fun _ => rfl
  refine .bind (.ask _) fun _ _ exactly _ => ?_
  split
  · refine .bind (.ask _) fun _ _ randoms _ => .bind (hdraw _) fun _ _ _ _ => .pure_plain ?_
    rfl
  · exact .pure_plain rfl

theorem builtin [Platform] {b : Builtin} (hb : (Callable.builtin b).Confined) (host : Host)
    (inner call : Invoke) (args : List Value) (options : CallOptions) :
    Halts limit d w Value.Reached (b.run host inner call args options) := by
  cases b with
  | eval => exact absurd rfl hb.1
  | jsonParse => exact absurd rfl hb.2.1
  | jsonStringify => exact absurd rfl hb.2.2
  | parseInt | parseFloat =>
    unfold Builtin.run
    exact onHeap fun _ => Value.isObject_ofNumber? _
  | isNaN | isFinite =>
    unfold Builtin.run
    exact onHeap fun _ => Value.isObject_ofBool? _
  | decodeURI | decodeURIComponent | encodeURI | encodeURIComponent =>
    unfold Builtin.run
    exact onText _ _
  | math f =>
    cases f with
    | random => exact randomNumber
    | _ =>
      unfold Builtin.run
      exact onHeap fun _ => Value.isObject_ofNumber? _

theorem guarded {receiver : Value} {args : List Value} {body : Eval Value}
    (hb : Ends limit d w Value.Reached body body) :
    Halts limit d w Value.Reached (Eval.guarded receiver args body) := by
  unfold Eval.guarded
  split
  · exact .pure_plain rfl
  refine .bind (observe hb) fun _ _ r hr => ?_
  split
  · exact .route _ _
  · exact .resume fun _ hw v hv => (hr v hv).mono hw

/-! ### Calls -/

theorem bindParams (scope : ScopeId) (ps : List Identifier) {args : List Value}
    (hargs : ∀ v ∈ args, v.Reached w) : Halts limit d w Any (Eval.bindParams scope ps args) := by
  induction ps generalizing w args with
  | nil => exact .pure_any
  | cons p ps ih =>
    have hfirst : (args.headD .undefined).Reached w := by
      cases args with
      | nil => exact Value.reached_of_not_object rfl w
      | cons v vs => exact hargs v List.mem_cons_self
    exact .bind (declare scope p.name hfirst true) fun _ hw _ _ =>
      ih fun v hv => (hargs v (List.mem_of_mem_tail hv)).mono hw

theorem receiverFor (strict : Bool) {receiver : Value} (hr : receiver.Reached w) :
    Halts limit d w Value.Reached (Eval.receiverFor strict receiver) := by
  refine .read fun s hs => ?_
  split
  · rintro _ ⟨⟩
    exact hs.global
  · exact hr.mono hs.known

theorem callWith {run' run : Callable → Eval Value}
    (hrun : ∀ c : Callable, c.Confined → ∀ w', w ≤ w' →
      Ends limit d w' Value.Reached (run' c) (run c))
    {callee : Value} (hcallee : callee.Reached w) :
    Ends limit d w Value.Reached (Surmise.callWith run' callee)
      (Surmise.callWith run callee) := by
  unfold Surmise.callWith
  split
  · exact .pure_plain rfl
  refine .bind (P := fun _ h => ∀ c, h.callable? callee = some c → c.Confined)
    (.read fun s hs c hc => ?_) fun w' hw h hconfined => ?_
  · cases callee with
    | object id => exact (hs.known (hcallee id rfl)).2.confined c hc
    | _ => cases hc
  cases hk : h.callable? callee with
  | some c => exact hrun c (hconfined c hk) w' hw
  | none => exact .throwNew _ _

section Observed

variable {o : Observer} (ho : o.Awaits fun s => ¬ s.heap.Settles)
include ho

/-- A call that the limit admits enters a context, and all others are refused. -/
theorem apply {call' call : Invoke} {f : Function} {chain : Chain}
    (hf : Callable.Confined (.closure f chain))
    (hc : d < limit → Invoke.Ending limit (d + 1) call' call)
    {receiver : Value} (hr : receiver.Reached w) {args : List Value} (hargs : ∀ v ∈ args, v.Reached w) :
    Ends limit d w Value.Reached (o.apply call' f chain receiver args)
      (f.apply call chain receiver args) := by
  refine .bind (P := fun _ exceeded => exceeded = decide (limit < d + 1)) (.read fun s hs => ?_)
    fun w₁ hw₁ exceeded he => ?_
  · rw [Session.depthExceeded, Session.depth, hs.depth, hs.contexts]
  split
  · exact .route _ _
  next hexceeded =>
    have hd : d < limit := by
      rw [he, decide_eq_true_iff] at hexceeded
      omega
    refine .bind newScope fun w₂ hw₂ scope _ =>
      .bind (bindParams scope f.params fun v hv => (hargs v hv).mono (hw₁.trans hw₂)) fun w₃ hw₃ _ _ =>
      .bind (receiverFor f.strict (hr.mono ((hw₁.trans hw₂).trans hw₃))) fun w₄ _ receiver hr =>
      .bind (.ask _) fun w₅ hw₅ c _ => .bind (inContext (hr.mono hw₅) (.bind
        (declareBody ho (i := .head f.strict f.body) scope hf) fun w₆ _ _ _ =>
          (survey ho).stmtAll (hc hd) none f.body nofun hf)) fun _ _ flow hflow => ?_
    cases flow with
    | normal v => exact .pure_plain rfl
    | returned v => exact .pure fun _ hw => (all_returned.mp hflow).mono hw

theorem ending_invoke [Platform] (host' host : Host) {n d : Nat} (hn : limit < n + d) (h0 : n ≠ 0) :
    Invoke.Ending limit d (o.invoke host' n) (Surmise.invoke host n) := by
  induction n generalizing d with
  | zero => exact absurd rfl h0
  | succ n ih =>
    intro _ w callee receiver args options hcallee hr hargs
    refine value (callWith (fun c hc w' hw => ?_) hcallee)
    have hr' := hr.mono hw
    have hargs' : ∀ v ∈ args, v.Reached w' := fun v hv => (hargs v hv).mono hw
    cases c with
    | closure f chain => exact apply ho hc (fun hd => ih (by omega) (by omega)) hr' hargs'
    | builtin b =>
      unfold Observer.runCallable Callable.run
      dsimp only
      rw [Builtin.run_confined hc host' host _ (Surmise.invoke host n) _ (relay host _ _)]
      exact guarded (builtin hc _ _ _ _ _)
    | foreign name arity isGuarded => exact hc.elim

/-! ### Programs -/

theorem program {call' call : Invoke} {p : Program} (hp : p.Catchless)
    (hc : Invoke.Ending limit d call' call) : Ends limit d w Any (o.run call' p) (p.run call) := by
  refine .bind (observe (.bind (declareAll ho (i := .head p.strict p.body) hp) fun _ _ _ _ =>
    (survey ho).stmtAll hc none p.body nofun hp)) fun _ _ r _ => ?_
  obtain f | v | v := r
  · exact stray ho _ (.settle _)
  · exact .pure_any
  · exact .pure_any

theorem runFragment [Platform] (host' host : Host) {p : Program} (hp : p.Catchless) (filename : String) :
    Ends limit 0 w (fun _ _ => True)
      (Session.runFragment (o.invoke host' (limit + 2)) (o.fragment p) filename)
      (Session.runFragment (Surmise.invoke host (limit + 2)) p.fragment filename) := by
  refine .bind (P := fun w c => c.receiver.Reached w) (.read fun s hs => ?_) fun _ _ c hc =>
    inContext hc (program ho hp (ending_invoke ho host' host (by omega) (by omega)))
  rintro _ ⟨⟩
  exact hs.global

end Observed
end Eval.Ends

/-! ### Completions -/

def Eval.Faultless {α : Type} (m : Eval α) : Prop := ∀ s e, (m s).1 ≠ .failed e

namespace Eval.Faultless

variable {α β : Type}

theorem bind {m : Eval α} {f : α → Eval β} (hm : m.Faultless) (hf : ∀ a, (f a).Faultless) :
    (m >>= f).Faultless := by
  intro s e
  cases hr : m s with
  | mk r t =>
    cases r with
    | done a =>
      rw [run_bind hr]
      exact hf a t e
    | failed e' => exact absurd (congrArg Prod.fst hr) (hm s e')
    | exhausted =>
      rw [run_bind_exhausted hr]
      nofun

theorem observe (m : Eval α) : (Eval.observe m).Faultless := by
  intro s e
  unfold Eval.observe
  cases m s with
  | mk r t => cases r <;> nofun

theorem settle (r : Except Fault Value) : (Eval.settle r).Faultless := by
  obtain (v | e) | v := r
  · exact fun _ _ => nofun
  · refine .bind (fun _ _ => nofun) fun recovers => ?_
    split
    · exact .bind (fun _ _ => nofun) fun _ _ _ => nofun
    · exact .bind (.bind (.bind (fun _ _ => nofun) fun _ _ _ => nofun) fun _ =>
        .bind (fun _ _ => nofun) fun _ _ _ => nofun) fun _ _ _ => nofun
  · exact fun _ _ => nofun

theorem program (call : Invoke) (p : Program) : (p.run call).Faultless := by
  refine .bind (.observe _) fun r => ?_
  obtain f | v | v := r
  · exact .settle _
  · exact fun _ _ => nofun
  · exact fun _ _ => nofun

theorem runFragment (call : Invoke) (p : Program) (filename : String) :
    (Session.runFragment call p.fragment filename).Faultless :=
  .bind (fun _ _ => nofun) fun c s e => program call p { s with contexts := c :: s.contexts } e

end Eval.Faultless

theorem RunResult.completed_ofOutcome {x : Outcome Completion × Session} (hend : x.1 ≠ .exhausted)
    (hfault : ∀ e, x.1 ≠ .failed e) : ∃ c, (ofOutcome x).1 = .completed c := by
  obtain ⟨c | e | _, s⟩ := x
  · exact ⟨c, rfl⟩
  · exact absurd rfl (hfault e)
  · exact absurd rfl hend

namespace Session

/-! ### Runs -/

section Parsed

variable [Platform] {limit : Nat} {w : Set ObjectId} {s : Session} (hs : s.Ready limit 0 w) {parse : Parser}
  {foreign : Foreign} {source filename : String} {p : Program}
  (hparse : parse source filename = .ok p) (hp : p.Catchless)
include hs hparse hp

theorem Ready.runFile_observed {o : Observer} (ho : o.Awaits fun s => ¬ s.heap.Settles) :
    o.runFile (o.parsing parse foreign) source filename s =
      s.runFile (.parsing parse foreign) source filename := by
  rw [Observer.runFile_parsing hparse, runFile_parsing hparse, contextBudget, hs.depth]
  exact congrArg RunResult.ofOutcome (Eval.Ends.runFragment ho _ _ hp filename s hs).1

theorem Ready.completes :
    ∃ c, (s.runFile (.parsing parse foreign) source filename).1 = .completed c := by
  have hsilent := Observer.awaits_silent fun s => ¬ s.heap.Settles
  rw [runFile_parsing hparse, contextBudget, hs.depth]
  exact RunResult.completed_ofOutcome
    (Eval.Ends.runFragment hsilent (.parsing parse foreign) _ hp filename s hs).2.ended
    (Eval.Faultless.runFragment _ p filename s)

end Parsed

theorem ready_bare (options : Options) (randoms : Randoms) :
    (bare options randoms).Ready options.maxCallDepth 0 (bare options randoms).heap.reach := by
  have h := sealed_bare options randoms
  unfold bare new fromStore at h ⊢
  -- what the global object holds is not looked at again
  generalize Store.addGlobal {} = a at h ⊢
  exact ⟨rfl, rfl, h.1, le_rfl, h.2, fun _ hid => Value.object.inj hid ▸ h.2⟩

end Session

/-- A program without catch clauses comes to an end in a new session without `eval` and `JSON`, whatever
the options are. So do the conversions and comparisons on its way: no observer who waits for one that
does not makes a difference to the run. -/
theorem catchless_programs_complete [Platform] (options : Options) (randoms : Randoms) (parse : Parser)
    (foreign : Foreign) (source filename : String) (p : Program) (hparse : parse source filename = .ok p)
    (hp : p.Catchless) :
    (∃ c, ((Session.bare options randoms).runFile (.parsing parse foreign) source filename).1 =
        .completed c) ∧
      ∀ o : Observer, o.Awaits (fun s => ¬ s.heap.Settles) →
        o.runFile (o.parsing parse foreign) source filename (.bare options randoms) =
          (Session.bare options randoms).runFile (.parsing parse foreign) source filename := by
  have hready := Session.ready_bare options randoms
  exact ⟨hready.completes hparse hp, fun _ ho => hready.runFile_observed hparse hp ho⟩

/-- The program `var a = []; a[0] = a; function f() { try { f(); f() } finally { a + a } } f()`. -/
def Program.cycling : Program :=
  let a : Expr := .identifier ⟨"a", default⟩
  let callF : Stmt := .expression (.call (.identifier ⟨"f", default⟩) [] default)
  { body := [
      .declare .variable [.mk ⟨"a", default⟩ (some (.array []))],
      .expression (.assign .assign (.member (.index a (.literal (.number 0)) default)) a),
      .function (.mk (some ⟨"f", default⟩) [] [.attempt [callF, callF] none
        (some [.expression (.binary .add a a)])] false default),
      callF]
    strict := false
    span := default }

/-- A function calls itself twice until calls are refused, and converts an array that holds itself
whenever it is left. -/
theorem catchless_programs_complete_cycling :
    Program.cycling.Catchless ∧
      ∃ c, ((Session.bare { maxCallDepth := 3 }).runFile (.parsing (fun _ _ => .ok .cycling)
        fun _ _ _ _ _ => return .unknown) "" "a.js").1 = .completed c := by
  -- one clause for each node of the tree
  have hp : Program.cycling.Catchless :=
    ⟨⟨trivial, trivial⟩, ⟨⟨trivial, trivial⟩, trivial⟩,
      ⟨trivial, ⟨⟨⟨trivial, trivial⟩, ⟨trivial, trivial⟩, trivial⟩, trivial, ⟨trivial, trivial⟩, trivial⟩,
        trivial⟩, ⟨trivial, trivial⟩, trivial⟩
  exact ⟨hp, (catchless_programs_complete _ _ _ _ _ _ _ rfl hp).1⟩

end Surmise
