import Surmise.Proofs.Covering.Program

/-! What leaves code that is given to `eval`: an error that the code throws is thrown anew as another error
with the name and the message of the first. Where one of them has no text that can be told, the new error
has a definite one all the same. -/
namespace Surmise

open Eval

/-! ### Calls of `eval` -/

theorem invoke_eval [Platform] (contexts : Nat) {host : Host} {callee : Value} {source : String}
    {options : CallOptions} {fragment : Fragment} {s : Session}
    (hcallee : s.heap.callable? callee = some (.builtin .eval))
    (hread : host.read source (options.filename.getD s.current.filename) = .ok fragment)
    (receiver : Value) (args : List Value) :
    invoke host (contexts + 1) callee receiver (.string source :: args) options s =
      guarded receiver (.string source :: args)
        (Builtin.evalFragment (invoke host contexts) fragment options.direct
          (options.filename.getD s.current.filename)) s := by
  rw [invoke_builtin host contexts receiver _ options hcallee]
  refine guarded_congr ?_ receiver _
  refine (run_bind (s := s) (m := Eval.current) rfl).trans ?_
  simp only [hread]

theorem Builtin.run_evalFragment {call : Invoke} {fragment : Fragment} {direct : Bool}
    {filename : String} {s : Session} (hdepth : s.depthExceeded = false) :
    evalFragment call fragment direct filename s =
      (inEval fragment.strict direct filename (fragment.run call) >>= evalResult) s := by
  unfold evalFragment
  rw [run_read_bind, hdepth, if_neg Bool.false_ne_true]
  simp only [inEval, bind_assoc]

/-! ### The parts of an error -/

namespace Heap

def errorName (h : Heap) (id : ObjectId) : Value := .ofString? (h.toText? (h.get id "name"))

/-- The message of an error as a text, empty where there is none and unknown where it cannot be told. -/
def errorMessage (h : Heap) (id : ObjectId) : Value :=
  if (h.get id "message").isUndefined then .string "" else .ofString? (h.toText? (h.get id "message"))

end Heap

def Value.orText (v : Value) (text : String) : Value := if v.isUnknown then .string text else v

theorem Value.orText_ofString? (o : Option String) (text : String) :
    (ofString? o).orText text = .string (o.getD text) := by
  cases o <;> rfl

theorem Record.get_errorNamed_name (name message : String) :
    (errorNamed name message).get "name" = .string name := by
  simp [errorNamed, ofError, Record.get]

theorem Record.get_errorNamed_message (name message : String) :
    (errorNamed name message).get "message" = .string message := by
  simp [errorNamed, ofError, Record.get]

theorem Builtin.evalResult_error {s : Session} {id : ObjectId} {kind : ErrorKind}
    (hclass : (s.heap.record id).objectClass = .error kind) :
    ∃ name message, .string name = (s.heap.errorName id).orText kind.name ∧
      .string message = (s.heap.errorMessage id).orText "" ∧
      evalResult (.throw (some (.object id))) s =
        (.failed (.thrown (.object ⟨s.heap.size⟩)),
          { s with store := (s.store.allocate (.errorNamed name message)).1 }) := by
  refine ⟨(s.heap.toText? (s.heap.get id "name")).getD kind.name,
    if (s.heap.get id "message").isUndefined then ""
      else (s.heap.toText? (s.heap.get id "message")).getD "", ?_, ?_, ?_⟩
  · exact (Value.orText_ofString? _ _).symm
  · unfold Heap.errorMessage
    split
    · rfl
    · exact (Value.orText_ofString? _ _).symm
  · refine (run_bind (s := s) (m := Eval.read Session.heap) rfl).trans ?_
    simp only [hclass]
    rfl

/-! ### Errors thrown anew -/

/-- An error that leaves the code of a call of `eval` is thrown anew, as an error that was not there before.
The name and the message of the new one are the texts of those of the old one as far as they can be told; in
place of a name that cannot be told it has the one of its kind, in place of a message the empty text. Nothing
else happens. -/
theorem eval_throws_errors_anew [Platform] (host : Host) (contexts : Nat) {callee receiver : Value}
    {source : String} {args : List Value} {options : CallOptions} {fragment : Fragment} {s t : Session}
    {id : ObjectId} {kind : ErrorKind}
    (hc : s.heap.callable? callee = some (.builtin .eval))
    (hr : receiver.isUnknown = false) (ha : args.any Value.isUnknown = false)
    (hdepth : s.depthExceeded = false)
    (hread : host.read source (options.filename.getD s.current.filename) = .ok fragment)
    (hrun : inEval fragment.strict options.direct (options.filename.getD s.current.filename)
      (fragment.run (invoke host contexts)) s = (.done (.throw (some (.object id))), t))
    (hclass : (t.heap.record id).objectClass = .error kind) :
    ∃ e t', invoke host (contexts + 1) callee receiver (.string source :: args) options s =
        (.failed (.thrown (.object e)), t') ∧
      e.index = t.heap.size ∧ (∃ k, (t'.heap.record e).objectClass = .error k) ∧
      t'.heap.get e "name" = (t.heap.errorName id).orText kind.name ∧
      t'.heap.get e "message" = (t.heap.errorMessage id).orText "" ∧
      (∀ j, j.index ≠ e.index → t'.heap.record j = t.heap.record j) ∧
      t'.store.scopes = t.store.scopes ∧ { t' with store := t.store } = t := by
  obtain ⟨name, message, hname, hmessage, hresult⟩ := Builtin.evalResult_error hclass
  have hbody : Builtin.evalFragment (invoke host contexts) fragment options.direct
      (options.filename.getD s.current.filename) s =
      (.failed (.thrown (.object ⟨t.heap.size⟩)),
        { t with store := (t.store.allocate (.errorNamed name message)).1 }) := by
    rw [Builtin.run_evalFragment hdepth, run_bind hrun, hresult]
  have hnew : (t.heap.allocate (.errorNamed name message)).1.record ⟨t.heap.size⟩ =
      .errorNamed name message := by
    rw [Heap.record_allocate, if_pos rfl]
  refine ⟨⟨t.heap.size⟩, { t with store := (t.store.allocate (.errorNamed name message)).1 }, ?_, rfl,
    ⟨.ofName name, congrArg Record.objectClass hnew⟩, ?_, ?_, ?_, rfl, rfl⟩
  · rw [invoke_eval contexts hc hread]
    exact run_guarded_thrown hr ha hbody
  · exact (congrArg (Record.get · "name") hnew).trans
      ((Record.get_errorNamed_name name message).trans hname)
  · exact (congrArg (Record.get · "message") hnew).trans
      ((Record.get_errorNamed_message name message).trans hmessage)
  · intro j hj
    exact (Heap.record_allocate ..).trans (if_neg hj)

def Session.accusing (name message : Value) : Session where
  options := {}
  store :=
    { heap := ⟨#[.ofEntries [("eval", .object ⟨1⟩), ("e", .object ⟨2⟩)], .ofCallable (.builtin .eval),
        .ofError .typeError name message, .errorNamed "Error" "inner"]⟩
      scopes := #[{ object := some ⟨0⟩ }] }
  globalObject := ⟨0⟩
  globalContext := ⟨[⟨0⟩], [⟨0⟩], .object ⟨0⟩, false, false, "a.js"⟩

/-- The program that a text is read as. -/
def Program.ofText (source : String) : Program :=
  match Program.parse source with
  | .ok p => p
  | .error _ => ⟨[], false, default⟩

theorem Program.parse_ofText {source : String} (h : (Program.parse source).isOk = true) :
    Program.parse source = .ok (.ofText source) := by
  unfold Program.ofText
  cases hp : Program.parse source with
  | ok p => rfl
  | error e =>
    rw [hp] at h
    cases h

theorem Host.read_ofText {source : String} (h : (Program.parse source).isOk = true)
    (filename : String) : Host.standard.read source filename = .ok (Program.ofText source).fragment :=
  congrArg (Except.map Program.fragment) (Program.parse_ofText h)

def Program.throwing (name : String) : Program :=
  ⟨[.throw (.identifier ⟨name, default⟩)], false, default⟩

/-- The name of the error is another error, and the message is no text either. -/
theorem eval_throws_errors_anew_converted :
    ∃ e t, invoke (.reading (.throwing "e")) 1 (.object ⟨1⟩) .undefined [.string ""] {}
        (.accusing (.object ⟨3⟩) .null) = (.failed (.thrown (.object e)), t) ∧
      t.heap.get e "name" = .string "Error: inner" ∧ t.heap.get e "message" = .string "null" := by
  obtain ⟨e, t, h, _, _, hname, hmessage, _⟩ :=
    @eval_throws_errors_anew _ (.reading (.throwing "e")) 0 (.object ⟨1⟩) .undefined "" [] {} _
      (.accusing (.object ⟨3⟩) .null) _ _ _ rfl rfl rfl rfl rfl rfl rfl
  exact ⟨e, t, h, hname.trans rfl, hmessage.trans rfl⟩

def Session.thrownTexts : Outcome Value × Session → Option (Option String × Option String)
  | (.failed (.thrown (.object e)), s) =>
    some ((s.heap.get e "name").asString?, (s.heap.get e "message").asString?)
  | _ => none

/-- The new error makes up what the old one does not tell. -/
theorem eval_invents_error_texts :
    [((Value.unknown, .string "m") : Value × Value), (.string "N", .unknown), (.unknown, .unknown)].map
      (fun parts => (Session.thrownTexts
          (invoke .standard 1 (.object ⟨1⟩) .undefined [.string "throw e"] {}
            (.accusing parts.1 parts.2)),
        ((Session.accusing parts.1 parts.2).heap.errorName ⟨2⟩).asString?,
        ((Session.accusing parts.1 parts.2).heap.errorMessage ⟨2⟩).asString?)) =
      [(some (some "TypeError", some "m"), none, some "m"),
        (some (some "N", some ""), some "N", none),
        (some (some "TypeError", some ""), none, none)] := by
  decide +kernel

end Surmise
