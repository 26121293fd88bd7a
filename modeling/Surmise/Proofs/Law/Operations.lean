import Surmise.Proofs.Law.Basic

/-! A law holds of the operations that evaluation is built from: on names and properties, on
declarations, and on values that are read from texts. -/
namespace Surmise

namespace Eval

def closure (f : Function) : Eval Value := do newFunction f (← current).lexical

theorem observe_onText_bind {α : Type} (f : List Char → Option (List Char)) (v : Value)
    (k : Except Fault Value → Eval α) :
    observe (Builtin.onText f v) >>= k = onHeap (fun h => h.toText? v) >>= fun text? =>
      text?.elim (k (.ok .unknown)) fun s =>
        (f s.toList).elim (k (.error (.host (.native .uriError "URI malformed")))) fun out =>
          k (.ok (.string (String.ofList out))) := by
  funext s
  change Eval.bind _ k s = _
  unfold Eval.bind Eval.observe Builtin.onText
  rw [run_bind (run_onHeap _ s), run_bind (run_onHeap _ s)]
  cases s.heap.toText? v with
  | none => rfl
  | some text =>
    dsimp only [Option.elim_some]
    cases f text.toList <;> rfl

namespace Core

variable {F : Fault → Prop} {P : ∀ {α : Type}, Eval α → Prop} (L : Core F @P)
include L

theorem resolve (name : String) : P (Eval.resolve name) := by
  refine L.bind (L.read _ fun _ => rfl) fun v? => ?_
  cases v? with
  | some v => exact L.pure v
  | none => exact L.route _ _

theorem isGlobalProperty (name : String) : P (Eval.isGlobalProperty name) := L.read _ fun _ => rfl

theorem readMember (object : Value) (key? : Option String) : P (Eval.readMember object key?) := by
  cases key? with
  | none => exact L.pure _
  | some key =>
    refine L.bind (L.read _ fun _ => rfl) fun h => ?_
    split
    · exact L.route _ _
    · exact L.pure _

theorem isDirectEval (name : String) (callee : Value) : P (Eval.isDirectEval name callee) := by
  unfold Eval.isDirectEval
  split
  · exact L.read _ fun _ => rfl
  · exact L.pure _

theorem typeofName (name : String) : P (Eval.typeofName name) := L.read _ fun _ => rfl

theorem attempt {block : Eval Flow} {handler : Option (Value → Eval Flow)}
    {finalizer : Option (Eval Flow)} (hb : P block) (hh : ∀ handle ∈ handler, ∀ v, P (handle v))
    (hf : ∀ finish ∈ finalizer, P finish) : P (Eval.attempt block handler finalizer) := by
  refine @Paired.attempt_unwatched _ _ L.paired block block handler handler finalizer finalizer hb ?_ ?_
  · cases handler with
    | none => exact .none
    | some handle => exact .some (hh handle rfl)
  · cases finalizer with
    | none => exact .none
    | some finish => exact .some (hf finish rfl)

/-! ### Texts -/

theorem guardedText (receiver : Value) (args : List Value) (f : List Char → Option (List Char))
    (v : Value) : P (Eval.guarded receiver args (Builtin.onText f v)) := by
  unfold Eval.guarded
  split
  · exact L.pure _
  · rw [observe_onText_bind]
    refine L.bind (L.onHeap _) fun text? => ?_
    cases text? with
    | none => exact L.pure _
    | some s =>
      dsimp only [Option.elim_some]
      cases f s.toList with
      | none => exact L.route _ _
      | some out => exact L.pure _

theorem routed (kind : ErrorKind) (message : String) : P (Json.routed kind message) :=
  L.bind (L.route kind message) fun _ => L.pure _

mutual

theorem toValue : ∀ j : Json, P j.toValue
  | .null | .bool _ | .number _ | .string _ => L.pure _
  | .array items => L.bind (itemValues items) fun vs => L.newObject (Record.data_list vs)
  | .object members => L.bind (memberValues members) fun vs => L.newObject (Record.data_entries vs)

theorem itemValues : ∀ items : List Json, P (Json.itemValues items)
  | [] => L.pure []
  | item :: items => L.bind (toValue item) fun _ => L.bind (itemValues items) fun _ => L.pure _

theorem memberValues : ∀ members : List (String × Json), P (Json.memberValues members)
  | [] => L.pure []
  | (_, item) :: members =>
    L.bind (toValue item) fun _ => L.bind (memberValues members) fun _ => L.pure _

end

theorem evalResult (c : Completion) : P (Builtin.evalResult c) := by
  cases c with
  | normal v => exact L.pure _
  | throw v? =>
    cases v? with
    | none => exact L.throwNew _ _
    | some v =>
      refine L.bind (L.read _ fun _ => rfl) fun h => ?_
      cases v with
      | object id =>
        dsimp only
        split
        · exact L.bind (L.newObject (Record.data_error _ _)) fun e => L.throw e
        · split
          · exact L.throwNew _ _
          · exact L.throw _
      | unknown => exact L.throw _
      | _ =>
        dsimp only
        split
        · exact L.throwNew _ _
        · exact L.throw _

/-- After an assignment to a name, the global object is written to at most. -/
theorem afterAssignment {context : Context} {name : String} {v : Value} {a : Assignment}
    (hp : a = .unresolved → context.strict = false → P (Eval.putGlobal name v)) :
    P (Eval.afterAssignment context name v a) := by
  cases a with
  | done => exact L.pure ()
  | immutable =>
    refine L.bind (L.isGlobalProperty name) fun isGlobal => ?_
    split
    · exact L.routeOnly _ _
    · exact L.pure ()
  | unresolved =>
    rw [Eval.afterAssignment]
    split
    · exact L.routeOnly _ _
    next hstrict => exact hp rfl (Bool.eq_false_iff.mpr hstrict)

end Core

namespace Stem

variable [Platform] {F : Fault → Prop} {keep : ObjectId → Prop} {P : ∀ {α : Type}, Eval α → Prop}
  (L : Stem F keep @P)
include L

/-! ### Names and properties -/

theorem putGlobal (name : String) (v : Value) : P (Eval.putGlobal name v) :=
  L.bind (L.read _ fun _ => rfl) fun id => L.bind (L.put id name v) fun _ => L.pure ()

theorem afterAssignment (context : Context) (name : String) (v : Value) (a : Assignment) :
    P (Eval.afterAssignment context name v a) :=
  L.toCore.afterAssignment fun _ _ => L.putGlobal name v

theorem assignName (name : String) (v : Value) : P (Eval.assignName name v) := by
  rw [assignName_eq]
  exact L.bind L.current fun c => L.bind (L.assign c.lexical name v) fun a =>
    L.afterAssignment c name v a

theorem assignMember (object : Value) (key? : Option String) (v : Value) :
    P (Eval.assignMember object key? v) := by
  unfold Eval.assignMember Eval.writeMember
  cases key? with
  | none =>
    cases object with
    | object id => exact L.forgetAll id
    | _ => exact L.pure ()
  | some key =>
    cases object with
    | object id =>
      refine L.bind (L.put id key v) fun ok => L.bind L.current fun c => ?_
      split
      · exact L.routeOnly _ _
      · exact L.pure ()
    | undefined | null => exact L.bind (L.read _ fun _ => rfl) fun h => L.routeOnly _ _
    | boolean _ | number _ | string _ | unknown => exact L.pure ()

/-! ### Built-in functions -/

theorem settleMember {holder : ObjectId} (hh : ¬ keep holder) (key : String) (revived : Value) :
    P (Json.settleMember holder key revived) := by
  unfold Json.settleMember
  split
  · exact L.bind (L.delete hh key) fun _ => L.pure ()
  · exact L.bind (L.define hh key rfl) fun _ => L.pure ()

theorem randomNumber : P Builtin.randomNumber := by
  refine L.bind (L.read _ fun _ => rfl) fun exactMode => ?_
  split
  · exact L.bind (L.read _ fun _ => rfl) fun randoms => L.bind (L.draw _) fun _ => L.pure _
  · exact L.pure _

end Stem

namespace Leaf

variable [Platform] {F : Fault → Prop} {keep : ObjectId → Prop} {P : ∀ {α : Type}, Eval α → Prop}
  (L : Leaf F keep @P)
include L

/-! ### Declarations -/

theorem bindFirst (scope : ScopeId) (b : Option (String × Value)) : P (Eval.bindFirst scope b) := by
  cases b with
  | none => exact L.pure ()
  | some p => exact L.declare scope p.1 p.2 true

theorem bindParams (scope : ScopeId) (ps : List Identifier) (args : List Value) :
    P (Eval.bindParams scope ps args) := by
  induction ps generalizing args with
  | nil => exact L.pure ()
  | cons p ps ih => exact L.bind (L.declare scope p.name _ true) fun _ => ih args.tail

section Closures

variable (hnew : ∀ f, P (Eval.closure f))
include hnew

theorem declareFunctions {bindName : String → Value → Eval Unit}
    (hb : ∀ name v, P (bindName name v)) (fs : List (String × Function)) :
    P (Eval.declareFunctions bindName fs) := by
  induction fs with
  | nil => exact L.pure ()
  | cons p fs ih =>
    have h := L.bind (hnew p.2) fun v => L.bind (hb p.1 v) fun _ => ih
    rwa [Eval.closure, bind_assoc] at h

theorem declareBlock (scope : ScopeId) (body : List Stmt) : P (Eval.declareBlock scope body) :=
  L.declareFunctions hnew (fun name v => L.declare scope name v true) _

end Closures

end Leaf

/-! ### Observed declarations -/

namespace Paired

variable {F : Fault → Prop} {keep : ObjectId → Prop} {R : ∀ {α : Type}, Eval α → Eval α → Prop}
  (L : Paired F @R) {o : Observer}
include L

/-- Where the observer is called, evaluation is read as doing nothing first. -/
theorem hear {α : Type} {seen : Eval Unit} (hs : R seen (Pure.pure ())) {m' m : Eval α} (hm : R m' m) :
    R (do seen; m') m :=
  L.bind (m := Pure.pure ()) (f := fun _ => m) hs fun _ => hm

theorem assignName [Platform] (S : Stem F keep fun m => R m m)
    (hassigned : ∀ a, R (o.assigned a) (Pure.pure ())) (name : String) (v : Value) :
    R (o.assignName name v) (Eval.assignName name v) := by
  rw [assignName_eq]
  exact L.bind L.core.current fun c => L.bind (S.assign c.lexical name v) fun a =>
    L.hear (hassigned a) (S.afterAssignment c name v a)

theorem declareName [Platform] (S : Leaf F keep fun m => R m m)
    (hassigned : ∀ a, R (o.assigned a) (Pure.pure ()))
    (hdeclared : ∀ scope name, R (o.declared scope name) (Pure.pure ())) (kind : DeclKind)
    (name : String) (v? : Option Value) :
    R (o.declareName kind name v?) (Eval.declareName kind name v?) := by
  cases kind with
  | «variable» =>
    cases v? with
    | none => exact L.core.pure ()
    | some v => exact L.assignName S.stem hassigned name v
  | lexical | constant =>
    refine L.bind L.core.current fun c => ?_
    cases c.lexical with
    | nil => exact L.core.pure ()
    | cons scope _ => exact L.hear (hdeclared scope name) (S.declare scope name _ _)

theorem declareFunctions (strict : Bool) {bind' bind : String → Value → Eval Unit}
    (hb : ∀ name v, R (bind' name v) (bind name v)) (fs : List (String × Function))
    (hmade : ∀ f ∈ fs, R (o.made (.declared strict) f.2) (Pure.pure ()))
    (hnew : ∀ f ∈ fs, ∀ chain, R (newFunction f.2 chain) (newFunction f.2 chain)) :
    R (o.declareFunctions strict bind' fs) (Eval.declareFunctions bind fs) := by
  induction fs with
  | nil => exact L.core.pure ()
  | cons f fs ih =>
    exact L.hear (hmade f (.head _)) <| L.bind L.core.current fun c =>
      L.bind (hnew f (.head _) c.lexical) fun v => L.bind (hb f.1 v) fun _ =>
        ih (fun g hg => hmade g (.tail _ hg)) fun g hg => hnew g (.tail _ hg)

end Paired
end Eval
end Surmise
