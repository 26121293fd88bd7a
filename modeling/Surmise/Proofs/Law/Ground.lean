import Surmise.Proofs.Law.Operations

/-! A law holds of the built-in functions wherever it holds of the calls they make. -/
namespace Surmise

def Host.EvalsAlike (R : ∀ {α : Type}, Eval α → Eval α → Prop) (host' host : Host)
    (call' call : Invoke) : Prop :=
  ∀ source filename,
    (∃ e, host'.read source filename = .error e ∧ host.read source filename = .error e) ∨
      ∃ f' f, host'.read source filename = .ok f' ∧ host.read source filename = .ok f ∧
        f'.strict = f.strict ∧ ∀ direct filename,
          R (Eval.inEval f.strict direct filename (f'.run call'))
            (Eval.inEval f.strict direct filename (f.run call))

namespace Eval

/-- A relation that holds of operations on sessions, is kept by putting evaluations together, and knows
new objects not to be among those that are kept. -/
structure Ground [Platform] (F : Fault → Prop) (keep : ObjectId → Prop)
    (R : ∀ {α : Type}, Eval α → Eval α → Prop) : Prop extends Paired F @R where
  stem : Stem F keep fun m => R m m
  hold {α : Type} {r : Record} {k' k : ObjectId → Eval α} : r.Data →
    (∀ id, ¬ keep id → R (k' id) (k id)) → R (allocate r >>= k') (allocate r >>= k)

namespace Ground

variable [Platform] {F : Fault → Prop} {keep : ObjectId → Prop} {R : ∀ {α : Type}, Eval α → Eval α → Prop}
  (L : Ground F keep @R)
include L

theorem pure {α : Type} (a : α) : R (Pure.pure a) (Pure.pure a) := L.stem.pure a

section Texts

variable {call' call : Invoke}

/-! ### JSON texts read -/

theorem reviveMember (hc : Invoke.Paired R call' call) (reviver : Value) {holder : ObjectId}
    (hh : ¬ keep holder) (key : String) (v : Value) :
    R (Json.reviveMember call' reviver holder key v)
      (Json.reviveMember call reviver holder key v) :=
  L.bind (L.stem.put holder key v) fun _ =>
    L.bind (L.stem.define hh key rfl) fun _ =>
      L.bind (hc reviver (.object holder) [.string key, v] {}) fun revived =>
        L.stem.settleMember hh key revived

mutual

theorem revive (hc : Invoke.Paired R call' call) (reviver : Value) :
    ∀ j : Json, R (Json.revive call' reviver j) (Json.revive call reviver j)
  | .array items => L.hold (Record.data_list []) fun _ hh =>
    L.bind (reviveItems hc reviver hh 0 items) fun _ => L.pure _
  | .object members => L.hold (Record.data_entries []) fun _ hh =>
    L.bind (reviveMembers hc reviver hh members) fun _ => L.pure _
  | .null | .bool _ | .number _ | .string _ => L.pure _

theorem reviveItems (hc : Invoke.Paired R call' call) (reviver : Value) {holder : ObjectId}
    (hh : ¬ keep holder) :
    ∀ (i : Nat) (items : List Json),
      R (Json.reviveItems call' reviver holder i items)
        (Json.reviveItems call reviver holder i items)
  | _, [] => L.pure ()
  | i, item :: items => L.bind (revive hc reviver item) fun v =>
    L.bind (L.reviveMember hc reviver hh (indexKey i) v) fun _ => reviveItems hc reviver hh (i + 1) items

theorem reviveMembers (hc : Invoke.Paired R call' call) (reviver : Value) {holder : ObjectId}
    (hh : ¬ keep holder) :
    ∀ members : List (String × Json),
      R (Json.reviveMembers call' reviver holder members)
        (Json.reviveMembers call reviver holder members)
  | [] => L.pure ()
  | (key, item) :: members => L.bind (revive hc reviver item) fun v =>
    L.bind (L.reviveMember hc reviver hh key v) fun _ => reviveMembers hc reviver hh members

end

variable (hc : Invoke.Paired R call' call)
include hc

theorem parseText (reviver : Value) (text : String) :
    R (Json.parseText call' reviver text) (Json.parseText call reviver text) := by
  unfold Json.parseText
  split
  next p hp => exact L.bind (L.stem.reportUnread hp) fun _ => L.pure _
  next tree _ =>
    refine L.bind (L.stem.onHeap _) fun callable => ?_
    split
    · exact L.bind (L.revive hc reviver tree) fun v =>
        L.bind (L.stem.newObject (Record.data_entries [("", v)])) fun root =>
          hc reviver root _ {}
    · exact L.stem.toValue tree

/-! ### JSON texts written -/

theorem hooked (key : String) (v : Value) :
    R (Json.hooked call' key v) (Json.hooked call key v) := by
  cases v with
  | object id =>
    refine L.bind (L.stem.read _) fun h => ?_
    dsimp only
    split
    · exact L.pure _
    · split
      · exact L.bind (hc _ _ _ _) fun _ => L.pure _
      · exact L.pure _
  | _ => exact L.pure _

theorem replaced (style : Json.Style) (holder : ObjectId) (key : String) (v : Value) :
    R (Json.replaced call' style holder key v) (Json.replaced call style holder key v) := by
  unfold Json.replaced
  split
  · exact hc _ _ _ _
  · exact L.pure v

omit hc in
theorem elementParts {element' element : Nat → Eval Json.Piece}
    (he : ∀ i, R (element' i) (element i)) (n i : Nat) (parts : List String) :
    R (Json.elementParts element' n i parts) (Json.elementParts element n i parts) := by
  induction n generalizing i parts with
  | zero => exact L.pure _
  | succ n ih =>
    refine L.bind (he i) fun piece => ?_
    cases piece with
    | text s | omitted => exact ih (i + 1) _
    | unknown => exact L.pure _

omit hc in
theorem memberParts (style : Json.Style) {member' member : String → Eval Json.Piece}
    (hm : ∀ key, R (member' key) (member key)) (keys parts : List String) :
    R (Json.memberParts style member' keys parts) (Json.memberParts style member keys parts) := by
  induction keys generalizing parts with
  | nil => exact L.pure _
  | cons key keys ih =>
    refine L.bind (hm key) fun piece => ?_
    cases piece with
    | text s | omitted => exact ih _
    | unknown => exact L.pure _

/-- Values are written alike if what is called for them is alike. -/
theorem serialize (style : Json.Style) (fuel : Nat) (indent : String) (path : List ObjectId)
    (holder : ObjectId) (key : String) :
    R (Json.serialize call' style fuel indent path holder key)
      (Json.serialize call style fuel indent path holder key) := by
  induction fuel generalizing indent path holder key with
  | zero => exact L.stem.exhausted
  | succ fuel ih =>
    refine L.bind (L.stem.onHeap _) fun v => L.bind (L.hooked hc key v) fun v? => ?_
    cases v? with
    | none => exact L.pure _
    | some v =>
      refine L.bind (L.replaced hc style holder key v) fun v =>
        L.bind (L.stem.onHeap _) fun v => ?_
      split
      next id =>
        refine L.bind (L.stem.onHeap _) fun r => ?_
        split
        · exact L.pure _
        split
        · exact L.stem.routed _ _
        dsimp only
        split
        · unfold Json.arrayPiece
          split
          · exact L.pure _
          · exact L.stem.routed _ _
          · exact L.bind (L.elementParts (fun i => ih _ _ id (indexKey i)) _ 0 [])
              fun _ => L.pure _
        · exact L.bind (L.memberParts style (fun key => ih _ _ id key) _ [])
            fun _ => L.pure _
      next => exact L.pure _

theorem stringify (v replacer space : Value) :
    R (Json.stringify call' v replacer space) (Json.stringify call v replacer space) := by
  refine L.bind (L.stem.read _) fun h => ?_
  split
  · exact L.pure _
  · exact L.bind (L.stem.allocate (Record.data_entries [("", v)])) fun holder =>
      L.bind (L.serialize hc _ _ "" [] holder "") fun _ => L.pure _

end Texts

/-! ### Built-in functions -/

theorem evalFragment {call' call : Invoke} {fragment' fragment : Fragment}
    (hs : fragment'.strict = fragment.strict) (direct : Bool) (filename : String)
    (hf : R (Eval.inEval fragment.strict direct filename (fragment'.run call'))
      (Eval.inEval fragment.strict direct filename (fragment.run call))) :
    R (Builtin.evalFragment call' fragment' direct filename)
      (Builtin.evalFragment call fragment direct filename) := by
  refine L.bind (L.stem.read _) fun exceeded => ?_
  split
  · exact L.stem.route _ _
  · have h := L.bind hf fun completion => L.stem.evalResult completion
    simpa only [Eval.inEval, bind_assoc, hs] using h

variable {host' host : Host} {inner' inner call' call : Invoke}
  (hh : Host.EvalsAlike @R host' host inner' inner)
include hh

theorem evalSource (options : CallOptions) (v : Value) :
    R (Builtin.evalSource host' inner' options v) (Builtin.evalSource host inner options v) := by
  cases v with
  | string source =>
    refine L.bind L.stem.current fun c => ?_
    obtain ⟨e, he', he⟩ | ⟨f', f, hf', hf, hs, hrun⟩ := hh source (options.filename.getD c.filename)
    · simp only [he', he]
      exact L.stem.route _ _
    · simp only [hf', hf]
      exact L.evalFragment hs _ _ (hrun _ _)
  | _ => exact L.pure _

/-- What a built-in function does is behind its guard. -/
theorem builtin (hc : Invoke.Paired R call' call) (receiver : Value) (args : List Value)
    (options : CallOptions) (b : Builtin) :
    R (guarded receiver args (b.run host' inner' call' args options))
      (guarded receiver args (b.run host inner call args options)) := by
  cases b with
  | eval => exact L.guarded receiver args (L.evalSource hh options _)
  | parseInt | parseFloat | isNaN | isFinite =>
    rw [Builtin.run, Builtin.run]
    exact L.guarded receiver args (L.stem.onHeap _)
  | decodeURI | decodeURIComponent | encodeURI | encodeURIComponent =>
    rw [Builtin.run, Builtin.run]
    exact L.stem.guardedText receiver args _ _
  | math m =>
    refine L.guarded receiver args ?_
    cases m with
    | random => exact L.stem.randomNumber
    | _ =>
      rw [Builtin.run, Builtin.run]
      · exact L.stem.onHeap _
      all_goals rintro ⟨⟩
  | jsonParse =>
    refine L.guarded receiver args (L.bind (L.stem.onHeap _) fun text? => ?_)
    split
    · exact L.parseText hc _ _
    · exact L.pure _
  | jsonStringify => exact L.guarded receiver args (L.stringify hc _ _ _)

end Ground
end Eval
end Surmise
