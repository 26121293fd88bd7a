import Surmise.Proofs.Covering.Coupling
import Surmise.Proofs.Parts
import Surmise.Proofs.Yielding

/-! Straight code: blocks, declarations and choices over operators, names and assignments to names. A
run that knows less of its session than another one, and so skips code that the other executes, ends
with less knowledge but with no other knowledge. -/
namespace Surmise

open Eval

/-! ### Straight code -/

mutual

def Expr.straight : Expr → Bool
  | .identifier _ | .literal _ => true
  | .unary _ e => Expr.straight e
  | .binary _ l r | .logical _ l r => Expr.straight l && Expr.straight r
  | .conditional t c a => Expr.straight t && Expr.straight c && Expr.straight a
  | .assign _ (.name _) value => Expr.straight value
  | .sequence es => Expr.allStraight es
  | .assign _ (.member _) _ | .array _ | .object _ | .function _ | .this _ | .member _ | .call .. =>
    false

def Expr.allStraight : List Expr → Bool
  | [] => true
  | e :: es => Expr.straight e && Expr.allStraight es

end

def Declarator.straight : Declarator → Bool
  | .mk _ none => true
  | .mk _ (some e) => e.straight

def Stmt.isLexical : Stmt → Bool
  | .declare kind _ => kind != .variable
  | _ => false

mutual

/-- A branch of a choice is no bare declaration by `let` or `const`. -/
def Stmt.straight : Stmt → Bool
  | .block body => Stmt.allStraight body
  | .empty => true
  | .expression e => e.straight
  | .declare _ ds => ds.all Declarator.straight
  | .branch test c none => test.straight && Stmt.straight c && !c.isLexical
  | .branch test c (some a) =>
    test.straight && Stmt.straight c && !c.isLexical && Stmt.straight a && !a.isLexical
  | .function _ | .ret _ | .throw _ | .attempt .. => false

def Stmt.allStraight : List Stmt → Bool
  | [] => true
  | t :: ts => Stmt.straight t && Stmt.allStraight ts

end

/-! ### The names that straight code writes -/

mutual

def Expr.targets : Expr → List String
  | .unary _ e => Expr.targets e
  | .binary _ l r | .logical _ l r => Expr.targets l ++ Expr.targets r
  | .conditional t c a => Expr.targets t ++ Expr.targets c ++ Expr.targets a
  | .assign _ (.name id) value => Expr.targets value ++ [id.name]
  | .sequence es => Expr.allTargets es
  | .identifier _ | .literal _ | .assign _ (.member _) _ | .array _ | .object _ | .function _ | .this _
  | .member _ | .call .. => []

def Expr.allTargets : List Expr → List String
  | [] => []
  | e :: es => Expr.targets e ++ Expr.allTargets es

end

def Declarator.targets (kind : DeclKind) : Declarator → List String
  | .mk _ none => []
  | .mk id (some e) => e.targets ++ if kind = .variable then [id.name] else []

mutual

def Stmt.targets : Stmt → List String
  | .block body => Stmt.allTargets body
  | .expression e => e.targets
  | .declare kind ds => ds.flatMap (Declarator.targets kind)
  | .branch test c none => test.targets ++ Stmt.targets c
  | .branch test c (some a) => test.targets ++ Stmt.targets c ++ Stmt.targets a
  | .ret (some e) => e.targets
  | .empty | .function _ | .ret none | .throw _ | .attempt .. => []

def Stmt.allTargets : List Stmt → List String
  | [] => []
  | t :: ts => Stmt.targets t ++ Stmt.allTargets ts

end

def Stmt.branchTargets (c : Stmt) (a? : Option Stmt) : List String :=
  c.targets ++ a?.elim [] Stmt.targets

theorem Stmt.targets_branch (test : Expr) (c : Stmt) (a? : Option Stmt) :
    (branch test c a?).targets = test.targets ++ c.branchTargets a? := by
  cases a? <;> simp [targets, branchTargets]

theorem Stmt.straight_branch {test : Expr} {c : Stmt} {a? : Option Stmt}
    (h : (branch test c a?).straight = true) : test.straight = true ∧
      (c.straight = true ∧ c.isLexical = false) ∧ ∀ a ∈ a?, a.straight = true ∧ a.isLexical = false := by
  cases a? <;> simpa [straight, and_assoc] using h

abbrev Store.ForgetsNames (chain : Chain) : List String → (Store → Store) → Prop :=
  Store.Takes fun st name => st.forgetName chain name

/- Widening straight code forgets its targets and does nothing else. -/
mutual

theorem Expr.widen_eq (chain : Chain) :
    ∀ e : Expr, e.straight = true → Store.ForgetsNames chain e.targets (e.widen chain)
  | .identifier _, _ | .literal _, _ => .nil
  | .unary _ e, h => Expr.widen_eq chain e h
  | .binary _ l r, h | .logical _ l r, h =>
    have h := Bool.and_eq_true_iff.mp h
    (Expr.widen_eq chain l h.1).comp (Expr.widen_eq chain r h.2)
  | .conditional t c a, h =>
    have h := Bool.and_eq_true_iff.mp h
    have h' := Bool.and_eq_true_iff.mp h.1
    ((Expr.widen_eq chain t h'.1).comp (Expr.widen_eq chain c h'.2)).comp (Expr.widen_eq chain a h.2)
  | .assign _ (.name _) value, h => (Expr.widen_eq chain value h).comp fun _ => rfl
  | .sequence es, h => Expr.widenAll_eq chain es h

theorem Expr.widenAll_eq (chain : Chain) : ∀ es : List Expr, Expr.allStraight es = true →
    Store.ForgetsNames chain (Expr.allTargets es) (Expr.widenAll chain es)
  | [], _ => .nil
  | e :: es, h =>
    have h := Bool.and_eq_true_iff.mp h
    (Expr.widen_eq chain e h.1).comp (Expr.widenAll_eq chain es h.2)

end

theorem Expr.widen_both {c a : Expr} (hc : c.straight = true) (ha : a.straight = true)
    (chain : Chain) :
    Store.ForgetsNames chain (c.targets ++ a.targets) fun st => a.widen chain (c.widen chain st) :=
  (c.widen_eq chain hc).comp (a.widen_eq chain ha)

/-! ### Expressions -/

section Expressions

variable (call : Invoke) {links : List (ScopeId × ScopeId)}

/- Alone, straight code comes to a value and writes only what has been forgotten. -/
mutual

/-- An expression whose targets were forgotten goes on alone, and the stores stay linked. -/
theorem Expr.trails {inner : Chain} {st : Store} :
    ∀ e : Expr, e.straight = true →
      (∀ name ∈ e.targets, st.Forgotten (links.map Prod.fst) name) →
      Trails inner links st (e.eval call) fun _ => True
  | .identifier id, _, _ => .resolve id.name
  | .literal l, _, _ => .pure trivial
  | .unary op e, h, hf => by
    unfold Expr.eval
    split
    · exact .typeofName _
    · exact .bind (Expr.trails e h hf) fun _ _ => .onHeap _
  | .binary op l r, h, hf => by
    simp only [Expr.straight, Bool.and_eq_true] at h
    simp only [Expr.targets, List.forall_mem_append] at hf
    exact .bind (Expr.trails l h.1 hf.1) fun _ _ =>
      .bind (Expr.trails r h.2 hf.2) fun _ _ => .onHeap _
  | .logical op l r, h, hf => by
    simp only [Expr.straight, Bool.and_eq_true] at h
    simp only [Expr.targets, List.forall_mem_append] at hf
    refine .bind (Expr.trails l h.1 hf.1) fun a _ => ?_
    split
    · exact .bind (.skip (r.widen_eq · h.2) hf.2) fun _ _ => .pure trivial
    · exact .pure trivial
    · exact .pure trivial
    · exact Expr.trails r h.2 hf.2
  | .conditional t c a, h, hf => by
    simp only [Expr.straight, Bool.and_eq_true] at h
    simp only [Expr.targets, List.forall_mem_append] at hf
    obtain ⟨⟨ht, hc⟩, ha⟩ := h
    obtain ⟨⟨hft, hfc⟩, hfa⟩ := hf
    refine .bind (Expr.trails t ht hft) fun v _ => ?_
    split
    · exact Expr.trails c hc hfc
    · exact Expr.trails a ha hfa
    · exact .bind (.skip (Expr.widen_both hc ha) (List.forall_mem_append.mpr ⟨hfc, hfa⟩))
        fun _ _ => .pure trivial
  | .assign .assign (.name id) value, h, hf => by
    simp only [Expr.targets, List.forall_mem_append, List.forall_mem_singleton] at hf
    exact .bind (Expr.trails value h hf.1) fun v _ =>
      .bind (.assignName hf.2 v) fun _ _ => .pure trivial
  | .assign (.compound op) (.name id) value, h, hf => by
    simp only [Expr.targets, List.forall_mem_append, List.forall_mem_singleton] at hf
    exact .bind (.resolve id.name) fun _ _ => .bind (Expr.trails value h hf.1) fun _ _ =>
      .bind (.onHeap _) fun v _ => .bind (.assignName hf.2 v) fun _ _ => .pure trivial
  | .sequence es, h, hf => .bind (Expr.trailsAll es h hf) fun _ _ => .pure trivial

theorem Expr.trailsAll {inner : Chain} {st : Store} :
    ∀ es : List Expr, Expr.allStraight es = true →
      (∀ name ∈ Expr.allTargets es, st.Forgotten (links.map Prod.fst) name) →
      Trails inner links st (Expr.evalAll call es) fun _ => True
  | [], _, _ => .pure trivial
  | e :: es, h, hf => by
    simp only [Expr.allStraight, Bool.and_eq_true] at h
    simp only [Expr.allTargets, List.forall_mem_append] at hf
    exact .bind (Expr.trails e h.1 hf.1) fun _ _ =>
      .bind (Expr.trailsAll es h.2 hf.2) fun _ _ => .pure trivial

end

theorem covers_getLastD {vs ws : List Value} (h : List.Forall₂ Value.Covers vs ws) {d : Value} :
    (vs.getLastD d).Covers (ws.getLastD d) := by
  suffices ∀ u u' : Value, u.Covers u' → (vs.getLastD u).Covers (ws.getLastD u') from
    this d d (.refl d)
  induction h with
  | nil => exact fun u u' hu => hu
  | cons hv _ ih =>
    intro u u' _
    rw [List.getLastD_cons, List.getLastD_cons]
    exact ih _ _ hv

/- Where the truth of an operand is known, it is the same on both sides; where it is not, the first
evaluation skips what the second one may run. -/
mutual

/-- Straight expressions give covering values in linked sessions. -/
theorem Expr.coupled :
    ∀ e : Expr, e.straight = true → Coupled links (e.eval call) (e.eval call) Value.Covers
  | .identifier id, _ => .resolve id.name
  | .literal l, _ => .pure (.refl _)
  | .unary op e, h => by
    unfold Expr.eval
    split
    · exact .typeofName _
    · exact .bind (Expr.coupled e h) fun _ _ hv => .onHeap fun _ _ hk => hk.unary op hv
  | .binary op l r, h => by
    simp only [Expr.straight, Bool.and_eq_true] at h
    exact .bind (Expr.coupled l h.1) fun _ _ ha => .bind (Expr.coupled r h.2) fun _ _ hb =>
      .onHeap fun _ _ hk => hk.binary op ha hb
  | .logical op l r, h => by
    simp only [Expr.straight, Bool.and_eq_true] at h
    refine .bind (Expr.coupled l h.1) fun a b hab => ?_
    have ht := Value.told_truth? hab
    cases ha : a.truth? with
    | none =>
      refine .skip (r.widen_eq · h.2) fun st hf => ?_
      split
      · exact .bind (.skip (r.widen_eq · h.2) hf) fun _ _ =>
          .pure (.unknown _)
      · exact .pure (.unknown _)
      · exact .pure (.unknown _)
      · exact (Expr.trails call r h.2 hf).mono fun b _ => .unknown b
    | some x =>
      rw [ha] at ht
      obtain ht | ht := ht
      · cases ht
      rw [← ht]
      cases op <;> cases x
      · exact .pure hab
      · exact Expr.coupled r h.2
      · exact Expr.coupled r h.2
      · exact .pure hab
  | .conditional t c a, h => by
    simp only [Expr.straight, Bool.and_eq_true] at h
    obtain ⟨⟨ht, hc⟩, ha⟩ := h
    refine .bind (Expr.coupled t ht) fun v w hvw => ?_
    have htold := Value.told_truth? hvw
    cases hv : v.truth? with
    | none =>
      refine .skip (Expr.widen_both hc ha) fun st hf => ?_
      have hf' := List.forall_mem_append.mp hf
      split
      · exact (Expr.trails call c hc hf'.1).mono fun b _ => .unknown b
      · exact (Expr.trails call a ha hf'.2).mono fun b _ => .unknown b
      · exact .bind (.skip (Expr.widen_both hc ha) hf) fun _ _ => .pure (.unknown _)
    | some x =>
      rw [htold.eq_some hv]
      cases x
      · exact Expr.coupled a ha
      · exact Expr.coupled c hc
  | .assign .assign (.name id) value, h =>
    .bind (Expr.coupled value h) fun _ _ hv => .bind (.assignName id.name hv) fun _ _ _ => .pure hv
  | .assign (.compound op) (.name id) value, h =>
    .bind (.resolve id.name) fun _ _ ha => .bind (Expr.coupled value h) fun _ _ hb =>
      .bind (.onHeap fun _ _ hk => hk.binary op ha hb) fun _ _ hv =>
        .bind (.assignName id.name hv) fun _ _ _ => .pure hv
  | .sequence es, h => .bind (Expr.coupledAll es h) fun _ _ hvs => .pure (covers_getLastD hvs)

theorem Expr.coupledAll :
    ∀ es : List Expr, Expr.allStraight es = true →
      Coupled links (Expr.evalAll call es) (Expr.evalAll call es) (List.Forall₂ Value.Covers)
  | [], _ => .pure .nil
  | e :: es, h => by
    simp only [Expr.allStraight, Bool.and_eq_true] at h
    exact .bind (Expr.coupled e h.1) fun _ _ hv => .bind (Expr.coupledAll es h.2) fun _ _ hvs =>
      .pure (.cons hv hvs)

end

end Expressions

/-! ### Statements -/

/-- The first of two statements has an unknown value, or both end alike; neither returns. -/
def Flow.Covers : Flow → Flow → Prop
  | .normal v, .normal w => v = some .unknown ∨ v = w
  | _, _ => False

theorem Flow.covers_of_isNormal {flow : Flow} (h : flow.IsNormal) :
    (Flow.normal (some .unknown)).Covers flow := by
  cases flow with
  | normal v => exact .inl rfl
  | returned v => exact h

theorem Stmt.functions_straight {body : List Stmt} (h : Stmt.allStraight body = true) :
    Stmt.functions body = [] := by
  induction body with
  | nil => rfl
  | cons t ts ih =>
    simp only [Stmt.allStraight, Bool.and_eq_true] at h
    have hts := ih h.2
    cases t with
    | function f => simp [Stmt.straight] at h
    | _ => simpa [Stmt.functions] using hts

theorem Declarator.widenAll_eq (chain : Chain) (kind : DeclKind) :
    ∀ ds : List Declarator, ds.all Declarator.straight = true →
      Store.ForgetsNames chain (ds.flatMap (Declarator.targets kind)) (Declarator.widenAll chain kind ds)
  | [], _ => .nil
  | .mk _ none :: ds, h => Declarator.widenAll_eq chain kind ds (Bool.and_eq_true_iff.mp h).2
  | .mk id (some e) :: ds, h => by
    have h := Bool.and_eq_true_iff.mp h
    have hname : Store.ForgetsNames chain (if kind = .variable then [id.name] else [])
        fun st => if kind = .variable then st.forgetName chain id.name else st := by
      intro st
      dsimp only
      split <;> rfl
    exact ((e.widen_eq chain h.1).comp hname).comp (Declarator.widenAll_eq chain kind ds h.2)

mutual

theorem Stmt.widen_eq (chain : Chain) :
    ∀ t : Stmt, t.straight = true → Store.ForgetsNames chain t.targets (t.widen chain)
  | .block body, h => Stmt.widenAll_eq chain body h
  | .empty, _ => .nil
  | .expression e, h => e.widen_eq chain h
  | .declare kind ds, h => Declarator.widenAll_eq chain kind ds h
  | .branch test c none, h => by
    obtain ⟨ht, ⟨hc, -⟩, -⟩ := Stmt.straight_branch h
    exact (test.widen_eq chain ht).comp (Stmt.widen_eq chain c hc)
  | .branch test c (some a), h => by
    obtain ⟨ht, ⟨hc, -⟩, ha⟩ := Stmt.straight_branch h
    exact ((test.widen_eq chain ht).comp (Stmt.widen_eq chain c hc)).comp
      (Stmt.widen_eq chain a (ha a rfl).1)

theorem Stmt.widenAll_eq (chain : Chain) : ∀ ts : List Stmt, Stmt.allStraight ts = true →
    Store.ForgetsNames chain (Stmt.allTargets ts) (Stmt.widenAll chain ts)
  | [], _ => .nil
  | t :: ts, h =>
    have h := Bool.and_eq_true_iff.mp h
    (Stmt.widen_eq chain t h.1).comp (Stmt.widenAll_eq chain ts h.2)

end

theorem Stmt.widenBranches_eq {c : Stmt} {a? : Option Stmt} (hc : c.straight = true)
    (ha : ∀ a ∈ a?, a.straight = true ∧ a.isLexical = false) (chain : Chain) :
    Store.ForgetsNames chain (c.branchTargets a?) (Stmt.widenBranches chain c a?) := by
  cases a? with
  | none => exact (c.widen_eq chain hc).comp .nil
  | some a => exact (c.widen_eq chain hc).comp (a.widen_eq chain (ha a rfl).1)

section Statements

variable (call : Invoke) {links : List (ScopeId × ScopeId)}

theorem trails_declareName {inner : Chain} {st : Store} {kind : DeclKind}
    (hi : inner ≠ [] ∨ kind = .variable) {name : String} {v? : Option Value}
    (hf : kind = .variable → v?.isSome → st.Forgotten (links.map Prod.fst) name) :
    Trails inner links st (declareName kind name v?) fun _ => True := by
  by_cases hk : kind = .variable
  · subst hk
    cases v? with
    | none => exact .pure trivial
    | some v => exact .assignName (hf rfl rfl) v
  intro t ht hl
  refine ⟨_, _, .declareName ht hk name v?, trivial, ?_⟩
  cases inner with
  | nil => exact absurd hi (by simp [hk])
  | cons scope inner => exact hl.bind (.head _) name _

theorem Declarator.trailsAll {inner : Chain} {st : Store} (kind : DeclKind)
    (hi : inner ≠ [] ∨ kind = .variable) :
    ∀ ds : List Declarator, ds.all Declarator.straight = true →
      (∀ name ∈ ds.flatMap (Declarator.targets kind), st.Forgotten (links.map Prod.fst) name) →
      Trails inner links st (Declarator.execAll call kind ds) fun _ => True
  | [], _, _ => .pure trivial
  | .mk id none :: ds, h, hf => by
    simp only [List.all_cons, Declarator.straight, Bool.true_and] at h
    exact .bind (trails_declareName hi (by simp)) fun _ _ => Declarator.trailsAll kind hi ds h hf
  | .mk id (some e) :: ds, h, hf => by
    simp only [List.all_cons, Declarator.straight, Bool.and_eq_true] at h
    simp only [List.flatMap_cons, Declarator.targets, List.forall_mem_append] at hf
    obtain ⟨⟨hfe, hfn⟩, hfd⟩ := hf
    refine .bind (e.trails call h.1 hfe) fun v _ => .bind (trails_declareName hi fun hk _ => ?_)
      fun _ _ => Declarator.trailsAll kind hi ds h.2 hfd
    exact hfn _ (by simp [hk])

mutual

theorem Stmt.trails {st : Store} :
    ∀ t : Stmt, t.straight = true → ∀ inner : Chain, inner ≠ [] ∨ t.isLexical = false →
      (∀ name ∈ t.targets, st.Forgotten (links.map Prod.fst) name) →
      Trails inner links st (t.exec call) Flow.IsNormal
  | .block body, h, inner, _, hf =>
    .inBlock (Stmt.functions_straight h) fun id =>
      Stmt.trailsAll body h none (id :: inner) (List.cons_ne_nil _ _) hf
  | .empty, _, _, _, _ => .pure trivial
  | .expression e, h, _, _, hf => .bind (e.trails call h hf) fun _ _ => .pure trivial
  | .declare kind ds, h, inner, hi, hf => by
    refine .bind (Declarator.trailsAll call kind ?_ ds h hf) fun _ _ => .pure trivial
    simpa [Stmt.isLexical] using hi
  | .branch test c a?, h, inner, _, hf => by
    obtain ⟨ht, ⟨hc, hcl⟩, ha⟩ := Stmt.straight_branch h
    rw [Stmt.targets_branch, List.forall_mem_append] at hf
    obtain ⟨hfc, hfa⟩ := List.forall_mem_append.mp hf.2
    rw [Stmt.exec.eq_def]
    refine .bind (test.trails call ht hf.1) fun v _ => ?_
    split
    · exact Stmt.trails c hc inner (.inr hcl) hfc
    · cases a? with
      | none => exact .pure trivial
      | some a => exact Stmt.trails a (ha a rfl).1 inner (.inr (ha a rfl).2) hfa
    · exact .bind (.skip (Stmt.widenBranches_eq hc ha) hf.2) fun _ _ => .pure trivial

theorem Stmt.trailsAll {st : Store} :
    ∀ ts : List Stmt, Stmt.allStraight ts = true → ∀ (last : Option Value) (inner : Chain),
      inner ≠ [] → (∀ name ∈ Stmt.allTargets ts, st.Forgotten (links.map Prod.fst) name) →
      Trails inner links st (Stmt.execAll call last ts) Flow.IsNormal
  | [], _, _, _, _, _ => .pure trivial
  | t :: ts, h, last, inner, hi, hf => by
    simp only [Stmt.allStraight, Bool.and_eq_true] at h
    simp only [Stmt.allTargets, List.forall_mem_append] at hf
    refine .bind (Stmt.trails t h.1 inner (.inl hi) hf.1) fun flow hflow => ?_
    cases flow with
    | normal v => exact Stmt.trailsAll ts h.2 _ inner hi hf.2
    | returned v => exact hflow.elim

end

theorem Declarator.coupledAll (kind : DeclKind) :
    ∀ ds : List Declarator, ds.all Declarator.straight = true →
      Coupled links (Declarator.execAll call kind ds) (Declarator.execAll call kind ds)
        fun _ _ => True
  | [], _ => .pure trivial
  | .mk id none :: ds, h => by
    simp only [List.all_cons, Declarator.straight, Bool.true_and] at h
    exact .bind (.declareName kind id.name .none) fun _ _ _ => Declarator.coupledAll kind ds h
  | .mk id (some e) :: ds, h => by
    simp only [List.all_cons, Declarator.straight, Bool.and_eq_true] at h
    exact .bind (e.coupled call h.1) fun _ _ hv =>
      .bind (.declareName kind id.name (.some hv)) fun _ _ _ => Declarator.coupledAll kind ds h.2

mutual

/-- Straight statements end alike in linked sessions, with covering values. -/
theorem Stmt.coupled :
    ∀ t : Stmt, t.straight = true → ∀ links, Coupled links (t.exec call) (t.exec call) Flow.Covers
  | .block body, h, links =>
    .inBlock (Stmt.functions_straight h) fun l =>
      Stmt.coupledAll body h none none (.inr rfl) (l :: links)
  | .empty, _, _ => .pure (.inr rfl)
  | .expression e, h, links => by
    refine .bind (e.coupled call h) fun v w hv => .pure ?_
    exact hv.imp (congrArg some) (congrArg some)
  | .declare kind ds, h, links =>
    .bind (Declarator.coupledAll call kind ds h) fun _ _ _ => .pure (.inr rfl)
  | .branch test c a?, h, links => by
    obtain ⟨ht, ⟨hc, hcl⟩, ha⟩ := Stmt.straight_branch h
    rw [Stmt.exec.eq_def]
    refine .bind (test.coupled call ht) fun v w hvw => ?_
    have htold := Value.told_truth? hvw
    cases hv : v.truth? with
    | none =>
      refine .skip (Stmt.widenBranches_eq hc ha) fun st hf => ?_
      obtain ⟨hfc, hfa⟩ := List.forall_mem_append.mp hf
      split
      · exact (Stmt.trails call c hc [] (.inr hcl) hfc).mono fun _ => Flow.covers_of_isNormal
      · cases a? with
        | none => exact .pure (.inl rfl)
        | some a =>
          obtain ⟨ha, hal⟩ := ha a rfl
          exact (Stmt.trails call a ha [] (.inr hal) hfa).mono fun _ => Flow.covers_of_isNormal
      · exact .bind (.skip (Stmt.widenBranches_eq hc ha) hf) fun _ _ => .pure (.inl rfl)
    | some x =>
      rw [htold.eq_some hv]
      cases x with
      | true => exact Stmt.coupled c hc links
      | false =>
        cases a? with
        | none => exact .pure (.inr rfl)
        | some a => exact Stmt.coupled a (ha a rfl).1 links

theorem Stmt.coupledAll :
    ∀ ts : List Stmt, Stmt.allStraight ts = true →
      ∀ v w : Option Value, v = some .unknown ∨ v = w → ∀ links,
        Coupled links (Stmt.execAll call v ts) (Stmt.execAll call w ts) Flow.Covers
  | [], _, _, _, hvw, _ => .pure hvw
  | t :: ts, h, v, w, hvw, links => by
    simp only [Stmt.allStraight, Bool.and_eq_true] at h
    refine .bind (Stmt.coupled t h.1 links) fun flow flow' hflow => ?_
    cases flow with
    | returned _ => exact hflow.elim
    | normal a =>
      cases flow' with
      | returned _ => exact hflow.elim
      | normal b =>
        refine Stmt.coupledAll ts h.2 _ _ ?_ links
        obtain rfl | rfl := hflow
        · exact .inl rfl
        · cases a with
          | none => exact hvw
          | some x => exact .inr rfl

end

end Statements

end Surmise
