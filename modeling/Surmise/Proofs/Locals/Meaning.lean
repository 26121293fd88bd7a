import Surmise.Proofs.Covering.Straight

/-! Code that reads and writes nothing but the variables of its function: what it computes is a
function of their values. Where less is known of these, less is known of the result, unless a branch was
skipped that would have returned. -/
namespace Surmise

def Locals := String → Value

namespace Locals

def set (l : Locals) (name : String) (v : Value) : Locals := fun n => if n = name then v else l n

def forget (l : Locals) (names : List String) : Locals := fun n =>
  if n ∈ names then .unknown else l n

def bindParams : List Identifier → List Value → Locals → Locals
  | [], _, l => l
  | p :: ps, args, l => bindParams ps args.tail (l.set p.name (args.headD .undefined))

def Covers (l k : Locals) : Prop := ∀ name, (l name).Covers (k name)

variable {l k : Locals}

theorem Covers.set (h : l.Covers k) (name : String) {v w : Value} (hv : v.Covers w) :
    (l.set name v).Covers (k.set name w) := by
  intro n
  by_cases hn : n = name
  · simpa [Locals.set, hn] using hv
  · simpa [Locals.set, hn] using h n

theorem Covers.forget (h : l.Covers k) {names : List String} {k' : Locals}
    (hk : ∀ n, n ∉ names → k' n = k n) : (l.forget names).Covers k' := by
  intro n
  by_cases hn : n ∈ names
  · simpa [Locals.forget, hn] using Value.Covers.unknown _
  · simpa [Locals.forget, hn, hk n hn] using h n

theorem Covers.bindParams (ps : List Identifier) {args args' : List Value}
    (ha : List.Forall₂ Value.Covers args args') (h : l.Covers k) :
    (Locals.bindParams ps args l).Covers (Locals.bindParams ps args' k) := by
  induction ps generalizing args args' l k with
  | nil => exact h
  | cons p ps ih =>
    cases ha with
    | nil => exact ih .nil (h.set p.name (.refl _))
    | cons hv hvs => exact ih hvs (h.set p.name hv)

end Locals

/-! ### What local code computes -/

mutual

def Expr.isLocal (names : List String) : Expr → Bool
  | .identifier id => decide (id.name ∈ names)
  | .literal _ => true
  | .unary _ e => Expr.isLocal names e
  | .binary _ l r | .logical _ l r => Expr.isLocal names l && Expr.isLocal names r
  | .conditional t c a =>
    Expr.isLocal names t && Expr.isLocal names c && Expr.isLocal names a
  | .assign _ (.name id) value => decide (id.name ∈ names) && Expr.isLocal names value
  | .sequence es => Expr.allLocal names es
  | .assign _ (.member _) _ | .array _ | .object _ | .function _ | .this _ | .member _ | .call .. =>
    false

def Expr.allLocal (names : List String) : List Expr → Bool
  | [] => true
  | e :: es => Expr.isLocal names e && Expr.allLocal names es

end

def Declarator.isLocal (names : List String) : Declarator → Bool
  | .mk id init => decide (id.name ∈ names) && init.all (Expr.isLocal names)

mutual

/-- Blocks, expressions, declarations of variables, choices and returns that use no other names. -/
def Stmt.isLocal (names : List String) : Stmt → Bool
  | .block body => Stmt.allLocal names body
  | .empty => true
  | .expression e => e.isLocal names
  | .declare kind ds => decide (kind = .variable) && ds.all (Declarator.isLocal names)
  | .branch test c none => test.isLocal names && Stmt.isLocal names c
  | .branch test c (some a) =>
    test.isLocal names && Stmt.isLocal names c && Stmt.isLocal names a
  | .ret init => init.all (Expr.isLocal names)
  | .function _ | .throw _ | .attempt .. => false

def Stmt.allLocal (names : List String) : List Stmt → Bool
  | [] => true
  | t :: ts => Stmt.isLocal names t && Stmt.allLocal names ts

end

mutual

/-- The value of an expression; objects among its operands are in the heap `h`. -/
def Expr.compute (h : Heap) : Expr → StateM Locals Value
  | .identifier id => do return (← get) id.name
  | .literal l => return l.value
  | .unary op e => do return h.unary op (← Expr.compute h e)
  | .binary op l r => do
    let a ← Expr.compute h l
    let b ← Expr.compute h r
    return h.binary op a b
  | .logical op l r => do
    let a ← Expr.compute h l
    match op, a.truth? with
    | _, none => do
      modify (·.forget r.targets)
      return .unknown
    | .and, some false => return a
    | .or, some true => return a
    | _, _ => Expr.compute h r
  | .conditional test c a => do
    let v ← Expr.compute h test
    match v.truth? with
    | some true => Expr.compute h c
    | some false => Expr.compute h a
    | none => do
      modify (·.forget (c.targets ++ a.targets))
      return .unknown
  | .assign .assign (.name id) value => do
    let v ← Expr.compute h value
    modify (·.set id.name v)
    return v
  | .assign (.compound op) (.name id) value => do
    let old := (← get) id.name
    let new ← Expr.compute h value
    let v := h.binary op old new
    modify (·.set id.name v)
    return v
  | .sequence es => do return (← Expr.computeAll h es).getLastD .undefined
  | .assign _ (.member _) _ | .array _ | .object _ | .function _ | .this _ | .member _ | .call .. =>
    return .undefined

def Expr.computeAll (h : Heap) : List Expr → StateM Locals (List Value)
  | [] => return []
  | e :: es => do
    let v ← Expr.compute h e
    let vs ← Expr.computeAll h es
    return v :: vs

end

def Declarator.computeAll (h : Heap) : List Declarator → StateM Locals Unit
  | [] => return ()
  | .mk _ none :: ds => Declarator.computeAll h ds
  | .mk id (some e) :: ds => do
    let v ← e.compute h
    modify (·.set id.name v)
    Declarator.computeAll h ds

mutual

def Stmt.compute (h : Heap) : Stmt → StateM Locals (Option Value)
  | .block body => Stmt.computeAll h body
  | .expression e => do
    let _ ← e.compute h
    return none
  | .declare .variable ds => do
    Declarator.computeAll h ds
    return none
  | .branch test c a? => do
    let v ← test.compute h
    match v.truth? with
    | some true => Stmt.compute h c
    | some false =>
      match a? with
      | some a => Stmt.compute h a
      | none => return none
    | none => do
      modify (·.forget (c.branchTargets a?))
      return none
  | .ret none => return some .undefined
  | .ret (some e) => do return some (← e.compute h)
  | .declare .lexical _ | .declare .constant _ | .empty | .function _ | .throw _ | .attempt .. =>
    return none

def Stmt.computeAll (h : Heap) : List Stmt → StateM Locals (Option Value)
  | [] => return none
  | t :: ts => do
    match ← Stmt.compute h t with
    | none => Stmt.computeAll h ts
    | some v => return some v

end

/-! ### Returns that are skipped -/

mutual

def Stmt.mayReturn : Stmt → Bool
  | .block body => Stmt.anyMayReturn body
  | .branch _ c none => Stmt.mayReturn c
  | .branch _ c (some a) => Stmt.mayReturn c || Stmt.mayReturn a
  | .ret _ | .throw _ | .attempt .. => true
  | .empty | .expression _ | .declare .. | .function _ => false

def Stmt.anyMayReturn : List Stmt → Bool
  | [] => false
  | t :: ts => Stmt.mayReturn t || Stmt.anyMayReturn ts

end

mutual

/-- No choice that may return is skipped when the statement is executed with these values. -/
def Stmt.steady (h : Heap) : Stmt → Locals → Bool
  | .block body, l => Stmt.allSteady h body l
  | .branch test c a?, l =>
    match (test.compute h l).1.truth? with
    | some true => Stmt.steady h c (test.compute h l).2
    | some false =>
      match a? with
      | some a => Stmt.steady h a (test.compute h l).2
      | none => true
    | none => !c.mayReturn && !a?.any Stmt.mayReturn
  | .empty, _ | .expression _, _ | .declare .., _ | .function _, _ | .ret _, _ | .throw _, _
  | .attempt .., _ => true

def Stmt.allSteady (h : Heap) : List Stmt → Locals → Bool
  | [], _ => true
  | t :: ts, l =>
    Stmt.steady h t l &&
      match t.compute h l with
      | (none, l) => Stmt.allSteady h ts l
      | (some _, _) => true

end

namespace Function

def localNames (f : Function) : List String :=
  f.params.map Identifier.name ++ Stmt.allVariableNames f.body

def isLocal (f : Function) : Bool := Stmt.allLocal f.localNames f.body

def locals (f : Function) (args : List Value) : Locals :=
  .bindParams f.params args fun _ => .undefined

def compute (f : Function) (h : Heap) (args : List Value) : Value :=
  (Stmt.computeAll h f.body (f.locals args)).1.getD .undefined

def steady (f : Function) (h : Heap) (args : List Value) : Bool :=
  Stmt.allSteady h f.body (f.locals args)

end Function

/-! ### The variables that are written -/

namespace Locals

variable {α β γ δ : Type}

def Keeps (names : List String) (g : StateM Locals α) : Prop :=
  ∀ l name, name ∉ names → (g l).2 name = l name

variable {names : List String}

theorem Keeps.pure (a : α) : Keeps names (Pure.pure a : StateM Locals α) := fun _ _ _ => rfl

theorem Keeps.bind {g : StateM Locals α} {f : α → StateM Locals β} (hg : Keeps names g)
    (hf : ∀ a, Keeps names (f a)) : Keeps names (g >>= f) := by
  intro l name hn
  have h₁ := hg l name hn
  have h₂ := hf (g l).1 (g l).2 name hn
  exact h₂.trans h₁

theorem Keeps.mono {names' : List String} {g : StateM Locals α} (hg : Keeps names g)
    (hs : names ⊆ names') : Keeps names' g :=
  fun l name hn => hg l name fun h => hn (hs h)

theorem Keeps.read (f : Locals → α) : Keeps names (do return f (← get)) := fun _ _ _ => rfl

theorem Keeps.set {name : String} (hn : name ∈ names) (v : Value) :
    Keeps names (modify fun l : Locals => l.set name v) := by
  intro l n hne
  have : n ≠ name := fun h => hne (h ▸ hn)
  exact if_neg this

theorem Keeps.forget {names' : List String} (hs : names' ⊆ names) :
    Keeps names (modify fun l : Locals => l.forget names') := by
  intro l n hne
  exact if_neg fun h => hne (hs h)

end Locals

open Locals

mutual

/-- Only the targets of an expression change. -/
theorem Expr.keeps (h : Heap) : ∀ e : Expr, Keeps e.targets (e.compute h)
  | .identifier _ => .read _
  | .literal l => .pure l.value
  | .unary op e => .bind (Expr.keeps h e) fun _ => .pure _
  | .binary op l r =>
    .bind ((Expr.keeps h l).mono (by simp [Expr.targets])) fun _ =>
      .bind ((Expr.keeps h r).mono (by simp [Expr.targets])) fun _ => .pure _
  | .logical op l r => by
    have hr : Keeps (Expr.targets (.logical op l r)) (r.compute h) :=
      (Expr.keeps h r).mono (by simp [Expr.targets])
    rw [Expr.compute]
    refine .bind ((Expr.keeps h l).mono (by simp [Expr.targets])) fun a => ?_
    split
    · exact .bind (.forget (by simp [Expr.targets])) fun _ => .pure _
    · exact .pure a
    · exact .pure a
    · exact hr
  | .conditional test c a => by
    rw [Expr.compute]
    refine .bind ((Expr.keeps h test).mono (by simp [Expr.targets])) fun v => ?_
    split
    · exact (Expr.keeps h c).mono (by simp [Expr.targets])
    · exact (Expr.keeps h a).mono (by simp [Expr.targets])
    · exact .bind (.forget (by simp [Expr.targets])) fun _ => .pure _
  | .assign .assign (.name id) value =>
    .bind ((Expr.keeps h value).mono (by simp [Expr.targets])) fun v =>
      .bind (.set (by simp [Expr.targets]) v) fun _ => .pure v
  | .assign (.compound op) (.name id) value =>
    .bind (.read _) fun old => .bind ((Expr.keeps h value).mono (by simp [Expr.targets])) fun new =>
      .bind (.set (by simp [Expr.targets]) _) fun _ => .pure _
  | .sequence es => .bind (Expr.keepsAll h es) fun _ => .pure _
  | .assign .assign (.member _) _ | .assign (.compound _) (.member _) _ | .array _ | .object _
  | .function _ | .this _ | .member _ | .call .. => .pure _

theorem Expr.keepsAll (h : Heap) : ∀ es : List Expr, Keeps (Expr.allTargets es) (Expr.computeAll h es)
  | [] => .pure []
  | e :: es =>
    .bind ((Expr.keeps h e).mono (by simp [Expr.allTargets])) fun _ =>
      .bind ((Expr.keepsAll h es).mono (by simp [Expr.allTargets])) fun _ => .pure _

end

theorem Declarator.keepsAll (h : Heap) (ds : List Declarator) :
    Keeps (ds.flatMap (Declarator.targets .variable)) (Declarator.computeAll h ds) := by
  induction ds with
  | nil => exact .pure ()
  | cons x ds ih =>
    obtain ⟨id, _ | e⟩ := x
    · exact ih
    · exact .bind ((e.keeps h).mono (by simp [Declarator.targets])) fun v =>
        .bind (.set (by simp [Declarator.targets]) v) fun _ => ih.mono (by simp [List.flatMap_cons])

mutual

theorem Stmt.keeps (h : Heap) : ∀ t : Stmt, Keeps t.targets (t.compute h)
  | .block body => Stmt.keepsAll h body
  | .expression e | .ret (some e) => .bind (e.keeps h) fun _ => .pure _
  | .declare .variable ds => .bind (Declarator.keepsAll h ds) fun _ => .pure _
  | .branch test c a? => by
    rw [Stmt.compute.eq_def, Stmt.targets_branch]
    refine .bind ((test.keeps h).mono (by simp)) fun v => ?_
    split
    · exact (Stmt.keeps h c).mono (by simp [Stmt.branchTargets])
    · cases a? with
      | none => exact .pure _
      | some a => exact (Stmt.keeps h a).mono (by simp [Stmt.branchTargets])
    · exact .bind (.forget (by simp)) fun _ => .pure _
  | .ret none => .pure _
  | .declare .lexical _ | .declare .constant _ | .empty | .function _ | .throw _ | .attempt .. => .pure _

theorem Stmt.keepsAll (h : Heap) : ∀ ts : List Stmt, Keeps (Stmt.allTargets ts) (Stmt.computeAll h ts)
  | [] => .pure _
  | t :: ts => by
    refine .bind ((Stmt.keeps h t).mono (by simp [Stmt.allTargets])) fun r => ?_
    cases r with
    | none => exact (Stmt.keepsAll h ts).mono (by simp [Stmt.allTargets])
    | some v => exact .pure _

end

/-! ### Less is known of the result -/

namespace Locals

variable {α β γ δ : Type}

/-- From values of which the first are known in part, both computations go on to results that are
related and to such values again. -/
def Sound (R : α → β → Prop) (g : StateM Locals α) (k : StateM Locals β) : Prop :=
  ∀ l m : Locals, l.Covers m → R (g l).1 (k m).1 ∧ (g l).2.Covers (k m).2

variable {R : α → β → Prop} {S : γ → δ → Prop}

theorem Sound.pure {a : α} {b : β} (h : R a b) : Sound R (Pure.pure a) (Pure.pure b) :=
  fun _ _ hl => ⟨h, hl⟩

theorem Sound.bind {g : StateM Locals α} {k : StateM Locals β} {f : α → StateM Locals γ}
    {f' : β → StateM Locals δ} (hg : Sound R g k) (hf : ∀ a b, R a b → Sound S (f a) (f' b)) :
    Sound S (g >>= f) (k >>= f') := by
  intro l m hl
  obtain ⟨hr, hl'⟩ := hg l m hl
  exact hf _ _ hr _ _ hl'

theorem Sound.set (name : String) {v w : Value} (hv : v.Covers w) :
    Sound (fun _ _ => True) (modify fun l : Locals => l.set name v)
      (modify fun l : Locals => l.set name w) :=
  fun _ _ hl => ⟨trivial, hl.set name hv⟩

theorem Sound.skip {names : List String} {a : α} {k : StateM Locals β} (ha : ∀ b, R a b)
    (hk : Keeps names k) : Sound R (do modify fun l : Locals => l.forget names; return a) k :=
  fun _ m hl => ⟨ha _, hl.forget fun name hn => hk m name hn⟩

end Locals

mutual

/-- From covering locals an expression computes a covering value and covering locals. -/
theorem Expr.sound (h : Heap) : ∀ e : Expr, Sound Value.Covers (e.compute h) (e.compute h)
  | .identifier id => fun _ _ hl => ⟨hl id.name, hl⟩
  | .literal l => .pure (.refl _)
  | .unary op e => .bind (Expr.sound h e) fun _ _ hv => .pure ((Heap.Covers.refl h).unary op hv)
  | .binary op l r =>
    .bind (Expr.sound h l) fun _ _ ha => .bind (Expr.sound h r) fun _ _ hb =>
      .pure ((Heap.Covers.refl h).binary op ha hb)
  | .logical op l r => by
    rw [Expr.compute]
    refine .bind (Expr.sound h l) fun a b hab => ?_
    have htold := Value.told_truth? hab
    cases ha : a.truth? with
    | none =>
      refine .skip .unknown ?_
      split
      · exact .bind (.forget (List.Subset.refl _)) fun _ => .pure _
      · exact .pure b
      · exact .pure b
      · exact r.keeps h
    | some x =>
      rw [htold.eq_some ha]
      cases op <;> cases x
      · exact .pure hab
      · exact Expr.sound h r
      · exact Expr.sound h r
      · exact .pure hab
  | .conditional test c a => by
    rw [Expr.compute]
    refine .bind (Expr.sound h test) fun v w hvw => ?_
    have htold := Value.told_truth? hvw
    cases hv : v.truth? with
    | none =>
      refine .skip .unknown ?_
      split
      · exact (c.keeps h).mono (by simp)
      · exact (a.keeps h).mono (by simp)
      · exact .bind (.forget (List.Subset.refl _)) fun _ => .pure _
    | some x =>
      rw [htold.eq_some hv]
      cases x
      · exact Expr.sound h a
      · exact Expr.sound h c
  | .assign .assign (.name id) value =>
    .bind (Expr.sound h value) fun _ _ hv => .bind (.set id.name hv) fun _ _ _ => .pure hv
  | .assign (.compound op) (.name id) value => by
    rw [Expr.compute]
    refine .bind (R := Locals.Covers) (fun _ _ hl => ⟨hl, hl⟩) fun l m hl => ?_
    refine .bind (Expr.sound h value) fun _ _ hv => ?_
    have hb := (Heap.Covers.refl h).binary op (hl id.name) hv
    exact .bind (.set id.name hb) fun _ _ _ => .pure hb
  | .sequence es => .bind (Expr.soundAll h es) fun _ _ hvs => .pure (covers_getLastD hvs)
  | .assign .assign (.member _) _ | .assign (.compound _) (.member _) _ | .array _ | .object _
  | .function _ | .this _ | .member _ | .call .. => .pure (.refl _)

theorem Expr.soundAll (h : Heap) : ∀ es : List Expr,
    Sound (List.Forall₂ Value.Covers) (Expr.computeAll h es) (Expr.computeAll h es)
  | [] => .pure .nil
  | e :: es =>
    .bind (Expr.sound h e) fun _ _ hv => .bind (Expr.soundAll h es) fun _ _ hvs => .pure (.cons hv hvs)

end

theorem Declarator.soundAll (h : Heap) (ds : List Declarator) :
    Sound (fun _ _ => True) (Declarator.computeAll h ds) (Declarator.computeAll h ds) := by
  induction ds with
  | nil => exact .pure trivial
  | cons x ds ih =>
    obtain ⟨id, _ | e⟩ := x
    · exact ih
    · exact .bind (e.sound h) fun _ _ hv => .bind (.set id.name hv) fun _ _ _ => ih

namespace Stmt

variable (h : Heap)

theorem computeAll_cons (t : Stmt) (ts : List Stmt) (l : Locals) :
    computeAll h (t :: ts) l =
      match t.compute h l with
      | (none, l') => computeAll h ts l'
      | (some v, l') => (some v, l') := by
  rw [computeAll]
  change (match (t.compute h l).1 with | none => _ | some v => _ : StateM Locals _) _ = _
  rcases t.compute h l with ⟨_ | v, l'⟩ <;> rfl

def choose (c : Stmt) (a? : Option Stmt) (l : Locals) : Option Bool → Option Value × Locals
  | some true => c.compute h l
  | some false => a?.elim (none, l) fun a => a.compute h l
  | none => (none, l.forget (c.branchTargets a?))

theorem compute_branch (test : Expr) (c : Stmt) (a? : Option Stmt) (l : Locals) :
    (branch test c a?).compute h l =
      choose h c a? (test.compute h l).2 (test.compute h l).1.truth? := by
  cases a? <;>
  · rw [compute]
    change (match (test.compute h l).1.truth? with | some true => _ | some false => _ | none => _ :
      StateM Locals _) _ = _
    rcases (test.compute h l).1.truth? with _ | _ | _ <;> rfl

theorem steady_branch (test : Expr) (c : Stmt) (a? : Option Stmt) (l : Locals) :
    (branch test c a?).steady h l =
      match (test.compute h l).1.truth? with
      | some true => c.steady h (test.compute h l).2
      | some false => a?.elim true fun a => a.steady h (test.compute h l).2
      | none => !c.mayReturn && !a?.any mayReturn := by
  cases a? <;>
  · rw [steady]
    split <;> rfl

end Stmt

/- A statement without a return goes on to the next one. -/
mutual

theorem Stmt.compute_eq_none (h : Heap) :
    ∀ t : Stmt, t.mayReturn = false → ∀ l, (t.compute h l).1 = none
  | .block body, ht, l => Stmt.computeAll_eq_none h body ht l
  | .branch test c none, ht, l => by
    rw [Stmt.compute_branch]
    rcases (test.compute h l).1.truth? with _ | _ | _
    · rfl
    · rfl
    · exact Stmt.compute_eq_none h c ht _
  | .branch test c (some a), ht, l => by
    simp only [Stmt.mayReturn, Bool.or_eq_false_iff] at ht
    rw [Stmt.compute_branch]
    rcases (test.compute h l).1.truth? with _ | _ | _
    · rfl
    · exact Stmt.compute_eq_none h a ht.2 _
    · exact Stmt.compute_eq_none h c ht.1 _
  | .expression _, _, _ | .declare .variable _, _, _ | .declare .lexical _, _, _
  | .declare .constant _, _, _ | .empty, _, _ | .function _, _, _ => rfl

theorem Stmt.computeAll_eq_none (h : Heap) :
    ∀ ts : List Stmt, Stmt.anyMayReturn ts = false → ∀ l, (Stmt.computeAll h ts l).1 = none
  | [], _, _ => rfl
  | t :: ts, ht, l => by
    simp only [Stmt.anyMayReturn, Bool.or_eq_false_iff] at ht
    have hnone := Stmt.compute_eq_none h t ht.1 l
    rw [Stmt.computeAll_cons]
    split
    · exact Stmt.computeAll_eq_none h ts ht.2 _
    next heq => simp [heq] at hnone

end

/-- Whichever branch is taken, one without a return only writes to variables that a skipped choice
forgets. -/
theorem Stmt.choose_silent (h : Heap) {c : Stmt} {a? : Option Stmt} (hc : c.mayReturn = false)
    (ha : a?.any Stmt.mayReturn = false) (l : Locals) (b : Option Bool) :
    (Stmt.choose h c a? l b).1 = none ∧
      ∀ name, name ∉ c.branchTargets a? → (Stmt.choose h c a? l b).2 name = l name := by
  rcases b with _ | _ | _
  · exact ⟨rfl, fun name hn => if_neg hn⟩
  · cases a? with
    | none => exact ⟨rfl, fun _ _ => rfl⟩
    | some a =>
      refine ⟨a.compute_eq_none h (by simpa using ha) l, fun name hn => a.keeps h l name ?_⟩
      exact fun hm => hn (by simp [branchTargets, hm])
  · refine ⟨c.compute_eq_none h hc l, fun name hn => c.keeps h l name ?_⟩
    exact fun hm => hn (by simp [branchTargets, hm])

/- What is returned in the run that knows less covers what the other one returns, as long as no return
was skipped. The induction follows the first run, so both take the same branches until one is skipped. -/
mutual

/-- From covering locals a steady statement computes covering results. -/
theorem Stmt.sound (h : Heap) : ∀ (t : Stmt) (l m : Locals), l.Covers m → t.steady h l = true →
    Option.Rel Value.Covers (t.compute h l).1 (t.compute h m).1 ∧
      (t.compute h l).2.Covers (t.compute h m).2
  | .block body, l, m, hl, hs => Stmt.soundAll h body l m hl hs
  | .expression e, l, m, hl, _ => ⟨.none, (e.sound h l m hl).2⟩
  | .declare .variable ds, l, m, hl, _ => ⟨.none, (Declarator.soundAll h ds l m hl).2⟩
  | .branch test c a?, l, m, hl, hs => by
    obtain ⟨hv, hl'⟩ := test.sound h l m hl
    rw [Stmt.steady_branch] at hs
    rw [Stmt.compute_branch, Stmt.compute_branch]
    have htold := Value.told_truth? hv
    generalize test.compute h l = x, test.compute h m = y at *
    cases hx : x.1.truth? with
    | none =>
      rw [hx] at hs
      simp only [Bool.and_eq_true, Bool.not_eq_true'] at hs
      obtain ⟨hnone, hkeep⟩ := Stmt.choose_silent h hs.1 hs.2 y.2 y.1.truth?
      rw [hnone]
      exact ⟨.none, hl'.forget hkeep⟩
    | some b =>
      rw [hx] at hs
      rw [htold.eq_some hx]
      cases b with
      | true => exact Stmt.sound h c _ _ hl' hs
      | false =>
        cases a? with
        | none => exact ⟨.none, hl'⟩
        | some a => exact Stmt.sound h a _ _ hl' hs
  | .ret none, l, m, hl, _ => ⟨.some (.refl _), hl⟩
  | .ret (some e), l, m, hl, _ => ⟨.some (e.sound h l m hl).1, (e.sound h l m hl).2⟩
  | .declare .lexical _, _, _, hl, _ | .declare .constant _, _, _, hl, _ | .empty, _, _, hl, _
  | .function _, _, _, hl, _ | .throw _, _, _, hl, _ | .attempt .., _, _, hl, _ => ⟨.none, hl⟩

theorem Stmt.soundAll (h : Heap) : ∀ (ts : List Stmt) (l m : Locals), l.Covers m →
    Stmt.allSteady h ts l = true →
    Option.Rel Value.Covers (Stmt.computeAll h ts l).1 (Stmt.computeAll h ts m).1 ∧
      (Stmt.computeAll h ts l).2.Covers (Stmt.computeAll h ts m).2
  | [], _, _, hl, _ => ⟨.none, hl⟩
  | t :: ts, l, m, hl, hs => by
    rw [Stmt.allSteady, Bool.and_eq_true] at hs
    obtain ⟨hr, hl'⟩ := Stmt.sound h t l m hl hs.1
    rw [Stmt.computeAll_cons, Stmt.computeAll_cons]
    have hrest := hs.2
    generalize t.compute h l = x, t.compute h m = y at *
    obtain ⟨r, l'⟩ := x
    obtain ⟨q, m'⟩ := y
    cases hr with
    | none => exact Stmt.soundAll h ts l' m' hl' hrest
    | some hv => exact ⟨.some hv, hl'⟩

end

theorem Function.covers_compute (f : Function) (h : Heap) {args args' : List Value}
    (ha : List.Forall₂ Value.Covers args args') (hs : f.steady h args = true) :
    (f.compute h args).Covers (f.compute h args') := by
  have hl : (f.locals args).Covers (f.locals args') := .bindParams f.params ha fun _ => .refl _
  have hr := (Stmt.soundAll h f.body _ _ hl hs).1
  unfold compute
  generalize (Stmt.computeAll h f.body (f.locals args)).1 = r at hr ⊢
  generalize (Stmt.computeAll h f.body (f.locals args')).1 = q at hr ⊢
  cases hr with
  | none => exact .refl _
  | some hv => exact hv

end Surmise
