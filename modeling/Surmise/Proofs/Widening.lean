import Surmise.Proofs.Evolution
import Surmise.Proofs.Parts

/-! Widening does nothing but write the unknown value to names and to properties, one after the
other. So it changes a store only as evaluation does. -/
namespace Surmise

inductive Store.Forget (s : Store) : Store → Prop
  | name (chain : Chain) (name : String) : Forget s (s.forgetName chain name)
  | property (id : ObjectId) (key : String) : Forget s (s.put id key .unknown).1

abbrev Store.Forgets : Store → Store → Prop := Relation.ReflTransGen Store.Forget

namespace Store

theorem Forget.edit {s t : Store} {keep : ObjectId → Prop} (h : s.Forget t) : s.Edit keep t := by
  cases h with
  | name chain name => exact .assign chain name .unknown
  | property id key => exact .put id key .unknown

theorem Forgets.edits {s t : Store} {keep : ObjectId → Prop} (h : s.Forgets t) : s.Edits keep t := by
  induction h with
  | refl => exact .refl
  | tail _ hf ih => exact ih.tail hf.edit

theorem forgets_forgetAll (s : Store) (id : ObjectId) : s.Forgets (s.forgetAll id) := by
  rw [forgetAll_eq_foldl]
  exact List.foldlRecOn _ _ .refl fun _ h key _ => h.tail (.property id key)

end Store

/-! ### Widening -/

/-- What forgetting a name and forgetting a property keeps is kept by widening. -/
theorem Store.Widens.keeping {ok : Expr → Prop} {chain : Chain} {I : Store → Prop}
    (hname : ∀ s name, I s → I (s.forgetName chain name))
    (hput : ∀ {op m value}, ok (.assign op (.member m) value) →
      ∀ s id key, I s → I (s.put id key .unknown).1) :
    Widens ok chain chain fun s' s => s' = s ∧ I s where
  name name := by
    rintro s _ ⟨rfl, h⟩
    exact ⟨rfl, hname s name h⟩
  access hok :=
    { object := by
        rintro s _ ⟨rfl, _⟩ name
        rfl
      property := by
        rintro id key s _ ⟨rfl, h⟩
        exact ⟨rfl, hput hok s id key h⟩
      all := by
        rintro id s _ ⟨rfl, h⟩
        refine ⟨rfl, ?_⟩
        dsimp only
        rw [forgetAll_eq_foldl]
        exact List.foldlRecOn _ _ h fun t ht key _ => hput hok t id key ht }

theorem Store.widens_forgets (chain : Chain) (s : Store) :
    Widens (fun _ => True) chain chain fun t' t => t' = t ∧ s.Forgets t :=
  .keeping (fun _ name h => h.tail (.name chain name)) fun _ _ id key h => h.tail (.property id key)

theorem Expr.forgets_widen (chain : Chain) (e : Expr) (s : Store) : s.Forgets (e.widen chain s) :=
  ((s.widens_forgets chain).expr e (fun _ _ => trivial) ⟨rfl, .refl⟩).2

theorem Expr.forgets_widenAll (chain : Chain) (es : List Expr) (s : Store) :
    s.Forgets (Expr.widenAll chain es s) :=
  ((s.widens_forgets chain).exprAll es (fun _ _ => trivial) ⟨rfl, .refl⟩).2

theorem Stmt.forgets_widen (chain : Chain) (t : Stmt) (s : Store) : s.Forgets (t.widen chain s) :=
  ((s.widens_forgets chain).stmt t (fun _ _ => trivial) ⟨rfl, .refl⟩).2

theorem Stmt.forgets_widenBranches (chain : Chain) (c : Stmt) (a? : Option Stmt) (s : Store) :
    s.Forgets (Stmt.widenBranches chain c a? s) :=
  ((s.widens_forgets chain).branches (fun _ _ => trivial) (fun _ _ _ _ => trivial) ⟨rfl, .refl⟩).2

end Surmise
