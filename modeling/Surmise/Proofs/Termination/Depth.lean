import Mathlib.Data.Finset.Card
import Mathlib.Data.Finset.Range
import Surmise.Proofs.Termination.Conversion

/-! How deep conversions go. The errors on the way down from one object are different ones, for an error
inside itself is never converted, and between two of them no array is entered twice; so what comes to an end
at all does so within the depth that conversions are given. -/
namespace Surmise

def Anticipates {α : Type} (p q : α → Option Value) : Prop := ∀ a v, p a = some v → q a = some v

variable {p q : ObjectId → Option Value}

theorem Value.settle_mono (h : Anticipates p q) (n : Nat) : Anticipates (settle p n) (settle q n) := by
  induction n with
  | zero =>
    intro v w hw
    cases v with
    | object id => cases hw
    | _ => exact hw
  | succ n ih =>
    intro v w hw
    cases v with
    | object id =>
      rw [settle] at hw ⊢
      cases hp : p id with
      | none =>
        rw [hp] at hw
        cases hw
      | some u =>
        rw [hp] at hw
        rw [h id u hp]
        exact ih u w hw
    | _ => exact hw

theorem elementText_mono (h : Anticipates p q) : Anticipates (elementText p) (elementText q) := by
  intro v w hw
  cases v with
  | object id =>
    unfold elementText at hw ⊢
    dsimp only at hw ⊢
    cases hp : p id with
    | none =>
      rw [hp] at hw
      cases hw
    | some u =>
      rw [hp] at hw
      rw [h id u hp]
      exact hw
  | _ => exact hw

theorem joinElements_mono {part part' : Nat → Option Value} (h : Anticipates part part') {n i : Nat}
    {done : List String} {v : Value} (hv : joinElements part n i done = some v) :
    joinElements part' n i done = some v := by
  induction n generalizing i done with
  | zero => exact hv
  | succ n ih =>
    unfold joinElements at hv ⊢
    cases hp : part i with
    | none =>
      rw [hp] at hv
      cases hv
    | some u =>
      rw [hp] at hv
      rw [h i u hp]
      cases u with
      | string s => exact ih hv
      | _ => exact hv

/-- What is found of an error with fewer steps is found with more. -/
theorem errorText_mono {s s' : Value → Option Value} (h : Anticipates s s') {r : Record} {v : Value}
    (hv : errorText s r = some v) : errorText s' r = some v := by
  unfold errorText at hv ⊢
  cases hn : s (r.get "name") with
  | none =>
    rw [hn] at hv
    cases hv
  | some name =>
    rw [hn] at hv
    rw [h _ name hn]
    dsimp only at hv ⊢
    cases ht : name.primitiveText? with
    | none =>
      rw [ht] at hv
      exact hv
    | some text =>
      rw [ht] at hv
      dsimp only at hv ⊢
      split at hv
      next => exact hv
      next hmessage =>
        cases hm : s (r.get "message") with
        | none =>
          rw [hm] at hv
          cases hv
        | some message =>
          rw [hm] at hv
          rw [h _ message hm]
          exact hv

namespace Heap
variable {h : Heap} {path : List ObjectId} {id : ObjectId} {v : Value} {m n : Nat}

/-- Only arrays and errors convert other objects: an array those that are inside of it, on a longer path, and
an error its parts, on a new one. -/
theorem primitiveOf?_step
    (harray : (h.record id).objectClass = .array → id ∉ path →
      Anticipates (h.primitiveOf? m (id :: path)) (h.primitiveOf? n (id :: path)))
    (herror : ∀ kind, (h.record id).objectClass = .error kind →
      Anticipates (h.primitiveOf? m []) (h.primitiveOf? n []))
    (hv : h.primitiveOf? (m + 1) path id = some v) : h.primitiveOf? (n + 1) path id = some v := by
  unfold primitiveOf? at hv ⊢
  dsimp only at hv ⊢
  cases hc : (h.record id).objectClass with
  | array =>
    rw [hc] at hv
    dsimp only at hv ⊢
    split at hv
    next hmem =>
      rw [if_pos hmem]
      exact hv
    next hmem =>
      rw [if_neg hmem]
      split at hv
      next =>
        have hparts := elementText_mono (harray hc fun h => hmem (List.contains_iff_mem.mpr h))
        exact joinElements_mono (fun i w hw => hparts _ w hw) hv
      next => exact hv
  | error kind =>
    rw [hc] at hv
    exact errorText_mono (Value.settle_mono (herror kind hc) _) hv
  | _ =>
    rw [hc] at hv
    exact hv

theorem primitiveOf?_mono (hmn : m ≤ n) (hv : h.primitiveOf? m path id = some v) :
    h.primitiveOf? n path id = some v := by
  induction m generalizing n path id v with
  | zero => cases hv
  | succ m ih =>
    obtain ⟨n, rfl⟩ : ∃ k, n = k + 1 := ⟨n - 1, by omega⟩
    have hmn := Nat.le_of_succ_le_succ hmn
    exact primitiveOf?_step (fun _ _ _ _ => ih hmn) (fun _ _ _ _ => ih hmn) hv

theorem primitiveOf?_error {kind : ErrorKind} (hc : (h.record id).objectClass = .error kind) (n : Nat)
    (path : List ObjectId) : h.primitiveOf? n path id = h.primitiveOf? n [] id := by
  cases n with
  | zero => rfl
  | succ n =>
    unfold primitiveOf?
    dsimp only
    rw [hc]

def converted (h : Heap) (n : Nat) : Nat :=
  ((Finset.range h.size).filter fun i => (h.primitiveOf? n [] ⟨i⟩).isSome).card

theorem converted_le (h : Heap) (n : Nat) : h.converted n ≤ h.size :=
  (Finset.card_filter_le _ _).trans_eq (Finset.card_range _)

theorem isSome_primitiveOf?_mono (hmn : m ≤ n) (hm : (h.primitiveOf? m path id).isSome = true) :
    (h.primitiveOf? n path id).isSome = true := by
  obtain ⟨v, hv⟩ := Option.isSome_iff_exists.mp hm
  rw [primitiveOf?_mono hmn hv]
  rfl

theorem converted_mono (hmn : m ≤ n) : h.converted m ≤ h.converted n :=
  Finset.card_le_card (Finset.monotone_filter_right _ fun _ _ => isSome_primitiveOf?_mono hmn)

theorem converted_lt (hmn : m ≤ n) (hid : id.index < h.size) (hm : h.primitiveOf? m [] id = none)
    (hn : h.primitiveOf? n [] id = some v) : h.converted m < h.converted n := by
  refine Finset.card_lt_card ⟨Finset.monotone_filter_right _ fun _ _ => isSome_primitiveOf?_mono hmn, ?_⟩
  intro hsubset
  have hmem : id.index ∈ (Finset.range h.size).filter fun i => (h.primitiveOf? n [] ⟨i⟩).isSome :=
    Finset.mem_filter.mpr ⟨Finset.mem_range.mpr hid, by rw [hn]; rfl⟩
  have hsome := (Finset.mem_filter.mp (hsubset hmem)).2
  rw [hm] at hsome
  cases hsome

def depthWithin (h : Heap) (n : Nat) (path : List ObjectId) : Nat :=
  h.converted n * (h.size + 1) + (h.size - path.length) + 1

theorem depthWithin_cons (hmn : m ≤ n) (hpath : (id :: path).length ≤ h.size) :
    h.depthWithin m (id :: path) + 1 ≤ h.depthWithin n path := by
  have hle := Nat.mul_le_mul_right (h.size + 1) (h.converted_mono hmn)
  unfold depthWithin
  rw [List.length_cons] at hpath ⊢
  omega

theorem depthWithin_nil (hlt : h.converted m < h.converted n) (path : List ObjectId) :
    h.depthWithin m [] + 1 ≤ h.depthWithin n path := by
  have hle := Nat.mul_le_mul_right (h.size + 1) hlt
  rw [Nat.succ_mul] at hle
  unfold depthWithin
  rw [List.length_nil]
  omega

theorem exists_last_step (hv : h.primitiveOf? n path id = some v) :
    ∃ k < n, h.primitiveOf? k path id = none ∧ h.primitiveOf? (k + 1) path id = some v := by
  induction n with
  | zero => cases hv
  | succ n ih =>
    cases hn : h.primitiveOf? n path id with
    | none => exact ⟨n, Nat.lt_succ_self n, hn, hv⟩
    | some w =>
      obtain rfl : w = v := Option.some.inj ((primitiveOf?_mono (Nat.le_succ n) hn).symm.trans hv)
      obtain ⟨k, hk, hnone, hsome⟩ := ih hn
      exact ⟨k, Nat.lt_succ_of_lt hk, hnone, hsome⟩

theorem primitiveOf?_depthWithin (hpath : path.Nodup) (hin : ∀ j ∈ path, j.index < h.size)
    (hv : h.primitiveOf? n path id = some v) : h.primitiveOf? (h.depthWithin n path) path id = some v := by
  induction n using Nat.strong_induction_on generalizing path id v with
  | _ n ih =>
    -- at its last step an error is not yet converted, so it is not among those inside of it
    obtain ⟨k, hk, hnone, hsome⟩ := exists_last_step hv
    refine primitiveOf?_step (m := k) (fun hc hnew j w hw => ?_) (fun kind hc j w hw => ?_) hsome
    · have hid : id.index < h.size := lt_size_of_objectClass (by rw [hc]; nofun)
      have hpath' : (id :: path).Nodup := List.nodup_cons.mpr ⟨hnew, hpath⟩
      have hin' : ∀ j ∈ id :: path, j.index < h.size := List.forall_mem_cons.mpr ⟨hid, hin⟩
      have hdepth := depthWithin_cons (Nat.le_of_lt hk) (length_le_of_nodup hpath' hin')
      exact primitiveOf?_mono (Nat.le_of_succ_le_succ hdepth) (ih k hk hpath' hin' hw)
    · have hid : id.index < h.size := lt_size_of_objectClass (by rw [hc]; nofun)
      rw [primitiveOf?_error hc] at hv hnone
      have hdepth := depthWithin_nil (converted_lt (Nat.le_of_lt hk) hid hnone hv) path
      have hparts := ih k hk .nil (List.forall_mem_nil _) hw
      exact primitiveOf?_mono (Nat.le_of_succ_le_succ hdepth) hparts

/-- What comes to an end at all does so within the depth that is given. -/
theorem primitiveOf?_conversionDepth (hv : h.primitiveOf? n [] id = some v) :
    h.primitiveOf? h.conversionDepth [] id = some v := by
  refine primitiveOf?_mono ?_ (primitiveOf?_depthWithin .nil (List.forall_mem_nil _) hv)
  have hle : h.converted n * (h.size + 1) ≤ h.size * (h.size + 1) :=
    Nat.mul_le_mul_right _ (h.converted_le n)
  unfold depthWithin conversionDepth
  rw [List.length_nil]
  grind

end Heap
end Surmise
