import Surmise.Proofs.Running
import Surmise.Proofs.Store

/-! Writing without hooks. As long as no hook has to be called, what is written depends on the heap
alone, and the session changes only when a fault ends the writing. So writing is a function from heaps to
texts, and facts about it are facts about heaps. -/
namespace Surmise

open Eval

namespace Json

inductive Halt where
  /-- Something that would have to be written is unknown. -/
  | unknown
  | fault (kind : ErrorKind) (message : String)
  /-- A hook would have to be called. -/
  | hooked
  | exhausted

abbrev Writing (α : Type) := Except Halt α

def unhooked (h : Heap) : Value → Writing Unit
  | .object id =>
    if (h.get id "toJSON").isUnknown then .error .unknown
    else if h.isCallable (h.get id "toJSON") then .error .hooked
    else .ok ()
  | _ => .ok ()

def writePrimitive [Platform] (v : Value) : Writing (Option String) :=
  match primitivePiece v with
  | .text s => .ok (some s)
  | .omitted => .ok none
  | .unknown => .error .unknown

def elementTexts (element : Nat → Writing (Option String)) (indexes : List Nat) :
    Writing (List String) :=
  indexes.mapM fun i => do
    let text ← element i
    return text.getD "null"

def memberTexts [Platform] (style : Style) (member : String → Writing (Option String)) (keys : List String) :
    Writing (List String) := do
  let texts ← keys.mapM fun key => do
    let text ← member key
    return text.map (style.member key)
  return texts.filterMap id

def writeObject [Platform] (style : Style) (indent : String) (r : Record)
    (inner : String → Writing (Option String)) : Writing (Option String) :=
  if r.objectClass = .array then
    match r.extent with
    | .unknown => .error .unknown
    | .tooLong _ => .error (.fault .rangeError "Invalid string length")
    | .walkable n => do
      let texts ← elementTexts (fun i => inner (indexKey i)) (List.range n)
      return some (style.enclose indent "[" "]" texts)
  else do
    let texts ← memberTexts style inner (style.keys.getD r.enumerableKeys)
    return some (style.enclose indent "\x7b" "\x7d" texts)

def circular : Halt := .fault .typeError "Converting circular structure to JSON"

def writeUnwrapped [Platform] (h : Heap) (style : Style) (indent : String) (path : List ObjectId)
    (inner : List ObjectId → Value → Writing (Option String)) : Value → Writing (Option String)
  | .object id =>
    let r := h.record id
    if r.callable.isSome then .ok none
    else if path.contains id then .error circular
    else writeObject style indent r fun key => inner (id :: path) (r.get key)
  | v => writePrimitive v

/-- The text of a value, if it has one, for at most `fuel` objects inside one another. The objects on
`path` are being written. -/
def write [Platform] (h : Heap) (style : Style) :
    (fuel : Nat) → (indent : String) → (path : List ObjectId) → Value → Writing (Option String)
  | 0, _, _, _ => .error .exhausted
  | fuel + 1, indent, path, v => do
    unhooked h v
    writeUnwrapped h style indent path (write h style fuel (indent ++ style.gap)) (unwrapped h v)

/-! ### Evaluations that write -/

theorem ne_hooked_of_bind {α β : Type} {x : Writing α} {g : α → Writing β}
    (h : (x >>= g) ≠ .error .hooked) : x ≠ .error .hooked := by
  rintro rfl
  exact h rfl

def perform {α β : Type} (value : α → β) (unknown : β) : Writing α → Eval β
  | .ok a => return value a
  | .error .unknown => return unknown
  | .error (.fault kind message) => do
    let _ ← route kind message
    return unknown
  | .error .hooked | .error .exhausted => exhausted

section Perform

variable {α β γ δ : Type} {value : α → β} {unknown : β} {s : Session}

theorem perform_bind {x : Writing α} {g : α → Writing γ} {f : β → Eval δ} {value' : γ → δ}
    {unknown' : δ} (hu : f unknown = pure unknown')
    (hf : ∀ a, x = .ok a → f (value a) s = perform value' unknown' (g a) s) :
    (perform value unknown x >>= f) s = perform value' unknown' (x >>= g) s := by
  cases x with
  | ok a => exact hf a rfl
  | error e =>
    cases e with
    | unknown => exact congrFun hu s
    | fault kind message =>
      rw [perform, bind_assoc]
      change (route kind message >>= fun _ => f unknown) s = _
      rw [hu]
      rfl
    | hooked => rfl
    | exhausted => rfl

theorem perform_map (g : γ → α) (x : Writing γ) :
    perform value unknown (do let c ← x; return g c) = perform (fun c => value (g c)) unknown x := by
  cases x with
  | ok c => rfl
  | error e => cases e <;> rfl

end Perform

variable {style : Style} {text : String → Writing (Option String)} {v : Value}

def Piece.ofText : Option String → Piece
  | some s => .text s
  | none => .omitted

abbrev performPiece : Writing (Option String) → Eval Piece := perform Piece.ofText .unknown

variable {s : Session}

theorem elementTexts_cons (element : Nat → Writing (Option String)) (i : Nat) (indexes : List Nat) :
    elementTexts element (i :: indexes) =
      (do
        let text ← element i
        let texts ← elementTexts element indexes
        return text.getD "null" :: texts) := by
  simp [elementTexts]

theorem elementParts_eq {element : Nat → Eval Piece} {text : Nat → Writing (Option String)}
    (h : ∀ i, text i ≠ .error .hooked → element i s = performPiece (text i) s) (n start : Nat)
    (parts : List String) (hn : elementTexts text (List.range' start n) ≠ .error .hooked) :
    elementParts element n start parts s =
      perform (fun texts => some (parts.reverse ++ texts)) none
        (elementTexts text (List.range' start n)) s := by
  induction n generalizing start parts with
  | zero =>
    change _ = (Outcome.done (some (parts.reverse ++ [])), s)
    rw [List.append_nil]
    rfl
  | succ n ih =>
    rw [List.range'_succ, elementTexts_cons] at hn ⊢
    rw [elementParts, run_bind_congr (h start (ne_hooked_of_bind hn))]
    refine perform_bind rfl fun a ha => ?_
    rw [ha] at hn
    have hrest : elementTexts text (List.range' (start + 1) n) ≠ .error .hooked :=
      ne_hooked_of_bind hn
    have hparts := ih (start + 1) (a.getD "null" :: parts) hrest
    rw [perform_map]
    cases a with
    | none | some t => simpa [Piece.ofText] using hparts

theorem memberTexts_cons [Platform] (style : Style) (member : String → Writing (Option String)) (key : String)
    (keys : List String) :
    memberTexts style member (key :: keys) =
      (do
        let text ← member key
        let texts ← memberTexts style member keys
        return (text.map (style.member key)).toList ++ texts) := by
  unfold memberTexts
  rw [List.mapM_cons]
  cases member key with
  | error e => rfl
  | ok text =>
    change Except.bind _ _ = Except.bind _ _
    generalize (List.mapM (m := Writing) _ keys) = rest
    cases rest with
    | error e => rfl
    | ok texts => cases text <;> rfl

theorem memberParts_eq [Platform] {member : String → Eval Piece}
    (h : ∀ key, text key ≠ .error .hooked → member key s = performPiece (text key) s)
    (keys parts : List String) (hk : memberTexts style text keys ≠ .error .hooked) :
    memberParts style member keys parts s =
      perform (fun texts => some (parts.reverse ++ texts)) none (memberTexts style text keys) s := by
  induction keys generalizing parts with
  | nil =>
    change _ = (Outcome.done (some (parts.reverse ++ [])), s)
    rw [List.append_nil]
    rfl
  | cons key keys ih =>
    rw [memberTexts_cons] at hk ⊢
    rw [memberParts, run_bind_congr (h key (ne_hooked_of_bind hk))]
    refine perform_bind rfl fun a ha => ?_
    rw [ha] at hk
    have hrest : memberTexts style text keys ≠ .error .hooked := ne_hooked_of_bind hk
    rw [perform_map]
    cases a with
    | none => simpa [Piece.ofText] using ih parts hrest
    | some t => simpa [Piece.ofText] using ih (style.member key t :: parts) hrest

theorem hooked_eq (call : Invoke) (key : String) (hv : unhooked s.heap v ≠ .error .hooked) :
    hooked call key v s = perform (fun _ => some v) none (unhooked s.heap v) s := by
  cases v with
  | object id =>
    rw [unhooked] at hv ⊢
    rw [hooked, run_read_bind]
    split at hv
    next hu =>
      rw [if_pos hu, if_pos hu]
      rfl
    next hu =>
      rw [if_neg hu, if_neg hu]
      split at hv
      · exact absurd rfl hv
      next hc =>
        rw [if_neg hc, if_neg hc]
        rfl
  | _ => rfl

theorem ofParts_eq (left right indent : String) (style : Style) (x : Writing (List String)) :
    (perform some none x >>= fun parts =>
        return Piece.ofParts (style.enclose indent left right) parts) s =
      performPiece (do let texts ← x; return some (style.enclose indent left right texts)) s := by
  exact perform_bind rfl fun texts _ => rfl

theorem writeObject_eq [Platform] {indent : String} {r : Record} {inner : String → Eval Piece}
    (h : ∀ key, text key ≠ .error .hooked → inner key s = performPiece (text key) s)
    (hw : writeObject style indent r text ≠ .error .hooked) :
    (if r.objectClass = .array then arrayPiece style indent r fun i => inner (indexKey i)
      else objectPiece style indent r inner) s = performPiece (writeObject style indent r text) s := by
  unfold writeObject at *
  split
  next hc =>
    rw [if_pos hc] at hw
    unfold arrayPiece
    cases he : r.extent with
    | unknown => rfl
    | tooLong n => rfl
    | walkable n =>
      rw [he] at hw
      dsimp only at hw ⊢
      rw [List.range_eq_range'] at hw ⊢
      have hparts := elementParts_eq (fun i => h (indexKey i)) n 0 [] (ne_hooked_of_bind hw)
      exact (run_bind_congr hparts _).trans (ofParts_eq _ _ _ _ _)
  next hc =>
    rw [if_neg hc] at hw
    have hparts := memberParts_eq h (style.keys.getD r.enumerableKeys) [] (ne_hooked_of_bind hw)
    exact (run_bind_congr hparts _).trans (ofParts_eq _ _ _ _ _)

theorem performPiece_primitive [Platform] : performPiece (writePrimitive v) s =
    (.done (primitivePiece v), s) := by
  unfold writePrimitive
  cases primitivePiece v <;> rfl

/-- Without hooks, a property is written as its value is. -/
theorem serialize_eq [Platform] (call : Invoke) (hs : style.replacer = none) (fuel : Nat) (indent : String)
    (path : List ObjectId) (holder : ObjectId) (key : String)
    (hw : write s.heap style fuel indent path (s.heap.get holder key) ≠ .error .hooked) :
    serialize call style fuel indent path holder key s =
      performPiece (write s.heap style fuel indent path (s.heap.get holder key)) s := by
  induction fuel generalizing indent path holder key with
  | zero => rfl
  | succ fuel ih =>
    rw [serialize, run_bind (run_onHeap _ s)]
    generalize s.heap.get holder key = v at hw ⊢
    rw [write] at hw ⊢
    rw [run_bind_congr (hooked_eq call key (ne_hooked_of_bind hw))]
    refine perform_bind rfl fun _ ha => ?_
    rw [ha] at hw
    replace hw : writeUnwrapped s.heap style indent path _ (unwrapped s.heap v) ≠ _ := hw
    have hreplace : replaced call style holder key v s = (.done v, s) := by
      unfold replaced
      rw [hs]
      rfl
    dsimp only
    rw [run_bind hreplace, run_bind (run_onHeap _ s)]
    generalize unwrapped s.heap v = w at hw ⊢
    cases w with
    | object id =>
      rw [writeUnwrapped] at hw ⊢
      dsimp only at hw ⊢
      rw [run_bind (run_onHeap _ s)]
      split
      · rfl
      next hc =>
        rw [if_neg hc] at hw
        split
        · rfl
        next hp =>
          rw [if_neg hp] at hw
          exact writeObject_eq (fun key hk => ih _ _ id key hk) hw
    | _ =>
      exact performPiece_primitive.symm

/-! ### Values at the root -/

variable {replacer : Value}

def rootText [Platform] (h : Heap) (v replacer space : Value) : Writing (Option String) :=
  match style? h replacer space with
  | none => .error .unknown
  | some style => write (h.allocate (.ofEntries [("", v)])).1 style (h.size + hookBudget) "" [] v

def textValue : Option String → Value
  | some s => .string s
  | none => .undefined

theorem style?_of_not_callable {h : Heap} {space : Value} (hc : h.isCallable replacer = false)
    (hs : style? h replacer space = some style) :
    style.replacer = none ∧ onlyKeys? h replacer = some style.keys ∧
      gap? h space = some style.gap := by
  unfold style? at hs
  rw [hc, if_neg (by simp)] at hs
  split at hs
  next keys gap hk hg =>
    cases hs
    exact ⟨rfl, hk, hg⟩
  next => cases hs

theorem performPiece_value (x : Writing (Option String)) :
    (performPiece x >>= fun piece => return piece.value) = perform textValue .unknown x := by
  cases x with
  | ok text => cases text <;> rfl
  | error e =>
    cases e with
    | fault kind message => exact bind_assoc (route kind message) _ _
    | unknown | hooked | exhausted => rfl

def holding (store : Store) (v : Value) : Option Style → Store
  | some _ => (store.allocate (.ofEntries [("", v)])).1
  | none => store

theorem run_stringify [Platform] (call : Invoke) (v : Value) (space : Value)
    (hc : s.heap.isCallable replacer = false) (hw : rootText s.heap v replacer space ≠ .error .hooked) :
    stringify call v replacer space s = perform textValue .unknown (rootText s.heap v replacer space)
      { s with store := holding s.store v (style? s.heap replacer space) } := by
  unfold stringify rootText at *
  rw [run_read_bind]
  cases hs : style? s.heap replacer space with
  | none => rfl
  | some style =>
    rw [hs] at hw
    dsimp only at hw ⊢
    let t : Session := { s with store := (s.store.allocate (.ofEntries [("", v)])).1 }
    have hallocate : allocate (.ofEntries [("", v)]) s = (.done ⟨s.heap.size⟩, t) := rfl
    have hget : t.heap.get ⟨s.heap.size⟩ "" = v := by
      unfold Heap.get
      change ((s.heap.allocate _).1.record ⟨s.heap.size⟩).get "" = v
      rw [Heap.record_allocate, if_pos rfl]
      rfl
    have hserialize := serialize_eq (s := t) call (style?_of_not_callable hc hs).1
      (s.heap.size + hookBudget) "" [] ⟨s.heap.size⟩ ""
    rw [hget] at hserialize
    rw [run_bind hallocate, run_bind_congr (hserialize hw), performPiece_value]
    rfl

/-- Without hooks, the text of a value is a matter of the heap. -/
theorem stringify_eq [Platform] (call : Invoke) (v : Value) (space : Value)
    (hc : s.heap.isCallable replacer = false) (hw : rootText s.heap v replacer space ≠ .error .hooked) :
    ∃ store, stringify call v replacer space s =
      perform textValue .unknown (rootText s.heap v replacer space) { s with store } :=
  ⟨_, run_stringify call v space hc hw⟩

end Json

/-! ### What is written of an object -/

variable {r : Record}

def Record.written (r : Record) (keys : Option (List String)) : List String :=
  if r.objectClass = .array then (List.range r.arrayLength).map indexKey
  else keys.getD r.enumerableKeys

theorem Record.extent_walkable {n : Nat} (h : r.extent = .walkable n) : r.arrayLength = n := by
  unfold extent at h
  split at h
  · cases h
  · split at h
    · cases h
    · exact Extent.walkable.inj h

section Lists

variable {α β ε : Type} {f g : α → Except ε β} {x : Except ε α} {as : List α} {bs : List β} {b : β} {e : ε}

theorem bind_eq_ok : (x >>= f) = .ok b ↔ ∃ a, x = .ok a ∧ f a = .ok b := by
  constructor
  · intro h
    cases x with
    | error e => cases h
    | ok a => exact ⟨a, rfl, h⟩
  · rintro ⟨a, rfl, h⟩
    exact h

theorem bind_eq_error : (x >>= f) = .error e ↔ x = .error e ∨ ∃ a, x = .ok a ∧ f a = .error e := by
  constructor
  · intro h
    cases x with
    | error e' =>
      cases h
      exact .inl rfl
    | ok a => exact .inr ⟨a, rfl, h⟩
  · rintro (rfl | ⟨a, rfl, h⟩)
    · rfl
    · exact h

theorem mapM_cons_eq_ok {a : α} :
    (a :: as).mapM f = .ok bs ↔ ∃ b rest, bs = b :: rest ∧ f a = .ok b ∧ as.mapM f = .ok rest := by
  rw [List.mapM_cons, bind_eq_ok]
  constructor
  · rintro ⟨b, hb, h⟩
    obtain ⟨rest, hrest, h⟩ := bind_eq_ok.mp h
    cases h
    exact ⟨b, rest, rfl, hb, hrest⟩
  · rintro ⟨b, rest, rfl, hb, hrest⟩
    exact ⟨b, hb, bind_eq_ok.mpr ⟨rest, hrest, rfl⟩⟩

theorem ok_of_mapM_ok (h : as.mapM f = .ok bs) : ∀ a ∈ as, ∃ b, f a = .ok b := by
  induction as generalizing bs with
  | nil => exact fun _ => nofun
  | cons a as ih =>
    obtain ⟨b, rest, -, hb, hrest⟩ := mapM_cons_eq_ok.mp h
    exact List.forall_mem_cons.mpr ⟨⟨b, hb⟩, ih hrest⟩

theorem map_ok_of_ok {y : Except ε α} {g : α → β} (h : ∀ a, x = .ok a → y = .ok a)
    (hb : (do let a ← x; return g a) = (.ok b : Except ε β)) :
    (do let a ← y; return g a) = (.ok b : Except ε β) := by
  obtain ⟨a, ha, hb⟩ := bind_eq_ok.mp hb
  exact bind_eq_ok.mpr ⟨a, h a ha, hb⟩

theorem mapM_ok_of_ok (h : as.mapM f = .ok bs) (hfg : ∀ a ∈ as, ∀ b, f a = .ok b → g a = .ok b) :
    as.mapM g = .ok bs := by
  induction as generalizing bs with
  | nil => exact h
  | cons a as ih =>
    obtain ⟨b, rest, rfl, hb, hrest⟩ := mapM_cons_eq_ok.mp h
    refine mapM_cons_eq_ok.mpr ⟨b, rest, rfl, hfg a (.head _) b hb, ?_⟩
    exact ih hrest fun a ha => hfg a (.tail _ ha)

theorem error_of_mapM_error (h : as.mapM f = .error e) : ∃ a ∈ as, f a = .error e := by
  induction as with
  | nil => cases h
  | cons a as ih =>
    rw [List.mapM_cons] at h
    obtain h | ⟨b, hb, h⟩ := bind_eq_error.mp h
    · exact ⟨a, .head _, h⟩
    · obtain h | ⟨bs, _, h⟩ := bind_eq_error.mp h
      · obtain ⟨a, ha, he⟩ := ih h
        exact ⟨a, .tail _ ha, he⟩
      · cases h

end Lists

namespace Json

section Objects

variable {style : Style} {indent : String} {r : Record} {inner : String → Writing (Option String)}

theorem error_of_map_error {α β : Type} {x : Writing α} {g : α → β} {e : Halt}
    (h : (do let a ← x; return g a) = (.error e : Writing β)) : x = .error e := by
  obtain h | ⟨a, _, h⟩ := bind_eq_error.mp h
  · exact h
  · cases h

/-- An object is written only if each of its members is. -/
theorem ok_of_writeObject_ok [Platform] {text : Option String}
    (h : writeObject style indent r inner = .ok text) :
    ∀ key ∈ r.written style.keys, ∃ t, inner key = .ok t := by
  unfold writeObject at h
  unfold Record.written
  split
  next hc =>
    rw [if_pos hc] at h
    split at h
    · cases h
    · cases h
    next n he =>
      obtain ⟨texts, ht, -⟩ := bind_eq_ok.mp h
      rw [Record.extent_walkable he]
      intro key hk
      obtain ⟨i, hi, rfl⟩ := List.mem_map.mp hk
      obtain ⟨b, hb⟩ := ok_of_mapM_ok ht i hi
      obtain ⟨t, ht, -⟩ := bind_eq_ok.mp hb
      exact ⟨t, ht⟩
  next hc =>
    rw [if_neg hc] at h
    obtain ⟨texts, ht, -⟩ := bind_eq_ok.mp h
    obtain ⟨parts, hp, -⟩ := bind_eq_ok.mp ht
    intro key hk
    obtain ⟨b, hb⟩ := ok_of_mapM_ok hp key hk
    obtain ⟨t, ht, -⟩ := bind_eq_ok.mp hb
    exact ⟨t, ht⟩

theorem error_of_writeObject_error [Platform] {e : Halt} (h : writeObject style indent r inner = .error e) :
    (r.objectClass = .array ∧ r.extent = .unknown ∧ e = .unknown) ∨
      (r.objectClass = .array ∧ ∃ n, r.extent = .tooLong n ∧
        e = .fault .rangeError "Invalid string length") ∨
      ∃ key ∈ r.written style.keys, inner key = .error e := by
  unfold writeObject at h
  unfold Record.written
  split at h
  next hc =>
    rw [if_pos hc]
    split at h
    next he =>
      cases h
      exact .inl ⟨hc, he, rfl⟩
    next n he =>
      cases h
      exact .inr (.inl ⟨hc, n, he, rfl⟩)
    next n he =>
      obtain ⟨i, hi, he'⟩ := error_of_mapM_error (error_of_map_error h)
      rw [Record.extent_walkable he]
      exact .inr (.inr ⟨indexKey i, List.mem_map_of_mem hi, error_of_map_error he'⟩)
  next hc =>
    rw [if_neg hc]
    obtain ⟨key, hk, he⟩ := error_of_mapM_error (error_of_map_error (error_of_map_error h))
    exact .inr (.inr ⟨key, hk, error_of_map_error he⟩)

end Objects

variable {v : Value} {e : Halt} {h : Heap}

theorem error_of_writePrimitive_error [Platform] (h : writePrimitive v = .error e) :
    v = .unknown ∧ e = .unknown := by
  cases v with
  | unknown =>
    cases h
    exact ⟨rfl, rfl⟩
  | boolean b => cases b <;> cases h
  | number x => cases hx : x.isFinite <;> simp [writePrimitive, primitivePiece, hx] at h
  | undefined | null | string _ | object _ => cases h

theorem error_of_unhooked_error (he : unhooked h v = .error e) :
    ∃ id, v = .object id ∧
      ((h.get id "toJSON").isUnknown = true ∧ e = .unknown ∨
        h.isCallable (h.get id "toJSON") = true ∧ e = .hooked) := by
  cases v with
  | object id =>
    unfold unhooked at he
    dsimp only at he
    split at he
    next hu =>
      cases he
      exact ⟨id, rfl, .inl ⟨hu, rfl⟩⟩
    next =>
      split at he
      next hc =>
        cases he
        exact ⟨id, rfl, .inr ⟨hc, rfl⟩⟩
      next => cases he
  | _ => cases he

theorem writeUnwrapped_primitive [Platform] (h : Heap) (style : Style) (indent : String)
    (path : List ObjectId)
    (inner : List ObjectId → Value → Writing (Option String)) (hv : ∀ id, v ≠ .object id) :
    writeUnwrapped h style indent path inner v = writePrimitive v := by
  cases v with
  | object id => exact absurd rfl (hv id)
  | _ => rfl

theorem error_of_writeUnwrapped_error [Platform] {style : Style} {indent : String} {path : List ObjectId}
    {inner : List ObjectId → Value → Writing (Option String)}
    (he : writeUnwrapped h style indent path inner v = .error e) :
    (v = .unknown ∧ e = .unknown) ∨
      ∃ id, v = .object id ∧ (h.record id).callable = none ∧
        (id ∈ path ∧ e = circular ∨
          id ∉ path ∧ writeObject style indent (h.record id)
            (fun key => inner (id :: path) (h.get id key)) = .error e) := by
  by_cases hv : ∀ id, v ≠ .object id
  · rw [writeUnwrapped_primitive _ _ _ _ _ hv] at he
    exact .inl (error_of_writePrimitive_error he)
  · obtain ⟨id, rfl⟩ : ∃ id, v = .object id := by simpa using hv
    rw [writeUnwrapped] at he
    split at he
    · cases he
    next hc =>
      refine .inr ⟨id, rfl, by simpa using hc, ?_⟩
      split at he
      next hp =>
        cases he
        exact .inl ⟨List.contains_iff_mem.mp hp, rfl⟩
      next hp => exact .inr ⟨fun hm => hp (List.contains_iff_mem.mpr hm), he⟩

theorem write_ne_hooked [Platform] (hh : ∀ id, h.isCallable (h.get id "toJSON") = false) (style : Style)
    (fuel : Nat) (indent : String) (path : List ObjectId) (v : Value) :
    write h style fuel indent path v ≠ .error .hooked := by
  induction fuel generalizing indent path v with
  | zero => exact nofun
  | succ fuel ih =>
    intro he
    obtain he | ⟨_, -, he⟩ := bind_eq_error.mp he
    · obtain ⟨id, -, ⟨-, he⟩ | ⟨hc, -⟩⟩ := error_of_unhooked_error he
      · cases he
      · exact absurd hc (by simp [hh id])
    · obtain ⟨-, he⟩ | ⟨id, -, -, ⟨-, he⟩ | ⟨-, he⟩⟩ := error_of_writeUnwrapped_error he
      · cases he
      · cases he
      · obtain ⟨-, -, he⟩ | ⟨-, n, -, he⟩ | ⟨key, -, he⟩ := error_of_writeObject_error he
        · cases he
        · cases he
        · exact ih _ _ _ he

end Json

theorem Heap.isCallable_allocate (h : Heap) (hr : r.callable = none) (v : Value) :
    (h.allocate r).1.isCallable v = h.isCallable v := by
  cases v with
  | object id =>
    unfold isCallable callable?
    dsimp only
    rw [record_allocate]
    split
    next hid =>
      rw [hr, record_of_size_le (Nat.le_of_eq hid.symm)]
      rfl
    next => rfl
  | _ => rfl

theorem Json.rootText_ne_hooked [Platform] {h : Heap} (hh : ∀ id, h.isCallable (h.get id "toJSON") = false)
    (v replacer space : Value) : rootText h v replacer space ≠ .error .hooked := by
  unfold rootText
  split
  · exact nofun
  · refine write_ne_hooked (fun id => ?_) _ _ _ _ _
    have hholder : (Record.ofEntries [("", v)]).callable = none := rfl
    rw [Heap.isCallable_allocate h hholder]
    unfold Heap.get
    rw [Heap.record_allocate]
    split
    · rfl
    · exact hh id

end Surmise
