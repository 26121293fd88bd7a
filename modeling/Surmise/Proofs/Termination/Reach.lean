import Mathlib.Data.Set.Basic
import Surmise.Proofs.Growth
import Surmise.Proofs.Observation.Site
import Surmise.Proofs.Put
import Surmise.Proofs.Termination.Conversion

/-! The objects that code without catch clauses can reach in a session without `eval` and `JSON`. There
are no errors among them, and no functions that run code of others. -/
namespace Surmise

/-- Functions without catch clauses, and built-in functions that call no others. -/
def Callable.Confined : Callable → Prop
  | closure f _ => Stmt.AllIn False (fun _ _ => True) (.head f.strict f.body) f.body
  | builtin b => b ≠ .eval ∧ b ≠ .jsonParse ∧ b ≠ .jsonStringify
  | foreign .. => False

structure Record.Open (r : Record) : Prop where
  noError : ∀ kind, r.objectClass ≠ .error kind
  noJson : r.objectClass ≠ .json
  confined : ∀ c, r.callable = some c → c.Confined

theorem Record.Open.of_shape {r r' : Record} (h : r.Open) (hs : r'.shape = r.shape) : r'.Open where
  noError kind hk := h.noError kind ((objectClass_of_shape hs).symm.trans hk)
  noJson hj := h.noJson ((objectClass_of_shape hs).symm.trans hj)
  confined c hc := h.confined c ((callable_of_shape hs).symm.trans hc)

/-- The objects that code may get hold of. -/
def Heap.reach (h : Heap) : Set ObjectId := {id | id.index < h.size ∧ (h.record id).Open}

def Value.Reached (w : Set ObjectId) (v : Value) : Prop := ∀ id, v = .object id → id ∈ w

theorem Value.reached_of_not_object {v : Value} (h : v.isObject = false) (w : Set ObjectId) :
    v.Reached w := by
  intro id hid
  rw [hid] at h
  cases h

theorem Value.Reached.mono {w w' : Set ObjectId} {v : Value} (h : v.Reached w) (hw : w ⊆ w') :
    v.Reached w' :=
  fun id hid => hw (h id hid)

/-! ### Heaps -/

/-- Objects that are reached refer to such objects only, except that the first object of all may have
properties that refer to others and can be deleted. -/
structure Heap.Tight (except : List String) (h : Heap) : Prop extends h.Terminal where
  properties : ∀ id ∈ h.reach, (h.record id).Each fun key p =>
    p.value.Reached h.reach ∨ (id = ⟨0⟩ ∧ key ∈ except ∧ p.attributes.configurable = true)

namespace Heap
variable {except : List String} {h : Heap} {id : ObjectId} {key : String} {v : Value} {p : Property}
variable {f : Record → Record × Bool}

theorem mem_reach : id ∈ h.reach ↔ id.index < h.size ∧ (h.record id).Open := Iff.rfl

theorem reach_update (hf : ∀ r, (f r).1.shape = r.shape) (id : ObjectId) :
    (h.update id f).1.reach = h.reach := by
  ext j
  have hs := h.shape_update id j f hf
  rw [mem_reach, mem_reach, size_update]
  exact and_congr_right fun _ => ⟨fun ho => ho.of_shape hs.symm, fun ho => ho.of_shape hs⟩

theorem each_update {P : String → Property → Prop} {j : ObjectId} (hj : (h.record j).Each P)
    (hf : id = j → (f (h.record j)).1.Each P) : ((h.update id f).1.record j).Each P := by
  rw [record_update]
  split
  next hij => exact hf hij.1
  · exact hj

theorem Tight.update (ht : h.Tight except) {except' : List String} (hf : ∀ r, (f r).1.shape = r.shape)
    (id : ObjectId) (herror : ∀ kind, (h.record id).objectClass = .error kind →
      (f (h.record id)).1.Each fun _ p => p.value.isObject = false)
    (hopen : ∀ j ∈ h.reach, ((h.update id f).1.record j).Each fun key p =>
      p.value.Reached h.reach ∨ (j = ⟨0⟩ ∧ key ∈ except' ∧ p.attributes.configurable = true)) :
    (h.update id f).1.Tight except' where
  errors j kind hk := by
    rw [Record.objectClass_of_shape (h.shape_update id j f hf)] at hk
    exact each_update (ht.errors j kind hk) fun hij => by
      subst hij
      exact herror kind hk
  wrappers j := by
    rw [Record.objectClass_of_shape (h.shape_update id j f hf)]
    exact ht.wrappers j
  properties j hj := by
    rw [reach_update hf] at hj ⊢
    exact hopen j hj

theorem Tight.put (ht : h.Tight except) (hv : v.Reached h.reach) (key : String)
    (hid : id ∈ h.reach ∨ v.isObject = false) : (h.put id key v).1.Tight except := by
  refine ht.update (fun r => r.shape_put key v) id (fun kind hk => ?_) fun j hj => ?_
  · have hplain : v.isObject = false := hid.resolve_left fun h => h.2.noError kind hk
    refine Record.Each.put (P := fun _ p => p.value.isObject = false) ?_ (ht.errors id kind hk) hplain
    rintro _ _ u (rfl | ⟨x, rfl⟩) -
    · exact hplain
    · rfl
  · refine each_update (ht.properties j hj) fun _ => Record.Each.put ?_ (ht.properties j hj) (.inl hv)
    rintro k q u (rfl | ⟨x, rfl⟩) -
    · exact .inl hv
    · exact .inl (Value.reached_of_not_object rfl _)

theorem Tight.define (ht : h.Tight except) (hid : ∀ kind, (h.record id).objectClass ≠ .error kind)
    (hp : id ∈ h.reach → p.value.Reached h.reach ∨
      (id = ⟨0⟩ ∧ key ∈ except ∧ p.attributes.configurable = true)) :
    (h.define id key p).1.Tight except := by
  refine ht.update (fun r => r.shape_define key p) id (fun kind hk => absurd hk (hid kind))
    fun j hj => ?_
  refine each_update (ht.properties j hj) fun hij => (ht.properties j hj).define ?_
  subst hij
  exact hp hj

theorem Tight.delete (ht : h.Tight (key :: except)) (h0 : ⟨0⟩ ∈ h.reach) :
    (h.delete ⟨0⟩ key).1.Tight except := by
  refine ht.update (fun r => r.shape_delete key) ⟨0⟩ (fun kind hk => absurd hk (h0.2.noError kind))
    fun j hj => ?_
  rw [record_update]
  split
  · intro k q hq
    obtain ⟨hv | ⟨hj, hk, hc⟩, hkey⟩ := (ht.properties j hj).delete key k q hq
    · exact .inl hv
    · obtain rfl | hk := List.mem_cons.mp hk
      · cases hc.symm.trans (hkey rfl)
      · exact .inr ⟨hj, hk, hc⟩
  next hne =>
    intro k q hq
    obtain hv | ⟨rfl, -⟩ := ht.properties j hj k q hq
    · exact .inl hv
    · exact absurd ⟨rfl, h0.1⟩ hne

theorem reach_allocate (h : Heap) (r : Record) : h.reach ⊆ (h.allocate r).1.reach := by
  intro j hj
  rw [mem_reach, size_allocate, record_allocate, if_neg (Nat.ne_of_lt hj.1)]
  exact ⟨Nat.lt_succ_of_lt hj.1, hj.2⟩

theorem mem_reach_allocate {r : Record} (hr : r.Open) : ⟨h.size⟩ ∈ (h.allocate r).1.reach := by
  rw [mem_reach, size_allocate, record_allocate, if_pos rfl]
  exact ⟨Nat.lt_succ_self _, hr⟩

theorem Tight.allocate (ht : h.Tight except) {r : Record} (hw : r.objectClass.isWrapper = false)
    (herror : ∀ kind, r.objectClass = .error kind → r.Each fun _ p => p.value.isObject = false)
    (hopen : r.Open → r.Each fun _ p => p.value.Reached h.reach) : (h.allocate r).1.Tight except where
  errors j kind hk := by
    by_cases hj : j.index = h.size
    · rw [record_allocate, if_pos hj] at hk ⊢
      exact herror kind hk
    · rw [record_allocate, if_neg hj] at hk ⊢
      exact ht.errors j kind hk
  wrappers j := by
    rw [record_allocate]
    split
    · exact hw
    · exact ht.wrappers j
  properties j hj := by
    have hgrows := h.reach_allocate r
    obtain ⟨hsize, ho⟩ := hj
    rw [size_allocate] at hsize
    by_cases hj : j.index = h.size
    · rw [record_allocate, if_pos hj] at ho ⊢
      exact fun k q hq => .inl ((hopen ho k q hq).mono hgrows)
    · rw [record_allocate, if_neg hj] at ho ⊢
      have hold : j ∈ h.reach := ⟨Nat.lt_of_le_of_ne (Nat.le_of_lt_succ hsize) hj, ho⟩
      exact fun k q hq => (ht.properties j hold k q hq).imp_left fun hv => hv.mono hgrows

end Heap

/-! ### Stores -/

/-- Code finds only what it may reach, wherever it looks. -/
structure Store.Sealed (s : Store) : Prop where
  heap : s.heap.Tight []
  bindings : ∀ c name b, s.binding? c name = some b → b.value.Reached s.heap.reach
  objects : ∀ c object, (s.scope c).object = some object → object ∈ s.heap.reach

structure Store.Leads (s t : Store) : Prop where
  sealed : t.Sealed
  grows : s.heap.reach ⊆ t.heap.reach

namespace Store
variable {s t u : Store} {v : Value}

theorem Leads.refl (hs : s.Sealed) : s.Leads s := ⟨hs, .rfl⟩

theorem Leads.trans (h₁ : s.Leads t) (h₂ : t.Leads u) : s.Leads u :=
  ⟨h₂.sealed, h₁.grows.trans h₂.grows⟩

namespace Sealed
variable (hs : s.Sealed)
include hs

variable {id : ObjectId}

theorem property (hid : id ∈ s.heap.reach) {key : String} {p : Property}
    (hp : (s.heap.record id).getOwn? key = some p) : p.value.Reached s.heap.reach := by
  obtain h | ⟨_, h, _⟩ := hs.heap.properties id hid key p hp
  · exact h
  · cases h

theorem get (hid : id ∈ s.heap.reach) (key : String) : (s.heap.get id key).Reached s.heap.reach := by
  unfold Heap.get Record.get
  cases hp : (s.heap.record id).getOwn? key with
  | none => exact Value.reached_of_not_object rfl _
  | some p => exact hs.property hid hp

theorem member {object : Value} (ho : object.Reached s.heap.reach) (key : String) :
    (s.heap.member object key).Reached s.heap.reach := by
  cases object with
  | object id => exact hs.get (ho id rfl) key
  | string t =>
    refine Value.reached_of_not_object ?_ _
    unfold Heap.member Value.ofText
    dsimp only
    split
    · rfl
    split
    next i _ => cases t.toList[i]? <;> rfl
    · rfl
  | _ => exact Value.reached_of_not_object rfl _

theorem lookup {chain : Chain} {name : String} (hv : s.lookup chain name = some v) :
    v.Reached s.heap.reach := by
  rw [lookup_eq] at hv
  -- a name is looked up where it would be assigned
  obtain ⟨h, _⟩ | ⟨c, b, hb, h, _⟩ | ⟨c, _, object, p, ho, hp, h, _⟩ :=
    s.assign_spec chain name .undefined <;> rw [h] at hv <;> cases hv
  · exact hs.bindings c name b hb
  · exact hs.property (hs.objects c object ho) hp

theorem bind (hv : v.Reached s.heap.reach) (c : ScopeId) (name : String) (mutable : Bool) :
    s.Leads (s.bind c name ⟨v, mutable⟩) := by
  refine ⟨⟨hs.heap, fun j n b hb => ?_, fun j object ho => ?_⟩, .rfl⟩
  · rw [binding?_bind] at hb
    split at hb
    · cases hb
      exact hv
    · exact hs.bindings j n b hb
  · rw [object_bind] at ho
    exact hs.objects j object ho

theorem newScope : s.Leads (s.newScope {}).1 := by
  refine ⟨⟨hs.heap, fun j n b hb => ?_, fun j object ho => ?_⟩, .rfl⟩
  · rw [binding?, scope_newScope_empty] at hb
    exact hs.bindings j n b hb
  · rw [scope_newScope_empty] at ho
    exact hs.objects j object ho

theorem put (hv : v.Reached s.heap.reach) (hid : id ∈ s.heap.reach ∨ v.isObject = false) (key : String) :
    s.Leads (s.put id key v).1 := by
  have hreach : (s.put id key v).1.heap.reach = s.heap.reach :=
    Heap.reach_update (fun r => r.shape_put key v) id
  refine ⟨⟨hs.heap.put hv key hid, fun c n b hb => ?_, fun c object ho => ?_⟩, hreach.symm.subset⟩
  · rw [hreach]
    exact hs.bindings c n b hb
  · rw [hreach]
    exact hs.objects c object ho

theorem allocate {r : Record} (hw : r.objectClass.isWrapper = false)
    (herror : ∀ kind, r.objectClass = .error kind → r.Each fun _ p => p.value.isObject = false)
    (hopen : r.Open → r.Each fun _ p => p.value.Reached s.heap.reach) : s.Leads (s.allocate r).1 := by
  have hgrows := s.heap.reach_allocate r
  exact ⟨⟨hs.heap.allocate hw herror hopen, fun c n b hb => (hs.bindings c n b hb).mono hgrows,
    fun c object ho => hgrows (hs.objects c object ho)⟩, hgrows⟩

theorem declareVariable {v? : Option Value} (hv : ∀ v ∈ v?, v.Reached s.heap.reach) (c : ScopeId)
    (name : String) : s.Leads (s.declareVariable c name v?) := by
  have hvalue : (v?.getD .undefined).Reached s.heap.reach := by
    cases v? with
    | some v => exact hv v rfl
    | none => exact Value.reached_of_not_object rfl s.heap.reach
  obtain h | ⟨mutable, h⟩ | ⟨object, ho, h⟩ := s.declareVariable_spec c name v? <;> rw [h]
  · exact .refl hs
  · exact hs.bind hvalue c name mutable
  · exact hs.put hvalue (.inl (hs.objects c object ho)) name

theorem declareNames (c : ScopeId) (names : List String) :
    s.Leads (names.foldl (fun s name => s.declareVariable c name none) s) := by
  induction names generalizing s with
  | nil => exact .refl hs
  | cons name names ih =>
    have hfirst : s.Leads (s.declareVariable c name none) :=
      hs.declareVariable (fun _ h => by cases h) c name
    exact hfirst.trans (ih hfirst.sealed)

theorem assign (hv : v.Reached s.heap.reach) (chain : Chain) (name : String) :
    s.Leads (s.assign chain name v).1 :=
  assign_ind (P := s.Leads) (.refl hs) (fun c b _ _ => hs.bind hv c name b.mutable)
    fun c object _ ho _ => hs.put hv (.inl (hs.objects c object ho)) name

theorem forgets (h : s.Forgets t) : s.Leads t := by
  induction h with
  | refl => exact .refl hs
  | tail _ hstep ih =>
    refine ih.trans ?_
    have hunknown := Value.reached_of_not_object (v := .unknown) rfl
    cases hstep with
    | name chain name => exact ih.sealed.assign (hunknown _) chain name
    | property id key => exact ih.sealed.put (hunknown _) (.inr rfl) key

end Sealed
end Store

/-! ### New objects -/

namespace Record

theorem each_errorNamed (name message : String) :
    (errorNamed name message).Each fun _ p => p.value.isObject = false :=
  ((each_empty _ _).setProperty rfl).setProperty rfl

theorem each_ofCallable (c : Callable) (w : Set ObjectId) :
    (ofCallable c).Each fun _ p => p.value.Reached w :=
  (each_empty (fun _ p => p.value.Reached w) .function).setProperty
    (Value.reached_of_not_object rfl w)

theorem open_of_shape {r : Record} {c : ObjectClass} (h : r.shape = (empty c).shape)
    (hc : ∀ kind, c ≠ .error kind) (hj : c ≠ .json) : r.Open where
  noError kind hk := hc kind ((objectClass_of_shape h).symm.trans hk)
  noJson hk := hj ((objectClass_of_shape h).symm.trans hk)
  confined f hf := by cases (callable_of_shape h).symm.trans hf

theorem open_ofCallable {c : Callable} (hc : c.Confined) : (ofCallable c).Open where
  noError := nofun
  noJson := nofun
  confined f hf := by
    cases hf
    exact hc

section Reached

variable {w : Set ObjectId} {r : Record}

theorem Each.put_reached (h : r.Each fun _ p => p.value.Reached w) {v : Value} (hv : v.Reached w)
    (key : String) : (r.put key v).1.Each fun _ p => p.value.Reached w := by
  refine h.put ?_ hv
  rintro _ _ u (rfl | ⟨x, rfl⟩) -
  · exact hv
  · exact Value.reached_of_not_object rfl w

theorem Each.putElements_reached (h : r.Each fun _ p => p.value.Reached w) (i : Nat)
    {vs : List (Option Value)} (hvs : ∀ v, some v ∈ vs → v.Reached w) :
    (r.putElements i vs).Each fun _ p => p.value.Reached w := by
  induction vs generalizing r i with
  | nil => exact h
  | cons v? vs ih =>
    have hrest : ∀ v, some v ∈ vs → v.Reached w := fun v hv => hvs v (List.mem_cons_of_mem _ hv)
    cases v? with
    | none => exact ih h (i + 1) hrest
    | some v => exact ih (h.put_reached (hvs v List.mem_cons_self) _) (i + 1) hrest

theorem each_ofElements {vs : List (Option Value)} (hvs : ∀ v, some v ∈ vs → v.Reached w) :
    (ofElements vs).Each fun _ p => p.value.Reached w :=
  Each.put_reached
    (Each.putElements_reached
      ((each_empty _ .array).setProperty (Value.reached_of_not_object rfl w)) 0 hvs)
    (Value.reached_of_not_object rfl w) _

theorem each_ofEntries {es : List (String × Value)} (hes : ∀ e ∈ es, e.2.Reached w) :
    (ofEntries es).Each fun _ p => p.value.Reached w :=
  List.foldlRecOn es _ (each_empty _ _) fun _ hr e he => hr.put_reached (hes e he) e.1

end Reached
end Record

/-! ### New sessions -/

namespace Store
variable {except : List String} {s : Store} {target : ObjectId}

/-- An object that is there, and is no error, may get built-in functions that are confined, or any if it
is not open or the name is excepted. -/
theorem tight_defineBuiltin (ht : s.heap.Tight except) (htarget : target.index < s.heap.size)
    (herror : ∀ kind, (s.heap.record target).objectClass ≠ .error kind) {b : Builtin}
    (hb : (s.heap.record target).Open →
      (Callable.builtin b).Confined ∨ (target = ⟨0⟩ ∧ b.name ∈ except)) :
    (s.defineCallable target (.builtin b)).heap.Tight except := by
  have h₁ : (s.heap.allocate (.ofCallable (.builtin b))).1.Tight except :=
    ht.allocate rfl nofun fun _ => Record.each_ofCallable _ _
  have hrecord : (s.heap.allocate (.ofCallable (.builtin b))).1.record target = s.heap.record target := by
    rw [Heap.record_allocate, if_neg (Nat.ne_of_lt htarget)]
  refine h₁.define (hrecord ▸ herror) fun hreach => ?_
  obtain hc | hx := hb (hrecord ▸ hreach.2)
  · refine .inl fun id hid => ?_
    cases hid
    exact Heap.mem_reach_allocate (Record.open_ofCallable hc)
  · exact .inr ⟨hx.1, hx.2, rfl⟩

theorem extends_defineBuiltin (s : Store) (target : ObjectId) (b : Builtin) :
    s.Extends (s.defineCallable target (.builtin b)) :=
  (s.extends_allocate _).trans (extends_define _ _ _ _)

theorem Extends.reach {t : Store} (h : s.Extends t) : s.heap.reach ⊆ t.heap.reach :=
  fun id hid => ⟨Nat.lt_of_lt_of_le hid.1 h.heap, hid.2.of_shape (h.shape id hid.1)⟩

section Fill

variable (ht : s.heap.Tight except) (htarget : target.index < s.heap.size)
  (herror : ∀ kind, (s.heap.record target).objectClass ≠ .error kind)
include ht htarget herror

theorem tight_defineConstants {constants : List (String × Value)}
    (hconstants : ∀ c ∈ constants, c.2.isObject = false) :
    (constants.foldl (defineConstant target) s).heap.Tight except ∧
      s.Extends (constants.foldl (defineConstant target) s) := by
  refine List.foldlRecOn (motive := fun t : Store => t.heap.Tight except ∧ s.Extends t) constants
    (defineConstant target) ⟨ht, .refl s⟩ ?_
  rintro t ⟨ht, he⟩ c hc
  refine ⟨ht.define (fun kind => ?_) fun _ => .inl (Value.reached_of_not_object (hconstants c hc) _),
    he.trans (t.extends_define _ _ _)⟩
  rw [Record.objectClass_of_shape (he.shape target htarget)]
  exact herror kind

theorem tight_defineBuiltins (functions : List Builtin)
    (hfunctions : (s.heap.record target).Open → ∀ b ∈ functions,
      (Callable.builtin b).Confined ∨ (target = ⟨0⟩ ∧ b.name ∈ except)) :
    (functions.foldl (fun t b => t.defineCallable target (.builtin b)) s).heap.Tight except ∧
      s.Extends (functions.foldl (fun t b => t.defineCallable target (.builtin b)) s) := by
  refine List.foldlRecOn (motive := fun t : Store => t.heap.Tight except ∧ s.Extends t) functions
    _ ⟨ht, .refl s⟩ ?_
  rintro t ⟨ht, he⟩ b hb
  have hshape := he.shape target htarget
  refine ⟨tight_defineBuiltin ht (Nat.lt_of_lt_of_le htarget he.heap) (fun kind => ?_) fun ho =>
    hfunctions (ho.of_shape hshape.symm) b hb, he.trans (t.extends_defineBuiltin target b)⟩
  rw [Record.objectClass_of_shape hshape]
  exact herror kind

end Fill

/-- The first object gets an object with constants and functions, which are confined unless that object
is not open and its name excepted. -/
theorem tight_defineNamespace (ht : s.heap.Tight except) (h0 : ⟨0⟩ ∈ s.heap.reach) {c : ObjectClass}
    (hw : c.isWrapper = false) (hc : ∀ kind, c ≠ .error kind) {constants : List (String × Value)}
    (hconstants : ∀ c ∈ constants, c.2.isObject = false) {functions : List Builtin}
    (hfunctions : (c ≠ .json ∧ ∀ b ∈ functions, (Callable.builtin b).Confined) ∨
      (c = .json ∧ c.name ∈ except)) :
    (s.defineNamespace ⟨0⟩ c constants functions).heap.Tight except ∧
      s.Extends (s.defineNamespace ⟨0⟩ c constants functions) := by
  have h₁ : (s.allocate (.empty c)).1.heap.Tight except :=
    ht.allocate hw (fun kind hk => absurd hk (hc kind)) fun _ => Record.each_empty _ c
  have hrecord : (s.allocate (.empty c)).1.heap.record ⟨s.heap.size⟩ = .empty c := by
    rw [allocate, heap_onHeap, Heap.record_allocate, if_pos rfl]
  have hsize : s.heap.size < (s.allocate (.empty c)).1.heap.size := by
    rw [allocate, heap_onHeap, Heap.size_allocate]
    exact Nat.lt_succ_self _
  have he₁ := s.extends_allocate (.empty c)
  have herror (kind : ErrorKind) :
      ((s.allocate (.empty c)).1.heap.record ⟨s.heap.size⟩).objectClass ≠ .error kind := by
    rw [hrecord]
    exact hc kind
  obtain ⟨h₂, he₂⟩ := tight_defineConstants h₁ hsize herror hconstants
  have hdefine : s.defineNamespace ⟨0⟩ c constants functions =
      ((functions.foldl (fun t b => t.defineCallable ⟨s.heap.size⟩ (.builtin b))
        (constants.foldl (defineConstant ⟨s.heap.size⟩) (s.allocate (.empty c)).1)).define ⟨0⟩ c.name
          ⟨.object ⟨s.heap.size⟩, .hidden⟩).1 := rfl
  rw [hdefine]
  have hshape := he₂.shape ⟨s.heap.size⟩ hsize
  have herror' (kind : ErrorKind) := mt (Record.objectClass_of_shape hshape).symm.trans (herror kind)
  obtain ⟨h₃, he₃⟩ := tight_defineBuiltins h₂ (Nat.lt_of_lt_of_le hsize he₂.heap) herror' functions
    fun ho b hb => by
      obtain ⟨_, hf⟩ | ⟨rfl, _⟩ := hfunctions
      · exact .inl (hf b hb)
      · rw [hrecord] at hshape
        exact absurd (Record.objectClass_of_shape hshape) ho.noJson
  have he := (he₁.trans he₂).trans he₃
  refine ⟨h₃.define (fun kind => ?_) fun _ => ?_, he.trans (extends_define _ _ _ _)⟩
  · rw [Record.objectClass_of_shape (he.shape ⟨0⟩ h0.1)]
    exact h0.2.noError kind
  · obtain ⟨hj, _⟩ | ⟨_, hname⟩ := hfunctions
    · refine .inl fun id hid => ?_
      cases hid
      refine (he₂.trans he₃).reach ⟨hsize, ?_⟩
      rw [hrecord]
      exact Record.open_of_shape rfl hc hj
    · exact .inr ⟨rfl, hname, rfl⟩

/-- The first object refers to others than it may be left with by the names `eval` and `JSON` only, and
there are no scopes. -/
structure Nascent (s : Store) : Prop where
  tight : s.heap.Tight ["eval", "JSON"]
  first : ⟨0⟩ ∈ s.heap.reach
  scopes : s.scopes = #[]

theorem confined_globals : ∀ b ∈ Builtin.globals,
    (Callable.builtin b).Confined ∨ ((⟨0⟩ : ObjectId) = ⟨0⟩ ∧ b.name ∈ ["eval", "JSON"]) := by
  unfold Callable.Confined
  decide

theorem confined_math : ∀ b ∈ MathFunction.all.map Builtin.math, (Callable.builtin b).Confined := by
  unfold Callable.Confined
  decide

/-- The first store is a nascent one to which the global scope was added. -/
theorem addGlobal_nascent : ∃ st : Store, st.Nascent ∧
    addGlobal {} = ((st.newScope { object := some ⟨0⟩ }).1, ⟨0⟩, ⟨st.scopes.size⟩) := by
  have hempty : ({} : Store).heap.Tight ["eval", "JSON"] :=
    ⟨⟨fun _ _ h => (by cases h), fun _ => rfl⟩, fun id h => absurd h.1 (Nat.not_lt_zero _)⟩
  have hscopes {t : Store} {c : ObjectClass} (hc : (Record.empty c).Native)
      (constants : List (String × Value)) (functions : List Builtin) (h : t.scopes = #[]) :
      (t.defineNamespace ⟨0⟩ c constants functions).scopes = #[] :=
    defineNamespace_keeps (P := fun t => t.scopes = #[]) (fun _ _ _ h => h) (fun _ _ _ _ h => h) ⟨0⟩ t c
      hc constants functions h
  refine addGlobal_steps {} ?_ (fun t h b hb => ?_) (fun t h => ?_) fun t h => ?_
  · have hglobal : ⟨0⟩ ∈ (allocate {} (.empty .object)).1.heap.reach :=
      Heap.mem_reach_allocate (h := {}) (Record.open_of_shape rfl nofun nofun)
    have htight : (allocate {} (.empty .object)).1.heap.Tight ["eval", "JSON"] :=
      hempty.allocate rfl nofun fun _ => Record.each_empty _ _
    have hconstants : ∀ c ∈ globalConstants, c.2.isObject = false := by decide
    obtain ⟨h, he⟩ := tight_defineConstants htight hglobal.1 hglobal.2.noError hconstants
    exact ⟨h, he.reach hglobal, rfl⟩
  · exact ⟨tight_defineBuiltin h.tight h.first.1 h.first.2.noError fun _ => confined_globals b hb,
      (t.extends_defineBuiltin ⟨0⟩ b).reach h.first, h.scopes⟩
  · have hconstants : ∀ c ∈ mathConstants.map fun c => (c.1, Value.number c.2),
        c.2.isObject = false := fun c hc => by
      obtain ⟨x, -, rfl⟩ := List.mem_map.mp hc
      rfl
    obtain ⟨htight, he⟩ := tight_defineNamespace h.tight h.first (c := .math) rfl nofun hconstants
      (.inl ⟨nofun, confined_math⟩)
    exact ⟨htight, he.reach h.first, hscopes .math _ _ h.scopes⟩
  · have hconstants : ∀ c ∈ ([] : List (String × Value)), c.2.isObject = false := nofun
    obtain ⟨htight, he⟩ := tight_defineNamespace h.tight h.first (c := .json) rfl nofun hconstants
      (.inr ⟨rfl, by decide⟩)
    exact ⟨htight, he.reach h.first, hscopes .json _ _ h.scopes⟩

end Store

namespace Session

def without (keys : List String) (s : Session) : Session :=
  { s with store := keys.foldl (fun st key => (st.delete s.globalObject key).1) s.store }

theorem scope_new {st : Store} (hst : st.scopes = #[]) (c : ScopeId) :
    (st.newScope { object := some ⟨0⟩ }).1.scope c = { object := some ⟨0⟩ } ∨
      (st.newScope { object := some ⟨0⟩ }).1.scope c = {} := by
  rw [Store.scope_newScope]
  split
  · exact .inl rfl
  · refine .inr ?_
    rw [Store.scope, hst]
    rfl

def bare (options : Options) (randoms : Randoms := .standard) : Session :=
  (new options randoms).without ["eval", "JSON"]

theorem sealed_bare (options : Options) (randoms : Randoms) :
    (bare options randoms).store.Sealed ∧
      (bare options randoms).globalObject ∈ (bare options randoms).heap.reach := by
  obtain ⟨st, ⟨ht, h0, hscopes⟩, he⟩ := Store.addGlobal_nascent
  unfold bare new fromStore
  rw [he]
  have hreach (h : Heap) (key : String) : (h.delete ⟨0⟩ key).1.reach = h.reach :=
    Heap.reach_update (fun r => r.shape_delete key) ⟨0⟩
  have h0' : ⟨0⟩ ∈ (st.heap.delete ⟨0⟩ "eval").1.reach := by
    rw [hreach]
    exact h0
  have h0'' : ⟨0⟩ ∈ ((st.heap.delete ⟨0⟩ "eval").1.delete ⟨0⟩ "JSON").1.reach := by
    rw [hreach]
    exact h0'
  refine ⟨⟨(ht.delete h0).delete h0', fun c name b hb => ?_, fun c object ho => ?_⟩, h0''⟩
  · change ((st.newScope { object := some ⟨0⟩ }).1.scope c).bindings.get? name = some b at hb
    obtain h | h := scope_new hscopes c <;> rw [h] at hb <;> cases hb
  · change ((st.newScope { object := some ⟨0⟩ }).1.scope c).object = some object at ho
    obtain h | h := scope_new hscopes c <;> rw [h] at ho <;> cases ho
    exact h0''

end Session
end Surmise
