import Surmise.Proofs.ArrayIndex
import Surmise.Proofs.Json.Document

/-! Values as trees. The form of a value says what is in it, and not where its objects lie. Objects that
were there before a certain moment are leaves of forms; of those that came later all is shown. -/
namespace Surmise

theorem Dict.keys_erase {α : Type} (d : Dict α) (key : String) :
    (d.erase key).keys = d.keys.erase key := by
  rw [d.nodup_keys.erase_eq_filter]
  change (d.recent.erase key).reverse = _
  rw [d.nodup.erase_eq_filter, ← List.filter_reverse]
  rfl

abbrev Record.Shape := ObjectClass × Option Value × Option Callable × Bool

/-- What a value is: one that is taken as it is, or an object with its properties in order. -/
inductive Form where
  | plain (v : Value)
  | record (shape : Record.Shape) (fields : List (String × Attributes × Form))

namespace Form

abbrev Fields := List (String × Attributes × Form)

def isUndefined : Form → Bool
  | plain v => v.isUndefined
  | record .. => false

def member (key : String) (x : Form) : String × Attributes × Form := (key, .data, x)

/-- The length of an array of `n` elements; no array is longer than the greatest length. -/
def lengthField (n : Nat) : String × Attributes × Form :=
  ("length", .lengthOfArray, plain (.number (Number.ofNat (min n maxArrayLength))))

def object (members : Fields) : Form :=
  record (Record.empty .object).shape members

def array (n : Nat) (elements : Fields) : Form :=
  record (Record.empty .array).shape (lengthField n :: elements)

end Form

namespace Heap

/-- The value has this form. Objects below `old` are not looked into, and those below `fresh` besides
are not met. -/
inductive Shows (h : Heap) (old fresh : Nat) : Form → Value → Prop where
  | plain {v : Value} (hv : ∀ id, v = .object id → id.index < old) : Shows h old fresh (.plain v) v
  | record {id : ObjectId} {shape : Record.Shape} {fields : Form.Fields}
      (hfresh : fresh ≤ id.index) (hid : id.index < h.size) (hshape : (h.record id).shape = shape)
      (hkeys : (h.record id).keys = fields.map Prod.fst)
      (hattributes : ∀ a ∈ fields,
        ((h.record id).getOwn? a.1).map Property.attributes = some a.2.1)
      (hvalues : ∀ a ∈ fields, Shows h old fresh a.2.2 (h.get id a.1)) :
      Shows h old fresh (.record shape fields) (.object id)

structure Exhibits (h : Heap) (old fresh : Nat) (r : Record) (shape : Record.Shape)
    (fields : Form.Fields) : Prop where
  shape : r.shape = shape
  keys : r.keys = fields.map Prod.fst
  own : ∀ a ∈ fields, ∃ v, r.getOwn? a.1 = some ⟨v, a.2.1⟩ ∧ h.Shows old fresh a.2.2 v

variable {h k : Heap} {old fresh : Nat}

theorem Shows.isUndefined {x : Form} {v : Value} (hv : h.Shows old fresh x v) :
    v.isUndefined = x.isUndefined := by
  cases hv <;> rfl

theorem Shows.mono {fresh' : Nat} {x : Form} {v : Value} (hv : h.Shows old fresh x v)
    (hf : fresh' ≤ fresh) (hs : h.size ≤ k.size)
    (hr : ∀ id : ObjectId, fresh ≤ id.index → id.index < h.size → k.record id = h.record id) :
    k.Shows old fresh' x v := by
  induction hv with
  | plain hv => exact .plain hv
  | record hfresh hid hshape hkeys hattributes _ ih =>
    have he := hr _ hfresh hid
    refine .record (Nat.le_trans hf hfresh) (Nat.lt_of_lt_of_le hid hs) (he ▸ hshape) (he ▸ hkeys)
      (he ▸ hattributes) fun a ha => ?_
    unfold Heap.get
    rw [he]
    exact ih a ha

theorem Shows.prolong {x : Form} {v : Value} (hv : h.Shows old fresh x v) (hk : h.Prolongs k) :
    k.Shows old fresh x v :=
  hv.mono (Nat.le_refl _) hk.size fun id _ => hk.record id

namespace Exhibits

variable {r : Record} {shape : Record.Shape} {fields before after : Form.Fields} {key : String}
  {a b : Attributes} {x y : Form} {v w : Value}

theorem mono {fresh' : Nat} (he : h.Exhibits old fresh r shape fields) (hf : fresh' ≤ fresh)
    (hs : h.size ≤ k.size)
    (hr : ∀ id : ObjectId, fresh ≤ id.index → id.index < h.size → k.record id = h.record id) :
    k.Exhibits old fresh' r shape fields where
  shape := he.shape
  keys := he.keys
  own a ha := by
    obtain ⟨v, hown, hv⟩ := he.own a ha
    exact ⟨v, hown, hv.mono hf hs hr⟩

theorem shows {id : ObjectId} (he : h.Exhibits old fresh (h.record id) shape fields)
    (hfresh : fresh ≤ id.index) (hid : id.index < h.size) :
    h.Shows old fresh (.record shape fields) (.object id) := by
  refine .record hfresh hid he.shape he.keys (fun a ha => ?_) fun a ha => ?_
  · obtain ⟨v, hown, -⟩ := he.own a ha
    rw [hown]
    rfl
  · obtain ⟨v, hown, hv⟩ := he.own a ha
    have hget : h.get id a.1 = v := Record.get_of_getOwn? hown
    rw [hget]
    exact hv

theorem append (he : h.Exhibits old fresh r shape fields) (hk : key ∉ fields.map Prod.fst)
    (hv : h.Shows old fresh x v) :
    h.Exhibits old fresh (r.setProperty key ⟨v, a⟩) shape (fields ++ [(key, a, x)]) where
  shape := he.shape
  keys := by
    rw [Record.keys_setProperty, he.keys, if_neg hk, List.map_append]
    rfl
  own e hm := by
    rw [Record.getOwn?_setProperty]
    rcases List.mem_append.mp hm with hm | hm
    · have hne : key ≠ e.1 := fun heq => hk (heq ▸ List.mem_map_of_mem hm)
      rw [if_neg hne]
      exact he.own e hm
    · obtain rfl := List.mem_singleton.mp hm
      exact ⟨v, if_pos rfl, hv⟩

section

variable (he : h.Exhibits old fresh r shape (before ++ (key, a, x) :: after))
include he

theorem not_mem : key ∉ (before ++ after).map Prod.fst := by
  have hn : r.keys.Nodup := r.properties.nodup_keys
  rw [he.keys, List.map_append, List.map_cons, List.nodup_middle, ← List.map_append] at hn
  exact (List.nodup_cons.mp hn).1

theorem ne_of_mem {e : String × Attributes × Form} (hm : e ∈ before ++ after) : key ≠ e.1 :=
  fun heq => he.not_mem (heq ▸ List.mem_map_of_mem hm)

theorem replace (hv : h.Shows old fresh y w) :
    h.Exhibits old fresh (r.setProperty key ⟨w, b⟩) shape (before ++ (key, b, y) :: after) where
  shape := he.shape
  keys := by
    have hm : key ∈ (before ++ (key, a, x) :: after).map Prod.fst := by simp
    rw [Record.keys_setProperty, he.keys, if_pos hm]
    simp
  own e hm := by
    rw [Record.getOwn?_setProperty]
    rcases List.mem_append.mp hm with hm | hm
    · rw [if_neg (he.ne_of_mem (List.mem_append_left _ hm))]
      exact he.own e (List.mem_append_left _ hm)
    · rcases List.mem_cons.mp hm with rfl | hm
      · exact ⟨w, if_pos rfl, hv⟩
      · rw [if_neg (he.ne_of_mem (List.mem_append_right _ hm))]
        exact he.own e (List.mem_append_right _ (.tail _ hm))

theorem delete (ha : a.configurable = true) :
    h.Exhibits old fresh (r.delete key).1 shape (before ++ after) := by
  obtain ⟨v, hown, -⟩ := he.own (key, a, x) (by simp)
  have hdelete : (r.delete key).1 = { r with properties := r.properties.erase key } := by
    unfold Record.delete
    rw [hown]
    simp [ha]
  have hkeys : r.properties.keys = before.map Prod.fst ++ key :: after.map Prod.fst :=
    he.keys.trans List.map_append
  have hn := he.not_mem
  rw [List.map_append, List.mem_append, not_or] at hn
  rw [hdelete]
  refine ⟨he.shape, ?_, fun e hm => ?_⟩
  · change (r.properties.erase key).keys = _
    rw [Dict.keys_erase, hkeys, List.erase_append_right _ hn.1, List.erase_cons_head, List.map_append]
  · change ∃ v, (r.properties.erase key).get? e.1 = _ ∧ _
    rw [Dict.get?_erase, if_neg (he.ne_of_mem hm)]
    refine he.own e ?_
    rcases List.mem_append.mp hm with hm | hm
    · exact List.mem_append_left _ hm
    · exact List.mem_append_right _ (.tail _ hm)

theorem define_eq (ha : a.configurable = true) (p : Property) :
    (r.define key p).1 = r.setProperty key p := by
  obtain ⟨v, hown, -⟩ := he.own (key, a, x) (by simp)
  unfold Record.define
  rw [hown]
  simp [Property.allows, ha]

theorem define (ha : a.configurable = true) (hv : h.Shows old fresh y w) :
    h.Exhibits old fresh (r.define key ⟨w, b⟩).1 shape (before ++ (key, b, y) :: after) := by
  rw [he.define_eq ha]
  exact he.replace hv

end

theorem empty : h.Exhibits old fresh (.empty .object) (Record.empty .object).shape [] :=
  ⟨rfl, rfl, fun _ => nofun⟩

theorem emptyArray :
    h.Exhibits old fresh .emptyArray (Record.empty .array).shape [Form.lengthField 0] where
  shape := rfl
  keys := by rfl
  own e he := by
    obtain rfl := List.mem_singleton.mp he
    have hlength := Record.fills_emptyArray.length
    exact ⟨_, hlength, .plain fun _ => nofun⟩

theorem put_member (he : h.Exhibits old fresh r (Record.empty .object).shape fields)
    (hk : key ∉ fields.map Prod.fst) (hv : h.Shows old fresh x v) :
    h.Exhibits old fresh (r.put key v).1 (Record.empty .object).shape
      (fields ++ [Form.member key x]) := by
  have hput : (r.put key v).1 = r.setProperty key (.data v) := by
    have hc : r.objectClass = .object := Record.objectClass_of_shape he.shape
    unfold Record.put
    rw [if_neg (by simp [hc]), Record.assign_new (Record.extensible_of_shape he.shape) (he.keys ▸ hk)]
  rw [hput]
  exact he.append hk hv

/-- An element stored behind the last one makes the array longer by one. -/
theorem put_element {i : Nat}
    (he : h.Exhibits old fresh r (Record.empty .array).shape (Form.lengthField i :: fields))
    (hk : indexKey i ∉ fields.map Prod.fst) (hv : h.Shows old fresh x v) :
    h.Exhibits old fresh (r.put (indexKey i) v).1 (Record.empty .array).shape
      (Form.lengthField (i + 1) :: (fields ++ [Form.member (indexKey i) x])) := by
  have hc : r.objectClass = .array := Record.objectClass_of_shape he.shape
  have hx : r.extensible = true := Record.extensible_of_shape he.shape
  have hl : indexKey i ≠ "length" := indexKey_ne_letters (by decide)
  have hnew : indexKey i ∉ (Form.lengthField i :: fields).map Prod.fst := by
    rw [List.map_cons, List.mem_cons, not_or]
    exact ⟨hl, hk⟩
  have hadded := he.append (a := .data) hnew hv
  obtain ⟨len, hlength, hlen⟩ := he.own (Form.lengthField i) (.head _)
  cases hlen
  unfold Record.put
  rw [if_pos hc, if_neg hl]
  by_cases hi : i < maxArrayLength
  · have hle : Number.leNat (Number.ofNat (min i maxArrayLength)) i = true := by
      rw [Nat.min_eq_left (Nat.le_of_lt hi), Number.leNat_ofNat (Nat.lt_trans hi (by decide))]
      simp
    have hput : (r.putIndex (indexKey i) i v).1 =
        (r.setProperty (indexKey i) (.data v)).setProperty "length"
          ⟨.number (Number.ofNat (i + 1)), .lengthOfArray⟩ := by
      have hlast : (r.setProperty (indexKey i) (.data v)).getOwn? "length" =
          some ⟨.number (Number.ofNat (min i maxArrayLength)), .lengthOfArray⟩ := by
        rw [Record.getOwn?_setProperty, if_neg hl]
        exact hlength
      simp only [Record.putIndex, Record.assign_new hx (he.keys ▸ hnew), Record.coverIndex, hlast, hle,
        if_true]
    rw [arrayIndex?_indexKey hi]
    dsimp only
    rw [hput]
    have hfield : Form.lengthField (i + 1) =
        ("length", .lengthOfArray, .plain (.number (Number.ofNat (i + 1)))) := by
      unfold Form.lengthField
      rw [Nat.min_eq_left (Nat.succ_le_of_lt hi)]
    have hfirst : h.Exhibits old fresh (r.setProperty (indexKey i) (.data v))
        (Record.empty .array).shape
        ([] ++ Form.lengthField i :: (fields ++ [Form.member (indexKey i) x])) := hadded
    rw [hfield]
    exact hfirst.replace (.plain (by simp))
  · have hle : maxArrayLength ≤ i := Nat.not_lt.mp hi
    have hlengths : Form.lengthField (i + 1) = Form.lengthField i := by
      unfold Form.lengthField
      rw [Nat.min_eq_right hle, Nat.min_eq_right (Nat.le_succ_of_le hle)]
    rw [arrayIndex?_indexKey_of_le hle]
    dsimp only
    rw [Record.assign_new hx (he.keys ▸ hnew), hlengths]
    exact hadded

end Exhibits

end Heap

end Surmise
