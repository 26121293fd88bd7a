import Std.Data.ExtTreeMap

/-!
Maps from names that remember the order in which names came in. A name keeps its place when its entry
is replaced and loses it when it is erased. A map is determined by its names in order and by what each
of them stands for.
-/

namespace Surmise

/-- A table of entries together with its names. -/
structure Dict (α : Type) where
  table : Std.ExtTreeMap String α
  recent : List String
  nodup : recent.Nodup
  mem_recent : ∀ key, key ∈ recent ↔ key ∈ table

namespace Dict

variable {α : Type}

def empty : Dict α := ⟨∅, [], List.nodup_nil, by simp⟩

instance : Inhabited (Dict α) := ⟨empty⟩

def keys (d : Dict α) : List String := d.recent.reverse

def get? (d : Dict α) (key : String) : Option α := d.table[key]?

def contains (d : Dict α) (key : String) : Bool := d.table.contains key

def entries (d : Dict α) : List (String × α) :=
  d.keys.filterMap fun key => (d.get? key).map fun a => (key, a)

@[ext]
theorem ext {d e : Dict α} (hk : d.keys = e.keys) (hg : ∀ key, d.get? key = e.get? key) :
    d = e := by
  obtain ⟨s, ks, _, _⟩ := d
  obtain ⟨t, ls, _, _⟩ := e
  have hks : ks = ls := List.reverse_inj.mp hk
  have hst : s = t := Std.ExtTreeMap.ext_getElem? hg
  subst hks hst
  rfl

theorem nodup_keys (d : Dict α) : d.keys.Nodup :=
  List.pairwise_reverse.mpr (d.nodup.imp Ne.symm)

theorem mem_keys (d : Dict α) (key : String) : key ∈ d.keys ↔ (d.get? key).isSome := by
  simp [keys, get?, d.mem_recent]

theorem contains_iff (d : Dict α) (key : String) : d.contains key = true ↔ key ∈ d.keys := by
  simp [keys, contains, d.mem_recent]

def insert (d : Dict α) (key : String) (a : α) : Dict α :=
  if h : key ∈ d.table then
    ⟨d.table.insert key a, d.recent, d.nodup, fun k => by
      rw [d.mem_recent, Std.ExtTreeMap.mem_insert, Std.compare_eq_iff_eq]
      exact ⟨.inr, fun hk => hk.elim (fun e => e ▸ h) id⟩⟩
  else
    ⟨d.table.insert key a, key :: d.recent,
      List.nodup_cons.mpr ⟨fun hm => h ((d.mem_recent key).mp hm), d.nodup⟩, fun k => by
      rw [List.mem_cons, d.mem_recent, Std.ExtTreeMap.mem_insert, Std.compare_eq_iff_eq,
        eq_comm (a := k)]⟩

theorem get?_insert (d : Dict α) (key k : String) (a : α) :
    (d.insert key a).get? k = if key = k then some a else d.get? k := by
  unfold insert get?
  split <;> simp [Std.ExtTreeMap.getElem?_insert]

theorem keys_insert (d : Dict α) (key : String) (a : α) :
    (d.insert key a).keys = if key ∈ d.keys then d.keys else d.keys ++ [key] := by
  have h : key ∈ d.keys ↔ key ∈ d.table := by simp [keys, d.mem_recent]
  unfold insert
  split
  next ht =>
    rw [if_pos (h.mpr ht)]
    rfl
  next ht =>
    rw [if_neg (mt h.mp ht)]
    simp [keys]

def erase (d : Dict α) (key : String) : Dict α :=
  ⟨d.table.erase key, d.recent.erase key, d.nodup.erase key, fun k => by
    rw [d.nodup.mem_erase_iff, d.mem_recent, Std.ExtTreeMap.mem_erase, Ne, Ne,
      Std.compare_eq_iff_eq, eq_comm (a := k)]⟩

theorem get?_erase (d : Dict α) (key k : String) :
    (d.erase key).get? k = if key = k then none else d.get? k := by
  simp [erase, get?, Std.ExtTreeMap.getElem?_erase]

def filter (d : Dict α) (keep : String → Bool) : Dict α :=
  ⟨d.table.filter fun key _ => keep key, d.recent.filter keep, d.nodup.filter keep, fun k => by
    simp [d.mem_recent, Std.ExtTreeMap.mem_filter]⟩

def map (d : Dict α) (f : String → α → α) : Dict α :=
  ⟨d.table.map f, d.recent, d.nodup, fun k => by simp [d.mem_recent]⟩

end Dict
end Surmise
