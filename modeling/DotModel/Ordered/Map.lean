/-!
# Maps in insertion order

`OrdMap κ ν` is a finite map that keeps its entries in the order in which their keys were first
added.  Giving a present key a new value keeps its place, and removing a key closes the gap.
The view is `toList`; its keys are distinct by construction.
-/

namespace DotModel

/-- A finite map whose entries stand in the order in which their keys were first added. -/
structure OrdMap (κ ν : Type) where
  toList : List (κ × ν)
  nodup_keys : (toList.map Prod.fst).Nodup
  deriving DecidableEq

namespace OrdMap

variable {κ ν : Type}

/-- The keys in order. -/
def keys (m : OrdMap κ ν) : List κ := m.toList.map Prod.fst

/-- The values in the order of their keys. -/
def values (m : OrdMap κ ν) : List ν := m.toList.map Prod.snd

/-- The number of entries. -/
def size (m : OrdMap κ ν) : Nat := m.toList.length

def isEmpty (m : OrdMap κ ν) : Bool := m.toList.isEmpty

instance : EmptyCollection (OrdMap κ ν) := ⟨⟨[], List.Pairwise.nil⟩⟩

instance : Inhabited (OrdMap κ ν) := ⟨∅⟩

instance : Membership κ (OrdMap κ ν) := ⟨fun m k => k ∈ m.keys⟩

theorem mem_def {m : OrdMap κ ν} {k : κ} : k ∈ m ↔ k ∈ m.keys := Iff.rfl

theorem ext {m n : OrdMap κ ν} (h : m.toList = n.toList) : m = n := by
  cases m
  cases n
  cases h
  rfl

theorem keys_nodup (m : OrdMap κ ν) : m.keys.Nodup := m.nodup_keys

@[simp] theorem toList_empty : (∅ : OrdMap κ ν).toList = [] := rfl

@[simp] theorem keys_empty : (∅ : OrdMap κ ν).keys = [] := rfl

@[simp] theorem length_keys (m : OrdMap κ ν) : m.keys.length = m.size := by
  simp [keys, size]

@[simp] theorem not_mem_empty (k : κ) : k ∉ (∅ : OrdMap κ ν) := by
  simp [mem_def]

variable [DecidableEq κ]

theorem lookup_cons (e : κ × ν) (rest : List (κ × ν)) (k : κ) :
    (e :: rest).lookup k = if k = e.1 then some e.2 else rest.lookup k := by
  rw [List.lookup_cons]
  by_cases h : k = e.1
  · simp [h]
  · have hb : (k == e.1) = false := by simpa using h
    simp [h, hb]

instance (k : κ) (m : OrdMap κ ν) : Decidable (k ∈ m) :=
  inferInstanceAs (Decidable (k ∈ m.keys))

/-- The value under `k`. -/
def find? (m : OrdMap κ ν) (k : κ) : Option ν := m.toList.lookup k

/-- Whether `k` is a key. -/
def contains (m : OrdMap κ ν) (k : κ) : Bool := decide (k ∈ m)

@[simp] theorem contains_eq_true_iff {m : OrdMap κ ν} {k : κ} :
    m.contains k = true ↔ k ∈ m := by
  simp [contains]

@[simp] theorem find?_empty (k : κ) : (∅ : OrdMap κ ν).find? k = none := rfl

theorem find?_eq_none_iff {m : OrdMap κ ν} {k : κ} : m.find? k = none ↔ k ∉ m := by
  rw [find?, mem_def, keys]
  induction m.toList with
  | nil => simp
  | cons e rest ih => by_cases h : k = e.1 <;> simp [lookup_cons, h, ih]

theorem exists_find?_of_mem {m : OrdMap κ ν} {k : κ} (h : k ∈ m) : ∃ v, m.find? k = some v := by
  cases hf : m.find? k with
  | none => exact absurd h (find?_eq_none_iff.mp hf)
  | some v => exact ⟨v, rfl⟩

theorem mem_of_find? {m : OrdMap κ ν} {k : κ} {v : ν} (h : m.find? k = some v) : k ∈ m := by
  by_cases hk : k ∈ m
  · exact hk
  · rw [find?_eq_none_iff.mpr hk] at h
    cases h

/-- The entries with `change` applied to the value under `k`. -/
def modifyEntries (k : κ) (change : ν → ν) (entries : List (κ × ν)) : List (κ × ν) :=
  entries.map fun e => if e.1 = k then (e.1, change e.2) else e

theorem map_fst_modifyEntries (k : κ) (change : ν → ν) (entries : List (κ × ν)) :
    (modifyEntries k change entries).map Prod.fst = entries.map Prod.fst := by
  rw [modifyEntries, List.map_map]
  apply List.map_congr_left
  intro e _
  by_cases h : e.1 = k <;> simp [h]

theorem lookup_modifyEntries (k : κ) (change : ν → ν) (entries : List (κ × ν)) (j : κ) :
    (modifyEntries k change entries).lookup j =
      if j = k then (entries.lookup j).map change else entries.lookup j := by
  induction entries with
  | nil => simp [modifyEntries]
  | cons e rest ih =>
    rw [modifyEntries, List.map_cons, ← modifyEntries, lookup_cons, lookup_cons, ih]
    by_cases hj : j = k
    · subst hj
      by_cases he : j = e.1
      · simp [← he]
      · simp [he, Ne.symm he]
    · by_cases he : e.1 = k <;> simp [he, hj]

/-- Changes the value under `k`, if there is one. -/
def modify (m : OrdMap κ ν) (k : κ) (change : ν → ν) : OrdMap κ ν where
  toList := modifyEntries k change m.toList
  nodup_keys := by rw [map_fst_modifyEntries]; exact m.nodup_keys

@[simp] theorem keys_modify (m : OrdMap κ ν) (k : κ) (change : ν → ν) :
    (m.modify k change).keys = m.keys :=
  map_fst_modifyEntries k change m.toList

@[simp] theorem mem_modify {m : OrdMap κ ν} {k j : κ} {change : ν → ν} :
    j ∈ m.modify k change ↔ j ∈ m := by
  simp [mem_def]

theorem find?_modify (m : OrdMap κ ν) (k : κ) (change : ν → ν) (j : κ) :
    (m.modify k change).find? j = if j = k then (m.find? j).map change else m.find? j :=
  lookup_modifyEntries k change m.toList j

/-- Changes the value under `k` or, if there is none, adds `fresh` at the end. -/
def upsert (m : OrdMap κ ν) (k : κ) (fresh : ν) (change : ν → ν) : OrdMap κ ν :=
  if h : k ∈ m then
    m.modify k change
  else
    { toList := m.toList ++ [(k, fresh)]
      nodup_keys := by
        have hk : ∀ x ∈ m.toList.map Prod.fst, x ≠ k := fun x hx hxk => h (hxk ▸ hx)
        rw [List.map_append, List.nodup_append]
        exact ⟨m.nodup_keys, by simp, by simpa using hk⟩ }

theorem keys_upsert (m : OrdMap κ ν) (k : κ) (fresh : ν) (change : ν → ν) :
    (m.upsert k fresh change).keys = if k ∈ m then m.keys else m.keys ++ [k] := by
  unfold upsert
  split
  · simp
  · simp [keys]

theorem mem_upsert {m : OrdMap κ ν} {k j : κ} {fresh : ν} {change : ν → ν} :
    j ∈ m.upsert k fresh change ↔ j = k ∨ j ∈ m := by
  rw [mem_def, keys_upsert]
  split
  · rename_i h
    constructor
    · exact Or.inr
    · rintro (rfl | hj)
      · exact h
      · exact hj
  · simp [mem_def, or_comm]

theorem find?_upsert (m : OrdMap κ ν) (k : κ) (fresh : ν) (change : ν → ν) (j : κ) :
    (m.upsert k fresh change).find? j =
      if j = k then some (((m.find? k).map change).getD fresh) else m.find? j := by
  unfold upsert
  split
  · rename_i h
    obtain ⟨v, hv⟩ := exists_find?_of_mem h
    rw [find?_modify]
    by_cases hj : j = k
    · subst hj
      simp [hv]
    · simp [hj]
  · rename_i h
    have hn := find?_eq_none_iff.mpr h
    rw [find?] at hn
    by_cases hj : j = k
    · subst hj
      simp [find?, List.lookup_append, hn]
    · simp [find?, List.lookup_append, lookup_cons, hj]

/-- Gives `k` the value `v`: in place if `k` is present, at the end otherwise. -/
def insert (m : OrdMap κ ν) (k : κ) (v : ν) : OrdMap κ ν := m.upsert k v fun _ => v

theorem find?_insert (m : OrdMap κ ν) (k : κ) (v : ν) (j : κ) :
    (m.insert k v).find? j = if j = k then some v else m.find? j := by
  rw [insert, find?_upsert]
  cases m.find? k <;> rfl

theorem keys_insert (m : OrdMap κ ν) (k : κ) (v : ν) :
    (m.insert k v).keys = if k ∈ m then m.keys else m.keys ++ [k] :=
  keys_upsert m k v _

/-- Adds the pairs one after the other, so that a repeated key has its last value in its first
place. -/
def insertMany (m : OrdMap κ ν) (pairs : List (κ × ν)) : OrdMap κ ν :=
  pairs.foldl (fun acc e => acc.insert e.1 e.2) m

def ofList (pairs : List (κ × ν)) : OrdMap κ ν := insertMany ∅ pairs

/-- Removes `k` and its value; the other entries keep their order. -/
def erase (m : OrdMap κ ν) (k : κ) : OrdMap κ ν where
  toList := m.toList.filter fun e => e.1 ≠ k
  nodup_keys := m.nodup_keys.sublist (List.filter_sublist.map _)

theorem keys_erase (m : OrdMap κ ν) (k : κ) :
    (m.erase k).keys = m.keys.filter fun j => j ≠ k := by
  rw [keys, keys, erase, List.filter_map]
  rfl

@[simp] theorem mem_erase {m : OrdMap κ ν} {k j : κ} : j ∈ m.erase k ↔ j ∈ m ∧ j ≠ k := by
  simp [mem_def, keys_erase]

theorem lookup_filter_ne (entries : List (κ × ν)) {k j : κ} (h : j ≠ k) :
    (entries.filter fun e => e.1 ≠ k).lookup j = entries.lookup j := by
  induction entries with
  | nil => rfl
  | cons e rest ih =>
    by_cases he : e.1 = k
    · have hj : j ≠ e.1 := fun hje => h (hje.trans he)
      simpa [he, lookup_cons, h] using ih
    · rw [List.filter_cons_of_pos (by simpa using he), lookup_cons, lookup_cons, ih]

theorem find?_erase (m : OrdMap κ ν) (k j : κ) :
    (m.erase k).find? j = if j = k then none else m.find? j := by
  by_cases hj : j = k
  · subst hj
    simp [find?_eq_none_iff]
  · rw [if_neg hj]
    exact lookup_filter_ne m.toList hj

/-- Whether both maps have the same keys and related values, in whatever order. -/
def sameBy (related : ν → ν → Bool) (m n : OrdMap κ ν) : Bool :=
  m.size == n.size && m.toList.all fun e => (n.find? e.1).any (related e.2)

end OrdMap

end DotModel
