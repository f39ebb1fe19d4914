import DotModel.Attributes
import Mathlib.Data.List.Basic

/-!
# Entries of ordered maps

Lookup and entries say the same about an ordered map, and a map is rebuilt by inserting its own
entries in order.  Adding the entries of another map keeps the old keys in their places, puts the new ones
behind them and gives both the new values.  For attributes this makes merging associative, and
merging with the empty set, on either side, and with oneself neutral.
-/

namespace DotModel

namespace OrdMap

variable {κ ν : Type} [DecidableEq κ]

theorem lookup_eq_some_iff_mem {entries : List (κ × ν)}
    (hnodup : (entries.map Prod.fst).Nodup) {k : κ} {v : ν} :
    entries.lookup k = some v ↔ (k, v) ∈ entries := by
  induction entries with
  | nil => simp
  | cons e rest ih =>
      rw [List.map_cons, List.nodup_cons] at hnodup
      rw [lookup_cons, List.mem_cons]
      by_cases hk : k = e.1
      · subst hk
        have hrest : ∀ w, (e.1, w) ∉ rest := fun w hw =>
          hnodup.1 (List.mem_map.mpr ⟨(e.1, w), hw, rfl⟩)
        simp [hrest, Prod.ext_iff, eq_comm]
      · have hne : (k, v) ≠ e := fun h => hk (congrArg Prod.fst h)
        simp [hk, hne, ih hnodup.2]

theorem lookup_eq_none_of_notMem {entries : List (κ × ν)} {k : κ}
    (h : k ∉ entries.map Prod.fst) : entries.lookup k = none := by
  rw [List.lookup_eq_none_iff]
  intro e he
  have hne : k ≠ e.1 := fun heq => h (heq ▸ List.mem_map_of_mem he)
  simpa using hne

theorem find?_eq_some_iff {m : OrdMap κ ν} {k : κ} {v : ν} :
    m.find? k = some v ↔ (k, v) ∈ m.toList :=
  lookup_eq_some_iff_mem m.nodup_keys

theorem mem_values_iff {m : OrdMap κ ν} {v : ν} :
    v ∈ m.values ↔ ∃ k, m.find? k = some v := by
  simp only [values, List.mem_map, find?_eq_some_iff]
  constructor
  · rintro ⟨⟨k, w⟩, hmem, rfl⟩
    exact ⟨k, hmem⟩
  · rintro ⟨k, hmem⟩
    exact ⟨(k, v), hmem, rfl⟩

/-- A change that keeps the value under its key changes nothing. -/
theorem modify_eq_self {m : OrdMap κ ν} {k : κ} {change : ν → ν}
    (h : ∀ v, m.find? k = some v → change v = v) : m.modify k change = m := by
  apply ext
  change modifyEntries k change m.toList = m.toList
  calc
    modifyEntries k change m.toList = m.toList.map id := by
      apply List.map_congr_left
      intro e he
      by_cases hke : e.1 = k
      · have hfind : m.find? k = some e.2 := find?_eq_some_iff.mpr (hke ▸ he)
        simp [hke, h e.2 hfind, Prod.ext_iff]
      · simp [hke]
    _ = m.toList := List.map_id m.toList

/-- Giving a key the value that it has already changes nothing. -/
theorem insert_eq_self {m : OrdMap κ ν} {k : κ} {v : ν} (h : m.find? k = some v) :
    m.insert k v = m := by
  rw [insert, upsert, dif_pos (mem_of_find? h)]
  apply modify_eq_self
  intro w hw
  exact Option.some.inj (h.symm.trans hw)

/-- Removing a key that is not there changes nothing. -/
theorem erase_eq_self {m : OrdMap κ ν} {k : κ} (h : k ∉ m) : m.erase k = m := by
  apply ext
  rw [erase, List.filter_eq_self]
  intro e he
  have hne : e.1 ≠ k := by
    rintro rfl
    exact h (List.mem_map_of_mem he)
  exact decide_eq_true hne

theorem toList_insert_of_not_mem {m : OrdMap κ ν} {k : κ} {v : ν} (h : k ∉ m) :
    (m.insert k v).toList = m.toList ++ [(k, v)] := by
  rw [insert, upsert, dif_neg h]

/-- Entries with new keys are appended in their order. -/
theorem toList_insertMany_of_disjoint {m : OrdMap κ ν} {pairs : List (κ × ν)}
    (hnodup : (pairs.map Prod.fst).Nodup) (hnew : ∀ e ∈ pairs, e.1 ∉ m) :
    (m.insertMany pairs).toList = m.toList ++ pairs := by
  induction pairs generalizing m with
  | nil => simp [insertMany]
  | cons e rest ih =>
      rw [List.map_cons, List.nodup_cons] at hnodup
      have he : e.1 ∉ m := hnew e List.mem_cons_self
      have hrest : ∀ f ∈ rest, f.1 ∉ m.insert e.1 e.2 := by
        intro f hf
        rw [mem_def, keys_insert, if_neg he, List.mem_append, List.mem_singleton, not_or]
        refine ⟨hnew f (List.mem_cons_of_mem e hf), ?_⟩
        intro hfe
        exact hnodup.1 (List.mem_map.mpr ⟨f, hf, hfe⟩)
      calc
        (m.insertMany (e :: rest)).toList = ((m.insert e.1 e.2).insertMany rest).toList := rfl
        _ = (m.insert e.1 e.2).toList ++ rest := ih hnodup.2 hrest
        _ = m.toList ++ e :: rest := by
          rw [toList_insert_of_not_mem he, List.append_assoc, List.singleton_append]

@[simp] theorem ofList_toList (m : OrdMap κ ν) : ofList m.toList = m := by
  apply ext
  rw [ofList, toList_insertMany_of_disjoint m.nodup_keys (fun e _ => not_mem_empty e.1)]
  rfl

theorem insertMany_eq_self {m : OrdMap κ ν} {pairs : List (κ × ν)}
    (h : ∀ e ∈ pairs, m.find? e.1 = some e.2) : m.insertMany pairs = m := by
  induction pairs with
  | nil => rfl
  | cons e rest ih =>
      change (m.insert e.1 e.2).insertMany rest = m
      rw [insert_eq_self (h e List.mem_cons_self)]
      exact ih fun f hf => h f (List.mem_cons_of_mem e hf)

theorem modify_modify (m : OrdMap κ ν) (k : κ) (first second : ν → ν) :
    (m.modify k first).modify k second = m.modify k (second ∘ first) := by
  apply ext
  change modifyEntries k second (modifyEntries k first m.toList) =
    modifyEntries k (second ∘ first) m.toList
  rw [modifyEntries, modifyEntries, modifyEntries, List.map_map]
  apply List.map_congr_left
  intro e _
  by_cases he : e.1 = k <;> simp [he]

/-- A value that is changed after it was put there, or changed already, is put there changed. -/
theorem modify_upsert (m : OrdMap κ ν) (k : κ) (fresh : ν) (first second : ν → ν) :
    (m.upsert k fresh first).modify k second = m.upsert k (second fresh) (second ∘ first) := by
  apply ext
  unfold upsert
  by_cases hk : k ∈ m
  · rw [dif_pos hk, dif_pos hk]
    exact congrArg toList (modify_modify m k first second)
  · rw [dif_neg hk, dif_neg hk]
    change modifyEntries k second (m.toList ++ [(k, fresh)]) = m.toList ++ [(k, second fresh)]
    rw [modifyEntries, List.map_append, List.map_singleton, if_pos rfl]
    congr 1
    calc
      m.toList.map (fun e => if e.1 = k then (e.1, second e.2) else e) = m.toList.map id := by
        apply List.map_congr_left
        intro e he
        have hne : e.1 ≠ k := fun heq => hk (heq ▸ List.mem_map_of_mem he)
        rw [if_neg hne]
        rfl
      _ = m.toList := List.map_id m.toList

/-- What was put under a key twice was put there once, if the second change is made on the first
value. -/
theorem upsert_upsert (m : OrdMap κ ν) (k : κ) (fresh later : ν) (first second : ν → ν) :
    (m.upsert k fresh first).upsert k later second =
      m.upsert k (second fresh) (second ∘ first) := by
  have hk : k ∈ m.upsert k fresh first := mem_upsert.mpr (Or.inl rfl)
  rw [← modify_upsert, upsert, dif_pos hk]

theorem modify_id (m : OrdMap κ ν) (k : κ) : m.modify k id = m :=
  modify_eq_self fun _ _ => rfl

/-- What was added under a new key can be taken out again. -/
theorem erase_upsert {m : OrdMap κ ν} {k : κ} (h : k ∉ m) (fresh : ν) (change : ν → ν) :
    (m.upsert k fresh change).erase k = m := by
  have hold : (m.erase k).toList = m.toList := congrArg toList (erase_eq_self h)
  apply ext
  rw [upsert, dif_neg h]
  change (m.toList ++ [(k, fresh)]).filter (fun e => e.1 ≠ k) = m.toList
  rw [List.filter_append, List.filter_cons_of_neg (by simp), List.filter_nil, List.append_nil]
  exact hold

/-- Maps with the same keys in the same order and the same values under them are the same. -/
theorem eq_of_find?_eq {m n : OrdMap κ ν} (hkeys : m.keys = n.keys)
    (hvalues : ∀ k, m.find? k = n.find? k) : m = n := by
  have hentries : ∀ m : OrdMap κ ν,
      m.toList.map (fun e => (e.1, some e.2)) = m.keys.map fun k => (k, m.find? k) := by
    intro m
    rw [keys, List.map_map]
    apply List.map_congr_left
    intro e he
    exact Prod.ext rfl (find?_eq_some_iff.mpr he).symm
  have hinj : Function.Injective fun e : κ × ν => (e.1, some e.2) := by
    intro e d h
    obtain ⟨hkey, hvalue⟩ := Prod.mk.inj h
    exact Prod.ext hkey (Option.some.inj hvalue)
  apply ext
  apply hinj.list_map
  rw [hentries, hentries, hkeys]
  simp only [hvalues]

/-! ## Entries of another map -/

theorem find?_insertMany (m : OrdMap κ ν) {pairs : List (κ × ν)}
    (hnodup : (pairs.map Prod.fst).Nodup) (j : κ) :
    (m.insertMany pairs).find? j = (pairs.lookup j).or (m.find? j) := by
  induction pairs generalizing m with
  | nil => rfl
  | cons e rest ih =>
      rw [List.map_cons, List.nodup_cons] at hnodup
      change ((m.insert e.1 e.2).insertMany rest).find? j = _
      rw [ih _ hnodup.2, find?_insert, lookup_cons]
      by_cases hj : j = e.1
      · rw [hj, lookup_eq_none_of_notMem hnodup.1]
        simp
      · simp [hj]

/-- New keys follow the old ones in their order. -/
theorem keys_insertMany (m : OrdMap κ ν) {pairs : List (κ × ν)}
    (hnodup : (pairs.map Prod.fst).Nodup) :
    (m.insertMany pairs).keys = m.keys ++ (pairs.map Prod.fst).filter fun k => k ∉ m := by
  induction pairs generalizing m with
  | nil => simp [insertMany]
  | cons e rest ih =>
      rw [List.map_cons, List.nodup_cons] at hnodup
      change ((m.insert e.1 e.2).insertMany rest).keys = _
      have hrest : (rest.map Prod.fst).filter (fun k => k ∉ m.insert e.1 e.2) =
          (rest.map Prod.fst).filter fun k => k ∉ m := by
        apply List.filter_congr
        intro k hk
        have hne : k ≠ e.1 := fun heq => hnodup.1 (heq ▸ hk)
        simp [insert, mem_upsert, hne]
      rw [ih _ hnodup.2, hrest, keys_insert, List.map_cons]
      by_cases he : e.1 ∈ m <;> simp [he]

theorem mem_insertMany {m : OrdMap κ ν} {pairs : List (κ × ν)}
    (hnodup : (pairs.map Prod.fst).Nodup) {k : κ} :
    k ∈ m.insertMany pairs ↔ k ∈ m ∨ k ∈ pairs.map Prod.fst := by
  rw [mem_def, keys_insertMany m hnodup, List.mem_append, List.mem_filter, decide_eq_true_eq,
    ← mem_def]
  tauto

/-- Entries that come in two steps may as well be put together before. -/
theorem insertMany_insertMany (m n p : OrdMap κ ν) :
    (m.insertMany n.toList).insertMany p.toList = m.insertMany (n.insertMany p.toList).toList := by
  apply eq_of_find?_eq
  · have hboth : p.keys.filter (fun k => k ∉ m.insertMany n.toList) =
        (p.keys.filter fun k => k ∉ n).filter fun k => k ∉ m := by
      rw [List.filter_filter]
      apply List.filter_congr
      intro k _
      have hmem : k ∈ m.insertMany n.toList ↔ k ∈ m ∨ k ∈ n := mem_insertMany n.nodup_keys
      simp [hmem]
    calc
      ((m.insertMany n.toList).insertMany p.toList).keys =
          m.keys ++ n.keys.filter (fun k => k ∉ m) ++
            p.keys.filter (fun k => k ∉ m.insertMany n.toList) := by
        rw [keys_insertMany _ p.nodup_keys, keys_insertMany _ n.nodup_keys, keys, keys, keys]
      _ = m.keys ++ (n.keys ++ p.keys.filter (fun k => k ∉ n)).filter (fun k => k ∉ m) := by
        rw [hboth, List.filter_append, List.append_assoc]
      _ = (m.insertMany (n.insertMany p.toList).toList).keys := by
        rw [keys_insertMany _ (n.insertMany p.toList).nodup_keys, ← keys,
          keys_insertMany _ p.nodup_keys, ← keys]
  · intro k
    calc
      ((m.insertMany n.toList).insertMany p.toList).find? k =
          (p.find? k).or ((n.find? k).or (m.find? k)) := by
        rw [find?_insertMany _ p.nodup_keys, find?_insertMany _ n.nodup_keys]
        rfl
      _ = ((p.find? k).or (n.find? k)).or (m.find? k) := Option.or_assoc.symm
      _ = (m.insertMany (n.insertMany p.toList).toList).find? k := by
        rw [find?_insertMany _ (n.insertMany p.toList).nodup_keys, ← find?,
          find?_insertMany _ p.nodup_keys]
        rfl

end OrdMap

namespace Attributes

@[simp] theorem merge_empty (a : Attributes) : a.merge ∅ = a := rfl

@[simp] theorem empty_merge (a : Attributes) : merge ∅ a = a := OrdMap.ofList_toList a

@[simp] theorem merge_self (a : Attributes) : a.merge a = a :=
  OrdMap.insertMany_eq_self fun _ he => OrdMap.find?_eq_some_iff.mpr he

theorem merge_assoc (a b c : Attributes) : (a.merge b).merge c = a.merge (b.merge c) :=
  OrdMap.insertMany_insertMany a b c

end Attributes

end DotModel
