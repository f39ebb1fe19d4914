import DotModel.Proofs.Settings.Merging
import Mathlib.Data.List.Pairwise

/-!
# The layer of the variables

Variables that set different keys without dots make a layer in which each of these keys has the
value of its variable, whatever the order of the variables.  Other variables may be assigned more
than once.
-/

namespace DotModel.Settings

variable {assigned assigned' : List (String × String)} {key : String} {value : Value}

/-- The variables set different keys.  A dot in a key would lead into a table. -/
structure SetApart (assigned : List (String × String)) : Prop where
  nodup : (assigned.filterMap fun v => Environment.key v.1).Nodup
  noDots : ∀ v ∈ assigned, ∀ key ∈ Environment.key v.1, '.' ∉ key

/-- The value that the variables give to a key. -/
def assignedValue? (read : String → Value) (assigned : List (String × String)) (key : String) :
    Option Value :=
  (assigned.find? fun v => Environment.key v.1 = some key.toList).map fun v => read v.2

theorem SetApart.perm (h : SetApart assigned) (hperm : assigned.Perm assigned') :
    SetApart assigned' where
  nodup := (hperm.filterMap _).nodup_iff.mp h.nodup
  noDots v hv := h.noDots v (hperm.mem_iff.mpr hv)

theorem SetApart.eq_of_key_eq (h : SetApart assigned) {v w : String × String} {k : List Char}
    (hv : v ∈ assigned) (hw : w ∈ assigned) (hvkey : Environment.key v.1 = some k)
    (hwkey : Environment.key w.1 = some k) : v = w := by
  have hsame : assigned.Pairwise fun v w => ∀ k, Environment.key v.1 = some k →
      Environment.key w.1 = some k → v = w :=
    (List.pairwise_filterMap.mp h.nodup).imp fun hne k hk hj => absurd rfl (hne k hk k hj)
  have hsymm : Std.Symm fun v w : String × String => ∀ k, Environment.key v.1 = some k →
      Environment.key w.1 = some k → v = w :=
    ⟨fun v w heq k hk hj => (heq k hj hk).symm⟩
  exact hsame.forall_of_forall (fun _ _ _ _ _ => rfl) hv hw k hvkey hwkey

theorem SetApart.assignedValue?_eq_some_iff (h : SetApart assigned) {read : String → Value} :
    assignedValue? read assigned key = some value ↔
      ∃ v ∈ assigned, Environment.key v.1 = some key.toList ∧ read v.2 = value := by
  rw [assignedValue?, Option.map_eq_some_iff]
  constructor
  · rintro ⟨v, hv, rfl⟩
    exact ⟨v, List.mem_of_find?_eq_some hv, by simpa using List.find?_some hv, rfl⟩
  · rintro ⟨v, hv, hkey, rfl⟩
    cases hfind : assigned.find? fun v => Environment.key v.1 = some key.toList with
    | none =>
        rw [List.find?_eq_none] at hfind
        exact absurd (decide_eq_true hkey) (hfind v hv)
    | some w =>
        have hw : Environment.key w.1 = some key.toList := by simpa using List.find?_some hfind
        exact ⟨w, rfl, by rw [h.eq_of_key_eq (List.mem_of_find?_eq_some hfind) hv hw hkey]⟩

theorem assignedValue?_perm (h : SetApart assigned) (hperm : assigned.Perm assigned')
    (read : String → Value) (key : String) :
    assignedValue? read assigned key = assignedValue? read assigned' key := by
  ext value
  rw [h.assignedValue?_eq_some_iff, (h.perm hperm).assignedValue?_eq_some_iff]
  simp only [hperm.mem_iff]

/-- A variable that sets a key is in the environment with its only text. -/
theorem SetApart.mem_ofList_iff (h : SetApart assigned) {v : String × String} {k : List Char}
    (hkey : Environment.key v.1 = some k) :
    v ∈ (OrdMap.ofList assigned).toList ↔ v ∈ assigned := by
  constructor
  · exact OrdMap.mem_of_mem_toList_ofList
  · intro hmem
    rw [← OrdMap.find?_eq_some_iff, OrdMap.find?_ofList]
    cases hlookup : assigned.reverse.lookup v.1 with
    | none =>
        rw [List.lookup_eq_none_iff] at hlookup
        simpa using hlookup v (List.mem_reverse.mpr hmem)
    | some last =>
        have hlast := List.mem_reverse.mp (OrdMap.mem_of_lookup_eq_some hlookup)
        rw [h.eq_of_key_eq hmem hlast hkey hkey]

theorem pieces_of_notMem {separator : Char} {text : List Char} (h : separator ∉ text) :
    Text.pieces separator text = [text] := by
  induction text with
  | nil => rfl
  | cons c rest ih =>
      rw [List.mem_cons, not_or] at h
      rw [Text.pieces, if_neg (Ne.symm h.1), ih h.2]

theorem entry?_of_key {read : String → Value} {name text : String} {k : List Char}
    (hname : Environment.key name = some k) (hdots : '.' ∉ k) :
    Environment.entry? read name text =
      if k = [] then none else some (String.ofList k, read text) := by
  simp [Environment.entry?, hname, pieces_of_notMem hdots]

theorem entry?_eq_some_iff {read : String → Value} {name text : String}
    (hdots : ∀ key ∈ Environment.key name, '.' ∉ key) :
    Environment.entry? read name text = some (key, value) ↔
      Environment.key name = some key.toList ∧ key ≠ "" ∧ read text = value := by
  cases hname : Environment.key name with
  | none => simp [Environment.entry?, hname]
  | some k =>
      rw [entry?_of_key hname (hdots k hname)]
      constructor
      · intro h
        split at h
        · cases h
        · rename_i hk
          cases h
          simp [hk]
      · rintro ⟨hk, hne, rfl⟩
        cases hk
        simp [hne]

theorem SetApart.nodup_entries (h : SetApart assigned) (read : String → Value) :
    ((Environment.entries read assigned).map Prod.fst).Nodup := by
  rw [Environment.entries, List.Nodup, List.pairwise_map, List.pairwise_filterMap]
  refine (List.pairwise_map.mp (OrdMap.ofList assigned).nodup_keys).imp_of_mem ?_
  intro v w hv hw hne e he d hd heq
  have hv := OrdMap.mem_of_mem_toList_ofList hv
  have hw := OrdMap.mem_of_mem_toList_ofList hw
  have hvkey := ((entry?_eq_some_iff (h.noDots v hv)).mp he).1
  have hwkey := ((entry?_eq_some_iff (h.noDots w hw)).mp hd).1
  exact hne (congrArg Prod.fst (h.eq_of_key_eq hv hw (heq ▸ hvkey) hwkey))

theorem SetApart.mem_entries_iff (h : SetApart assigned) {read : String → Value} :
    (key, value) ∈ Environment.entries read assigned ↔
      key ≠ "" ∧ ∃ v ∈ assigned, Environment.key v.1 = some key.toList ∧ read v.2 = value := by
  rw [Environment.entries, List.mem_filterMap]
  constructor
  · rintro ⟨v, hv, hentry⟩
    have hv := OrdMap.mem_of_mem_toList_ofList hv
    obtain ⟨hvkey, hne, hread⟩ := (entry?_eq_some_iff (h.noDots v hv)).mp hentry
    exact ⟨hne, v, hv, hvkey, hread⟩
  · rintro ⟨hne, v, hv, hvkey, hread⟩
    exact ⟨v, (h.mem_ofList_iff hvkey).mpr hv,
      (entry?_eq_some_iff (h.noDots v hv)).mpr ⟨hvkey, hne, hread⟩⟩

theorem SetApart.find?_layer (h : SetApart assigned) (hkey : key ≠ "") (read : String → Value) :
    (Environment.layer read assigned).find? key = assignedValue? read assigned key := by
  have hlayer : (Environment.layer read assigned).find? key =
      (Environment.entries read assigned).lookup key := by
    rw [Environment.layer, Layer.find?_merge (h.nodup_entries read), OrdMap.find?_empty]
    cases (Environment.entries read assigned).lookup key <;> rfl
  ext value
  rw [hlayer, OrdMap.lookup_eq_some_iff_mem (h.nodup_entries read), h.mem_entries_iff,
    h.assignedValue?_eq_some_iff, and_iff_right hkey]

end DotModel.Settings
