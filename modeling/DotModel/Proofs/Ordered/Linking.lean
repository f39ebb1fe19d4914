import DotModel.Graph.Member
import DotModel.Graph.Relations
import DotModel.Proofs.Ordered.Entries

/-!
# Linking and declaring

What a run of links leaves in each bucket, and what a run of declarations leaves under each name.
New pairs stand behind the old ones in their own order.  The declarations of one name merge in
their order, whatever stands between them.
-/

namespace DotModel

/-! ## Pairs -/

section Pairs

variable {κ ν κ' ν' : Type} [DecidableEq κ] [DecidableEq κ']

/-- What stands second in the pairs that have `k` first, in their order. -/
def partners (k : κ) (pairs : List (κ × ν)) : List ν :=
  (pairs.filter fun e => e.1 = k).map Prod.snd

@[simp] theorem partners_nil (k : κ) : partners k ([] : List (κ × ν)) = [] := rfl

theorem partners_append (k : κ) (pairs rest : List (κ × ν)) :
    partners k (pairs ++ rest) = partners k pairs ++ partners k rest := by
  simp only [partners, List.filter_append, List.map_append]

theorem partners_cons (k : κ) (e : κ × ν) (rest : List (κ × ν)) :
    partners k (e :: rest) = if e.1 = k then e.2 :: partners k rest else partners k rest := by
  by_cases h : e.1 = k <;> simp [partners, h]

theorem mem_partners_iff {k : κ} {v : ν} {pairs : List (κ × ν)} :
    v ∈ partners k pairs ↔ (k, v) ∈ pairs := by
  simp only [partners, List.mem_map, List.mem_filter, decide_eq_true_eq]
  constructor
  · rintro ⟨e, ⟨hmem, rfl⟩, rfl⟩
    exact hmem
  · intro hmem
    exact ⟨(k, v), ⟨hmem, rfl⟩, rfl⟩

/-- Without a pair its second part is missing among the partners of its first, and nothing else. -/
theorem partners_filter_ne [DecidableEq ν] (j k : κ) (v : ν) (pairs : List (κ × ν)) :
    partners j (pairs.filter fun e => e != (k, v)) =
      if j = k then (partners k pairs).filter fun x => x ≠ v else partners j pairs := by
  induction pairs with
  | nil => simp
  | cons e rest ih =>
      rw [List.filter_cons]
      by_cases he : e = (k, v)
      · subst he
        by_cases hj : j = k
        · subst hj
          simpa [partners_cons] using ih
        · simpa [partners_cons, hj, Ne.symm hj] using ih
      · have hkept : (e != (k, v)) = true := by simpa using he
        rw [if_pos hkept, partners_cons, ih]
        by_cases hj : j = k
        · subst hj
          by_cases hej : e.1 = j
          · have hev : e.2 ≠ v := fun heq => he (Prod.ext hej heq)
            simp [partners_cons, hej, hev]
          · simp [partners_cons, hej]
        · simp [partners_cons, hj]

/-- Pairs are distinct if those with the same first part are. -/
theorem nodup_of_nodup_partners {pairs : List (κ × ν)}
    (h : ∀ k, (partners k pairs).Nodup) : pairs.Nodup := by
  induction pairs with
  | nil => exact List.nodup_nil
  | cons e rest ih =>
      have hhead : e.2 ∉ partners e.1 rest := by
        have he : (partners e.1 (e :: rest)).Nodup := h e.1
        rw [partners_cons, if_pos rfl, List.nodup_cons] at he
        exact he.1
      have htail : ∀ k, (partners k rest).Nodup := by
        intro k
        have hk : (partners k (e :: rest)).Nodup := h k
        rw [partners_cons] at hk
        split at hk
        · exact (List.nodup_cons.mp hk).2
        · exact hk
      rw [List.nodup_cons]
      exact ⟨fun hmem => hhead (mem_partners_iff.mpr hmem), ih htail⟩

/-- Renaming keeps the partners apart if no two keys get the name of `k`. -/
theorem partners_map (f : κ → κ') (f' : ν → ν') {k : κ} {pairs : List (κ × ν)}
    (h : ∀ e ∈ pairs, f e.1 = f k → e.1 = k) :
    partners (f k) (pairs.map fun e => (f e.1, f' e.2)) = (partners k pairs).map f' := by
  induction pairs with
  | nil => rfl
  | cons e rest ih =>
      have hrest := ih fun d hd => h d (List.mem_cons_of_mem e hd)
      rw [List.map_cons, partners_cons, partners_cons, hrest]
      by_cases he : e.1 = k
      · rw [if_pos he, if_pos (congrArg f he), List.map_cons]
      · rw [if_neg he, if_neg fun hf => he (h e List.mem_cons_self hf)]

end Pairs

/-! ## Links -/

namespace Buckets

variable {κ ν : Type} [DecidableEq κ]

theorem nodup_bucket (b : Buckets κ ν) (k : κ) : (bucket b k).Nodup := by
  rw [bucket]
  cases b.find? k with
  | none => exact List.nodup_nil
  | some values => exact values.nodup

theorem mem_bucket_iff {b : Buckets κ ν} {k : κ} {v : ν} :
    v ∈ bucket b k ↔ ∃ values, b.find? k = some values ∧ v ∈ values.toList := by
  rw [bucket]
  cases b.find? k with
  | none => simp
  | some values => simp

theorem mem_pairs_iff {b : Buckets κ ν} {k : κ} {v : ν} :
    (k, v) ∈ pairs b ↔ v ∈ bucket b k := by
  simp only [pairs, List.mem_flatMap, List.mem_map, mem_bucket_iff, OrdMap.find?_eq_some_iff]
  constructor
  · rintro ⟨⟨j, values⟩, hmem, w, hw, heq⟩
    cases heq
    exact ⟨values, hmem, hw⟩
  · rintro ⟨values, hmem, hv⟩
    exact ⟨(k, values), hmem, v, hv, rfl⟩

end Buckets

namespace Relations

theorem nodup_children (r : Relations) (p : String) : (r.children p).Nodup :=
  Buckets.nodup_bucket r.byParent p

theorem mem_pairs_iff {r : Relations} {p c : String} : (p, c) ∈ r.pairs ↔ c ∈ r.children p :=
  Buckets.mem_pairs_iff

theorem contains_eq_true_iff {r : Relations} {p c : String} :
    r.contains p c = true ↔ c ∈ r.children p := by
  simp [contains]

@[simp] theorem children_empty (p : String) : (∅ : Relations).children p = [] := rfl

@[simp] theorem parents_empty (c : String) : (∅ : Relations).parents c = [] := rfl

theorem mem_children_add {r : Relations} {p c q d : String} :
    d ∈ (r.add p c).children q ↔ q = p ∧ d = c ∨ d ∈ r.children q := by
  rw [children_add]
  by_cases hq : q = p
  · subst hq
    by_cases hc : c ∈ r.children q
    · have hd : d = c → d ∈ r.children q := fun h => h ▸ hc
      simp only [hc, not_true_eq_false, and_false, if_false, true_and]
      exact ⟨Or.inr, fun h => h.elim hd id⟩
    · simp [hc, or_comm]
  · simp [hq]

theorem mem_parents_add {r : Relations} {p c q d : String} :
    q ∈ (r.add p c).parents d ↔ q = p ∧ d = c ∨ q ∈ r.parents d := by
  rw [parents_add]
  by_cases hd : d = c
  · subst hd
    by_cases hp : p ∈ r.parents d
    · have hq : q = p → q ∈ r.parents d := fun h => h ▸ hp
      simp only [hp, not_true_eq_false, and_false, if_false, and_true]
      exact ⟨Or.inr, fun h => h.elim hq id⟩
    · simp [hp, or_comm]
  · simp [hd]

theorem mem_children_remove {r : Relations} {p c q d : String} :
    d ∈ (r.remove p c).children q ↔ d ∈ r.children q ∧ ¬(q = p ∧ d = c) := by
  rw [children_remove]
  by_cases hq : q = p
  · subst hq
    simp
  · simp [hq]

theorem mem_parents_remove {r : Relations} {p c q d : String} :
    q ∈ (r.remove p c).parents d ↔ q ∈ r.parents d ∧ ¬(q = p ∧ d = c) := by
  rw [parents_remove]
  by_cases hd : d = c
  · subst hd
    simp
  · simp [hd]

/-- Adds the pairs one after the other. -/
def addAll (r : Relations) (pairs : List (String × String)) : Relations :=
  pairs.foldl (fun acc e => acc.add e.1 e.2) r

@[simp] theorem addAll_nil (r : Relations) : r.addAll [] = r := rfl

@[simp] theorem addAll_cons (r : Relations) (e : String × String)
    (pairs : List (String × String)) :
    r.addAll (e :: pairs) = (r.add e.1 e.2).addAll pairs := rfl

theorem addAll_append (r : Relations) (pairs rest : List (String × String)) :
    r.addAll (pairs ++ rest) = (r.addAll pairs).addAll rest :=
  List.foldl_append

/-- New pairs stand behind the members that a scope has, in the order in which they are added. -/
theorem children_addAll {r : Relations} {pairs : List (String × String)} (hnodup : pairs.Nodup)
    (hnew : ∀ e ∈ pairs, e.2 ∉ r.children e.1) (p : String) :
    (r.addAll pairs).children p = r.children p ++ partners p pairs := by
  induction pairs generalizing r with
  | nil => simp
  | cons e rest ih =>
      rw [List.nodup_cons] at hnodup
      have he : e.2 ∉ r.children e.1 := hnew e List.mem_cons_self
      have hrest : ∀ f ∈ rest, f.2 ∉ (r.add e.1 e.2).children f.1 := by
        intro f hf hmem
        rcases mem_children_add.mp hmem with ⟨h₁, h₂⟩ | hold
        · exact hnodup.1 (Prod.ext h₁ h₂ ▸ hf)
        · exact hnew f (List.mem_cons_of_mem e hf) hold
      rw [addAll_cons, ih hnodup.2 hrest, children_add, partners_cons]
      by_cases hp : e.1 = p
      · subst hp
        simp [he]
      · simp [hp, Ne.symm hp]

end Relations

/-! ## Declarations -/

namespace Members

theorem find?_declare (ms : Members) (name : String) (attrs : Attributes) (k : String) :
    (ms.declare name attrs).find? k =
      if k = name then
        some (((ms.find? name).map fun old => { old with attrs := old.attrs.merge attrs }).getD
          ⟨name, attrs⟩)
      else ms.find? k :=
  OrdMap.find?_upsert ms name _ _ k

theorem mem_declare {ms : Members} {name k : String} {attrs : Attributes} :
    k ∈ ms.declare name attrs ↔ k = name ∨ k ∈ ms :=
  OrdMap.mem_upsert

/-- Declares the names with their attributes, one after the other. -/
def declareAll (ms : Members) (decls : List (String × Attributes)) : Members :=
  decls.foldl (fun acc d => acc.declare d.1 d.2) ms

@[simp] theorem declareAll_nil (ms : Members) : ms.declareAll [] = ms := rfl

@[simp] theorem declareAll_cons (ms : Members) (d : String × Attributes)
    (decls : List (String × Attributes)) :
    ms.declareAll (d :: decls) = (ms.declare d.1 d.2).declareAll decls := rfl

theorem declareAll_append (ms : Members) (decls rest : List (String × Attributes)) :
    ms.declareAll (decls ++ rest) = (ms.declareAll decls).declareAll rest :=
  List.foldl_append

theorem mem_declareAll {ms : Members} {decls : List (String × Attributes)} {k : String} :
    k ∈ ms.declareAll decls ↔ k ∈ decls.map Prod.fst ∨ k ∈ ms := by
  induction decls generalizing ms with
  | nil => simp
  | cons d rest ih =>
      rw [declareAll_cons, ih, mem_declare, List.map_cons, List.mem_cons]
      exact or_left_comm.trans or_assoc.symm

/-- The member under a name after one more declaration of it. -/
def redeclare (name : String) (old : Option Member) (attrs : Attributes) : Option Member :=
  some ((old.map fun m => { m with attrs := m.attrs.merge attrs }).getD ⟨name, attrs⟩)

/-- Under a name stands what its own declarations make of it, in their order. -/
theorem find?_declareAll (ms : Members) (decls : List (String × Attributes)) (k : String) :
    (ms.declareAll decls).find? k =
      (partners k decls).foldl (redeclare k) (ms.find? k) := by
  induction decls generalizing ms with
  | nil => rfl
  | cons d rest ih =>
      rw [declareAll_cons, ih, find?_declare, partners_cons]
      by_cases hk : d.1 = k
      · subst hk
        simp [redeclare]
      · simp [hk, Ne.symm hk]

/-- Declarations that add nothing to the first leave the first. -/
theorem foldl_redeclare_some {name : String} {attrs : Attributes} {updates : List Attributes}
    (h : ∀ a ∈ updates, attrs.merge a = attrs) :
    updates.foldl (redeclare name) (some ⟨name, attrs⟩) = some ⟨name, attrs⟩ := by
  induction updates with
  | nil => rfl
  | cons a rest ih =>
      have ha : redeclare name (some ⟨name, attrs⟩) a = some ⟨name, attrs⟩ := by
        simp [redeclare, h a List.mem_cons_self]
      rw [List.foldl_cons, ha]
      exact ih fun b hb => h b (List.mem_cons_of_mem a hb)

/-- Declarations with the same attributes or none come to one with those attributes. -/
theorem foldl_redeclare_none {name : String} {attrs : Attributes} {updates : List Attributes}
    {old : Option Member} (hold : old = none ∨ old = some ⟨name, ∅⟩)
    (h : ∀ a ∈ updates, a = attrs ∨ a = ∅) (hmem : attrs ∈ updates) :
    updates.foldl (redeclare name) old = some ⟨name, attrs⟩ := by
  induction updates generalizing old with
  | nil => cases hmem
  | cons a rest ih =>
      have hrest : ∀ b ∈ rest, b = attrs ∨ b = ∅ := fun b hb => h b (List.mem_cons_of_mem a hb)
      have hfirst : redeclare name old a = some ⟨name, a⟩ := by
        rcases hold with rfl | rfl <;> simp [redeclare]
      rw [List.foldl_cons, hfirst]
      by_cases ha : a = attrs
      · subst ha
        refine foldl_redeclare_some fun b hb => ?_
        rcases hrest b hb with rfl | rfl <;> simp
      · have hempty : a = ∅ := (h a List.mem_cons_self).resolve_left ha
        have hlater : attrs ∈ rest := (List.mem_cons.mp hmem).resolve_left (Ne.symm ha)
        exact ih (Or.inr (by rw [hempty])) hrest hlater

/-- A name that is declared with the same attributes or none has those attributes. -/
theorem find?_declareAll_empty {decls : List (String × Attributes)} {k : String}
    {attrs : Attributes} (h : ∀ a, (k, a) ∈ decls → a = attrs ∨ a = ∅)
    (hmem : (k, attrs) ∈ decls) :
    (declareAll ∅ decls).find? k = some ⟨k, attrs⟩ := by
  rw [find?_declareAll, OrdMap.find?_empty]
  refine foldl_redeclare_none (Or.inl rfl) ?_ (mem_partners_iff.mpr hmem)
  intro a ha
  exact h a (mem_partners_iff.mp ha)

end Members

end DotModel
