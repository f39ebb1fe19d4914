import DotModel.Proofs.Graph.Consistency

/-!
# Relations as lists of pairs

A relation stands for a list of distinct pairs: adding a pair that is not there puts it at the end,
and removing it takes it out.  Both indexes answer as the list does, in its order, the second one
for the pairs the other way round.  The pairs are all that a relation has: relations with the same
pairs are the same, whatever has happened to them.

That the indexes never hold an empty bucket is needed for this.  No query tells an empty bucket
from none, but the comparison of two indexes does.
-/

namespace DotModel

/-! ## Updates -/

namespace Relations

/-- A change of a relation. -/
inductive Update where
  | add (parent child : String)
  | remove (parent child : String)

/-- The relation after an update. -/
def update (r : Relations) : Update → Relations
  | .add parent child => r.add parent child
  | .remove parent child => r.remove parent child

/-- The relation after one update after the other. -/
def updateAll (r : Relations) (us : List Update) : Relations := us.foldl update r

/-- What an update makes of a list of pairs. -/
def Update.updatePairs (pairs : List (String × String)) : Update → List (String × String)
  | .add parent child => if (parent, child) ∈ pairs then pairs else pairs ++ [(parent, child)]
  | .remove parent child => pairs.erase (parent, child)

/-- The pairs that are there after the updates, in the order in which they were added. -/
def pairsAfter (us : List Update) : List (String × String) := us.foldl Update.updatePairs []

end Relations

/-! ## One index -/

namespace Buckets

variable {κ ν : Type} [DecidableEq κ] {b a : Buckets κ ν} {pairs : List (κ × ν)}

/-- The index holds these pairs: under each key what stands with it in the pairs, in their order,
and no bucket for a key that nothing stands with. -/
structure Indexes (b : Buckets κ ν) (pairs : List (κ × ν)) : Prop where
  bucket_eq : ∀ k, b.bucket k = partners k pairs
  filled : b.Filled

theorem Filled.mem_iff (h : b.Filled) {k : κ} : k ∈ b ↔ b.bucket k ≠ [] := by
  constructor
  · intro hk
    obtain ⟨values, hvalues⟩ := OrdMap.exists_find?_of_mem hk
    simpa [bucket, hvalues] using h k values hvalues
  · intro hne
    by_contra hk
    exact hne (bucket_eq_nil_of_not_mem hk)

omit [DecidableEq κ] in
theorem nodup_pairs (b : Buckets κ ν) : (Buckets.pairs b).Nodup := by
  rw [Buckets.pairs, List.nodup_flatMap]
  constructor
  · intro e _
    exact e.2.nodup.map fun _ _ heq => (Prod.mk.inj heq).2
  · have hkeys : b.toList.Pairwise fun e f => e.1 ≠ f.1 := List.pairwise_map.mp b.nodup_keys
    apply hkeys.imp
    intro e f hne x hx hy
    obtain ⟨v, _, rfl⟩ := List.mem_map.mp hx
    obtain ⟨w, _, heq⟩ := List.mem_map.mp hy
    exact hne (Prod.mk.inj heq).1.symm

namespace Indexes

theorem empty : (∅ : Buckets κ ν).Indexes [] where
  bucket_eq _ := rfl
  filled := by
    intro k values hvalues
    cases hvalues

theorem mem_iff (h : b.Indexes pairs) {k : κ} {v : ν} :
    v ∈ b.bucket k ↔ (k, v) ∈ pairs := by
  rw [h.bucket_eq, mem_partners_iff]

theorem perm (h : b.Indexes pairs) (hnodup : pairs.Nodup) : (Buckets.pairs b).Perm pairs := by
  rw [List.perm_ext_iff_of_nodup b.nodup_pairs hnodup]
  intro e
  exact mem_pairs_iff.trans h.mem_iff

theorem isEmpty_iff (h : b.Indexes pairs) : b.isEmpty = true ↔ pairs = [] := by
  rw [OrdMap.isEmpty, List.isEmpty_iff]
  constructor
  · intro hnone
    apply List.eq_nil_iff_forall_not_mem.mpr
    intro e he
    have hmem : e.2 ∈ b.bucket e.1 := h.mem_iff.mpr he
    simp [Buckets.bucket, OrdMap.find?, hnone] at hmem
  · rintro rfl
    apply List.eq_nil_iff_forall_not_mem.mpr
    intro e he
    have hkey : e.1 ∈ b := List.mem_map_of_mem he
    exact h.filled.mem_iff.mp hkey (h.bucket_eq e.1)

variable [DecidableEq ν]

theorem link (h : b.Indexes pairs) (k : κ) (v : ν) :
    (b.link k v).Indexes (if (k, v) ∈ pairs then pairs else pairs ++ [(k, v)]) where
  bucket_eq := by
    intro j
    rw [bucket_link]
    by_cases hold : (k, v) ∈ pairs
    · have hmem : v ∈ b.bucket k := h.mem_iff.mpr hold
      rw [if_pos hold, if_neg fun hfresh => hfresh.2 hmem, h.bucket_eq]
    · have hmem : v ∉ b.bucket k := fun hv => hold (h.mem_iff.mp hv)
      rw [if_neg hold, partners_append, partners_cons, partners_nil, ← h.bucket_eq]
      by_cases hj : j = k
      · subst hj
        simp [hmem]
      · simp [hj, Ne.symm hj]
  filled := h.filled.link k v

theorem unlink (h : b.Indexes pairs) (hnodup : pairs.Nodup) (k : κ) (v : ν) :
    (b.unlink k v).Indexes (pairs.erase (k, v)) where
  bucket_eq := by
    intro j
    rw [bucket_unlink, h.bucket_eq, h.bucket_eq, hnodup.erase_eq_filter, partners_filter_ne]
  filled := h.filled.unlink k v

end Indexes

end Buckets

/-! ## Comparing -/

theorem OrdSet.same_eq_true_iff {α : Type} [DecidableEq α] {s t : OrdSet α} :
    s.same t = true ↔ ∀ a, a ∈ s ↔ a ∈ t := by
  rw [OrdSet.same, Bool.and_eq_true, beq_iff_eq, List.all_eq_true]
  constructor
  · rintro ⟨hsize, hall⟩ a
    have hsubset : s.toList ⊆ t.toList := fun x hx => of_decide_eq_true (hall x hx)
    have hperm : s.toList.Perm t.toList :=
      (s.nodup.subperm hsubset).perm_of_length_le (Nat.le_of_eq hsize.symm)
    exact hperm.mem_iff
  · intro h
    have hperm : s.toList.Perm t.toList := (List.perm_ext_iff_of_nodup s.nodup t.nodup).mpr h
    exact ⟨hperm.length_eq, fun a ha => decide_eq_true ((h a).mp ha)⟩

/-- Maps are the same if they have the same keys and related values under them. -/
theorem OrdMap.sameBy_eq_true_iff {κ ν : Type} [DecidableEq κ] {related : ν → ν → Bool}
    {m n : OrdMap κ ν} :
    OrdMap.sameBy related m n = true ↔
      (∀ k, k ∈ m ↔ k ∈ n) ∧
        ∀ k v w, m.find? k = some v → n.find? k = some w → related v w = true := by
  rw [OrdMap.sameBy, Bool.and_eq_true, beq_iff_eq, List.all_eq_true]
  constructor
  · rintro ⟨hsize, hall⟩
    have hvalue : ∀ k v, m.find? k = some v → ∃ w, n.find? k = some w ∧ related v w = true := by
      intro k v hv
      exact (Option.any_eq_true _ _).mp (hall (k, v) (OrdMap.find?_eq_some_iff.mp hv))
    have hsubset : m.keys ⊆ n.keys := by
      intro k hk
      obtain ⟨v, hv⟩ := OrdMap.exists_find?_of_mem (OrdMap.mem_def.mpr hk)
      obtain ⟨w, hw, -⟩ := hvalue k v hv
      exact OrdMap.mem_def.mp (OrdMap.mem_of_find? hw)
    have hperm : m.keys.Perm n.keys := by
      apply (m.keys_nodup.subperm hsubset).perm_of_length_le
      rw [OrdMap.length_keys, OrdMap.length_keys, hsize]
    refine ⟨fun k => hperm.mem_iff, ?_⟩
    intro k v w hv hw
    obtain ⟨w', hw', hrelated⟩ := hvalue k v hv
    rw [hw] at hw'
    exact Option.some.inj hw' ▸ hrelated
  · rintro ⟨hkeys, hvalues⟩
    have hperm : m.keys.Perm n.keys :=
      (List.perm_ext_iff_of_nodup m.keys_nodup n.keys_nodup).mpr hkeys
    refine ⟨?_, ?_⟩
    · rw [← OrdMap.length_keys, ← OrdMap.length_keys, hperm.length_eq]
    · rintro ⟨k, v⟩ he
      have hv : m.find? k = some v := OrdMap.find?_eq_some_iff.mpr he
      obtain ⟨w, hw⟩ := OrdMap.exists_find?_of_mem ((hkeys k).mp (OrdMap.mem_of_find? hv))
      exact (Option.any_eq_true _ _).mpr ⟨w, hw, hvalues k v w hv hw⟩

/-- Without empty buckets indexes are the same if they have the same values under each key. -/
theorem Buckets.same_eq_true_iff {κ ν : Type} [DecidableEq κ] [DecidableEq ν] {a b : Buckets κ ν}
    (ha : a.Filled) (hb : b.Filled) :
    a.same b = true ↔ ∀ k v, v ∈ a.bucket k ↔ v ∈ b.bucket k := by
  rw [Buckets.same, OrdMap.sameBy_eq_true_iff]
  have hbucket : ∀ {c : Buckets κ ν} {k values}, c.find? k = some values →
      c.bucket k = values.toList := by
    intro c k values hvalues
    simp [Buckets.bucket, hvalues]
  constructor
  · rintro ⟨hkeys, hvalues⟩ k v
    by_cases hk : k ∈ a
    · obtain ⟨s, hs⟩ := OrdMap.exists_find?_of_mem hk
      obtain ⟨t, ht⟩ := OrdMap.exists_find?_of_mem ((hkeys k).mp hk)
      rw [hbucket hs, hbucket ht]
      exact OrdSet.same_eq_true_iff.mp (hvalues k s t hs ht) v
    · have hk' : k ∉ b := fun h => hk ((hkeys k).mpr h)
      rw [Buckets.bucket_eq_nil_of_not_mem hk, Buckets.bucket_eq_nil_of_not_mem hk']
  · intro h
    refine ⟨?_, ?_⟩
    · intro k
      rw [ha.mem_iff, hb.mem_iff, Ne, Ne, List.eq_nil_iff_forall_not_mem,
        List.eq_nil_iff_forall_not_mem]
      simp only [h k]
    · intro k s t hs ht
      rw [OrdSet.same_eq_true_iff]
      intro v
      rw [OrdSet.mem_def, OrdSet.mem_def, ← hbucket hs, ← hbucket ht]
      exact h k v

/-! ## Both indexes -/

namespace Relations

variable {r : Relations} {pairs : List (String × String)}

/-- Both indexes hold these pairs, the second one the other way round. -/
structure Holds (r : Relations) (pairs : List (String × String)) : Prop where
  nodup : pairs.Nodup
  byParent : r.byParent.Indexes pairs
  byChild : r.byChild.Indexes (pairs.map Prod.swap)

theorem holds_empty : (∅ : Relations).Holds [] where
  nodup := List.nodup_nil
  byParent := .empty
  byChild := .empty

theorem Holds.add (h : r.Holds pairs) (p c : String) :
    (r.add p c).Holds (if (p, c) ∈ pairs then pairs else pairs ++ [(p, c)]) where
  nodup := by
    by_cases hold : (p, c) ∈ pairs
    · rw [if_pos hold]
      exact h.nodup
    · rw [if_neg hold, ← List.concat_eq_append]
      exact h.nodup.concat hold
  byParent := h.byParent.link p c
  byChild := by
    have hlink := h.byChild.link c p
    have hswap : (c, p) ∈ pairs.map Prod.swap ↔ (p, c) ∈ pairs := by
      rw [← Prod.swap_prod_mk, List.mem_map_of_injective Prod.swap_injective]
    by_cases hold : (p, c) ∈ pairs
    · rw [if_pos (hswap.mpr hold)] at hlink
      rw [if_pos hold]
      exact hlink
    · rw [if_neg fun hmem => hold (hswap.mp hmem)] at hlink
      rw [if_neg hold, List.map_append]
      exact hlink

theorem Holds.remove (h : r.Holds pairs) (p c : String) :
    (r.remove p c).Holds (pairs.erase (p, c)) where
  nodup := h.nodup.erase (p, c)
  byParent := h.byParent.unlink h.nodup p c
  byChild := by
    rw [List.map_erase Prod.swap_injective]
    exact h.byChild.unlink (h.nodup.map Prod.swap_injective) c p

/-- An update makes of the relation what it makes of the pairs. -/
theorem Holds.update (h : r.Holds pairs) (u : Update) :
    (r.update u).Holds (u.updatePairs pairs) := by
  cases u with
  | add parent child => exact h.add parent child
  | remove parent child => exact h.remove parent child

theorem Holds.updateAll (h : r.Holds pairs) (us : List Update) :
    (r.updateAll us).Holds (us.foldl Update.updatePairs pairs) := by
  induction us generalizing r pairs with
  | nil => exact h
  | cons u rest ih => exact ih (h.update u)

theorem holds_pairsAfter (us : List Update) : (updateAll ∅ us).Holds (pairsAfter us) :=
  holds_empty.updateAll us

/-! ## Queries -/

/-- The relation answers every query as the list of pairs does. -/
structure Shows (r : Relations) (pairs : List (String × String)) : Prop where
  contains_iff : ∀ p c, r.contains p c = true ↔ (p, c) ∈ pairs
  children_eq : ∀ p, r.children p = (pairs.filter fun e => e.1 = p).map Prod.snd
  parents_eq : ∀ c, r.parents c = (pairs.filter fun e => e.2 = c).map Prod.fst
  perm : r.pairs.Perm pairs
  nodup : r.pairs.Nodup
  isEmpty_iff : r.isEmpty = true ↔ pairs = []
  filled : r.byParent.Filled ∧ r.byChild.Filled

/-- The partners in the turned pairs are what stands first in the pairs. -/
theorem partners_map_swap (c : String) :
    partners c (pairs.map Prod.swap) = (pairs.filter fun e => e.2 = c).map Prod.fst := by
  rw [partners, List.filter_map, List.map_map]
  rfl

theorem Holds.shows (h : r.Holds pairs) : r.Shows pairs where
  contains_iff _ _ := contains_eq_true_iff.trans h.byParent.mem_iff
  children_eq p := h.byParent.bucket_eq p
  parents_eq c := (h.byChild.bucket_eq c).trans (partners_map_swap c)
  perm := h.byParent.perm h.nodup
  nodup := r.byParent.nodup_pairs
  isEmpty_iff := h.byParent.isEmpty_iff
  filled := ⟨h.byParent.filled, h.byChild.filled⟩

theorem Holds.mem_parents_iff (h : r.Holds pairs) {p c : String} :
    p ∈ r.parents c ↔ r.contains p c = true := by
  rw [contains_eq_true_iff, parents, h.byChild.mem_iff, children, h.byParent.mem_iff,
    ← Prod.swap_prod_mk, List.mem_map_of_injective Prod.swap_injective]

/-- The second index has nothing that the first one does not have, so comparing both of them finds
no difference unless the first ones differ. -/
theorem Holds.same_iff {t : Relations} {others : List (String × String)} (h : r.Holds pairs)
    (ht : t.Holds others) : r.same t = true ↔ ∀ p c, r.contains p c = t.contains p c := by
  rw [same, Bool.and_eq_true, Buckets.same_eq_true_iff h.byParent.filled ht.byParent.filled,
    Buckets.same_eq_true_iff h.byChild.filled ht.byChild.filled]
  constructor
  · rintro ⟨hparent, -⟩ p c
    rw [Bool.eq_iff_iff, contains_eq_true_iff, contains_eq_true_iff]
    exact hparent p c
  · intro hcontains
    refine ⟨?_, ?_⟩
    · intro p c
      have hpair : c ∈ r.children p ↔ c ∈ t.children p := by
        rw [← contains_eq_true_iff, ← contains_eq_true_iff, hcontains p c]
      exact hpair
    · intro c p
      have hpair : p ∈ r.parents c ↔ p ∈ t.parents c := by
        rw [h.mem_parents_iff, ht.mem_parents_iff, hcontains p c]
      exact hpair

/-- After whatever updates a relation answers as the list of the pairs that are there, in their
order of arrival, and it is the same as another one if and only if they contain the same pairs. -/
theorem updateAll_shows_pairsAfter (us vs : List Update) :
    (updateAll ∅ us).Shows (pairsAfter us) ∧
      ((updateAll ∅ us).same (updateAll ∅ vs) = true ↔
        ∀ p c, (updateAll ∅ us).contains p c = (updateAll ∅ vs).contains p c) :=
  ⟨(holds_pairsAfter us).shows, (holds_pairsAfter us).same_iff (holds_pairsAfter vs)⟩

-- The pair that went and came back stands at the end, in both directions.
example :
    pairsAfter [.add "G" "a", .add "G" "b", .add "s" "a", .remove "G" "a", .add "G" "a"] =
      [("G", "b"), ("s", "a"), ("G", "a")] := by
  decide

end Relations

end DotModel
