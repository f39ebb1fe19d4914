import DotModel.Ordered.Map
import DotModel.Ordered.Set

/-!
# Buckets

An index from keys to ordered sets of values.  `link` and `unlink` add and remove one pair;
neither leaves an empty bucket at the key it touches.
-/

namespace DotModel

/-- For each key the set of values filed under it. -/
abbrev Buckets (κ ν : Type) := OrdMap κ (OrdSet ν)

namespace Buckets

variable {κ ν : Type} [DecidableEq κ]

/-- The values filed under `k`, in order; none if `k` has no bucket. -/
def bucket (b : Buckets κ ν) (k : κ) : List ν := ((b.find? k).map OrdSet.toList).getD []

theorem bucket_eq_nil_of_not_mem {b : Buckets κ ν} {k : κ} (h : k ∉ b) : bucket b k = [] := by
  simp [bucket, OrdMap.find?_eq_none_iff.mpr h]

variable [DecidableEq ν]

/-- Files `v` under `k`. -/
def link (b : Buckets κ ν) (k : κ) (v : ν) : Buckets κ ν := b.upsert k {v} (·.insert v)

/-- Takes `v` out of the bucket of `k`, and the bucket out of the index if nothing is left. -/
def unlink (b : Buckets κ ν) (k : κ) (v : ν) : Buckets κ ν :=
  match b.find? k with
  | none => b
  | some values =>
    if (values.erase v).isEmpty then OrdMap.erase b k else b.modify k (·.erase v)

/-- Linking adds the value at the end of its own bucket, unless it is there already. -/
theorem bucket_link (b : Buckets κ ν) (k : κ) (v : ν) (j : κ) :
    bucket (link b k v) j =
      if j = k ∧ v ∉ bucket b k then bucket b k ++ [v] else bucket b j := by
  rw [bucket, link, OrdMap.find?_upsert]
  by_cases hj : j = k
  · subst hj
    cases hf : b.find? j with
    | none => simp [bucket, hf]
    | some values =>
      by_cases hv : v ∈ values.toList <;>
        simp [bucket, hf, OrdSet.toList_insert, OrdSet.mem_def, hv]
  · simp [hj, bucket]

/-- Unlinking takes the value out of its own bucket and leaves the others as they are. -/
theorem bucket_unlink (b : Buckets κ ν) (k : κ) (v : ν) (j : κ) :
    bucket (unlink b k v) j =
      if j = k then (bucket b k).filter fun x => x ≠ v else bucket b j := by
  unfold unlink
  cases hf : b.find? k with
  | none =>
    by_cases hj : j = k
    · subst hj
      simp [bucket, hf]
    · simp [hj]
  | some values =>
    by_cases he : (values.erase v).isEmpty
    · have hnil : values.toList.filter (fun x => x ≠ v) = [] := by
        simpa [OrdSet.isEmpty] using he
      by_cases hj : j = k
      · subst hj
        simpa [he, bucket, OrdMap.find?_erase, hf] using hnil
      · simp [he, bucket, OrdMap.find?_erase, hj]
    · by_cases hj : j = k
      · subst hj
        simp [he, bucket, OrdMap.find?_modify, hf]
      · simp [he, bucket, OrdMap.find?_modify, hj]

/-- All pairs, bucket by bucket. -/
def pairs (b : Buckets κ ν) : List (κ × ν) :=
  b.toList.flatMap fun e => e.2.toList.map fun v => (e.1, v)

/-- Whether both indexes have the same buckets with the same members, in whatever order. -/
def same (a b : Buckets κ ν) : Bool := OrdMap.sameBy OrdSet.same a b

end Buckets

end DotModel
