/-!
# Sets in insertion order

`OrdSet α` is a finite set that keeps its members in the order in which they were added.
-/

namespace DotModel

/-- A finite set whose members stand in the order in which they were added. -/
structure OrdSet (α : Type) where
  toList : List α
  nodup : toList.Nodup
  deriving DecidableEq

namespace OrdSet

variable {α : Type}

def isEmpty (s : OrdSet α) : Bool := s.toList.isEmpty

/-- The number of members. -/
def size (s : OrdSet α) : Nat := s.toList.length

instance : EmptyCollection (OrdSet α) := ⟨⟨[], List.nodup_nil⟩⟩

instance : Inhabited (OrdSet α) := ⟨∅⟩

instance : Membership α (OrdSet α) := ⟨fun s a => a ∈ s.toList⟩

instance : Singleton α (OrdSet α) := ⟨fun a => ⟨[a], by simp⟩⟩

theorem mem_def {s : OrdSet α} {a : α} : a ∈ s ↔ a ∈ s.toList := Iff.rfl

theorem ext {s t : OrdSet α} (h : s.toList = t.toList) : s = t := by
  cases s
  cases t
  cases h
  rfl

@[simp] theorem toList_empty : (∅ : OrdSet α).toList = [] := rfl

@[simp] theorem toList_singleton (a : α) : ({a} : OrdSet α).toList = [a] := rfl

@[simp] theorem mem_singleton {a b : α} : b ∈ ({a} : OrdSet α) ↔ b = a := by
  rw [mem_def, toList_singleton, List.mem_singleton]

variable [DecidableEq α]

instance (a : α) (s : OrdSet α) : Decidable (a ∈ s) :=
  inferInstanceAs (Decidable (a ∈ s.toList))

def contains (s : OrdSet α) (a : α) : Bool := decide (a ∈ s)

/-- Adds `a` at the end, unless it is a member already. -/
def insert (s : OrdSet α) (a : α) : OrdSet α :=
  if h : a ∈ s then
    s
  else
    { toList := s.toList ++ [a]
      nodup := by
        have ha : ∀ x ∈ s.toList, x ≠ a := fun x hx hxa => h (hxa ▸ hx)
        rw [List.nodup_append]
        exact ⟨s.nodup, by simp, by simpa using ha⟩ }

theorem toList_insert (s : OrdSet α) (a : α) :
    (s.insert a).toList = if a ∈ s then s.toList else s.toList ++ [a] := by
  unfold insert
  split <;> rfl

@[simp] theorem mem_insert {s : OrdSet α} {a b : α} : b ∈ s.insert a ↔ b = a ∨ b ∈ s := by
  rw [mem_def, toList_insert]
  split
  · rename_i h
    constructor
    · exact Or.inr
    · rintro (rfl | hb)
      · exact h
      · exact hb
  · simp [mem_def, or_comm]

/-- Removes `a`; the other members keep their order. -/
def erase (s : OrdSet α) (a : α) : OrdSet α where
  toList := s.toList.filter fun x => x ≠ a
  nodup := s.nodup.sublist List.filter_sublist

@[simp] theorem toList_erase (s : OrdSet α) (a : α) :
    (s.erase a).toList = s.toList.filter fun x => x ≠ a := rfl

@[simp] theorem mem_erase {s : OrdSet α} {a b : α} : b ∈ s.erase a ↔ b ∈ s ∧ b ≠ a := by
  simp [mem_def]

/-- The set of the listed members, each in the place of its first occurrence. -/
def ofList (members : List α) : OrdSet α := members.foldl insert ∅

/-- New members are added at the end in their order. -/
theorem toList_foldl_insert {s : OrdSet α} {members : List α} (hnodup : members.Nodup)
    (hnew : ∀ a ∈ members, a ∉ s) : (members.foldl insert s).toList = s.toList ++ members := by
  induction members generalizing s with
  | nil => simp
  | cons a rest ih =>
      rw [List.nodup_cons] at hnodup
      have ha : a ∉ s := hnew a List.mem_cons_self
      have hrest : ∀ b ∈ rest, b ∉ s.insert a := by
        intro b hb
        rw [mem_insert, not_or]
        exact ⟨fun hba => hnodup.1 (hba ▸ hb), hnew b (List.mem_cons_of_mem a hb)⟩
      rw [List.foldl_cons, ih hnodup.2 hrest, toList_insert, if_neg ha, List.append_assoc,
        List.singleton_append]

@[simp] theorem ofList_toList (s : OrdSet α) : ofList s.toList = s := by
  apply ext
  rw [ofList, toList_foldl_insert s.nodup fun _ _ => List.not_mem_nil]
  rfl

/-- Whether both sets have the same members, in whatever order. -/
def same (s t : OrdSet α) : Bool := s.size == t.size && s.toList.all t.contains

end OrdSet

end DotModel
