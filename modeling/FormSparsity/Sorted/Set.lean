import Std.Data.ExtTreeSet

/-!
Finite sets of an ordered type, listed in increasing order. Two sets are equal exactly if they have
the same members. The operations that the container library lacks are built from a list of values,
and each is described by its members: `mem_ofValues`, `mem_bind`, `mem_image`, `mem_select`,
`mem_unions`.

| here | there |
| --- | --- |
| `SortedSet` | the ordered sets of `DerivSet`, of samples and of functions |
| `isSubset`, `isDisjoint`, `select` | `DerivSet::is_subset`, `is_disjoint`, `filter` |
-/
namespace FormSparsity

/-- A finite set of values of an ordered type. -/
abbrev SortedSet (α : Type) [Ord α] := Std.ExtTreeSet α

namespace SortedSet

variable {α β : Type} [Ord α] [Std.TransOrd α] [Std.LawfulEqOrd α]
variable [Ord β] [Std.TransOrd β] [Std.LawfulEqOrd β]

/-- The set of the values of a list, in which order and repetitions do not count. -/
def ofValues (l : List α) : SortedSet α := l.foldl (fun s a => s.insert a) ∅

theorem mem_foldl_insert {l : List α} {s : SortedSet α} {a : α} :
    a ∈ l.foldl (fun s a => s.insert a) s ↔ a ∈ s ∨ a ∈ l := by
  induction l generalizing s with
  | nil => simp
  | cons b l ih =>
    rw [List.foldl_cons, ih, Std.ExtTreeSet.mem_insert, Std.LawfulEqOrd.compare_eq_iff_eq,
      List.mem_cons]
    grind

@[simp] theorem mem_ofValues {l : List α} {a : α} : a ∈ ofValues l ↔ a ∈ l := by
  simp [ofValues, mem_foldl_insert]

/-- The values that a function lists for some member. -/
def bind (s : SortedSet α) (f : α → List β) : SortedSet β := ofValues (s.toList.flatMap f)

@[simp] theorem mem_bind {s : SortedSet α} {f : α → List β} {b : β} :
    b ∈ bind s f ↔ ∃ a ∈ s, b ∈ f a := by
  simp [bind]

/-- The images of the members. -/
def image (f : α → β) (s : SortedSet α) : SortedSet β := ofValues (s.toList.map f)

@[simp] theorem mem_image {f : α → β} {s : SortedSet α} {b : β} :
    b ∈ image f s ↔ ∃ a ∈ s, f a = b := by
  simp [image]

/-- The members that pass a test. -/
def select (p : α → Bool) (s : SortedSet α) : SortedSet α := s.filter p

@[simp] theorem mem_select {p : α → Bool} {s : SortedSet α} {a : α} :
    a ∈ select p s ↔ a ∈ s ∧ p a = true := by
  simp only [select, Std.ExtTreeSet.mem_filter]
  constructor
  · rintro ⟨h, hp⟩
    exact ⟨h, by rwa [Std.ExtTreeSet.get_eq] at hp⟩
  · rintro ⟨h, hp⟩
    exact ⟨h, by rwa [Std.ExtTreeSet.get_eq]⟩

/-- The members of any of several sets. -/
def unions (sets : List (SortedSet α)) : SortedSet α := sets.foldl (· ∪ ·) ∅

omit [Std.LawfulEqOrd α] in
@[simp] theorem mem_unions {sets : List (SortedSet α)} {a : α} :
    a ∈ unions sets ↔ ∃ s ∈ sets, a ∈ s := by
  suffices h : ∀ t : SortedSet α, a ∈ sets.foldl (· ∪ ·) t ↔ a ∈ t ∨ ∃ s ∈ sets, a ∈ s by
    simpa [unions] using h ∅
  induction sets with
  | nil => simp
  | cons s sets ih =>
    intro t
    rw [List.foldl_cons, ih, Std.ExtTreeSet.mem_union_iff]
    grind

/-- Whether every member of one set is a member of another. -/
def isSubset (s t : SortedSet α) : Bool := s.toList.all (· ∈ t)

omit [Std.LawfulEqOrd α] in
@[simp] theorem isSubset_iff {s t : SortedSet α} : isSubset s t = true ↔ ∀ a ∈ s.toList, a ∈ t := by
  simp [isSubset]

/-- Whether no value is a member of both sets. -/
def isDisjoint (s t : SortedSet α) : Bool := (s ∩ t).isEmpty

end SortedSet

end FormSparsity
