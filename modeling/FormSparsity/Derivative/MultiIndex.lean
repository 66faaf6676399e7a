import FormSparsity.Sorted.Key

/-!
Multi-indices of spatial derivatives. The entries are integers, so that an index can be shifted in
both directions; an index with a negative entry describes no derivative (`isValid`).

Entries stand for signed numbers of 32 bits. That sums of them may overflow is set aside: it takes an
index at the bounds to begin with, or as many spatial derivatives inside each other.

| here | there |
| --- | --- |
| `MultiIndex`, `maxDimension` | `MultiIndex`, `MAX_SPATIAL_DIM` |
| `entries`, `order`, `isValid`, `isZero` | `MultiIndex::entries`, `order`, `is_valid`, `is_zero` |
| `axis` | the result of `MultiIndex::unit`; with its assertion, `MultiIndex.unit` |
| `direction?` | `MultiIndex::first_order_direction` |
-/
namespace FormSparsity

/-- The largest number of space directions. -/
def maxDimension : Nat := 3

/-- The orders of differentiation in the three space directions, taken as unbounded integers. -/
structure MultiIndex where
  x : Int
  y : Int
  z : Int
deriving DecidableEq, Repr, Inhabited

namespace MultiIndex

/-- The three entries in the order of the directions. -/
def entries (α : MultiIndex) : List Int := [α.x, α.y, α.z]

theorem entries_injective (α β : MultiIndex) (h : α.entries = β.entries) : α = β := by
  cases α; cases β; simp_all [entries]

/-- Multi-indices are ordered by their entries, the first direction first. -/
instance : Ord MultiIndex := ⟨compareOn entries⟩

instance : Std.TransOrd MultiIndex := inferInstanceAs (Std.TransCmp (compareOn entries))

instance : Std.LawfulEqOrd MultiIndex := Sorted.lawfulEqCmp_of_key entries entries_injective

instance : Zero MultiIndex := ⟨⟨0, 0, 0⟩⟩

instance : Add MultiIndex := ⟨fun α β => ⟨α.x + β.x, α.y + β.y, α.z + β.z⟩⟩

instance : Neg MultiIndex := ⟨fun α => ⟨-α.x, -α.y, -α.z⟩⟩

instance : Sub MultiIndex := ⟨fun α β => α + -β⟩

/-- The total order of differentiation. -/
def order (α : MultiIndex) : Int := α.x + α.y + α.z

/-- Whether the index describes a derivative: no entry is negative. -/
def isValid (α : MultiIndex) : Bool := α.entries.all (0 ≤ ·)

/-- Whether the index describes no differentiation at all. -/
def isZero (α : MultiIndex) : Bool := α.entries.all (· = 0)

/-- The first-order index of a direction; zero for a direction that space does not have. Directions of
spatial derivatives are checked when their nodes are built, so that the rules for them take it as it is. -/
def axis (direction : Nat) : MultiIndex :=
  ⟨if direction = 0 then 1 else 0, if direction = 1 then 1 else 0, if direction = 2 then 1 else 0⟩

/-- The direction of a first-order index. -/
def direction? (α : MultiIndex) : Option Nat :=
  if α.isValid && α.order = 1 then α.entries.findIdx? (· = 1) else none

/-- The entries in parentheses, as in `(1,0,2)`. -/
def text (α : MultiIndex) : String := s!"({α.x},{α.y},{α.z})"

end MultiIndex

end FormSparsity
