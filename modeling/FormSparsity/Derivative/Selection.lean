import FormSparsity.Derivative.MixedSet
import FormSparsity.Misuse

/-!
The selection of the derivatives that a consumer asks for: by the functions that are differentiated
by, or, where coordinates take part, by the multi-index that the coordinates make up.

| here | there |
| --- | --- |
| `MultiIndex.unit` | `MultiIndex::unit` |
| `coordinateIndex`, `isSelected` | `MultipleDeriv::spatial_multi_index`, `is_in_required_set` |
-/
namespace FormSparsity

/-- The first-order multi-index of a direction, of which there are three. -/
def MultiIndex.unit (direction : Nat) : Except Misuse MultiIndex :=
  if direction < maxDimension then .ok (axis direction) else .error (.noSuchAxis direction)

theorem MultiIndex.unit_of_lt {direction : Nat} (h : direction < maxDimension) :
    unit direction = .ok (axis direction) :=
  if_pos h

namespace Mixed

/-- The multi-index that the coordinates among the atoms make up. -/
def coordinateIndex (m : Mixed) : Except Misuse MultiIndex :=
  m.directions.foldlM (fun α d => (α + ·) <$> MultiIndex.unit d) 0

/-- Whether a consumer asks for a derivative. Without coordinates the list of its functions decides,
with coordinates the multi-index that they make up. -/
def isSelected (functionLists : SortedSet (List FunctionId)) (indices : SortedSet MultiIndex)
    (m : Mixed) : Except Misuse Bool := do
  if m.coordinateOrder = 0 then
    return m.functions ∈ functionLists
  else
    return (← m.coordinateIndex) ∈ indices

end Mixed

/-- The members that pass a test which may fail. -/
def MixedSet.selectM (p : Mixed → Except Misuse Bool) (s : MixedSet) : Except Misuse MixedSet := do
  return SortedSet.ofValues (← s.toList.filterM p)

end FormSparsity
