import FormSparsity.Derivative.MixedSet

/-!
Shifts of mixed derivatives. Differentiating an expression in space raises the multi-index of one
functional atom at a time, which `shift` does for every choice of the atom.

| here | there |
| --- | --- |
| `MixedSet.shift` | `shift_multi_indices` (Tx) |
| `MixedSet.ofDirection` | `spatial_coordinate_set` (Xx) |
-/
namespace FormSparsity

/-- The atom with its multi-index shifted, if it has one and the result describes a derivative. -/
def Atom.shift? (β : MultiIndex) (a : Atom) : Option Atom := do
  let α ← a.multiIndex.toOption
  if (α + β).isValid then (a.withMultiIndex (α + β)).toOption else none

/-- The mixed derivatives with one copy of one atom shifted. Equal atoms stand side by side and are
shifted once. -/
def Mixed.shifts (β : MultiIndex) (m : Mixed) : List Mixed :=
  m.atoms.eraseReps.filterMap fun a => do m.replace? a (← a.shift? β)

/-- The members with one copy of one atom shifted, for every choice of member and atom. Atoms
without multi-index stay as they are. -/
def MixedSet.shift (β : MultiIndex) (s : MixedSet) : MixedSet := SortedSet.bind s (Mixed.shifts β)

theorem MixedSet.mem_shift {β : MultiIndex} {s : MixedSet} {n : Mixed} :
    n ∈ shift β s ↔ ∃ m ∈ s, n ∈ m.shifts β :=
  SortedSet.mem_bind

/-- The set of the coordinate of a direction alone. -/
def MixedSet.ofDirection (direction : Nat) : MixedSet := {.ofAtom (.coordinate direction)}

end FormSparsity
