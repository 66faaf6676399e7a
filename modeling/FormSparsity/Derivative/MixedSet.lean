import FormSparsity.Derivative.Mixed
import FormSparsity.Sorted.Set

/-!
Sets of mixed derivatives, with their product and quotient. A product has one factor from each set
(`mem_mul`); a quotient has what remains of a dividend when some divisor is taken out of it
(`mem_div`).

| here | there |
| --- | --- |
| `MixedSet`, `1` | `DerivSet`, `DerivSet::unit` |
| `*`, `/`, `divideByAtoms` | `DerivSet::product`, `divide`, `divide_by_derivs` |
| `∪`, `∩`, `\` | `DerivSet::union` and `merge`, `intersection`, `difference` |
-/
namespace FormSparsity

/-- A finite set of mixed derivatives, listed by number of atoms and then by atoms. -/
abbrev MixedSet := SortedSet Mixed

namespace MixedSet

/-- The set of the undifferentiated value alone. -/
instance : One MixedSet := ⟨{1}⟩

theorem mem_one {m : Mixed} : m ∈ (1 : MixedSet) ↔ m = 1 := by
  show m ∈ ({1} : MixedSet) ↔ _
  rw [Std.ExtTreeSet.singleton_eq_insert, Std.ExtTreeSet.mem_insert,
    Std.LawfulEqOrd.compare_eq_iff_eq]
  simp [eq_comm]

/-- The products of a member of each set. -/
instance : Mul MixedSet :=
  ⟨fun s t => SortedSet.bind s fun m => t.toList.map (m * ·)⟩

theorem mem_mul {s t : MixedSet} {p : Mixed} : p ∈ s * t ↔ ∃ m ∈ s, ∃ n ∈ t, m * n = p := by
  show p ∈ SortedSet.bind s _ ↔ _
  simp

/-- The quotients of a member of the first set by a member of the second. -/
instance : Div MixedSet :=
  ⟨fun s t => SortedSet.bind s fun m => t.toList.filterMap m.divide?⟩

theorem mem_div {s t : MixedSet} {r : Mixed} :
    r ∈ s / t ↔ ∃ m ∈ s, ∃ n ∈ t, m.divide? n = some r := by
  show r ∈ SortedSet.bind s _ ↔ _
  simp

/-- The members with one copy of some listed atom taken out. -/
def divideByAtoms (s : MixedSet) (atoms : List Atom) : MixedSet :=
  SortedSet.bind s fun m => atoms.filterMap m.erase?

/-- The members between braces, as in `{{}, {x0, f5}}`. -/
def text (s : MixedSet) : String :=
  "\x7b" ++ ", ".intercalate (s.toList.map Mixed.text) ++ "\x7d"

end MixedSet

end FormSparsity
