import FormSparsity.Sorted.Key

/-!
Domains of integration: a region of the mesh together with the quadrature that integrates over it.
Domains are ordered by region, regions by name and then by the dimension of their cells.

| here | there |
| --- | --- |
| `Region`, `Quadrature`, `QuadratureFamily` | `Region`, `QuadratureRule`, `QuadratureFamily` |
| `Domain` | `RegionQuadCombo` |
-/
namespace FormSparsity

/-- A named part of the mesh, such as its interior or one of its boundaries. -/
structure Region where
  name : String
  /-- The dimension of the cells that make up the region. -/
  cellDimension : Nat
deriving DecidableEq, Repr, Inhabited

namespace Region

instance : Ord Region := ⟨compareLex (compareOn name) (compareOn cellDimension)⟩

instance : Std.TransOrd Region :=
  inferInstanceAs (Std.TransCmp (compareLex (compareOn name) (compareOn cellDimension)))

instance : Std.LawfulEqOrd Region :=
  Sorted.lawfulEqCmp_compareLex fun r s hn hd => by
    have hn : r.name = s.name := Std.LawfulEqOrd.eq_of_compare hn
    have hd : r.cellDimension = s.cellDimension := Std.LawfulEqOrd.eq_of_compare hd
    cases r; cases s; simp_all

/-- The name alone. -/
def text (r : Region) : String := r.name

end Region

/-- The families of quadrature rules. -/
inductive QuadratureFamily where
  | gauss
  | gaussLobatto
deriving DecidableEq, Repr, Inhabited

namespace QuadratureFamily

/-- The place of the family in the order of families. -/
def rank : QuadratureFamily → Nat
  | gauss => 0
  | gaussLobatto => 1

/-- The name of the family. -/
def text : QuadratureFamily → String
  | gauss => "Gauss"
  | gaussLobatto => "GaussLobatto"

end QuadratureFamily

/-- A rule that integrates polynomials up to some order exactly. -/
structure Quadrature where
  family : QuadratureFamily
  order : Nat
deriving DecidableEq, Repr, Inhabited

namespace Quadrature

/-- Rules are ordered by family and then by order. -/
def key (q : Quadrature) : List Nat := [q.family.rank, q.order]

theorem key_injective (p q : Quadrature) (h : p.key = q.key) : p = q := by
  obtain ⟨f, n⟩ := p
  obtain ⟨g, k⟩ := q
  cases f <;> cases g <;> simp_all [key, QuadratureFamily.rank]

instance : Ord Quadrature := ⟨compareOn key⟩

instance : Std.TransOrd Quadrature := inferInstanceAs (Std.TransCmp (compareOn key))

instance : Std.LawfulEqOrd Quadrature := Sorted.lawfulEqCmp_of_key key key_injective

/-- Family and order, as in `Gauss(2)`. -/
def text (q : Quadrature) : String := s!"{q.family.text}({q.order})"

end Quadrature

/-- A region with the quadrature rule that integrates over it. -/
structure Domain where
  region : Region
  quadrature : Quadrature
deriving DecidableEq, Repr, Inhabited

namespace Domain

instance : Ord Domain := ⟨compareLex (compareOn region) (compareOn quadrature)⟩

instance : Std.TransOrd Domain :=
  inferInstanceAs (Std.TransCmp (compareLex (compareOn region) (compareOn quadrature)))

instance : Std.LawfulEqOrd Domain :=
  Sorted.lawfulEqCmp_compareLex fun d e hr hq => by
    have hr : d.region = e.region := Std.LawfulEqOrd.eq_of_compare hr
    have hq : d.quadrature = e.quadrature := Std.LawfulEqOrd.eq_of_compare hq
    cases d; cases e; simp_all

/-- Region and rule, as in `interior/Gauss(2)`. -/
def text (d : Domain) : String := s!"{d.region.text}/{d.quadrature.text}"

end Domain

end FormSparsity
