import FormSparsity.Derivative.MixedSet

/-!
Factorizations of a mixed derivative into nonzero derivatives of an inner expression. By the chain
rule these are the terms of the derivative of a function of that expression.

| here | there |
| --- | --- |
| `maxOrder` | `MAX_ORDER` |
| `factorizations` | `decompositions` |
-/
namespace FormSparsity

/-- The highest order of derivative that is tracked. -/
def maxOrder : Nat := 3

theorem Mixed.order_divide? {m n r : Mixed} (h : m.divide? n = some r) :
    m.order = n.order + r.order := by
  simpa [Mixed.order] using (Mixed.perm_of_divide? h).length_eq

/-- A quotient by a divisor that has some atom is of lower order. -/
theorem Mixed.order_lt_of_divide? {m n r : Mixed} {a : Atom} (ha : a ∈ n)
    (h : m.divide? n = some r) : r.order < m.order := by
  have : 0 < n.order := List.length_pos_of_mem ha
  have := order_divide? h
  omega

/-- The ways to write a mixed derivative as a product of nonzero derivatives of order one and above,
where `nonzero` lists the sets of nonzero derivatives by order. Every factor has the first atom that
the factors before it leave over, so that not every order of the factors is tried. -/
def factorizations (nonzero : List MixedSet) (m : Mixed) : List (List Mixed) :=
  match m.atoms with
  | [] => [[]]
  | first :: _ =>
    ((nonzero.take (min m.order maxOrder + 1)).drop 1).flatMap fun candidates =>
      candidates.toList.flatMap fun factor =>
        if _ : first ∈ factor then
          match _ : m.divide? factor with
          | some rest => (factorizations nonzero rest).map (factor :: ·)
          | none => []
        else []
termination_by m.order
decreasing_by exact Mixed.order_lt_of_divide? ‹_› ‹_›

end FormSparsity
