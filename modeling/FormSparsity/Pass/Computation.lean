import FormSparsity.Derivative.Selection

/-!
What is computed from an integrand, and which of its derivatives that takes: a functional takes its
value, a vector its derivatives by a variation, a matrix those by a variation and an unknown.

| here | there |
| --- | --- |
| `Computation`, `orders`, `functionLists` | `ComputationType`, `top_level_orders`, `required_func_combinations` |
-/
namespace FormSparsity

/-- The quantities that an integrand contributes to. -/
inductive Computation where
  | matrixAndVector
  | vectorOnly
  | functionalOnly
  /-- The value of a functional and its gradient by the variations. -/
  | functionalAndGradient
deriving DecidableEq, Repr, Inhabited

namespace Computation

/-- The word for a computation. -/
def text : Computation → String
  | matrixAndVector => "MatrixAndVector"
  | vectorOnly => "VectorOnly"
  | functionalOnly => "FunctionalOnly"
  | functionalAndGradient => "FunctionalAndGradient"

/-- The orders of the derivatives taken of a whole integrand. -/
def orders : Computation → List Nat
  | matrixAndVector => [1, 2]
  | vectorOnly => [1]
  | functionalOnly => [0]
  | functionalAndGradient => [0, 1]

/-- The larger of two functions last. -/
def functionPair (f g : FunctionId) : List FunctionId := if f ≤ g then [f, g] else [g, f]

/-- The functions that a whole integrand is differentiated by in a derivative of some order. -/
def functionListsOfOrder (variations unknowns : List FunctionId) : Nat → List (List FunctionId)
  | 0 => [[]]
  | 1 => variations.map fun v => [v]
  | _ => variations.flatMap fun v => unknowns.map fun u => functionPair v u

/-- The functions that a whole integrand is differentiated by, in increasing order. -/
def functionLists (c : Computation) (variations unknowns : List FunctionId) :
    SortedSet (List FunctionId) :=
  SortedSet.ofValues (c.orders.flatMap (functionListsOfOrder variations unknowns))

end Computation

end FormSparsity
