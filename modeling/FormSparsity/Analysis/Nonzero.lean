import FormSparsity.Analysis.Factorization
import FormSparsity.Analysis.Inquiry
import FormSparsity.Derivative.Shift
import FormSparsity.Integrand.Graph
import FormSparsity.Recursion

/-!
Nonzero derivatives. For every kind of node there is a rule that finds the derivatives of some order
which are not identically zero from those of the operands. `Graph.nonzero` applies the rules from
the node downwards.

| here | there |
| --- | --- |
| `derivativeMaxOrder` | `DIFF_OP_MAX_ORDER` |
| `MixedSet.ofCoordinates` | `coordinate_multisets` |
| `linearizedAtoms`, `chainAtoms` | `zero_eval_shift` (Zx), `chain_atoms` |
| `chainProducts` | `chain_products` |
| `Node.nonzero` | `compute_w`, with `diff_compute_w` for spatial derivatives |
| `Graph.nonzero` | what `find_w` returns, as a function of the node alone |
-/
namespace FormSparsity

/-- The highest order of derivative that is tracked of a spatial derivative. -/
def derivativeMaxOrder : Nat := 2

/-- A node and an order of its derivatives. -/
structure Place where
  node : NodeId
  order : Nat
deriving DecidableEq, Repr, Inhabited

/-- All multisets of as many coordinates as `order` says, out of the given directions. -/
def coordinateLists (directions : List Nat) : Nat → List (List Nat)
  | 0 => [[]]
  | order + 1 => directions.flatMap fun d => (coordinateLists directions order).map (d :: ·)

/-- The derivatives of some order by coordinates alone. -/
def MixedSet.ofCoordinates (dimension order : Nat) : MixedSet :=
  SortedSet.ofValues <| (coordinateLists (List.range dimension) order).map fun directions =>
    Mixed.ofList (directions.map Atom.coordinate)

namespace Graph

/-- The first-order derivatives by a function that is evaluated at a discrete function and can be
differentiated once more along `α`. -/
def linearizedAtoms (g : Graph) (first : MixedSet) (α : MultiIndex) : MixedSet :=
  SortedSet.select
    (fun m =>
      match m.atoms with
      | [.functional f p] =>
        (p.multiIndex?.map fun β => (β + α).isValid).getD false && g.isLinearized f
      | _ => false)
    first

/-- The atoms that the chain rule brings in when an expression with first-order derivatives `first`
is differentiated in a direction: the coordinate itself, and the functions with a spatial
derivative where they are evaluated. -/
def chainAtoms (g : Graph) (first : MixedSet) (direction : Nat) : MixedSet :=
  g.linearizedAtoms first (.axis direction) ∪ .ofDirection direction

end Graph

namespace Inquiry

/-- The products of nonzero derivatives of an expression whose orders are at least one and add up
to `order`. -/
def chainProducts (arg : NodeId) (order : Nat) : Inquiry Place MixedSet :=
  recurse (fun _ => pure ∅)
    (fun order below =>
      if order = 0 then
        pure 1
      else
        union
          (fun k => do
            let first ← answer ⟨arg, k + 1⟩
            if first.isEmpty then
              return ∅
            else
              return first * (← below (order - (k + 1))))
          (List.range order))
    order

end Inquiry

open Inquiry in
/-- The nonzero derivatives of a node, found from those of its operands. -/
def Node.nonzero (g : Graph) (order : Nat) : Node → Inquiry Place MixedSet
  | constant c => pure (if order = 0 && !c.isZero then 1 else ∅)
  | coordinate direction =>
    pure <|
      match order with
      | 0 => 1
      | 1 => .ofDirection direction
      | _ => ∅
  | symbolic _ f _ point =>
    pure <|
      match order, point with
      | 0, .discrete _ => 1
      | 1, _ => {.ofAtom (.functional f .value)}
      | _, _ => ∅
  | discrete .. => pure (.ofCoordinates g.dimension order)
  | derivative direction arg => do
    if derivativeMaxOrder < order then
      return ∅
    let first ← answer ⟨arg, 1⟩
    let same ← answer ⟨arg, order⟩
    let next ← answer ⟨arg, order + 1⟩
    return next / g.chainAtoms first direction ∪ .shift (.axis direction) same
  | sum terms => union (fun term => answer ⟨term, order⟩) terms
  | neg arg => answer ⟨arg, order⟩
  | product a b =>
    union
      (fun k => do
        let left ← answer ⟨a, k⟩
        let right ← answer ⟨b, order - k⟩
        return left * right)
      (List.range (order + 1))
  | nonlinear _ arg => chainProducts arg order

/-- The derivatives of a node that are not identically zero, by order. None is tracked above
`maxOrder`. -/
def Graph.nonzero (g : Graph) : NodeId → Nat → MixedSet :=
  recurse (fun _ _ => ∅) fun n operand order =>
    if maxOrder < order then
      ∅
    else
      match g.node? n with
      | some node =>
        (node.nonzero g order).run (m := Id) fun place => operand place.node place.order
      | none => ∅

end FormSparsity
