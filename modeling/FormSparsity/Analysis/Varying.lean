import FormSparsity.Analysis.Nonzero
import FormSparsity.Derivative.Selection

/-!
Varying derivatives: those whose value changes over the domain of integration. The rule for a node
asks for the varying and the nonzero derivatives of its operands, and for the required derivatives
of the node itself where they decide what has to be looked at.

| here | there |
| --- | --- |
| `Node.varying` | `compute_v`, with `diff_compute_v` for spatial derivatives |
-/
namespace FormSparsity

/-- A question about the derivatives of a place. -/
inductive Question where
  | nonzero (place : Place)
  | required (place : Place)
  | varying (place : Place)
deriving DecidableEq, Repr

/-- Whether some factor of a product is among the varying derivatives, listed by order. -/
def hasVaryingFactor (varying : List MixedSet) (factors : List Mixed) : Except Misuse Bool :=
  factors.anyM fun factor =>
    match varying[factor.order]? with
    | some set => return factor ∈ set
    | none => throw (.outOfBounds varying.length factor.order)

open Inquiry in
/-- The derivatives of a node, found from those of its operands, that vary over the domain. A
required derivative is found if it varies; whether others are depends on the kind of node. -/
def Node.varying (g : Graph) (n : NodeId) (order : Nat) :
    Node → Inquiry Question (Except Misuse MixedSet)
  | constant _ => pure (.ok ∅)
  | coordinate _ => pure (.ok (if order = 0 then 1 else ∅))
  | symbolic _ _ _ point =>
    pure <| .ok <|
      match order, point with
      | 0, .discrete _ => 1
      | _, _ => ∅
  | discrete .. => .ok <$> answer (.nonzero ⟨n, order⟩)
  | derivative direction arg => do
    if derivativeMaxOrder < order then
      return .ok ∅
    let first ← answer (.nonzero ⟨arg, 1⟩)
    let next ← answer (.nonzero ⟨arg, order + 1⟩)
    let same ← answer (.varying ⟨arg, order⟩)
    let nextVarying ← answer (.varying ⟨arg, order + 1⟩)
    return .ok (next / g.linearizedAtoms first (.axis direction) ∪
      nextVarying / .ofDirection direction ∪ .shift (.axis direction) same)
  | sum terms => .ok <$> union (fun term => answer (.varying ⟨term, order⟩)) terms
  | neg arg => .ok <$> answer (.varying ⟨arg, order⟩)
  | product a b =>
    .ok <$> union
      (fun k => do
        let leftVarying ← answer (.varying ⟨a, k⟩)
        let left ← answer (.nonzero ⟨a, k⟩)
        let rightVarying ← answer (.varying ⟨b, order - k⟩)
        let right ← answer (.nonzero ⟨b, order - k⟩)
        return leftVarying * right ∪ left * rightVarying)
      (List.range (order + 1))
  | nonlinear _ arg => do
    let value ← answer (.varying ⟨arg, 0⟩)
    if order = 0 then
      return .ok (if 1 ∈ value then 1 else ∅)
    let required ← answer (.required ⟨n, order⟩)
    if 1 ∈ value then
      return .ok required
    let nonzeros ← gather (fun k => answer (.nonzero ⟨arg, k⟩)) (List.range (maxOrder + 1))
    let varyings ← gather (fun k => answer (.varying ⟨arg, k⟩)) (List.range (maxOrder + 1))
    return required.selectM fun m =>
      hasVaryingFactor varyings (factorizations nonzeros m).flatten

end FormSparsity
