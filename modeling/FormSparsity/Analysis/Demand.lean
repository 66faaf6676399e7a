import FormSparsity.Analysis.Nonzero

/-!
Demand: the derivatives that are asked of a node. Computing a derivative of a node takes derivatives
of its operands; for every kind of node there is a rule that finds which ones.

| here | there |
| --- | --- |
| `Demand` | the sets of a call of `determine_r`, one for each order |
| `Demand.without`, `merge` | the differences and unions in `MemoTable::unpropagated` and `record_propagated` |
| `Node.demand` | `determine_children_r`, with `diff_determine_r` for spatial derivatives; the requests for samples are `Session.requestSamples` |
-/
namespace FormSparsity

/-- Derivatives asked for, as one set for every order from zero on. -/
abbrev Demand := List MixedSet

namespace Demand

/-- The demand for `length` orders that is made up of sets of derivatives of the given orders. -/
def collect (length : Nat) (parts : List (Nat × MixedSet)) : Demand :=
  (List.range length).map fun order =>
    SortedSet.unions (parts.filterMap fun part => if part.1 = order then some part.2 else none)

/-- What is asked for by one demand and not by another. -/
def without : Demand → Demand → Demand
  | [], _ => []
  | demand, [] => demand
  | a :: demand, b :: other => (a \ b) :: without demand other

/-- What is asked for by any of two demands. -/
def merge : Demand → Demand → Demand
  | [], other => other
  | demand, [] => demand
  | a :: demand, b :: other => (a ∪ b) :: merge demand other

/-- Whether some derivative is asked for. -/
def isNonempty (demand : Demand) : Bool := demand.any (!·.isEmpty)

end Demand

open Inquiry in
/-- What a node asks of its operands in order to answer a demand. `input` is all that is asked of
the node and `nonzero` what of it is nonzero. -/
def Node.demand (g : Graph) (input nonzero : Demand) :
    Node → Inquiry Place (Except Misuse (List (NodeId × Demand)))
  | constant _ | coordinate _ | symbolic .. | discrete .. => pure (.ok [])
  | derivative direction arg => do
    let first ← answer ⟨arg, 1⟩
    let chain := g.chainAtoms first direction
    let parts ← gather
      (fun (required, order) => do
        let same ← answer ⟨arg, order⟩
        let next ← answer ⟨arg, order + 1⟩
        return [(order + 1, chain * required ∩ next),
          (order, .shift (-.axis direction) required ∩ same)])
      (input.take (derivativeMaxOrder + 1)).zipIdx
    return .ok [(arg, .collect (input.length + 1)
      ((0, 1) :: (1, .ofDirection direction) :: parts.flatten))]
  | sum terms => pure (.ok (terms.map (·, nonzero)))
  | neg arg => pure (.ok [(arg, nonzero)])
  | product a b => do
    let splits := nonzero.zipIdx.flatMap fun (required, order) =>
      if required.isEmpty then [] else (List.range (order + 1)).map (required, ·, order)
    let parts ← gather
      (fun (required, k, order) => do
        let left ← answer ⟨a, k⟩
        let right ← answer ⟨b, order - k⟩
        return ((k, required / right ∩ left), (order - k, required / left ∩ right)))
      splits
    return .ok [(a, .collect nonzero.length (parts.map (·.1))),
      (b, .collect nonzero.length (parts.map (·.2)))]
  | nonlinear _ arg => do
    let length := max nonzero.length 1
    if !nonzero.isNonempty then
      return .ok [(arg, .collect length [])]
    let nonzeros ← gather (fun k => answer ⟨arg, k⟩) (List.range (maxOrder + 1))
    let factors := (nonzero.flatMap (·.toList)).flatMap fun m => (factorizations nonzeros m).flatten
    return match factors.find? (length ≤ ·.order) with
      | some factor => .error (.outOfBounds length factor.order)
      | none => .ok [(arg, .collect length ((0, 1) :: factors.map fun m => (m.order, {m})))]

end FormSparsity
