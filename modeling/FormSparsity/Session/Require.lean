import FormSparsity.Session.Find

/-!
Determining the required derivatives. Demand on a node is cut down to its nonzero derivatives,
passed on to the operands, and then added to the required sets of the node. Demand that a node has
passed on before is not passed on again, so that a shared node is visited once for each new demand.

| here | there |
| --- | --- |
| `accept` | the intersection with W and the check of `grows_required` in `determine_r` |
| `requestSample`, `requestSamples` | the last part of `diff_determine_r` |
| `require` | `determine_r` |
-/
namespace FormSparsity.Session

variable (g : Graph) (p : Pass)

/-- The nonzero part of the demand for an order. Once the required derivatives of the place were
told apart, demand for more of them is an error. -/
def accept (n : NodeId) (order : Nat) (demanded : MixedSet) : AnalysisM MixedSet := do
  let addition := demanded ∩ (← findNonzero g p n order)
  let s ← get
  if s.isClassified p.id n order && !SortedSet.isSubset addition (s.requiredSet p.id n order) then
    throw (.error (.grewAfterClassification (← checked (g.describe n)) p.text order))
  return addition

/-- Asks for a derivative of the discrete function at which the function of a first-order
derivative of the operand of `n` is evaluated. -/
def requestSample (n : NodeId) (direction : Nat) (m : Mixed) : AnalysisM Unit := do
  match m.atoms with
  | [.functional f operator] =>
    match ← checked (g.discreteEvalPoint f) with
    | none => return
    | some discrete =>
      match operator.multiIndex? with
      | none =>
        throw (.error (.unsupportedOperator (← checked (g.describe n))
          (Atom.functional f operator).text))
      | some α =>
        let sample := α + .axis direction
        report p .high .trace fun _ => do
          return s!"Requesting D{sample.text} of discrete function {discrete} in {p.text}"
        modify fun s => s.addSample discrete sample
  | _ => return

/-- Asks for the derivatives of discrete functions that the derivative in a direction takes. -/
def requestSamples (n : NodeId) (direction : Nat) (arg : NodeId) : AnalysisM Unit := do
  let first ← findRequired g p arg 1
  first.toList.forM (requestSample g p n direction)

/-- Determines the required derivatives that follow from a demand on a node, at the node and at all
nodes below it. -/
def require : NodeId → Demand → AnalysisM Unit :=
  recurse (fun n _ => unorderedNode g n) fun n operand demand => do
    match (← get).unpropagated ⟨p.id, n⟩ demand with
    | none => return
    | some fresh =>
      report p .medium .debug fun _ => do
        let expr ← checked (g.describe n)
        let input := ", ".intercalate (fresh.map MixedSet.text)
        return s!"Determining required set of {expr} in {p.text} from input [{input}]"
      let addition ← fresh.zipIdx.mapM fun (demanded, order) => accept g p n order demanded
      let node ← checked (g.node n)
      let parts ← (node.demand g fresh addition).run fun place =>
        findNonzero g p place.node place.order
      (← checked parts).forM fun (child, part) => operand child part
      if let .derivative direction arg := node then
        requestSamples g p n direction arg
      addition.zipIdx.forM fun (set, order) => modify fun s => s.addRequired p.id n order set
      modify fun s => s.recordPropagated ⟨p.id, n⟩ fresh
      modify fun s => { s with ready := s.ready.insert ⟨p.id, n⟩ }

end FormSparsity.Session
