import FormSparsity.Integrand.Text
import FormSparsity.Analysis.Varying
import FormSparsity.Session.Monad

/-!
Finding sets of derivatives. Nonzero, constant and varying sets are computed when they are first
asked for and kept; required sets are there once demand for the node has been determined.

| here | there |
| --- | --- |
| `remember` | `find_memoized` |
| `findNonzero`, `findRequired`, `findVarying`, `findConstant` | `find_w`, `find_r`, `find_v`, `find_c` |
| `allOrders` | `find_w_all`, `find_r_all`, `find_v_all`, `find_c_all` |
| `classify`, `findEvaluator` | `sparsity_superset`, `setup_eval` |
-/
namespace FormSparsity.Session

variable (g : Graph) (p : Pass)

/-- The set kept under a kind and place, or else the one that is computed and kept now. None has
members above `maxOrder`. -/
def remember (kind : SetKind) (n : NodeId) (order : Nat) (compute : AnalysisM MixedSet) :
    AnalysisM MixedSet := do
  let key : SetKey := ⟨kind, p.id, n, order⟩
  match (← get).sets[key]? with
  | some set => return set
  | none =>
    let set ← if maxOrder < order then pure ∅ else compute
    report p .high .trace fun _ => do
      let expr ← checked (g.describe n)
      return s!"{kind.text}[{order}] of {expr} in {p.text}: {set.text}"
    modify fun s => { s with sets := s.sets.insert key set }
    return set

/-- The failure of a computation that came upon a node which is no smaller than its parent. -/
def unorderedNode {α : Type} (n : NodeId) : AnalysisM α := throw (.misuse (.outOfBounds g.size n))

/-- The derivatives of a node that are not identically zero. -/
def findNonzero : NodeId → Nat → AnalysisM MixedSet :=
  recurse (fun n _ => unorderedNode g n) fun n operand order =>
    remember g p .nonzero n order do
      let node ← checked (g.node n)
      (node.nonzero g order).run fun place => operand place.node place.order

/-- The derivatives of a node that are required, once that has been determined. -/
def findRequired (n : NodeId) (order : Nat) : AnalysisM MixedSet := do
  let s ← get
  if ⟨p.id, n⟩ ∈ s.ready then
    return s.requiredSet p.id n order
  else
    throw (.error (.notReady (← checked (g.describe n)) p.text))

/-- The required derivatives of a node that vary over the domain. -/
def findVarying : NodeId → Nat → AnalysisM MixedSet :=
  recurse (fun n _ => unorderedNode g n) fun n operand order =>
    remember g p .varying n order do
      let required ← findRequired g p n order
      let node ← checked (g.node n)
      let varying ← (node.varying g n order).run fun
        | .nonzero place => findNonzero g p place.node place.order
        | .required place => findRequired g p place.node place.order
        | .varying place => operand place.node place.order
      return (← checked varying) ∩ required

/-- The required derivatives of a node that are constant over the domain. -/
def findConstant (n : NodeId) (order : Nat) : AnalysisM MixedSet :=
  remember g p .constant n order do
    let required ← findRequired g p n order
    let varying ← findVarying g p n order
    return required \ varying

/-- The sets of all orders from zero to `maxOrder`. -/
def allOrders (find : Nat → AnalysisM MixedSet) : AnalysisM (List MixedSet) :=
  (List.range (maxOrder + 1)).mapM find

/-- The required derivatives of a node with their variability. -/
def classify (n : NodeId) : AnalysisM Classification :=
  (List.range (maxOrder + 1)).foldlM
    (fun c order => do
      let constant ← findConstant g p n order
      let varying ← findVarying g p n order
      return (c.mark constant .constant).mark varying .varying)
    ∅

/-- The evaluators of a node and all nodes below it. -/
def findEvaluator : NodeId → AnalysisM Evaluator :=
  recurse (fun n => unorderedNode g n) fun n operand => do
    match (← get).evaluators[(⟨p.id, n⟩ : NodeKey)]? with
    | some evaluator => return evaluator
    | none =>
      let node ← checked (g.node n)
      let operands ← node.children.mapM operand
      let classification ← classify g p n
      let evaluator :=
        if classification.isEmpty then .null else .active n classification operands
      modify fun s => { s with evaluators := s.evaluators.insert ⟨p.id, n⟩ evaluator }
      return evaluator

end FormSparsity.Session
